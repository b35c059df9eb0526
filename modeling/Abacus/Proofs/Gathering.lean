-- SUMMARY: Lines gathered into blocks: none is lost, and the blocks run as one text would.
import Abacus.Proofs.Accounts
import Abacus.Repl

/-!
# Gathered lines

An interactive reader cuts its lines into blocks, which it runs, and blank lines, which it
skips. Here the cut is made without running anything (`cut`), and the reader is shown to
ask for the lines and run the blocks in order (`converse`). A line is in one block, or
skipped, or among those left at the end. A block is as short as it can be: every front of
it is incomplete.

Cutting is noticed only where it ends a statement that would have gone on. Where blocks
end with a separator it does not, and the statements come to the same as in one text.
-/

namespace Abacus.Repl

open Build Session

/-! ## Lines -/

/-- The text of lines, each with its line end. -/
def textOf : List String → String
  | [] => ""
  | line :: lines => line ++ "\n" ++ textOf lines

theorem textOf_concat (lines : List String) (line : String) :
    textOf (lines ++ [line]) = textOf lines ++ line ++ "\n" := by
  induction lines with
  | nil => simp [textOf]
  | cons l lines ih => simp only [List.cons_append, textOf, ih, String.append_assoc]

theorem isEmpty_textOf (lines : List String) : (textOf lines).isEmpty = lines.isEmpty := by
  cases lines with
  | nil => rfl
  | cons l lines => simp [textOf, Bool.eq_false_iff, String.isEmpty_iff]

theorem tokens_textOf (lines : List String) :
    tokens (lexemes (textOf lines)) = lines.flatMap fun line => tokens (lexemes line) := by
  induction lines with
  | nil => rfl
  | cons l lines ih => rw [textOf, tokens_append_lineFeed, ih, List.flatMap_cons]

theorem tokens_intercalate (lines : List String) :
    tokens (lexemes ("\n".intercalate lines)) =
      lines.flatMap fun line => tokens (lexemes line) := by
  induction lines with
  | nil => rfl
  | cons l lines ih =>
    cases lines with
    | nil => simp
    | cons m lines =>
      rw [String.intercalate_cons_cons, tokens_append_lineFeed, ih]
      rfl

/-! ## Blank lines -/

theorem scan_of_blank {cs : List Char} (h : ∀ c ∈ cs, Text.isBlank c = true) (pos : Nat) :
    Lexer.scan pos .between cs = [] := by
  induction cs generalizing pos with
  | nil => rfl
  | cons c cs ih =>
    have hc : Text.isBlank c = true := h c List.mem_cons_self
    simp only [Lexer.scan, Lexer.step, Lexer.enter, hc, if_true, List.nil_append]
    exact ih (fun d hd => h d (List.mem_cons_of_mem _ hd)) _

theorem lexemes_of_blank {text : String} (h : Text.isBlankText text = true) : lexemes text = [] :=
  scan_of_blank (List.all_eq_true.mp h) 0

/-- A text that must go on has something on it. -/
theorem not_blank_of_isIncomplete {text : String} (h : Program.isIncomplete .standard text = true) :
    Text.isBlankText text = false := by
  rw [Bool.eq_false_iff]
  intro hblank
  rw [Program.isIncomplete, lexemes_of_blank hblank] at h
  cases h

/-! ## Cutting -/

/-- What becomes of lines. -/
inductive Piece where
  /-- A blank line that is skipped. -/
  | skipped (line : String)
  /-- Lines that are run together. -/
  | block (lines : List String)
deriving DecidableEq, Repr

def Piece.lines : Piece → List String
  | .skipped line => [line]
  | .block lines => lines

/-- Lines cut into pieces, and those left unfinished behind them. -/
structure Cut where
  pieces : List Piece
  rest   : List String
deriving DecidableEq, Repr

def Cut.push (piece : Piece) (c : Cut) : Cut :=
  { c with pieces := piece :: c.pieces }

/-- Cuts lines, of which the first ones have been gathered. -/
def cut (gathered : List String) : List String → Cut
  | [] => ⟨[], gathered⟩
  | line :: lines =>
    if gathered = [] ∧ Text.isBlankText line = true then (cut [] lines).push (.skipped line)
    else if Program.isIncomplete .standard (textOf (gathered ++ [line])) then
      cut (gathered ++ [line]) lines
    else (cut [] lines).push (.block (gathered ++ [line]))

/-- What a line makes of the lines gathered before it. -/
theorem gather_textOf (gathered : List String) (line : String) :
    gather (textOf gathered) line =
      if gathered = [] ∧ Text.isBlankText line = true then .blank
      else if Program.isIncomplete .standard (textOf (gathered ++ [line])) then
        .unfinished (textOf (gathered ++ [line]))
      else .ready (textOf (gathered ++ [line])) := by
  simp only [gather, isEmpty_textOf, textOf_concat, Bool.and_eq_true, List.isEmpty_iff]

/-- No line is lost, repeated or split, and their order is kept. -/
theorem cut_lines (gathered lines : List String) :
    (cut gathered lines).pieces.flatMap Piece.lines ++ (cut gathered lines).rest =
      gathered ++ lines := by
  fun_induction cut gathered lines with
  | case1 gathered => simp
  | case2 gathered line lines hskip ih =>
    obtain ⟨rfl, -⟩ := hskip
    simpa [Cut.push, Piece.lines] using ih
  | case3 gathered line lines hskip hincomplete ih => simpa using ih
  | case4 gathered line lines hskip hcomplete ih => simpa [Cut.push, Piece.lines] using ih

/-- Every front of the lines is incomplete. -/
def Unfinished (lines : List String) : Prop :=
  ∀ front, front <+: lines → front ≠ [] → Program.isIncomplete .standard (textOf front) = true

theorem unfinished_nil : Unfinished [] := by
  intro front hfront hne
  exact absurd (List.prefix_nil.mp hfront) hne

theorem Unfinished.concat {gathered : List String} {line : String} (h : Unfinished gathered)
    (hline : Program.isIncomplete .standard (textOf (gathered ++ [line])) = true) :
    Unfinished (gathered ++ [line]) := by
  intro front hfront hne
  rcases List.prefix_concat_iff.mp hfront with rfl | hfront
  · exact hline
  · exact h front hfront hne

/-- A skipped line is blank. The lines of a block are not incomplete, but all shorter
    fronts of them are. -/
def Piece.Proper : Piece → Prop
  | .skipped line => Text.isBlankText line = true
  | .block lines => lines ≠ [] ∧ Program.isIncomplete .standard (textOf lines) = false ∧
      ∀ front, front <+: lines → front ≠ [] → front ≠ lines →
        Program.isIncomplete .standard (textOf front) = true

theorem Unfinished.proper {gathered : List String} {line : String} (h : Unfinished gathered)
    (hline : Program.isIncomplete .standard (textOf (gathered ++ [line])) = false) :
    (Piece.block (gathered ++ [line])).Proper := by
  refine ⟨by simp, hline, ?_⟩
  intro front hfront hne hshort
  rcases List.prefix_concat_iff.mp hfront with hall | hfront
  · exact absurd hall hshort
  · exact h front hfront hne

structure Cut.Proper (c : Cut) : Prop where
  pieces : ∀ piece ∈ c.pieces, piece.Proper
  rest   : Unfinished c.rest

theorem Cut.Proper.push {c : Cut} {piece : Piece} (hc : c.Proper) (hpiece : piece.Proper) :
    (c.push piece).Proper where
  pieces := List.forall_mem_cons.mpr ⟨hpiece, hc.pieces⟩
  rest := hc.rest

theorem cut_proper {gathered : List String} (lines : List String) (h : Unfinished gathered) :
    (cut gathered lines).Proper := by
  fun_induction cut gathered lines with
  | case1 gathered => exact ⟨by simp, h⟩
  | case2 gathered line lines hskip ih =>
    apply (ih unfinished_nil).push
    exact hskip.2
  | case3 gathered line lines hskip hincomplete ih => exact ih (h.concat hincomplete)
  | case4 gathered line lines hskip hcomplete ih =>
    apply (ih unfinished_nil).push
    exact h.proper (Bool.eq_false_iff.mpr hcomplete)

/-! ## Conversations -/

/-- Asks for lines one after another, behind those gathered before. -/
def askFor (gathered : List String) : List String → Build Unit
  | [] => return ()
  | line :: lines => do
    ask { pending := textOf gathered }
    askFor (gathered ++ [line]) lines

theorem askFor_concat (gathered lines : List String) (line : String) :
    askFor gathered (lines ++ [line]) =
      (do askFor gathered lines; ask { pending := textOf (gathered ++ lines) }) := by
  induction lines generalizing gathered with
  | nil => simp [askFor]
  | cons l lines ih => simp [askFor, ih]

/-- Asks for the lines of a piece, and runs a block. -/
def Piece.converse : Piece → Build Unit
  | .skipped line => askFor [] [line]
  | .block lines => do
    askFor [] lines
    let _ ← Session.run (textOf lines)

/-- Asks for lines until there are no more, and runs what is left unfinished. -/
def converseRest (rest : List String) : Build Unit := do
  askFor [] rest
  ask { pending := textOf rest }
  if rest ≠ [] then
    let _ ← Session.run (textOf rest)

/-- What is remembered of a piece. -/
def Piece.remember (history : History) : Piece → History
  | .skipped _ => history
  | .block lines => history.add (Text.trimEnd (textOf lines))

/-- Asks for all lines, and runs the blocks and what is left in the end. -/
def converse (history : History) (rest : List String) : List Piece → Build End
  | [] => do
    converseRest rest
    return .done { pending := textOf rest, history }
  | piece :: pieces => do
    piece.converse
    converse (piece.remember history) rest pieces

/-- A line as it is delivered: what its bytes spell, with backspaces carried out. -/
def delivered? (raw : List UInt8) : Option String :=
  (Text.ofUtf8? raw).map Text.typed

theorem run_cons {raw : List UInt8} {line : String} (h : delivered? raw = some line)
    (s : State) (raws : List (List UInt8)) :
    run s (raw :: raws) = (do ask s; let s ← feed s line; run s raws) := by
  obtain ⟨text, htext, rfl⟩ := Option.map_eq_some_iff.mp h
  simp only [run, htext]

/-- What is left is run if there is anything, because it is not blank then. -/
theorem finish_textOf {gathered : List String} (h : Unfinished gathered) (history : History) :
    finish ⟨textOf gathered, history⟩ =
      if gathered ≠ [] then (do let _ ← Session.run (textOf gathered)) else pure () := by
  cases gathered with
  | nil => rfl
  | cons line lines =>
    have hfull : Text.isBlankText (textOf (line :: lines)) = false := by
      apply not_blank_of_isIncomplete
      exact h _ (List.prefix_refl _) (List.cons_ne_nil line lines)
    simp [finish, hfull]

/-- What a line makes of a state that has gathered lines. -/
theorem feed_textOf (gathered : List String) (line : String) (history : History) :
    feed ⟨textOf gathered, history⟩ line =
      if gathered = [] ∧ Text.isBlankText line = true then pure ⟨textOf gathered, history⟩
      else if Program.isIncomplete .standard (textOf (gathered ++ [line])) then
        pure ⟨textOf (gathered ++ [line]), history⟩
      else do
        let _ ← Session.run (textOf (gathered ++ [line]))
        return ⟨"", (Piece.block (gathered ++ [line])).remember history⟩ := by
  simp only [feed, gather_textOf]
  by_cases hskip : gathered = [] ∧ Text.isBlankText line = true
  · simp only [if_pos hskip]
  · by_cases hincomplete : Program.isIncomplete .standard (textOf (gathered ++ [line])) = true
    · simp only [if_neg hskip, if_pos hincomplete]
    · simp only [if_neg hskip, if_neg hincomplete]
      rfl

/-- The reader asks for the lines and runs the blocks that they are cut into. -/
theorem run_eq_converse {raws : List (List UInt8)} {gathered lines : List String}
    (hraws : raws.map delivered? = lines.map some) (h : Unfinished gathered) (history : History) :
    (do askFor [] gathered; run ⟨textOf gathered, history⟩ raws) =
      converse history (cut gathered lines).rest (cut gathered lines).pieces := by
  -- The lines gathered so far have been asked for, so asking for them stands in front.
  fun_induction cut gathered lines generalizing raws history with
  | case1 gathered =>
    rw [List.map_eq_nil_iff.mp hraws, run, finish_textOf h]
    simp only [converse, converseRest, bind_assoc]
    rfl
  | case2 gathered line lines hskip ih =>
    obtain ⟨raw, raws, rfl, hraw, hraws⟩ := List.map_eq_cons_iff.mp hraws
    rw [run_cons hraw, feed_textOf, if_pos hskip]
    obtain ⟨rfl, -⟩ := hskip
    have hrest := ih hraws unfinished_nil history
    simp only [askFor, pure_bind] at hrest
    simp only [askFor, pure_bind, hrest, Cut.push, converse, Piece.converse, Piece.remember,
      bind_assoc]
    rfl
  | case3 gathered line lines hskip hincomplete ih =>
    obtain ⟨raw, raws, rfl, hraw, hraws⟩ := List.map_eq_cons_iff.mp hraws
    rw [run_cons hraw, feed_textOf, if_neg hskip, if_pos hincomplete,
      ← ih hraws (h.concat hincomplete) history, askFor_concat]
    simp only [pure_bind, bind_assoc, List.nil_append]
    rfl
  | case4 gathered line lines hskip hcomplete ih =>
    obtain ⟨raw, raws, rfl, hraw, hraws⟩ := List.map_eq_cons_iff.mp hraws
    rw [run_cons hraw, feed_textOf, if_neg hskip, if_neg hcomplete]
    have hrest := ih hraws unfinished_nil ((Piece.block (gathered ++ [line])).remember history)
    simp only [askFor, pure_bind] at hrest
    simp only [Cut.push, converse, Piece.converse, askFor_concat, bind_assoc, pure_bind, ← hrest]
    rfl

/-! ## Accounts of conversations -/

/-- A computation that does nothing but write. -/
def Prompts (x : Build Unit) : Prop :=
  ∀ s, x s = .ok () (left x s) ∧ (left x s).workspace = s.workspace

theorem prompts_ask (s : State) : Prompts (ask s) :=
  fun _ => ⟨rfl, rfl⟩

theorem Prompts.bind_apply {α : Type} {x : Build Unit} (h : Prompts x) (next : Build α)
    (s : World) : (do x; next) s = next (left x s) :=
  bind_ok (h s).1

theorem Prompts.andThen {x y : Build Unit} (hx : Prompts x) (hy : Prompts y) :
    Prompts (do x; y) := by
  intro s
  have hleft : left (do x; y) s = left y (left x s) := by
    rw [left, hx.bind_apply]
    rfl
  rw [hx.bind_apply, hleft]
  exact ⟨(hy _).1, (hy _).2.trans (hx s).2⟩

theorem prompts_askFor (gathered lines : List String) : Prompts (askFor gathered lines) := by
  induction lines generalizing gathered with
  | nil => exact fun _ => ⟨rfl, rfl⟩
  | cons line lines ih => exact (prompts_ask _).andThen (ih _)

theorem prompts_rest (rest : List String) :
    Prompts (do askFor [] rest; ask { pending := textOf rest }) :=
  (prompts_askFor _ _).andThen (prompts_ask _)

/-- What the statements of a piece came to, asked for and run in the world `s`. -/
def Piece.account : Piece → World → Account
  | .skipped line, s => .stay (left (askFor [] [line]) s)
  | .block lines, s => record (statementsOf (textOf lines)) (left (askFor [] lines) s)

/-- What the statements of the lines left in the end came to. -/
def accountRest (rest : List String) (s : World) : Account :=
  let s' := left (do askFor [] rest; ask { pending := textOf rest }) s
  if rest ≠ [] then record (statementsOf (textOf rest)) s' else .stay s'

/-- What all statements of a conversation came to. -/
def account (rest : List String) : List Piece → World → Account
  | [], s => accountRest rest s
  | piece :: pieces, s => (piece.account s).andThen (account rest pieces)

theorem Piece.converse_eq_account (piece : Piece) (s : World) :
    piece.converse s = (piece.account s).result fun _ => () := by
  cases piece with
  | skipped line => exact (prompts_askFor _ _ s).1
  | block lines =>
    rw [Piece.converse, (prompts_askFor _ _).bind_apply]
    exact Account.result_map (run_eq_record _ _) _

theorem converseRest_eq_account (rest : List String) (s : World) :
    converseRest rest s = (accountRest rest s).result fun _ => () := by
  have hconverse : converseRest rest = (do
      (do askFor [] rest; ask { pending := textOf rest })
      if rest ≠ [] then
        let _ ← Session.run (textOf rest)) := by
    simp only [converseRest, bind_assoc]
  rw [hconverse, (prompts_rest rest).bind_apply, accountRest]
  split
  · exact Account.result_map (run_eq_record _ _) _
  · rfl

/-- A conversation leaves the world that its account has, and stops as that says. -/
theorem converse_eq_account (history : History) (rest : List String) (pieces : List Piece)
    (s : World) :
    converse history rest pieces s = (account rest pieces s).result fun _ =>
      .done { pending := textOf rest, history := pieces.foldl Piece.remember history } := by
  induction pieces generalizing history s with
  | nil => exact Account.result_map (converseRest_eq_account rest s) _
  | cons piece pieces ih =>
    apply Account.result_andThen (piece.converse_eq_account s)
    intro s'
    exact ih _ s'

/-! ## One text -/

/-- What is run of a piece. -/
def Piece.texts : Piece → List String
  | .skipped _ => []
  | .block lines => [textOf lines]

/-- The texts that are run, in order. -/
def Cut.texts (c : Cut) : List String :=
  c.pieces.flatMap Piece.texts ++ if c.rest ≠ [] then [textOf c.rest] else []

/-- Prompts between statements make no difference to what these come to. -/
theorem account_alike (rest : List String) (pieces : List Piece) {s₁ s₂ : World}
    (hw : s₁.workspace = s₂.workspace) :
    (account rest pieces s₁).Alike
      (record ((Cut.texts ⟨pieces, rest⟩).flatMap statementsOf) s₂) := by
  induction pieces generalizing s₁ s₂ with
  | nil =>
    have hw' := (prompts_rest rest s₁).2.trans hw
    simp only [account, accountRest, Cut.texts, List.flatMap_nil, List.nil_append]
    split
    · rw [List.flatMap_singleton]
      exact record_alike rfl hw'
    · exact Account.stay_alike hw'
  | cons piece pieces ih =>
    have hw' (lines : List String) : (left (askFor [] lines) s₁).workspace = s₂.workspace :=
      (prompts_askFor [] lines s₁).2.trans hw
    cases piece with
    | skipped line =>
      simp only [account, Piece.account, Account.stay_andThen]
      exact ih (hw' [line])
    | block lines =>
      have htexts : Cut.texts ⟨.block lines :: pieces, rest⟩ =
          textOf lines :: Cut.texts ⟨pieces, rest⟩ := rfl
      rw [htexts, List.flatMap_cons, record_append]
      exact (record_alike rfl (hw' lines)).andThen fun _ _ => ih

theorem Piece.tokens_texts (piece : Piece) (h : piece.Proper) :
    (piece.texts.flatMap fun text => tokens (lexemes text)) =
      piece.lines.flatMap fun line => tokens (lexemes line) := by
  cases piece with
  | skipped line => simp [Piece.texts, Piece.lines, lexemes_of_blank h]
  | block lines => simp [Piece.texts, Piece.lines, tokens_textOf]

/-- The tokens of the texts that are run are those of all lines. -/
theorem Cut.Proper.tokens_texts {c : Cut} (h : c.Proper) :
    (c.texts.flatMap fun text => tokens (lexemes text)) =
      (c.pieces.flatMap Piece.lines ++ c.rest).flatMap fun line => tokens (lexemes line) := by
  have hpieces : ((c.pieces.flatMap Piece.texts).flatMap fun text => tokens (lexemes text)) =
      (c.pieces.flatMap Piece.lines).flatMap fun line => tokens (lexemes line) := by
    rw [List.flatMap_assoc, List.flatMap_assoc]
    exact List.flatMap_congr fun piece hpiece => piece.tokens_texts (h.pieces piece hpiece)
  have hrest : ((if c.rest ≠ [] then [textOf c.rest] else []).flatMap
      fun text => tokens (lexemes text)) = c.rest.flatMap fun line => tokens (lexemes line) := by
    split
    · rw [List.flatMap_singleton, tokens_textOf]
    · simp_all
  rw [Cut.texts, List.flatMap_append, List.flatMap_append, hpieces, hrest]

/-- The texts say what all lines say as one text, if they end with separators. -/
theorem content_texts {lines : List String}
    (hends : ∀ text ∈ ((cut [] lines).texts.filter fun text => tokens (lexemes text) ≠ []).dropLast,
      (tokens (lexemes text)).getLast? = some (.char ';')) :
    ((cut [] lines).texts.flatMap statementsOf).map Program.Statement.content =
      (statementsOf ("\n".intercalate lines)).map Program.Statement.content := by
  generalize hT : (cut [] lines).texts = texts at hends
  have htokens : (texts.map fun text => tokens (lexemes text)).flatten =
      tokens (lexemes ("\n".intercalate lines)) := by
    have hproper := cut_proper lines unfinished_nil
    rw [← List.flatMap_def, tokens_intercalate, ← hT, hproper.tokens_texts, cut_lines,
      List.nil_append]
  have hflatten : Program.contents .standard (texts.map fun text => tokens (lexemes text)).flatten =
      (texts.map fun text => tokens (lexemes text)).flatMap (Program.contents .standard) := by
    apply Program.contents_flatten rfl
    rw [List.filter_map, ← List.map_dropLast, List.forall_mem_map]
    exact hends
  rw [content_statementsOf, ← htokens, hflatten, List.map_flatMap, List.flatMap_map]
  simp only [content_statementsOf]

/-- Lines that are delivered are cut into blocks, blank lines and unfinished lines at the
    end, none lost, repeated or split. A block is as short as it can be, and the lines at
    the end are not blank. The reader asks for all lines, runs the text of each block once
    and in order, and in the end what is left. If all texts that are run and have a token,
    but for the last of them, end with a separator, then the statements come to what they
    come to in one text of all lines, and leave the same workspace. -/
theorem run_gathers {raws : List (List UInt8)} {lines : List String}
    (hraws : raws.map delivered? = lines.map some) :
    ∃ c, c = cut [] lines ∧
      c.pieces.flatMap Piece.lines ++ c.rest = lines ∧
      (∀ piece ∈ c.pieces, piece.Proper) ∧
      (c.rest ≠ [] → Text.isBlankText (textOf c.rest) = false) ∧
      ∀ (history : History) (s : World),
        run { history } raws = converse history c.rest c.pieces ∧
        (run { history } raws s = (account c.rest c.pieces s).result fun _ =>
          .done { pending := textOf c.rest, history := c.pieces.foldl Piece.remember history }) ∧
        ((∀ text ∈ (c.texts.filter fun text => tokens (lexemes text) ≠ []).dropLast,
            (tokens (lexemes text)).getLast? = some (.char ';')) →
          (account c.rest c.pieces s).Alike
            (record (statementsOf ("\n".intercalate lines)) s)) := by
  have hproper := cut_proper lines unfinished_nil
  refine ⟨_, rfl, cut_lines [] lines, hproper.pieces, ?_, ?_⟩
  · intro hne
    apply not_blank_of_isIncomplete
    exact hproper.rest _ (List.prefix_refl _) hne
  · intro history s
    have hrun : run { history } raws =
        converse history (cut [] lines).rest (cut [] lines).pieces := by
      have hgathered := run_eq_converse hraws unfinished_nil history
      rwa [askFor, pure_bind] at hgathered
    refine ⟨hrun, ?_, ?_⟩
    · rw [hrun]
      exact converse_eq_account history _ _ s
    · intro hends
      apply (account_alike _ _ rfl).trans
      exact record_alike (content_texts hends) rfl

/-- A definition on two lines, a blank line, a comment, and a call that is never closed. -/
theorem run_gathers_at_unclosed : ∃ (raws : List (List UInt8)) (lines : List String),
    raws.map delivered? = lines.map some ∧
    cut [] lines = ⟨[.block ["def f(x)", "x;"], .skipped "", .block ["# done"]], ["f("]⟩ ∧
    (account (cut [] lines).rest (cut [] lines).pieces {}).Alike
      (record (statementsOf ("\n".intercalate lines)) {}) := by
  have hdelivered {text : String} (h : '\x08' ∉ text.toList) :
      delivered? (Text.utf8 text) = some text := by
    rw [delivered?, Text.ofUtf8?_utf8, Option.map_some, Text.typed_of_not_mem h]
  have hraws : (["def f(x)", "x;", "", "# done", "f("].map Text.utf8).map delivered? =
      ["def f(x)", "x;", "", "# done", "f("].map some := by
    simp [hdelivered]
  obtain ⟨c, rfl, -, -, -, hconverse⟩ := run_gathers hraws
  refine ⟨_, _, hraws, by decide +kernel, ?_⟩
  apply (hconverse {} {}).2.2
  decide +kernel

end Abacus.Repl
