-- SUMMARY: Which texts more text can complete, and that the unfinished texts are these.
import Abacus.Proofs.LineBreaks
import Abacus.Proofs.Programs
import Abacus.Repl

/-!
# Completing texts

A text is asked about by its standing, which looks at one token after the other.
It is settled where the tokens so far are a sentence, and it stays refused once
it is. Everything between the two can be completed: whatever an item is in the
middle of, there are tokens that finish it, and a text that spells them.
-/

namespace Abacus

open ExprReader

variable {table : PrecedenceTable}

/-- The state has an item to show. -/
def ItemReader.Shown (s : ItemReader.State) : Prop :=
  ∃ item, ItemReader.Finished s item

/-! ## Standing -/

namespace Program

/-- A text that can be cut into items. -/
def Complete (table : PrecedenceTable) (text : String) : Prop :=
  ∃ is, items table (.ofText text) = .ok is

theorem complete_iff {text : String} :
    Complete table text ↔ Sentence table (tokens (lexemes text)) :=
  exists_items_iff

namespace Standing

/-- How a text stands some tokens later. -/
def after (table : PrecedenceTable) (standing : Standing) (ts : List Token) : Standing :=
  ts.foldl (fun standing t => step table t standing) standing

/-- The text may end here. -/
def Settled : Standing → Prop
  | .between => True
  | .inside s => ItemReader.Shown s
  | .refused => False

@[simp] theorem after_nil (standing : Standing) : standing.after table [] = standing := rfl

@[simp] theorem after_cons (standing : Standing) (t : Token) (ts : List Token) :
    standing.after table (t :: ts) = (standing.step table t).after table ts := rfl

theorem after_append (standing : Standing) (ts us : List Token) :
    standing.after table (ts ++ us) = (standing.after table ts).after table us :=
  List.foldl_append

/-- No token makes up for one that was refused. -/
@[simp] theorem after_refused (ts : List Token) : refused.after table ts = .refused := by
  induction ts with
  | nil => rfl
  | cons t ts ih => exact ih

/-- Inside an item a text stands where the reader does. -/
theorem after_run? {s s' : ItemReader.State} {ts : List Token}
    (h : (Item.reader table).run? s ts = some s') :
    (inside s).after table ts = .inside s' := by
  induction ts generalizing s with
  | nil =>
    cases h
    rfl
  | cons t ts ih =>
    obtain ⟨next, habsorb, hrun⟩ := Reader.run?_cons_eq_some.mp h
    have hstep : (inside s).step table t = .inside next := by
      have habsorb : ItemReader.absorb? table s t = some next := habsorb
      simp only [step, habsorb]
    rw [after_cons, hstep]
    exact ih hrun

/-- An item is entered with its first token. -/
theorem after_run?_start {s : ItemReader.State} {t : Token} {ts : List Token}
    (h : (Item.reader table).run? .start (t :: ts) = some s) :
    between.after table (t :: ts) = .inside s := by
  obtain ⟨next, habsorb, hrun⟩ := Reader.run?_cons_eq_some.mp h
  have habsorb : ItemReader.absorb? table .start t = some next := habsorb
  have ht : t ≠ .char ';' := by
    intro ht
    subst ht
    cases ItemReader.eq_of_absorb?_char habsorb
  have hstep : between.step table t = .inside next := by
    simp only [step, enter, if_neg ht, habsorb]
  rw [after_cons, hstep]
  exact after_run? hrun

/-- A token that an item which is complete does not absorb is read as between items. -/
theorem step_of_finished {s : ItemReader.State} {item : Item} {t : Token}
    (hitem : ItemReader.Finished s item) (habsorb : ItemReader.absorb? table s t = none) :
    (inside s).step table t = between.step table t := by
  have hconclude := (ItemReader.conclude_eq_ok_iff (some t)).mpr hitem
  simp only [step, habsorb, hconclude]

/-- Behind an item that is complete, a text stands as between items. -/
theorem after_finished {s : ItemReader.State} {item : Item} {rest : List Token}
    (hitem : ItemReader.Finished s item) (hhalts : (Item.reader table).Halts s rest) :
    ((inside s).after table rest).Settled ↔ (between.after table rest).Settled := by
  cases rest with
  | nil =>
    constructor
    · intro _
      trivial
    · intro _
      exact ⟨item, hitem⟩
  | cons t rest => rw [after_cons, after_cons, step_of_finished hitem (Reader.halts_cons.mp hhalts)]

/-- An item that is stopped before it is complete is refused. -/
theorem step_of_unfinished {s : ItemReader.State} {t : Token} (hitem : ¬ ItemReader.Shown s)
    (habsorb : ItemReader.absorb? table s t = none) : (inside s).step table t = .refused := by
  simp only [step, habsorb]
  cases hconclude : ItemReader.conclude s (some t) with
  | error cause => rfl
  | ok item => exact absurd ⟨item, (ItemReader.conclude_eq_ok_iff _).mp hconclude⟩ hitem

theorem after_unfinished {s : ItemReader.State} {t : Token} {rest : List Token}
    (hitem : ¬ ItemReader.Shown s) (hhalts : (Item.reader table).Halts s (t :: rest)) :
    (inside s).after table (t :: rest) = .refused := by
  rw [after_cons, step_of_unfinished hitem (Reader.halts_cons.mp hhalts), after_refused]

theorem isUnfinished_iff {standing : Standing} :
    standing.isUnfinished = true ↔ ∃ s, standing = .inside s ∧ ¬ ItemReader.Shown s := by
  cases standing with
  | between => exact ⟨nofun, nofun⟩
  | refused => exact ⟨nofun, nofun⟩
  | inside s =>
    simp only [isUnfinished, inside.injEq, exists_eq_left', ItemReader.Shown,
      ← ItemReader.conclude_eq_ok_iff (none : Option Token)]
    cases ItemReader.conclude s none with
    | error cause => simp [Except.isOk, Except.toBool]
    | ok item => simp [Except.isOk, Except.toBool]

/-- Between items, a token that starts none is a separator or is refused. -/
theorem after_separator {t : Token} {ts : List Token}
    (habsorb : ItemReader.absorb? table .start t = none)
    (h : (between.after table (t :: ts)).Settled) :
    t = .char ';' ∧ (between.after table ts).Settled := by
  by_cases ht : t = .char ';'
  · subst ht
    exact ⟨rfl, h⟩
  · have hstep : between.step table t = .refused := by
      simp only [step, enter, if_neg ht, habsorb]
    rw [after_cons, hstep, after_refused] at h
    exact h.elim

/-- Behind what was read of an item, a text that may end has a complete item. -/
theorem finished_of_settled {s : ItemReader.State} {rest : List Token}
    (hhalts : (Item.reader table).Halts s rest) (h : ((inside s).after table rest).Settled) :
    ItemReader.Shown s := by
  apply Classical.byContradiction
  intro hnone
  cases rest with
  | nil => exact hnone h
  | cons t rest =>
    rw [after_unfinished hnone hhalts] at h
    exact h

theorem sentence_of_settled {ts : List Token} (h : (between.after table ts).Settled) :
    Sentence table ts := by
  -- The text is taken apart as the reader does it, one separator or item at a time.
  generalize hn : ts.length = n
  induction n using Nat.strongRecOn generalizing ts with
  | ind n ih =>
    obtain ⟨us, s, rest, rfl, hrun, hhalts⟩ := (Item.reader table).exists_run? .start ts
    cases us with
    | nil =>
      cases hrun
      cases rest with
      | nil => exact .done
      | cons t rest =>
        obtain ⟨rfl, hsettled⟩ := after_separator (Reader.halts_cons.mp hhalts) h
        exact .separator (ih rest.length (by simp [← hn]) hsettled rfl)
    | cons t us =>
      rw [after_append, after_run?_start hrun] at h
      obtain ⟨item, hitem⟩ := finished_of_settled hhalts h
      have hrest := (after_finished hitem hhalts).mp h
      have hlength : rest.length < n := by
        rw [← hn, List.length_append, List.length_cons]
        omega
      exact .item (.of_run? hrun hitem hhalts) (ih rest.length hlength hrest rfl)

/-- The texts that may end are those whose tokens are a sentence. -/
theorem settled_iff_sentence {ts : List Token} :
    (between.after table ts).Settled ↔ Sentence table ts := by
  constructor
  · exact sentence_of_settled
  · intro h
    induction h with
    | done => trivial
    | separator _ ih => exact ih
    | item hitem _ ih =>
      obtain ⟨us, s, rfl, hrun, hfinished, hhalts⟩ := hitem.exists_run?
      cases us with
      | nil =>
        cases hrun
        cases hfinished
      | cons t us =>
        rw [after_append, after_run?_start hrun]
        exact (after_finished hfinished hhalts).mpr ih

end Standing

end Program

/-! ## Completions -/

/-- Tokens that some text spells. -/
def Written (ts : List Token) : Prop :=
  ∃ text, tokens (lexemes text) = ts

namespace Written

theorem nil : Written [] := ⟨"", rfl⟩

theorem append {ts us : List Token} (h : Written ts) (hs : Written us) : Written (ts ++ us) := by
  obtain ⟨a, rfl⟩ := h
  obtain ⟨b, rfl⟩ := hs
  exact ⟨a ++ "\n" ++ b, tokens_append_lineFeed a b⟩

theorem cons {t : Token} {us : List Token} (h : Written [t]) (hs : Written us) :
    Written (t :: us) :=
  h.append hs

theorem openParenthesis : Written [.char '('] := ⟨"(", rfl⟩

theorem closeParenthesis : Written [.char ')'] := ⟨")", rfl⟩

theorem number : ∃ x, Written [.number x] := ⟨_, "0", rfl⟩

theorem ident : ∃ x, Written [.ident x] := ⟨_, "f", rfl⟩

theorem keyword (word : Keyword) : Written [.keyword word] := by
  cases word with
  | define => exact ⟨"def", rfl⟩
  | declare => exact ⟨"extern", rfl⟩

end Written

/-- Some tokens that can be written lead to a state with the property `P`. -/
def Reader.Completes {σ α : Type} (r : Reader σ α) (P : σ → Prop) (s : σ) : Prop :=
  ∃ ts s', Written ts ∧ r.run? s ts = some s' ∧ P s'

namespace Reader.Completes

variable {σ σ' α β : Type} {r : Reader σ α} {r' : Reader σ' β} {P Q : σ → Prop} {P' : σ' → Prop}
  {s next : σ}

theorem here (h : P s) : r.Completes P s :=
  ⟨[], s, .nil, rfl, h⟩

theorem step {t : Token} (ht : Written [t]) (habsorb : r.absorb? s t = some next)
    (h : r.Completes P next) : r.Completes P s := by
  obtain ⟨ts, s', hts, hrun, hs'⟩ := h
  exact ⟨t :: ts, s', ht.cons hts, run?_cons_eq_some.mpr ⟨next, habsorb, hrun⟩, hs'⟩

theorem trans (h : r.Completes P s) (hnext : ∀ s', P s' → r.Completes Q s') :
    r.Completes Q s := by
  obtain ⟨ts, s', hts, hrun, hs'⟩ := h
  obtain ⟨us, s'', hus, hrun', hs''⟩ := hnext s' hs'
  refine ⟨ts ++ us, s'', hts.append hus, ?_, hs''⟩
  rw [run?_append, hrun]
  exact hrun'

/-- A reader inside another one completes its part of it. -/
theorem inside (ρ : σ → σ') (h : r.Completes P s)
    (hrun : ∀ s ts s', r.run? s ts = some s' → r'.run? (ρ s) ts = some (ρ s'))
    (hP : ∀ s, P s → P' (ρ s)) : r'.Completes P' (ρ s) := by
  obtain ⟨ts, s', hts, hs, hs'⟩ := h
  exact ⟨ts, ρ s', hts, hrun s ts s' hs, hP s' hs'⟩

end Reader.Completes

/-- The state has an expression to show. -/
def ExprReader.Shown (s : ExprReader.State) : Prop :=
  ∃ e, ExprReader.conclude s = .ok e

/-- Behind an operand, closing what is open around it is enough. -/
theorem completes_behind (hclose : operator? table ')' = none) (e : Expr) (stack : List Frame)
    {s : ExprReader.State}
    (habsorb : ExprReader.absorb? table s (.char ')') = close? e stack ')')
    (hconclude : ExprReader.conclude s = concludeValue e stack) :
    (Expr.reader table).Completes Shown s := by
  induction stack generalizing e s with
  | nil => exact .here ⟨e, hconclude⟩
  | cons frame stack ih =>
    have hvalue (e : Expr) : ExprReader.absorb? table ⟨.value e, stack⟩ (.char ')') =
        close? e stack ')' := by
      simp only [ExprReader.absorb?, absorbValue?, hclose]
    cases frame with
    | group => exact .step .closeParenthesis habsorb (ih e (hvalue e) rfl)
    | call callee args => exact .step .closeParenthesis habsorb (ih _ (hvalue _) rfl)
    | binary lhs op p => exact ih (.binary op lhs e) habsorb hconclude

theorem completes_expression (hclose : operator? table ')' = none) (s : ExprReader.State) :
    (Expr.reader table).Completes Shown s := by
  have hvalue (e : Expr) (stack : List Frame) :
      (Expr.reader table).Completes Shown ⟨.value e, stack⟩ := by
    apply completes_behind hclose e stack
    · simp only [ExprReader.absorb?, absorbValue?, hclose]
    · rfl
  obtain ⟨phase, stack⟩ := s
  cases phase with
  | operand =>
    obtain ⟨x, hx⟩ := Written.number
    exact .step hx rfl (hvalue (.number x) stack)
  | argument callee => exact .step .closeParenthesis rfl (hvalue (.call callee []) stack)
  | name x =>
    apply completes_behind hclose (.var x) stack
    · simp [ExprReader.absorb?, absorbValue?, hclose]
    · rfl
  | value e => exact hvalue e stack

theorem completes_prototype (s : PrototypeReader.State) :
    Prototype.reader.Completes (fun s => ∃ proto, s = .complete proto) s := by
  have hinside (name : String) (params : List String) :
      Prototype.reader.Completes (fun s => ∃ proto, s = .complete proto) (.inside name params) :=
    .step .closeParenthesis rfl (.here ⟨_, rfl⟩)
  have hnamed (name : String) :
      Prototype.reader.Completes (fun s => ∃ proto, s = .complete proto) (.named name) :=
    .step .openParenthesis rfl (hinside name [])
  cases s with
  | start =>
    obtain ⟨name, hname⟩ := Written.ident
    exact .step hname rfl (hnamed name)
  | named name => exact hnamed name
  | inside name params => exact hinside name params
  | complete proto => exact .here ⟨proto, rfl⟩

/-- A definition goes on from its prototype with any body. -/
theorem completes_heading (p : PrototypeReader.State) :
    (Item.reader table).Completes ItemReader.Shown (.definition (.heading p)) := by
  have hproto : (Item.reader table).Completes
      (fun s => ∃ proto, s = .definition (.heading (.complete proto)))
      (.definition (.heading p)) := by
    apply (completes_prototype p).inside fun p => ItemReader.State.definition (.heading p)
    · intro p ts p' hrun
      exact ItemReader.run?_heading hrun
    · intro p hp
      obtain ⟨proto, rfl⟩ := hp
      exact ⟨proto, rfl⟩
  apply hproto.trans
  intro s hs
  obtain ⟨proto, rfl⟩ := hs
  obtain ⟨x, hx⟩ := Written.number
  exact .step hx rfl (.here ⟨_, .definition proto rfl⟩)

theorem completes_external (p : PrototypeReader.State) :
    (Item.reader table).Completes ItemReader.Shown (.external (.heading p)) := by
  apply (completes_prototype p).inside fun p => ItemReader.State.external (.heading p)
  · intro p ts p' hrun
    rw [ItemReader.run?_external, hrun]
    rfl
  · intro p hp
    obtain ⟨proto, rfl⟩ := hp
    exact ⟨_, .external proto⟩

theorem completes_body (hclose : operator? table ')' = none) (proto : Prototype)
    (s : ExprReader.State) :
    (Item.reader table).Completes ItemReader.Shown (.definition (.body proto s)) := by
  apply (completes_expression hclose s).inside fun s => ItemReader.State.definition (.body proto s)
  · intro s ts s' hrun
    rw [ItemReader.run?_body, hrun]
    rfl
  · intro s hs
    obtain ⟨e, he⟩ := hs
    exact ⟨_, .definition proto he⟩

theorem completes_bare (hclose : operator? table ')' = none) (s : ExprReader.State) :
    (Item.reader table).Completes ItemReader.Shown (.expression s) := by
  apply (completes_expression hclose s).inside ItemReader.State.expression
  · intro s ts s' hrun
    rw [ItemReader.run?_expression, hrun]
    rfl
  · intro s hs
    obtain ⟨e, he⟩ := hs
    exact ⟨_, .expression he⟩

/-- Whatever an item is in the middle of, it can be finished. -/
theorem completes_item (hclose : operator? table ')' = none) (s : ItemReader.State) :
    (Item.reader table).Completes ItemReader.Shown s := by
  cases s with
  | start =>
    obtain ⟨x, hx⟩ := Written.number
    exact .step hx rfl (completes_bare hclose _)
  | definition s =>
    cases s with
    | start => exact .step (.keyword .define) rfl (completes_heading .start)
    | heading p => exact completes_heading p
    | body proto s => exact completes_body hclose proto s
  | external s =>
    cases s with
    | start => exact .step (.keyword .declare) rfl (completes_external .start)
    | heading p => exact completes_external p
  | expression s => exact completes_bare hclose s

/-! ## Unfinished texts -/

namespace Program

/-- A text stands, with more of it on another line, where its tokens lead. -/
theorem complete_append_iff {text more : String} :
    Complete table (text ++ "\n" ++ more) ↔
      ((standing table (tokens (lexemes text))).after table (tokens (lexemes more))).Settled := by
  rw [complete_iff, tokens_append_lineFeed, ← Standing.settled_iff_sentence, Standing.after_append]
  rfl

/-- Whatever was not refused can be completed. -/
theorem Standing.exists_settled (hclose : operator? table ')' = none) {standing : Standing}
    (h : standing ≠ .refused) :
    ∃ more, (standing.after table (tokens (lexemes more))).Settled := by
  cases standing with
  | between => exact ⟨"", trivial⟩
  | inside s =>
    obtain ⟨_, s', ⟨more, rfl⟩, hrun, hfinished⟩ := completes_item hclose s
    refine ⟨more, ?_⟩
    rw [Standing.after_run? hrun]
    exact hfinished
  | refused => exact absurd rfl h

theorem isIncomplete_iff {text : String} (hclose : operator? table ')' = none) :
    isIncomplete table text = true ↔
      ¬ Complete table text ∧ ∃ more, Complete table (text ++ "\n" ++ more) := by
  have hcomplete : Complete table text ↔ (standing table (tokens (lexemes text))).Settled := by
    rw [complete_iff, ← Standing.settled_iff_sentence]
    rfl
  simp only [hcomplete, complete_append_iff]
  constructor
  · intro h
    obtain ⟨s, hs, hunfinished⟩ := Standing.isUnfinished_iff.mp h
    have hs : standing table (tokens (lexemes text)) = .inside s := hs
    rw [hs]
    exact ⟨hunfinished, Standing.exists_settled hclose nofun⟩
  · intro h
    obtain ⟨hnot, more, hmore⟩ := h
    apply Standing.isUnfinished_iff.mpr
    change ∃ s, standing table (tokens (lexemes text)) = .inside s ∧ _
    cases hstanding : standing table (tokens (lexemes text)) with
    | between =>
      rw [hstanding] at hnot
      exact absurd trivial hnot
    | inside s =>
      rw [hstanding] at hnot
      exact ⟨s, rfl, hnot⟩
    | refused =>
      rw [hstanding, Standing.after_refused] at hmore
      exact hmore.elim

/-- A line that is empty is as good as none. -/
theorem complete_lineFeed_iff {text more : String} :
    Complete table (text ++ "\n" ++ "\n" ++ more) ↔ Complete table (text ++ "\n" ++ more) := by
  have hempty : tokens (lexemes (text ++ "\n")) = tokens (lexemes text) := by
    have happend := tokens_append_lineFeed text ""
    rw [String.append_empty] at happend
    exact happend.trans (List.append_nil _)
  rw [complete_append_iff, complete_append_iff, hempty]

/-- A text is unfinished if it is not complete but more text makes it so, under
    any table that leaves the closing parenthesis alone. So lines are gathered as
    long as another one can help, and run when they are complete or nothing can. -/
theorem isIncomplete_iff_completable (hclose : operator? table ')' = none) :
    (∀ text, isIncomplete table text = true ↔
      ¬ Complete table text ∧ ∃ more, Complete table (text ++ "\n" ++ more)) ∧
    (∀ pending line text, Repl.gather pending line = .unfinished text →
      ¬ Complete .standard text ∧ ∃ more, Complete .standard (text ++ more)) ∧
    (∀ pending line text, Repl.gather pending line = .ready text →
      Complete .standard text ∨ ∀ more, ¬ Complete .standard (text ++ more)) := by
  have hstandard : operator? .standard ')' = none := rfl
  refine ⟨fun text => isIncomplete_iff hclose, ?_, ?_⟩
  · intro pending line text hgather
    simp only [Repl.gather] at hgather
    split at hgather
    · cases hgather
    · split at hgather
      case isTrue hincomplete =>
        cases hgather
        obtain ⟨hnot, more, hmore⟩ := (isIncomplete_iff hstandard).mp hincomplete
        have hassoc (text : String) : text ++ "\n" ++ more = text ++ ("\n" ++ more) :=
          String.append_assoc
        rw [hassoc (pending ++ line ++ "\n")] at hmore
        exact ⟨hnot, _, hmore⟩
      case isFalse => cases hgather
  · intro pending line text hgather
    simp only [Repl.gather] at hgather
    split at hgather
    · cases hgather
    · split at hgather
      case isTrue => cases hgather
      case isFalse hincomplete =>
        cases hgather
        apply Classical.or_iff_not_imp_left.mpr
        intro hnot more hmore
        apply hincomplete
        exact (isIncomplete_iff hstandard).mpr ⟨hnot, more, complete_lineFeed_iff.mpr hmore⟩

/-- A call that stops at a comma can be completed. -/
theorem isIncomplete_iff_completable_at_comma :
    ¬ Complete .standard "f(1," ∧ ∃ more, Complete .standard ("f(1," ++ "\n" ++ more) :=
  ((isIncomplete_iff_completable rfl).1 "f(1,").mp rfl

end Program

end Abacus
