-- SUMMARY: A session as a loop of turns: it takes the statements that parsing finds, and it ends.
import Abacus.Proofs.Accounts
import Abacus.Proofs.Statements

/-!
# Turns

A session can be run as a loop: the next statement is read, handled and reported, and so on
with what is left of the text (`Session.Turns`). It goes on until no statement is left or
one stops the session (`Session.Ends`). What a run comes to is what the loop comes to
(`exists_turns`).

The loop takes the statements of the text in order, whatever they come to: the items that
parsing finds, and an error where parsing stops. Each turn takes at least one token that is
no separator, so there are no more turns than such tokens.
-/

namespace Abacus.Session

open Build

/-- A statement and what it came to. -/
structure Turn where
  statement : Program.Statement
  outcome   : Outcome

/-- Some turns of a session: where it is in a text and in which world, before and after. -/
inductive Turns : Stream → World → List Turn → Stream → World → Prop where
  | none {stream : Stream} {s : World} : Turns stream s [] stream s
  | next {stream rest stream' : Stream} {s s' s'' : World} {statement : Program.Statement}
      {o : Outcome} {turns : List Turn}
      (hread : stream.statement? .standard = some (statement, rest))
      (hturn : turn statement s = .ok o s') (h : Turns rest s' turns stream' s'') :
      Turns stream s (⟨statement, o⟩ :: turns) stream' s''

/-- How a session ends: with `value` if no statement is left, or at one that stops it. -/
inductive Ends {α : Type} (stream : Stream) (s : World) (value : α) :
    EStateM.Result Fault World α → Prop where
  | done (hread : stream.statement? .standard = none) : Ends stream s value (.ok value s)
  | stopped {statement : Program.Statement} {rest : Stream} {fault : Fault} {s' : World}
      (hread : stream.statement? .standard = some (statement, rest))
      (hturn : turn statement s = .error fault s') : Ends stream s value (.error fault s')

variable {stream stream' : Stream} {s s' : World} {turns : List Turn}

/-! ## Runs -/

theorem Ends.map {α β : Type} {value : α} {m : Build α} {s₀ : World}
    (h : Ends stream s value (m s₀)) (k : α → β) :
    Ends stream s (k value) ((m >>= fun a => pure (k a)) s₀) := by
  generalize hm : m s₀ = result at h
  cases h with
  | done hread =>
    rw [bind_ok hm]
    exact .done hread
  | stopped hread hturn =>
    rw [bind_error hm]
    exact .stopped hread hturn

theorem outcomes_of_ok {statement : Program.Statement} {o : Outcome}
    (h : turn statement s = .ok o s') (statements : List Program.Statement) :
    outcomes (statement :: statements) s =
      (outcomes statements >>= fun os => pure (o :: os)) s' := by
  simp only [outcomes_cons, bind_assoc, pure_bind]
  exact bind_ok h

theorem outcomes_of_error {statement : Program.Statement} {fault : Fault}
    (h : turn statement s = .error fault s') (statements : List Program.Statement) :
    outcomes (statement :: statements) s = .error fault s' := by
  simp only [outcomes_cons, bind_assoc, pure_bind]
  exact bind_error h

/-- The loop comes to an end, with the outcomes that the statements have. -/
theorem exists_turns_outcomes (stream : Stream) (s : World) :
    ∃ turns stream' s', Turns stream s turns stream' s' ∧
      Ends stream' s' (turns.map Turn.outcome) (outcomes (stream.statements .standard) s) := by
  -- Every turn makes the stream lighter.
  generalize hn : stream.weight = n
  induction n using Nat.strongRecOn generalizing stream s with
  | ind n ih =>
    cases hread : stream.statement? .standard with
    | none =>
      rw [Stream.statements_of_none hread]
      exact ⟨[], stream, s, .none, .done hread⟩
    | some next =>
      obtain ⟨statement, rest⟩ := next
      rw [Stream.statements_of_some hread]
      cases hturn : turn statement s with
      | error fault s' =>
        refine ⟨[], stream, s, .none, ?_⟩
        rw [outcomes_of_error hturn]
        exact .stopped hread hturn
      | ok o s' =>
        have hlighter : rest.weight < n := hn ▸ Stream.weight_lt hread
        obtain ⟨turns, stream', s'', hturns, hends⟩ := ih rest.weight hlighter rest s' rfl
        refine ⟨⟨statement, o⟩ :: turns, stream', s'', .next hread hturn hturns, ?_⟩
        rw [outcomes_of_ok hturn]
        exact hends.map (o :: ·)

/-- A run of a text is a loop of turns that comes to an end. -/
theorem exists_turns (text : String) (s : World) :
    ∃ turns stream s', Turns (.ofText text) s turns stream s' ∧
      Ends stream s' (Summary.ofOutcomes (turns.map Turn.outcome)) (run text s) := by
  obtain ⟨turns, stream, s', hturns, hends⟩ := exists_turns_outcomes (.ofText text) s
  exact ⟨turns, stream, s', hturns, hends.map Summary.ofOutcomes⟩

/-! ## Statements -/

/-- What was taken and what is left are the statements that were there. -/
theorem Turns.statements (h : Turns stream s turns stream' s') :
    stream.statements .standard = turns.map Turn.statement ++ stream'.statements .standard := by
  induction h with
  | none => rfl
  | next hread _ _ ih =>
    rw [Stream.statements_of_some hread, ih, List.map_cons, List.cons_append]

/-- A turn reports an error of parsing if the statement is at fault, and then that error. -/
def Turn.Truthful (t : Turn) : Prop :=
  ∀ e, t.outcome = .error (.parse e) ↔ t.statement = .fault e

theorem truthful_of_turn {statement : Program.Statement} {o : Outcome}
    (h : turn statement s = .ok o s') : Turn.Truthful ⟨statement, o⟩ := by
  obtain ⟨o', s₁, houtcome, h⟩ := bind_eq_ok.mp h
  obtain ⟨_, s₂, -, hpure⟩ := bind_eq_ok.mp h
  cases hpure
  intro e
  cases statement with
  | fault e' =>
    cases houtcome
    simp
  | item i =>
    simp only [outcome] at houtcome
    split at houtcome <;> cases houtcome <;> simp

theorem Turns.truthful (h : Turns stream s turns stream' s') : ∀ t ∈ turns, t.Truthful := by
  induction h with
  | none => exact List.forall_mem_nil _
  | next _ hturn _ ih => exact List.forall_mem_cons.mpr ⟨truthful_of_turn hturn, ih⟩

/-- The turns are those of the items, in order, and no error of parsing is met. -/
structure Handles (turns : List Turn) (is : List (Located Item)) : Prop where
  statements : turns.map Turn.statement = is.map .item
  parsed     : ∀ t ∈ turns, ∀ e, t.outcome ≠ .error (.parse e)

theorem Handles.of_statements {is : List (Located Item)} (h : ∀ t ∈ turns, t.Truthful)
    (hturns : turns.map Turn.statement = is.map .item) : Handles turns is := by
  refine ⟨hturns, ?_⟩
  intro t ht e he
  have hmem : t.statement ∈ is.map .item := hturns ▸ List.mem_map_of_mem ht
  obtain ⟨i, -, hi⟩ := List.mem_map.mp hmem
  rw [(h t ht e).mp he] at hi
  cases hi

/-- Turns that take the first statements, where these are items, handle the first items. -/
theorem Handles.of_append {is : List (Located Item)} {left : List Program.Statement}
    (h : ∀ t ∈ turns, t.Truthful) (hturns : is.map .item = turns.map Turn.statement ++ left) :
    Handles turns (is.take turns.length) := by
  apply Handles.of_statements h
  rw [List.map_take, hturns]
  exact (List.take_left' (List.length_map _)).symm

theorem handles_of_ok {text : String} {is : List (Located Item)}
    (hparse : Program.parse text = .ok is) (h : Turns (.ofText text) s turns stream s') :
    Handles turns (is.take turns.length) ∧
      (stream.statement? .standard = none → turns.length = is.length) := by
  have hall := (Program.statements_of_ok hparse).symm.trans h.statements
  refine ⟨.of_append h.truthful hall, ?_⟩
  intro hnone
  rw [Stream.statements_of_none hnone] at hall
  simpa using (congrArg List.length hall).symm

theorem handles_of_error {text : String} {e : ParseError} (hparse : Program.parse text = .error e) :
    ∃ is, Program.itemsAndError .standard (.ofText text) = (is, some e) ∧
      ∀ s turns stream s', Turns (.ofText text) s turns stream s' →
        Handles turns (is.take turns.length) ∧ stream.statement? .standard ≠ none ∨
        ∃ before after, turns = before ++ ⟨.fault e, .error (.parse e)⟩ :: after ∧
          Handles before is := by
  obtain ⟨is, rest, hread, hall⟩ := Program.statements_of_error hparse
  refine ⟨is, hread, ?_⟩
  intro s turns stream s' h
  have hpending (hfault : .fault e ∈ stream.statements .standard) :
      stream.statement? .standard ≠ none := by
    intro hnone
    rw [Stream.statements_of_none hnone] at hfault
    cases hfault
  rcases List.append_eq_append_iff.mp (hall.symm.trans h.statements) with
    ⟨more, hturns, hleft⟩ | ⟨left, his, hleft⟩
  · cases more with
    | nil =>
      have his : is.map .item = turns.map Turn.statement ++ [] := by simp [hturns]
      refine .inl ⟨.of_append h.truthful his, hpending ?_⟩
      rw [← List.nil_append (stream.statements .standard), ← hleft]
      exact List.mem_cons_self
    | cons k more =>
      obtain ⟨rfl, -⟩ := List.cons.inj hleft
      obtain ⟨before, behind, rfl, hbefore, hbehind⟩ := List.map_eq_append_iff.mp hturns
      obtain ⟨t, after, rfl, ht, -⟩ := List.map_eq_cons_iff.mp hbehind
      have htruthful := List.forall_mem_append.mp h.truthful
      have hreport := (htruthful.2 t List.mem_cons_self e).mpr ht
      refine .inr ⟨before, after, ?_, .of_statements htruthful.1 hbefore⟩
      rw [← ht, ← hreport]
  · refine .inl ⟨.of_append h.truthful his, hpending ?_⟩
    rw [hleft]
    simp

/-- Parsing, sessions and the question whether a text is unfinished cut every text in the same
    way. If parsing succeeds, then the turns of a session are those of the items it finds, or
    of the first of them as long as statements are left. If parsing stops with an error, they
    are those of the items before it, then that error, whatever the items come to. -/
theorem loops_agree (text : String) :
    (∀ is, Program.parse text = .ok is →
      ∀ s turns stream s', Turns (.ofText text) s turns stream s' →
        Handles turns (is.take turns.length) ∧
        (stream.statement? .standard = none → turns.length = is.length)) ∧
    (∀ e, Program.parse text = .error e →
      ∃ is, Program.itemsAndError .standard (.ofText text) = (is, some e) ∧
        ∀ s turns stream s', Turns (.ofText text) s turns stream s' →
          Handles turns (is.take turns.length) ∧ stream.statement? .standard ≠ none ∨
          ∃ before after, turns = before ++ ⟨.fault e, .error (.parse e)⟩ :: after ∧
            Handles before is) ∧
    (∀ s, ∃ turns stream s', Turns (.ofText text) s turns stream s' ∧
      Ends stream s' (Summary.ofOutcomes (turns.map Turn.outcome)) (run text s)) ∧
    (Program.isIncomplete .standard text = true ↔
      ∃ e, Program.parse text = .error e ∧ e.atEnd = true) := by
  refine ⟨?_, fun e hparse => handles_of_error hparse, exists_turns text,
    Program.isIncomplete_iff_atEnd⟩
  intro is hparse s turns stream s' h
  exact handles_of_ok hparse h

/-! ## Progress -/

/-- No more turns are taken than there are tokens to take. -/
theorem Turns.length_add_weight_le (h : Turns stream s turns stream' s') :
    turns.length + stream'.weight ≤ stream.weight := by
  induction h with
  | none => simp
  | next hread _ _ ih =>
    have hlighter := Stream.weight_lt hread
    rw [List.length_cons]
    omega

/-- The replies among outcomes. -/
def replies (os : List Outcome) : List Reply :=
  os.filterMap Except.toOption

/-- What is no error is a reply. -/
theorem Summary.statements_eq (os : List Outcome) :
    (ofOutcomes os).statements = (ofOutcomes os).errors + (replies os).length := by
  simp only [ofOutcomes]
  induction os with
  | nil => rfl
  | cons o os ih =>
    cases o with
    | ok reply =>
      have herror : ¬ Outcome.isError (.ok reply) = true := Bool.false_ne_true
      have hreplies : replies (.ok reply :: os) = reply :: replies os := rfl
      rw [List.countP_cons_of_neg herror, hreplies, List.length_cons, List.length_cons, ih]
      rfl
    | error e =>
      have hreplies : replies (.error e :: os) = replies os := rfl
      rw [List.countP_cons_of_pos rfl, hreplies, List.length_cons, ih]
      omega

/-- Every statement that is handled returns. -/
def Returns (text : String) (s : World) : Prop :=
  ∀ turns stream s' statement rest, Turns (.ofText text) s turns stream s' →
    stream.statement? .standard = some (statement, rest) → ∃ o s'', turn statement s' = .ok o s''

theorem Ends.eq_ok {α : Type} {value : α} {text : String} {result : EStateM.Result Fault World α}
    (h : Ends stream s' value result) (hturns : Turns (.ofText text) s turns stream s')
    (hreturns : Returns text s) : result = .ok value s' := by
  cases h with
  | done hread => rfl
  | stopped hread hturn =>
    obtain ⟨o, s'', ho⟩ := hreturns _ _ _ _ _ hturns hread
    cases ho.symm.trans hturn

/-- Every turn takes a token that is no separator, whether its statement is an item or at
    fault, and wherever the fault is. So there are no more turns than such tokens, a run in
    which every statement returns comes to its end, and its summary counts every turn as an
    error or a reply. -/
theorem run_progresses (text : String) (s : World) :
    (∀ (stream rest : Stream) (statement : Program.Statement),
      stream.statement? .standard = some (statement, rest) →
        ∃ skipped l ls, stream.pending = skipped ++ l :: ls ∧
          (∀ k ∈ skipped, Stream.isSeparator k = true) ∧ ¬ Stream.isSeparator l = true ∧
          rest.pending <:+ ls) ∧
    (∀ turns stream s', Turns (.ofText text) s turns stream s' →
      turns.length + stream.weight ≤ (Stream.ofText text).weight) ∧
    ∃ turns stream s' summary, Turns (.ofText text) s turns stream s' ∧
      Ends stream s' summary (run text s) ∧
      (Returns text s → run text s = .ok summary s') ∧
      summary.statements = turns.length ∧
      summary.statements ≤ (Stream.ofText text).weight ∧
      summary.statements = summary.errors + (replies (turns.map Turn.outcome)).length := by
  refine ⟨fun _ _ _ => Stream.statement?_consumes, fun _ _ _ => Turns.length_add_weight_le, ?_⟩
  obtain ⟨turns, stream, s', hturns, hends⟩ := exists_turns text s
  have hcount : (Summary.ofOutcomes (turns.map Turn.outcome)).statements = turns.length :=
    List.length_map _
  have hweight := hturns.length_add_weight_le
  refine ⟨turns, stream, s', _, hturns, hends, hends.eq_ok hturns, hcount, ?_,
    Summary.statements_eq _⟩
  omega

end Abacus.Session
