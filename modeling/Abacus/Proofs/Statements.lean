-- SUMMARY: A text cut into statements one at a time; each takes a token, and parsing sees the same.
import Abacus.Proofs.Faults

/-!
# Statements

The statements of a text are found in one pass over its lexemes. Here they are read one at
a time off a stream, each with what is left behind it (`Stream.statement?`), and these are
the statements of the pass (`Stream.statements_of_some`). Every statement takes at least one
token that is no separator: the first token of an item, or else a token at fault.

Parsing reads the same items, up to the first error, and stops at the same error.
-/

namespace Abacus

open Program (Statement Draft statementsFrom)

variable {table : PrecedenceTable}

namespace Stream

/-- The statement that starts at the next token, and what is left behind it. After an error,
    the token at fault is dropped as well. -/
def statement (table : PrecedenceTable) (s : Stream) : Statement × Stream :=
  match s.item table with
  | .ok i => (.item i, s.after (Item.reader table))
  | .error e => (.fault e, (s.after (Item.reader table)).skip)

/-- The next statement behind separators, if there is one, and what is left behind it. -/
def statement? (table : PrecedenceTable) (s : Stream) : Option (Statement × Stream) :=
  let s := s.skipSeparators
  if s.atEnd then none else some (s.statement table)

/-- The statements that are left on a stream. -/
def statements (table : PrecedenceTable) (s : Stream) : List Statement :=
  statementsFrom table s.stop none s.pending

end Stream

namespace Program

/-! ## Drafts -/

/-- Where what ended at `stop` ends with the lexemes `ls` behind it. -/
def stopAfter (stop : Nat) (ls : List Lexeme) : Nat :=
  (ls.getLast?.map (·.span.stop)).getD stop

theorem stopAfter_cons (stop : Nat) (l : Lexeme) (ls : List Lexeme) :
    stopAfter stop (l :: ls) = stopAfter l.span.stop ls := by
  cases hlast : ls.getLast? <;> simp [stopAfter, List.getLast?_cons, hlast]

/-- While the reader goes on, so does the draft. -/
theorem statementsFrom_run {state state' : ItemReader.State} {ls : List Lexeme}
    (h : (Item.reader table).run? state (tokens ls) = some state') (stop : Nat) (span : Span)
    (rest : List Lexeme) :
    statementsFrom table stop (some ⟨span, state⟩) (ls ++ rest) =
      statementsFrom table stop (some ⟨⟨span.start, stopAfter span.stop ls⟩, state'⟩) rest := by
  induction ls generalizing state span with
  | nil =>
    cases h
    rfl
  | cons l ls ih =>
    obtain ⟨next, habsorb, hrun⟩ := Reader.run?_cons_eq_some.mp h
    have habsorb : ItemReader.absorb? table state l.value = some next := habsorb
    simp only [List.cons_append, statementsFrom, step, habsorb, List.nil_append, ih hrun,
      stopAfter_cons]

/-- Where the reader stops, the draft becomes a statement. -/
theorem statementsFrom_halts {state : ItemReader.State} {rest : List Lexeme}
    (h : (Item.reader table).Halts state (tokens rest)) (stop : Nat) (span : Span) :
    statementsFrom table stop (some ⟨span, state⟩) rest =
      match ItemReader.conclude state (Stream.mk rest stop).peek.value with
      | .ok item => .item ⟨item, span⟩ :: statementsFrom table stop none rest
      | .error cause =>
        .fault ((Stream.mk rest stop).error cause) :: statementsFrom table stop none rest.tail := by
  cases rest with
  | nil =>
    simp only [statementsFrom, finish, Stream.peek]
    cases ItemReader.conclude state none <;> rfl
  | cons l rest =>
    have habsorb : ItemReader.absorb? table state l.value = none := Reader.halts_cons.mp h
    simp only [statementsFrom, step, habsorb, Stream.peek]
    cases ItemReader.conclude state (some l.value) <;> rfl

/-- The first lexeme of an item starts a draft. -/
theorem statementsFrom_start {l : Lexeme} {state : ItemReader.State}
    (h : ItemReader.absorb? table .start l.value = some state) (stop : Nat) (ls : List Lexeme) :
    statementsFrom table stop none (l :: ls) =
      statementsFrom table stop (some ⟨l.span, state⟩) ls := by
  have hl : Stream.isSeparator l = false := by
    rw [Bool.eq_false_iff]
    intro hl
    rw [eq_of_beq hl] at h
    cases ItemReader.eq_of_absorb?_char h
  simp only [statementsFrom, step, enter, hl, h, Bool.false_eq_true, if_false, List.nil_append]

theorem statementsFrom_separator {l : Lexeme} (hl : Stream.isSeparator l = true) (stop : Nat)
    (ls : List Lexeme) :
    statementsFrom table stop none (l :: ls) = statementsFrom table stop none ls := by
  simp only [statementsFrom, step, enter, hl, if_true, List.nil_append]

end Program

/-! ## One statement -/

namespace Stream

open Program

variable {s rest : Stream}

/-- What the reader took is the next statement. -/
theorem statements_of_advance {l : Lexeme} {ls taken rest : List Lexeme}
    {state : ItemReader.State} (hp : s.pending = l :: ls) (hl : ¬ isSeparator l = true)
    (h : (Item.reader table).advance .start s.pending = ⟨taken, state, rest⟩) :
    s.statements table =
      match ItemReader.conclude state (Stream.mk rest s.stop).peek.value with
      | .ok item => .item ⟨item, ⟨l.span.start, stopAfter l.span.start taken⟩⟩ ::
          (Stream.mk rest s.stop).statements table
      | .error cause => .fault ((Stream.mk rest s.stop).error cause) ::
          (Stream.mk rest s.stop).skip.statements table := by
  obtain ⟨hpending, hrun, hhalts⟩ := Reader.advance_eq_iff.mp h
  rw [hp] at hpending
  rw [statements, hp]
  cases taken with
  | nil =>
    cases hrun
    have hrest : rest = l :: ls := hpending.symm
    have habsorb : ItemReader.absorb? table .start l.value = none := by
      rw [hrest] at hhalts
      exact Reader.halts_cons.mp hhalts
    rw [hrest]
    simp only [statementsFrom, Program.step, enter, if_neg hl, habsorb]
    rfl
  | cons k taken =>
    obtain ⟨next, habsorb, hnext⟩ := Reader.run?_cons_eq_some.mp hrun
    rw [List.cons_append] at hpending
    obtain ⟨rfl, rfl⟩ := List.cons.inj hpending
    rw [statementsFrom_start habsorb, statementsFrom_run hnext, statementsFrom_halts hhalts,
      stopAfter_cons]
    rfl

/-- Where no separator stands, a statement starts. -/
theorem statements_of_cons {l : Lexeme} {ls : List Lexeme} (hp : s.pending = l :: ls)
    (hl : ¬ isSeparator l = true) :
    s.statements table = (s.statement table).1 :: (s.statement table).2.statements table := by
  have hpeek : s.peek.span.start = l.span.start := by rw [peek, hp]
  rw [statements_of_advance hp hl rfl]
  split
  case h_1 item hconclude =>
    have hitem : s.item table = .ok ⟨item, s.extent (Item.reader table)⟩ :=
      item_eq_ok.mpr ⟨read_eq_ok.mpr hconclude, rfl⟩
    rw [statement, hitem, extent, hpeek]
    rfl
  case h_2 cause hconclude =>
    have hread : s.read (Item.reader table) = .error ((s.after (Item.reader table)).error cause) :=
      congrArg (Except.mapError (s.after (Item.reader table)).error) hconclude
    rw [statement, item, hread]
    rfl

theorem statements_of_separators {skipped ls : List Lexeme} (hp : s.pending = skipped ++ ls)
    (h : ∀ k ∈ skipped, isSeparator k = true) :
    s.statements table = (Stream.mk ls s.stop).statements table := by
  rw [statements, hp]
  clear hp
  induction skipped with
  | nil => rfl
  | cons k skipped ih =>
    obtain ⟨hk, hskipped⟩ := List.forall_mem_cons.mp h
    rw [List.cons_append, statementsFrom_separator hk]
    exact ih hskipped

/-- Only separators are left, or the next statement starts at the first other token. -/
theorem statement?_cases (table : PrecedenceTable) (s : Stream) :
    (s.statement? table = none ∧ ∀ k ∈ s.pending, isSeparator k = true) ∨
    ∃ skipped l ls, s.pending = skipped ++ l :: ls ∧ (∀ k ∈ skipped, isSeparator k = true) ∧
      ¬ isSeparator l = true ∧
      s.statement? table = some ((Stream.mk (l :: ls) s.stop).statement table) := by
  have hall : s.pending.takeWhile isSeparator ++ s.pending.dropWhile isSeparator = s.pending :=
    List.takeWhile_append_dropWhile
  have hskipped : ∀ k ∈ s.pending.takeWhile isSeparator, isSeparator k = true :=
    List.all_eq_true.mp List.all_takeWhile
  have hhead := List.head?_dropWhile_not isSeparator s.pending
  unfold statement? skipSeparators
  cases hdrop : s.pending.dropWhile isSeparator with
  | nil =>
    rw [hdrop, List.append_nil] at hall
    rw [hall] at hskipped
    exact .inl ⟨rfl, hskipped⟩
  | cons l ls =>
    rw [hdrop] at hall hhead
    exact .inr ⟨_, l, ls, hall.symm, hskipped, Bool.eq_false_iff.mp hhead, rfl⟩

theorem statements_of_none (h : s.statement? table = none) : s.statements table = [] := by
  obtain ⟨-, hskipped⟩ | ⟨skipped, l, ls, -, -, -, hsome⟩ := statement?_cases table s
  · rw [statements_of_separators (List.append_nil s.pending).symm hskipped]
    rfl
  · cases hsome.symm.trans h

/-- The statements of a stream are found one by one. -/
theorem statements_of_some {statement : Statement} (h : s.statement? table = some (statement, rest)) :
    s.statements table = statement :: rest.statements table := by
  obtain ⟨hnone, -⟩ | ⟨skipped, l, ls, hp, hskipped, hl, hsome⟩ := statement?_cases table s
  · cases hnone.symm.trans h
  · have hstatement : (Stream.mk (l :: ls) s.stop).statement table = (statement, rest) :=
      Option.some.inj (hsome.symm.trans h)
    rw [statements_of_separators hp hskipped, statements_of_cons rfl hl, hstatement]

/-! ## Progress -/

/-- A statement takes the token it starts at. -/
theorem statement_suffix {l : Lexeme} {ls : List Lexeme} (hp : s.pending = l :: ls) :
    (s.statement table).2.pending <:+ ls := by
  have hall := (Item.reader table).taken_append_rest (Item.reader table).start s.pending
  have hafter : (s.after (Item.reader table)).pending <:+ l :: ls := by
    rw [← hp]
    exact ⟨_, hall⟩
  have hcases := List.suffix_cons_iff.mp hafter
  unfold statement
  cases hitem : s.item table with
  | ok i =>
    have hlength := after_length_lt hitem
    rcases hcases with hstuck | hsuffix
    · rw [hstuck, hp] at hlength
      exact absurd hlength (Nat.lt_irrefl _)
    · exact hsuffix
  | error e =>
    rcases hcases with hstuck | hsuffix
    · simp only [skip, hstuck, List.tail_cons, List.suffix_refl]
    · exact (List.tail_suffix _).trans hsuffix

/-- The tokens that are left and are no separators. -/
def weight (s : Stream) : Nat :=
  s.pending.countP (!isSeparator ·)

/-- The next statement takes the separators before it and at least one other token. -/
theorem statement?_consumes {statement : Statement}
    (h : s.statement? table = some (statement, rest)) :
    ∃ skipped l ls, s.pending = skipped ++ l :: ls ∧ (∀ k ∈ skipped, isSeparator k = true) ∧
      ¬ isSeparator l = true ∧ rest.pending <:+ ls := by
  obtain ⟨hnone, -⟩ | ⟨skipped, l, ls, hp, hskipped, hl, hsome⟩ := statement?_cases table s
  · cases hnone.symm.trans h
  · have hrest : ((Stream.mk (l :: ls) s.stop).statement table).2 = rest :=
      congrArg Prod.snd (Option.some.inj (hsome.symm.trans h))
    refine ⟨skipped, l, ls, hp, hskipped, hl, ?_⟩
    rw [← hrest]
    exact statement_suffix rfl

theorem weight_lt {statement : Statement} (h : s.statement? table = some (statement, rest)) :
    rest.weight < s.weight := by
  obtain ⟨skipped, l, ls, hp, -, hl, hsuffix⟩ := statement?_consumes h
  have hle : rest.weight ≤ ls.countP (!isSeparator ·) := hsuffix.sublist.countP_le
  rw [weight.eq_def s, hp, List.countP_append, List.countP_cons_of_pos (by simp [hl])]
  omega

end Stream

/-! ## Parsing -/

namespace Program

/-- The items left on a stream up to the first error, and that error if there is one. -/
def itemsAndError (table : PrecedenceTable) (s : Stream) :
    List (Located Item) × Option ParseError :=
  match _hp : s.pending with
  | [] => ([], none)
  | l :: ls =>
    if Stream.isSeparator l then itemsAndError table { s with pending := ls }
    else match _hi : s.item table with
      | .error e => ([], some e)
      | .ok i =>
        let more := itemsAndError table (s.after (Item.reader table))
        (i :: more.1, more.2)
termination_by s.pending.length
decreasing_by
  · simp [_hp]
  · exact Stream.after_length_lt _hi

/-- Parsing gives these items if there is no error, and else the error. -/
theorem items_eq (table : PrecedenceTable) (s : Stream) :
    items table s =
      match itemsAndError table s with
      | (is, none) => .ok is
      | (_, some e) => .error e := by
  fun_induction itemsAndError table s with
  | case1 s hp =>
    obtain ⟨pending, stop⟩ := s
    subst hp
    rw [items]
  | case2 s l ls hp hl ih =>
    obtain ⟨pending, stop⟩ := s
    subst hp
    rw [items]
    simp only [hl, if_true]
    exact ih
  | case3 s l ls hp hl e hi =>
    rw [items_of_cons hp hl, hi]
  | case4 s l ls hp hl i hi more ih =>
    rw [items_of_cons hp hl, hi, ih]
    unfold more
    rcases itemsAndError table (s.after (Item.reader table)) with ⟨is, _ | e⟩
    · rfl
    · rfl

/-- The statements start with the items up to the first error, and with that error. -/
theorem statements_eq_items (table : PrecedenceTable) (s : Stream) :
    ∃ rest, s.statements table = (itemsAndError table s).1.map .item ++
      match (itemsAndError table s).2 with
      | none => []
      | some e => .fault e :: rest := by
  fun_induction itemsAndError table s with
  | case1 s hp =>
    refine ⟨[], ?_⟩
    rw [Stream.statements, hp]
    rfl
  | case2 s l ls hp hl ih =>
    obtain ⟨rest, hrest⟩ := ih
    refine ⟨rest, ?_⟩
    rw [Stream.statements, hp, statementsFrom_separator hl]
    exact hrest
  | case3 s l ls hp hl e hi =>
    refine ⟨(s.after (Item.reader table)).skip.statements table, ?_⟩
    rw [Stream.statements_of_cons hp hl, Stream.statement, hi]
    rfl
  | case4 s l ls hp hl i hi more ih =>
    obtain ⟨rest, hrest⟩ := ih
    refine ⟨rest, ?_⟩
    rw [Stream.statements_of_cons hp hl, Stream.statement, hi]
    exact congrArg (.item i :: ·) hrest

theorem statements_of_ok {s : Stream} {is : List (Located Item)} (h : items table s = .ok is) :
    s.statements table = is.map .item := by
  obtain ⟨rest, hrest⟩ := statements_eq_items table s
  rw [items_eq] at h
  rcases hread : itemsAndError table s with ⟨is', _ | e⟩
  · rw [hread] at h hrest
    cases h
    exact hrest.trans (List.append_nil _)
  · rw [hread] at h
    cases h

theorem statements_of_error {s : Stream} {e : ParseError} (h : items table s = .error e) :
    ∃ is rest, itemsAndError table s = (is, some e) ∧
      s.statements table = is.map .item ++ .fault e :: rest := by
  obtain ⟨rest, hrest⟩ := statements_eq_items table s
  rw [items_eq] at h
  rcases hread : itemsAndError table s with ⟨is, _ | e'⟩
  · rw [hread] at h
    cases h
  · rw [hread] at h hrest
    cases h
    exact ⟨is, rest, rfl, hrest⟩

end Program

end Abacus
