-- SUMMARY: Precedence climbing, and that it builds the tree of the chain it reads.
import Abacus.Proofs.Grammar
import Mathlib.Algebra.Group.Int.Defs

/-!
# Precedence climbing

Climbing reads a chain with a loop and a recursion instead of a stack. The loop
takes operators that bind at least as tightly as a threshold. Where the operator
behind an operand binds tighter than the one before it, the operand is first
climbed from, with a threshold one above the operator before it.

Thresholds have 32 bits, so that the one above the greatest precedence does not
exist. It is never asked for: something binds tighter than the operator below it
(`Climbs.ne_overflow`). What is climbed is a chain, and its tree is the one the
chain's last minimal operator splits (`Climbs.parsed_iff`).
-/

namespace Abacus

open ExprReader Chain

/-- The greatest precedence that can be installed. -/
def maxPrecedence : Int := 2 ^ 31 - 1

/-- The precedences of a table are integers of 32 bits. -/
def PrecedenceTable.Narrow (table : PrecedenceTable) : Prop :=
  ∀ c p, table.get? c = some p → -2 ^ 31 ≤ p ∧ p ≤ maxPrecedence

/-- The precedence of the token that comes next, in use as an operator or not. -/
def nextPrecedence? (table : PrecedenceTable) : List Token → Option Int
  | .char c :: _ => table.get? c
  | _ => none

inductive Outcome where
  | parsed (e : Expr) (rest : List Token)
  /-- An operator has no operand behind it. -/
  | refused
  /-- A threshold does not fit. -/
  | overflow

/-- Climbing from a left operand on, with a threshold. -/
inductive Climbs (table : PrecedenceTable) : Int → Expr → List Token → Outcome → Prop where
  | stop {min : Int} {lhs : Expr} {ts : List Token}
      (hnext : ∀ q, nextPrecedence? table ts = some q → q < min) :
      Climbs table min lhs ts (.parsed lhs ts)
  | refused {min p : Int} {lhs : Expr} {c : Char} {ts : List Token}
      (hop : table.get? c = some p) (hmin : min ≤ p)
      (hoperand : ∀ e rest, ¬ Derives table (.primary e) ts rest) :
      Climbs table min lhs (.char c :: ts) .refused
  | level {min p : Int} {lhs rhs : Expr} {c : Char} {ts mid : List Token} {outcome : Outcome}
      (hop : table.get? c = some p) (hmin : min ≤ p)
      (hoperand : Derives table (.primary rhs) ts mid)
      (hnext : ∀ q, nextPrecedence? table mid = some q → q ≤ p)
      (hrest : Climbs table min (.binary c lhs rhs) mid outcome) :
      Climbs table min lhs (.char c :: ts) outcome
  | overflow {min p q : Int} {lhs rhs : Expr} {c : Char} {ts mid : List Token}
      (hop : table.get? c = some p) (hmin : min ≤ p)
      (hoperand : Derives table (.primary rhs) ts mid)
      (hnext : nextPrecedence? table mid = some q) (hlt : p < q)
      (hmax : maxPrecedence < p + 1) :
      Climbs table min lhs (.char c :: ts) .overflow
  | raise {min p q : Int} {lhs rhs rhs' : Expr} {c : Char} {ts mid mid' : List Token}
      {outcome : Outcome} (hop : table.get? c = some p) (hmin : min ≤ p)
      (hoperand : Derives table (.primary rhs) ts mid)
      (hnext : nextPrecedence? table mid = some q) (hlt : p < q)
      (hmax : p + 1 ≤ maxPrecedence)
      (hinner : Climbs table (p + 1) rhs mid (.parsed rhs' mid'))
      (hrest : Climbs table min (.binary c lhs rhs') mid' outcome) :
      Climbs table min lhs (.char c :: ts) outcome
  | fail {min p q : Int} {lhs rhs : Expr} {c : Char} {ts mid : List Token} {outcome : Outcome}
      (hop : table.get? c = some p) (hmin : min ≤ p)
      (hoperand : Derives table (.primary rhs) ts mid)
      (hnext : nextPrecedence? table mid = some q) (hlt : p < q)
      (hmax : p + 1 ≤ maxPrecedence)
      (hinner : Climbs table (p + 1) rhs mid outcome)
      (hfails : ∀ e rest, outcome ≠ .parsed e rest) :
      Climbs table min lhs (.char c :: ts) outcome

variable {table : PrecedenceTable} {min p : Int} {lhs e : Expr} {c : Char}
variable {ss : List Segment} {ts rest : List Token} {outcome : Outcome}

theorem nextPrecedence?_eq_some :
    nextPrecedence? table ts = some p ↔ ∃ c rest, ts = .char c :: rest ∧ table.get? c = some p := by
  constructor
  · intro h
    cases ts with
    | nil => cases h
    | cons t ts =>
      cases t with
      | char c => exact ⟨c, ts, rfl, h⟩
      | _ => cases h
  · rintro ⟨c, rest, rfl, h⟩
    exact h

theorem next_lt_or_le (table : PrecedenceTable) (min : Int) (ts : List Token) :
    (∀ q, nextPrecedence? table ts = some q → q < min) ∨
      ∃ q, nextPrecedence? table ts = some q ∧ min ≤ q := by
  cases nextPrecedence? table ts with
  | none => exact .inl (by rintro q ⟨⟩)
  | some q =>
    by_cases hq : q < min
    · exact .inl (by rintro q ⟨⟩; exact hq)
    · exact .inr ⟨q, rfl, by omega⟩

theorem PrecedenceTable.Narrow.next_le (h : table.Narrow)
    (hnext : nextPrecedence? table ts = some p) : p ≤ maxPrecedence := by
  obtain ⟨c, rest, -, hc⟩ := nextPrecedence?_eq_some.mp hnext
  exact (h c p hc).2

/-- The threshold one above an operator's precedence is asked for only where
    something binds tighter. -/
theorem Climbs.ne_overflow (htable : table.Narrow) (h : Climbs table min lhs ts outcome) :
    outcome ≠ .overflow := by
  induction h with
  | stop hnext => simp
  | refused hop hmin hoperand => simp
  | level hop hmin hoperand hnext hrest ih => exact ih
  | overflow hop hmin hoperand hnext hlt hmax =>
    have hle := htable.next_le hnext
    omega
  | raise hop hmin hoperand hnext hlt hmax hinner hrest ihi ihr => exact ihr
  | fail hop hmin hoperand hnext hlt hmax hinner hfails ih => exact ih

theorem operator?_eq_some : operator? table c = some p ↔ table.get? c = some p ∧ 0 ≤ p := by
  rw [operator?, Option.filter_eq_some_iff]
  simp

/-- Every operator of a chain is in use. -/
theorem Derives.operators (h : Derives table (.segments ss) ts rest) :
    ∀ s ∈ ss, 0 ≤ s.precedence := by
  induction ss generalizing ts with
  | nil => simp
  | cons s ss ih =>
    cases h with
    | segment hop hoperand hss =>
      exact List.forall_mem_cons.mpr ⟨(operator?_eq_some.mp hop).2, ih hss⟩

/-- The first segment of a chain is the operator that comes next. -/
theorem Derives.nextPrecedence? {s : Segment} (h : Derives table (.segments (s :: ss)) ts rest) :
    nextPrecedence? table ts = some s.precedence := by
  cases h with
  | segment hop hoperand hss => exact (operator?_eq_some.mp hop).1

/-- The segments that climbing with a threshold takes: all that come before the
    first operator below it. -/
structure Taken (table : PrecedenceTable) (min : Int) (ss : List Segment)
    (ts rest : List Token) : Prop where
  derives : Derives table (.segments ss) ts rest
  le : ∀ s ∈ ss, min ≤ s.precedence
  next : ∀ q, nextPrecedence? table rest = some q → q < min

/-- The precedence of a chain's first segment is bounded where the next token's is. -/
theorem Taken.head_le (h : Taken table min ss ts rest)
    (hnext : ∀ q, nextPrecedence? table ts = some q → q ≤ p) :
    ∀ t, ss.head? = some t → t.precedence ≤ p := by
  intro t ht
  cases ss with
  | nil => cases ht
  | cons s ss =>
    cases ht
    exact hnext _ h.derives.nextPrecedence?

/-- What is climbed is a chain, grouped at its last minimal operator. -/
theorem Climbs.taken (h : Climbs table min lhs ts (.parsed e rest)) (hmin : 0 ≤ min) :
    ∃ ss, Taken table min ss ts rest ∧ e = build lhs ss := by
  generalize ho : Outcome.parsed e rest = outcome at h
  induction h generalizing e rest with
  | @stop min lhs ts hnext =>
    cases ho
    exact ⟨[], ⟨.done ts, by simp, hnext⟩, (build_nil lhs).symm⟩
  | refused hop hle hoperand => cases ho
  | @level min p lhs rhs c ts mid outcome hop hle hoperand hnext hrest ih =>
    obtain ⟨ss, htaken, rfl⟩ := ih hmin ho
    have hop := operator?_eq_some.mpr ⟨hop, by omega⟩
    refine ⟨⟨c, p, rhs⟩ :: ss, ⟨.segment hop hoperand htaken.derives,
      List.forall_mem_cons.mpr ⟨hle, htaken.le⟩, htaken.next⟩, ?_⟩
    have hbuild := build_cons lhs ⟨c, p, rhs⟩ [] ss (by simp) (htaken.head_le hnext)
    rw [List.nil_append, build_nil] at hbuild
    exact hbuild.symm
  | overflow hop hle hoperand hnext hlt hmax => cases ho
  | @raise min p q lhs rhs rhs' c ts mid mid' outcome hop hle hoperand hnext hlt hmax hinner
      hrest ihi ihr =>
    obtain ⟨inner, htight, rfl⟩ := ihi (by omega) rfl
    obtain ⟨ss, hloose, rfl⟩ := ihr hmin ho
    have hop := operator?_eq_some.mpr ⟨hop, by omega⟩
    have hss := Derives.segments_append.mpr ⟨mid', htight.derives, hloose.derives⟩
    refine ⟨⟨c, p, rhs⟩ :: (inner ++ ss), ⟨.segment hop hoperand hss, ?_, hloose.next⟩, ?_⟩
    · intro s hs
      rcases List.mem_cons.mp hs with rfl | hs
      · exact hle
      rcases List.mem_append.mp hs with hs | hs
      · have hlt := htight.le s hs
        omega
      · exact hloose.le s hs
    · have hhead := hloose.head_le (p := p) fun q hq => Int.lt_add_one_iff.mp (htight.next q hq)
      exact (build_cons lhs ⟨c, p, rhs⟩ inner ss htight.le hhead).symm
  | fail hop hle hoperand hnext hlt hmax hinner hfails ih => exact absurd ho.symm (hfails e rest)

/-- Splits what is taken behind an operator into what binds tighter and the rest. -/
theorem Taken.split (h : Taken table min ss ts rest) (hmin : min ≤ p) :
    ∃ mid, Taken table (p + 1) (tight p ss) ts mid ∧ Taken table min (loose p ss) mid rest := by
  have hderives := h.derives
  rw [← tight_append_loose p ss] at hderives
  obtain ⟨mid, hinner, houter⟩ := Derives.segments_append.mp hderives
  refine ⟨mid, ⟨hinner, fun s hs => lt_of_mem_tight hs, fun q hq => ?_⟩,
    ⟨houter, fun s hs => h.le s ((List.dropWhile_sublist _).mem hs), h.next⟩⟩
  cases hloose : loose p ss with
  | nil =>
    rw [hloose] at houter
    cases houter with
    | done =>
      have := h.next q hq
      omega
  | cons s outer =>
    rw [hloose] at houter
    rw [houter.nextPrecedence?] at hq
    cases hq
    have : s.precedence ≤ p := le_of_head?_loose (by rw [hloose]; rfl)
    omega

/-- Climbing takes every chain. -/
theorem Taken.climbs (htable : table.Narrow) (h : Taken table min ss ts rest) (lhs : Expr) :
    Climbs table min lhs ts (.parsed (build lhs ss) rest) := by
  induction hn : ss.length using Nat.strongRecOn generalizing min lhs ts rest ss with
  | ind n ih =>
    obtain ⟨hderives, hle, hnext⟩ := h
    cases hderives with
    | done =>
      rw [build_nil]
      exact .stop hnext
    | @segment c p operand ss ts mid rest hop hoperand hss =>
      obtain ⟨hget, -⟩ := operator?_eq_some.mp hop
      obtain ⟨hmin : min ≤ p, hle⟩ := List.forall_mem_cons.mp hle
      obtain ⟨mid', htight, hloose⟩ := Taken.split ⟨hss, hle, hnext⟩ hmin
      have hlength := congrArg List.length (tight_append_loose p ss)
      rw [List.length_append] at hlength
      rw [List.length_cons] at hn
      have hinner := ih _ (by omega) htight operand rfl
      have hrest := ih _ (by omega) hloose (.binary c lhs (build operand (tight p ss))) rfl
      have hbuild : build lhs (⟨c, p, operand⟩ :: ss) =
          build (.binary c lhs (build operand (tight p ss))) (loose p ss) :=
        build_tight lhs ⟨c, p, operand⟩ ss
      rw [hbuild]
      -- The operand is climbed from only if something behind it binds tighter.
      by_cases hcase : tight p ss = []
      · rw [hcase, build_nil] at hrest ⊢
        rw [hcase] at htight
        cases htight.derives with
        | done =>
          have hnext q (hq : nextPrecedence? table mid = some q) : q ≤ p :=
            Int.lt_add_one_iff.mp (htight.next q hq)
          exact .level hget hmin hoperand hnext hrest
      · obtain ⟨t, inner, hcons⟩ := List.exists_cons_of_ne_nil hcase
        rw [hcons] at htight
        have hlt : p < t.precedence := htight.le t List.mem_cons_self
        have hnext := htight.derives.nextPrecedence?
        have hmax := htable.next_le hnext
        exact .raise hget hmin hoperand hnext hlt (by omega) hinner hrest

/-- Climbing from an operand comes to an end. -/
theorem exists_climbs (table : PrecedenceTable) (hmin : 0 ≤ min) (lhs : Expr) (ts : List Token) :
    ∃ outcome, Climbs table min lhs ts outcome := by
  induction hn : ts.length using Nat.strongRecOn generalizing min lhs ts with
  | ind n ih =>
    obtain hstop | ⟨p, hp, hle⟩ := next_lt_or_le table min ts
    · exact ⟨_, .stop hstop⟩
    obtain ⟨c, ts, rfl, hget⟩ := nextPrecedence?_eq_some.mp hp
    by_cases hoperand : ∃ rhs mid, Derives table (.primary rhs) ts mid
    case neg => exact ⟨_, .refused hget hle fun e rest h => hoperand ⟨e, rest, h⟩⟩
    obtain ⟨rhs, mid, hoperand⟩ := hoperand
    have hmid := hoperand.length_lt
    rw [List.length_cons] at hn
    obtain hnext | ⟨q, hq, hlt⟩ := next_lt_or_le table (p + 1) mid
    · have hnext q (hq : nextPrecedence? table mid = some q) : q ≤ p :=
        Int.lt_add_one_iff.mp (hnext q hq)
      obtain ⟨outcome, hrest⟩ := ih mid.length (by omega) hmin (.binary c lhs rhs) mid rfl
      exact ⟨outcome, .level hget hle hoperand hnext hrest⟩
    by_cases hmax : maxPrecedence < p + 1
    · exact ⟨_, .overflow hget hle hoperand hq hlt hmax⟩
    have hmax : p + 1 ≤ maxPrecedence := by omega
    have hp : 0 ≤ p + 1 := by omega
    obtain ⟨outcome, hinner⟩ := ih mid.length (by omega) hp rhs mid rfl
    cases outcome with
    | parsed rhs' mid' =>
      obtain ⟨ss, htaken, -⟩ := hinner.taken hp
      have hmid' := htaken.derives.length_le
      obtain ⟨outcome, hrest⟩ := ih mid'.length (by omega) hmin (.binary c lhs rhs') mid' rfl
      exact ⟨outcome, .raise hget hle hoperand hq hlt hmax hinner hrest⟩
    | refused => exact ⟨_, .fail hget hle hoperand hq hlt hmax hinner (by simp)⟩
    | overflow => exact ⟨_, .fail hget hle hoperand hq hlt hmax hinner (by simp)⟩

/-- With the least threshold, climbing takes a chain as far as it goes. -/
theorem taken_zero_iff :
    Taken table 0 ss ts rest ↔ Derives table (.segments ss) ts rest ∧ Stops table rest := by
  constructor
  · rintro ⟨hderives, -, hnext⟩
    refine ⟨hderives, fun c hc => Option.eq_none_iff_forall_ne_some.mpr fun p hop => ?_⟩
    obtain ⟨hget, hp⟩ := operator?_eq_some.mp hop
    obtain ⟨rest, rfl⟩ := List.head?_eq_some_iff.mp hc
    have hlt := hnext p hget
    omega
  · rintro ⟨hderives, hstops⟩
    refine ⟨hderives, fun s hs => hderives.operators s hs, fun q hq => ?_⟩
    obtain ⟨c, rest, rfl, hget⟩ := nextPrecedence?_eq_some.mp hq
    by_cases hp : 0 ≤ q
    · have hop := operator?_eq_some.mpr ⟨hget, hp⟩
      rw [hstops c rfl] at hop
      cases hop
    · omega

/-- Climbing reads the grammar as the reader does, with the same tree. -/
theorem Climbs.parsed_iff (htable : table.Narrow) :
    Climbs table 0 lhs ts (.parsed e rest) ↔
      ∃ ss, Derives table (.segments ss) ts rest ∧ Stops table rest ∧ e = build lhs ss := by
  constructor
  · intro h
    obtain ⟨ss, htaken, he⟩ := h.taken (Int.le_refl 0)
    obtain ⟨hderives, hstops⟩ := taken_zero_iff.mp htaken
    exact ⟨ss, hderives, hstops, he⟩
  · rintro ⟨ss, hderives, hstops, rfl⟩
    exact (taken_zero_iff.mpr ⟨hderives, hstops⟩).climbs htable lhs

/-- Climbing from a primary on reads an expression. -/
theorem Derives.expression_iff_climbs (htable : table.Narrow) :
    Derives table (.expression e) ts rest ↔
      ∃ first mid, Derives table (.primary first) ts mid ∧
        Climbs table 0 first mid (.parsed e rest) := by
  rw [Derives.expression_iff]
  constructor
  · rintro ⟨first, mid, ss, hfirst, hrest⟩
    exact ⟨first, mid, hfirst, (Climbs.parsed_iff htable).mpr ⟨ss, hrest⟩⟩
  · rintro ⟨first, mid, hfirst, hclimbs⟩
    obtain ⟨ss, hrest⟩ := (Climbs.parsed_iff htable).mp hclimbs
    exact ⟨first, mid, ss, hfirst, hrest⟩

/-- For every table and every stream, the reader returns an expression exactly if
    the stream starts with a chain that no operator follows. The expression is
    the chain's tree, and the stream is left behind the chain. Precedence
    climbing does the same, and no threshold of it overflows. -/
theorem Stream.reads_reference_tree (table : PrecedenceTable) (s : Stream) :
    (∀ e rest,
      s.read (Expr.reader table) = .ok e ∧ tokens (s.after (Expr.reader table)).pending = rest ↔
        ∃ first mid ss, Derives table (.primary first) (tokens s.pending) mid ∧
          Derives table (.segments ss) mid rest ∧ Stops table rest ∧ e = build first ss) ∧
    (table.Narrow →
      (∀ e rest,
        s.read (Expr.reader table) = .ok e ∧ tokens (s.after (Expr.reader table)).pending = rest ↔
          ∃ first mid, Derives table (.primary first) (tokens s.pending) mid ∧
            Climbs table 0 first mid (.parsed e rest)) ∧
      ∀ first ts, (∃ outcome, Climbs table 0 first ts outcome) ∧
        ¬ Climbs table 0 first ts .overflow) := by
  refine ⟨fun e rest => ?_, fun htable => ⟨fun e rest => ?_, fun first ts => ⟨?_, ?_⟩⟩⟩
  · rw [Stream.read_eq_ok_iff, Derives.expression_iff]
  · rw [Stream.read_eq_ok_iff, Derives.expression_iff_climbs htable]
  · exact exists_climbs table (Int.le_refl 0) first ts
  · intro h
    exact h.ne_overflow htable rfl

/-- A table that uses the whole range of precedences. -/
def PrecedenceTable.extreme : PrecedenceTable :=
  ((empty.install '+' 0).install '^' maxPrecedence).install '-' (-1)

/-- The text `x + y ^ z - w`, where `-` is not in use. -/
def Stream.extreme : Stream :=
  ⟨[⟨.ident "x", ⟨0, 1⟩⟩, ⟨.char '+', ⟨2, 3⟩⟩, ⟨.ident "y", ⟨4, 5⟩⟩, ⟨.char '^', ⟨6, 7⟩⟩,
    ⟨.ident "z", ⟨8, 9⟩⟩, ⟨.char '-', ⟨10, 11⟩⟩, ⟨.ident "w", ⟨12, 13⟩⟩], 13⟩

theorem Stream.reads_reference_tree_at_extreme :
    PrecedenceTable.extreme.Narrow ∧
      ∃ first mid, Derives .extreme (.primary first) (tokens Stream.extreme.pending) mid ∧
        Climbs .extreme 0 first mid
          (.parsed (.binary '+' (.var "x") (.binary '^' (.var "y") (.var "z")))
            [.char '-', .ident "w"]) := by
  have hnarrow : PrecedenceTable.extreme.Narrow := by
    intro c p hp
    simp only [PrecedenceTable.extreme, PrecedenceTable.get?_install] at hp
    split at hp
    · cases hp; decide
    split at hp
    · cases hp; decide
    split at hp
    · cases hp; decide
    cases hp
  refine ⟨hnarrow, ?_⟩
  obtain ⟨-, hclimbing⟩ := Stream.reads_reference_tree .extreme Stream.extreme
  exact ((hclimbing hnarrow).1 _ _).mp ⟨rfl, rfl⟩

end Abacus
