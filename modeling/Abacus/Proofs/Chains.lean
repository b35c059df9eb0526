-- SUMMARY: Chains of operands, grouped by precedence, and the stack that groups them.
import Abacus.Read.Expr

/-!
# Chains

A chain is a first operand and any number of segments, each an operator with the
operand after it. It is grouped by its last operator of minimal precedence, and
the two sides are grouped in the same way (`Chain.build`).

Reading goes from left to right and never looks for that operator. What is read
satisfies a recurrence instead: the first segment takes all tighter ones after
it as its right operand, and the result is the first operand of the rest
(`Chain.build_cons`). From it follows what the reader's stack comes to.
-/

namespace Abacus

namespace Chain

/-- An operator and its right operand. -/
structure Segment where
  op         : Char
  precedence : Int
  operand    : Expr
deriving Repr

/-- The last segment of minimal precedence, with the segments before and after it. -/
def pivot : List Segment → Option (List Segment × Segment × List Segment)
  | [] => none
  | s :: ss =>
    match pivot ss with
    | none => some ([], s, [])
    | some (before, p, after) =>
      if p.precedence ≤ s.precedence then some (s :: before, p, after) else some ([], s, ss)

/-- A segment binds no tighter than those before it, and less than those after. -/
structure Splits (before : List Segment) (p : Segment) (after : List Segment) : Prop where
  before_le : ∀ s ∈ before, p.precedence ≤ s.precedence
  after_lt : ∀ s ∈ after, p.precedence < s.precedence

theorem eq_nil_of_pivot {ss : List Segment} (h : pivot ss = none) : ss = [] := by
  cases ss with
  | nil => rfl
  | cons s ss =>
    rw [pivot] at h
    split at h
    · cases h
    · split at h <;> cases h

theorem pivot_eq_some {ss before after : List Segment} {p : Segment}
    (h : pivot ss = some (before, p, after)) :
    ss = before ++ p :: after ∧ Splits before p after := by
  induction ss generalizing before p after with
  | nil => cases h
  | cons s ss ih =>
    rw [pivot] at h
    cases hp : pivot ss with
    | none =>
      rw [hp] at h
      cases h
      rw [eq_nil_of_pivot hp]
      exact ⟨rfl, by simp, by simp⟩
    | some split =>
      obtain ⟨b, q, a⟩ := split
      obtain ⟨rfl, hsplits⟩ := ih hp
      rw [hp] at h
      dsimp only at h
      split at h
      case isTrue hle =>
        cases h
        exact ⟨rfl, List.forall_mem_cons.mpr ⟨hle, hsplits.before_le⟩, hsplits.after_lt⟩
      case isFalse hlt =>
        cases h
        refine ⟨rfl, by simp, fun t ht => ?_⟩
        rcases List.mem_append.mp ht with ht | ht
        · have := hsplits.before_le t ht
          omega
        · rcases List.mem_cons.mp ht with rfl | ht
          · omega
          · have := hsplits.after_lt t ht
            omega

/-- There is only one way to split at the last minimal operator. -/
theorem pivot_of_splits {before after : List Segment} {p : Segment}
    (h : Splits before p after) : pivot (before ++ p :: after) = some (before, p, after) := by
  induction before with
  | nil =>
    rw [List.nil_append, pivot]
    cases hp : pivot after with
    | none => rw [eq_nil_of_pivot hp]
    | some split =>
      obtain ⟨b, q, a⟩ := split
      obtain ⟨rfl, -⟩ := pivot_eq_some hp
      have hlt := h.after_lt q (by simp)
      dsimp only
      rw [if_neg (by omega)]
  | cons s before ih =>
    obtain ⟨hs, hbefore⟩ := List.forall_mem_cons.mp h.before_le
    rw [List.cons_append, pivot, ih ⟨hbefore, h.after_lt⟩]
    dsimp only
    rw [if_pos hs]

/-- The tree of a chain: split at the last operator of minimal precedence. -/
def build (first : Expr) (ss : List Segment) : Expr :=
  match _h : pivot ss with
  | none => first
  | some (before, p, after) => .binary p.op (build first before) (build p.operand after)
termination_by ss.length
decreasing_by
  all_goals
    rw [(pivot_eq_some _h).1, List.length_append, List.length_cons]
    omega

@[simp] theorem build_nil (first : Expr) : build first [] = first := by
  rw [build]
  rfl

theorem build_of_splits {before after : List Segment} {p : Segment} (first : Expr)
    (h : Splits before p after) :
    build first (before ++ p :: after) =
      .binary p.op (build first before) (build p.operand after) := by
  rw [build]
  have hp := pivot_of_splits h
  split
  case h_1 heq => rw [hp] at heq; cases heq
  case h_2 b q a heq => rw [hp] at heq; cases heq; rfl

/-- The first segment takes the tighter ones after it as its right operand, and
    the result is the first operand of the rest. -/
theorem build_cons (first : Expr) (s : Segment) (tight rest : List Segment)
    (htight : ∀ t ∈ tight, s.precedence < t.precedence)
    (hrest : ∀ t, rest.head? = some t → t.precedence ≤ s.precedence) :
    build first (s :: (tight ++ rest)) =
      build (.binary s.op first (build s.operand tight)) rest := by
  -- Both sides split at the pivot of the rest; the induction is on what comes before it.
  induction hn : rest.length using Nat.strongRecOn generalizing rest with
  | ind n ih =>
    cases hp : pivot rest with
    | none =>
      rw [eq_nil_of_pivot hp, List.append_nil, build_nil]
      have hsplits : Splits [] s tight := ⟨by simp, htight⟩
      rw [← List.nil_append (s :: tight), build_of_splits first hsplits, build_nil]
    | some split =>
      obtain ⟨before, p, after⟩ := split
      obtain ⟨rfl, hsplits⟩ := pivot_eq_some hp
      have hp : p.precedence ≤ s.precedence := by
        cases before with
        | nil => exact hrest p rfl
        | cons t before =>
          have hpt := hsplits.before_le t List.mem_cons_self
          have hts := hrest t rfl
          omega
      have hsplits' : Splits (s :: (tight ++ before)) p after := by
        refine ⟨List.forall_mem_cons.mpr ⟨hp, fun t ht => ?_⟩, hsplits.after_lt⟩
        rcases List.mem_append.mp ht with ht | ht
        · have := htight t ht
          omega
        · exact hsplits.before_le t ht
      have hbefore : build first (s :: (tight ++ before)) =
          build (.binary s.op first (build s.operand tight)) before := by
        refine ih before.length (by simp [← hn]) before (fun t ht => ?_) rfl
        cases before with
        | nil => cases ht
        | cons u before => exact hrest t ht
      rw [build_of_splits _ hsplits, ← hbefore, ← build_of_splits first hsplits',
        List.cons_append, List.append_assoc]

/-! ## Tighter segments -/

/-- The segments at the front that bind tighter than a precedence. -/
def tight (q : Int) (ss : List Segment) : List Segment :=
  ss.takeWhile (q < ·.precedence)

/-- The segments from the first that does not bind tighter on. -/
def loose (q : Int) (ss : List Segment) : List Segment :=
  ss.dropWhile (q < ·.precedence)

variable {p q : Int} {s : Segment} {ss : List Segment}

theorem tight_append_loose (q : Int) (ss : List Segment) : tight q ss ++ loose q ss = ss :=
  List.takeWhile_append_dropWhile

theorem lt_of_mem_tight {t : Segment} (h : t ∈ tight q ss) : q < t.precedence := by
  simpa using List.all_eq_true.mp List.all_takeWhile t h

theorem le_of_head?_loose {t : Segment} (h : (loose q ss).head? = some t) : t.precedence ≤ q := by
  have hnot := List.head?_dropWhile_not (fun s : Segment => decide (q < s.precedence)) ss
  unfold loose at h
  rw [h] at hnot
  simpa using hnot

theorem tight_cons_of_lt (h : q < s.precedence) : tight q (s :: ss) = s :: tight q ss := by
  simp [tight, h]

theorem loose_cons_of_lt (h : q < s.precedence) : loose q (s :: ss) = loose q ss := by
  simp [loose, h]

theorem tight_cons_of_le (h : s.precedence ≤ q) : tight q (s :: ss) = [] := by
  have hnot : ¬ q < s.precedence := by omega
  simp [tight, hnot]

theorem loose_cons_of_le (h : s.precedence ≤ q) : loose q (s :: ss) = s :: ss := by
  have hnot : ¬ q < s.precedence := by omega
  simp [loose, hnot]

/-- What is tighter than the greater precedence comes first among what is tighter
    than the smaller one. -/
theorem tight_of_lt (h : q < p) (ss : List Segment) :
    tight q ss = tight p ss ++ tight q (loose p ss) ∧ loose q ss = loose q (loose p ss) := by
  induction ss with
  | nil => exact ⟨rfl, rfl⟩
  | cons s ss ih =>
    by_cases hp : p < s.precedence
    · have hq : q < s.precedence := by omega
      rw [tight_cons_of_lt hp, tight_cons_of_lt hq, loose_cons_of_lt hp, loose_cons_of_lt hq, ih.1]
      exact ⟨rfl, ih.2⟩
    · have hp : s.precedence ≤ p := by omega
      rw [tight_cons_of_le hp, loose_cons_of_le hp]
      exact ⟨rfl, rfl⟩

theorem build_tight (first : Expr) (s : Segment) (ss : List Segment) :
    build first (s :: ss) =
      build (.binary s.op first (build s.operand (tight s.precedence ss)))
        (loose s.precedence ss) := by
  have h := build_cons first s (tight s.precedence ss) (loose s.precedence ss)
    (fun _ ht => lt_of_mem_tight ht) (fun _ ht => le_of_head?_loose ht)
  rw [tight_append_loose] at h
  exact h

/-- The same among the segments that are tighter than what is still open. -/
theorem build_tight_of_lt (first : Expr) (h : q < s.precedence) (ss : List Segment) :
    build first (tight q (s :: ss)) =
      build (.binary s.op first (build s.operand (tight s.precedence ss)))
        (tight q (loose s.precedence ss)) := by
  rw [tight_cons_of_lt h, (tight_of_lt h ss).1]
  refine build_cons first s _ _ (fun _ ht => lt_of_mem_tight ht) fun t ht => ?_
  unfold tight at ht
  rw [List.head?_takeWhile] at ht
  exact le_of_head?_loose (Option.filter_eq_some_iff.mp ht).1

/-! ## The stack -/

open ExprReader (Frame reduce reduceAll)

/-- The stack once an operator has come after the operand `e`. -/
def push (op : Char) (p : Int) (e : Expr) (stack : List Frame) : List Frame :=
  .binary (reduce p e stack).1 op p :: (reduce p e stack).2

/-- The last operand of a chain and the stack under it, once the chain is read. -/
def shift : List Segment → Expr → List Frame → Expr × List Frame
  | [], e, stack => (e, stack)
  | s :: ss, e, stack => shift ss s.operand (push s.op s.precedence e stack)

theorem shift_concat (ss : List Segment) (s : Segment) (e : Expr) (stack : List Frame) :
    shift (ss ++ [s]) e stack =
      (s.operand, push s.op s.precedence (shift ss e stack).1 (shift ss e stack).2) := by
  induction ss generalizing e stack with
  | nil => rfl
  | cons t ss ih =>
    rw [List.cons_append, shift, ih]
    rfl

/-- What comes of an operand with the segments after it inside a stack. An open
    operation takes the segments that are tighter as its right operand. -/
def settle (e : Expr) (ss : List Segment) : List Frame → Expr × List Frame
  | .binary lhs op q :: stack =>
    settle (.binary op lhs (build e (tight q ss))) (loose q ss) stack
  | stack => (build e ss, stack)

/-- No operation is open on top of the stack. -/
def Closed : List Frame → Prop
  | .binary .. :: _ => False
  | _ => True

theorem settle_closed (e : Expr) (ss : List Segment) {stack : List Frame} (h : Closed stack) :
    settle e ss stack = (build e ss, stack) := by
  cases stack with
  | nil => rfl
  | cons frame stack =>
    cases frame with
    | group => rfl
    | call callee args => rfl
    | binary lhs op q => exact h.elim

theorem reduce_closed (p : Int) (e : Expr) {stack : List Frame} (h : Closed stack) :
    reduce p e stack = (e, stack) := by
  cases stack with
  | nil => rfl
  | cons frame stack =>
    cases frame with
    | group => rfl
    | call callee args => rfl
    | binary lhs op q => exact h.elim

theorem reduceAll_closed (e : Expr) {stack : List Frame} (h : Closed stack) :
    reduceAll e stack = (e, stack) := by
  cases stack with
  | nil => rfl
  | cons frame stack =>
    cases frame with
    | group => rfl
    | call callee args => rfl
    | binary lhs op q => exact h.elim

/-- Operations lie open on top of a stack that has none on top. -/
theorem open_induction {P : List Frame → Prop} (closed : ∀ stack, Closed stack → P stack)
    (binary : ∀ lhs op q stack, P stack → P (.binary lhs op q :: stack))
    (stack : List Frame) : P stack := by
  induction stack with
  | nil => exact closed [] trivial
  | cons frame stack ih =>
    cases frame with
    | group => exact closed _ trivial
    | call callee args => exact closed _ trivial
    | binary lhs op q => exact binary lhs op q stack ih

theorem settle_nil (e : Expr) (stack : List Frame) : settle e [] stack = reduceAll e stack := by
  induction stack using open_induction generalizing e with
  | closed stack h => rw [settle_closed e [] h, reduceAll_closed e h, build_nil]
  | binary lhs op q stack ih =>
    have hbuild : build e (tight q []) = e := build_nil e
    rw [settle, hbuild, reduceAll]
    exact ih _

/-- Reading one segment does not change what the chain comes to. -/
theorem settle_push (e : Expr) (s : Segment) (ss : List Segment) (stack : List Frame) :
    settle s.operand ss (push s.op s.precedence e stack) = settle e (s :: ss) stack := by
  induction stack using open_induction generalizing e with
  | closed stack h =>
    rw [push, reduce_closed s.precedence e h, settle_closed e _ h, build_tight]
    exact settle_closed _ _ h
  | binary lhs op q stack ih =>
    by_cases hle : s.precedence ≤ q
    · -- The open operation is closed first, and takes none of the segments.
      have hpush : push s.op s.precedence e (.binary lhs op q :: stack) =
          push s.op s.precedence (.binary op lhs e) stack := by
        rw [push, reduce, if_pos hle]
        rfl
      rw [hpush, settle, tight_cons_of_le hle, loose_cons_of_le hle, build_nil]
      exact ih _
    · have hlt : q < s.precedence := by omega
      rw [push, reduce, if_neg hle, settle, settle, settle, build_tight_of_lt e hlt,
        loose_cons_of_lt hlt, (tight_of_lt hlt ss).2]

/-- Reading a chain and closing what is open builds the chain's tree. -/
theorem reduceAll_shift (e : Expr) (ss : List Segment) {stack : List Frame} (h : Closed stack) :
    reduceAll (shift ss e stack).1 (shift ss e stack).2 = (build e ss, stack) := by
  have hsettle (ss : List Segment) (e : Expr) (stack : List Frame) :
      reduceAll (shift ss e stack).1 (shift ss e stack).2 = settle e ss stack := by
    induction ss generalizing e stack with
    | nil => exact (settle_nil e stack).symm
    | cons s ss ih => rw [shift, ih, settle_push]
  rw [hsettle, settle_closed e ss h]

end Chain

end Abacus
