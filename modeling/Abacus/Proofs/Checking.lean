-- SUMMARY: What can be wrong with an expression, given what is known about functions.
import Abacus.CompileError
import Abacus.Expr.Basic

/-!
# Checking expressions

An expression is checked against a list of parameters and the numbers of
parameters of functions. There is no workspace here and nothing changes: the
first objection, if any, is found by going through the expression once.
-/

namespace Abacus.Expr

/-- Induction over expressions, with a hypothesis for every argument of a call. -/
@[elab_as_elim, induction_eliminator]
theorem induct {motive : Expr → Prop} (number : ∀ value, motive (.number value))
    (var : ∀ name, motive (.var name))
    (binary : ∀ op lhs rhs, motive lhs → motive rhs → motive (.binary op lhs rhs))
    (call : ∀ callee args, (∀ arg ∈ args, motive arg) → motive (.call callee args)) :
    ∀ e, motive e
  | .number value => number value
  | .var name => var name
  | .binary op lhs rhs =>
    binary op lhs rhs (induct number var binary call lhs) (induct number var binary call rhs)
  | .call callee args => call callee args fun arg _ => induct number var binary call arg

mutual

/-- The functions an expression calls. -/
def callees : Expr → List String
  | .number _ => []
  | .var _ => []
  | .binary _ lhs rhs => lhs.callees ++ rhs.callees
  | .call callee args => callee :: calleesAll args

def calleesAll : List Expr → List String
  | [] => []
  | arg :: args => arg.callees ++ calleesAll args

end

mutual

/-- The first objection to an expression: of the operands of an operation the
    left one comes first, then the right one, then the operator; of a call the
    callee, then the number of arguments, then the arguments in order. -/
def objection? (params : List String) (arity? : String → Option Nat) : Expr → Option CompileError
  | .number _ => none
  | .var name => if name ∈ params then none else some (.unknownVariable name)
  | .binary op lhs rhs =>
    ((lhs.objection? params arity?).or (rhs.objection? params arity?)).or
      (if op ∈ ['+', '-', '*', '<'] then none else some (.invalidOperator op))
  | .call callee args =>
    match arity? callee with
    | none => some (.unknownFunction callee)
    | some n =>
      if n = args.length then objectionAll? params arity? args
      else some (.arityMismatch callee n args.length)

def objectionAll? (params : List String) (arity? : String → Option Nat) :
    List Expr → Option CompileError
  | [] => none
  | arg :: args => (arg.objection? params arity?).or (objectionAll? params arity? args)

end

theorem objection?_call_of_none {params : List String} {arity? : String → Option Nat}
    {callee : String} {args : List Expr} (h : arity? callee = none) :
    (Expr.call callee args).objection? params arity? = some (.unknownFunction callee) := by
  rw [objection?, h]

theorem objection?_call_of_some {params : List String} {arity? : String → Option Nat}
    {callee : String} {args : List Expr} {n : Nat} (h : arity? callee = some n) :
    (Expr.call callee args).objection? params arity? =
      if n = args.length then objectionAll? params arity? args
      else some (.arityMismatch callee n args.length) := by
  rw [objection?, h]

@[simp] theorem mem_calleesAll {args : List Expr} {callee : String} :
    callee ∈ calleesAll args ↔ ∃ arg ∈ args, callee ∈ arg.callees := by
  induction args with
  | nil => simp [calleesAll]
  | cons arg args ih => simp [calleesAll, ih]

theorem objectionAll?_eq_none {params : List String} {arity? : String → Option Nat}
    {args : List Expr} :
    objectionAll? params arity? args = none ↔
      ∀ arg ∈ args, arg.objection? params arity? = none := by
  induction args with
  | nil => simp [objectionAll?]
  | cons arg args ih => simp [objectionAll?, ih]

theorem objectionAll?_congr {params : List String} {f g : String → Option Nat} {args : List Expr}
    (h : ∀ arg ∈ args, arg.objection? params f = arg.objection? params g) :
    objectionAll? params f args = objectionAll? params g args := by
  induction args with
  | nil => rfl
  | cons arg args ih =>
    simp only [objectionAll?, h arg List.mem_cons_self, ih fun a ha => h a (List.mem_cons_of_mem _ ha)]

/-- What is known about functions that are not called does not matter. -/
theorem objection?_congr {params : List String} {f g : String → Option Nat} {e : Expr}
    (h : ∀ c ∈ e.callees, f c = g c) : e.objection? params f = e.objection? params g := by
  induction e with
  | number value => rfl
  | var name => rfl
  | binary op lhs rhs ihl ihr =>
    simp only [callees, List.mem_append] at h
    simp only [objection?, ihl fun c hc => h c (.inl hc), ihr fun c hc => h c (.inr hc)]
  | call callee args ih =>
    simp only [callees, List.mem_cons, mem_calleesAll] at h
    have hargs : objectionAll? params f args = objectionAll? params g args :=
      objectionAll?_congr fun arg harg => ih arg harg fun c hc => h c (.inr ⟨arg, harg, hc⟩)
    simp only [objection?, h callee (.inl rfl), hargs]

theorem objectionAll?_ne_backend {params : List String} {arity? : String → Option Nat}
    {args : List Expr} {message : String}
    (h : ∀ arg ∈ args, arg.objection? params arity? ≠ some (.backend message)) :
    objectionAll? params arity? args ≠ some (.backend message) := by
  induction args with
  | nil => intro hsome; cases hsome
  | cons arg args ih =>
    intro hsome
    rw [objectionAll?] at hsome
    rcases Option.or_eq_some_iff.mp hsome with hsome | ⟨-, hsome⟩
    · exact h arg List.mem_cons_self hsome
    · exact ih (fun a ha => h a (List.mem_cons_of_mem _ ha)) hsome

/-- An objection is never about two declarations at odds. -/
theorem objection?_ne_backend {params : List String} {arity? : String → Option Nat} {e : Expr}
    {message : String} : e.objection? params arity? ≠ some (.backend message) := by
  induction e with
  | number value => intro h; cases h
  | var name =>
    rw [objection?]
    split <;> intro h <;> cases h
  | binary op lhs rhs ihl ihr =>
    intro h
    rw [objection?] at h
    rcases Option.or_eq_some_iff.mp h with h | ⟨-, h⟩
    · rcases Option.or_eq_some_iff.mp h with h | ⟨-, h⟩
      · exact ihl h
      · exact ihr h
    · split at h <;> cases h
  | call callee args ih =>
    rw [objection?]
    split
    · intro h; cases h
    · split
      · exact objectionAll?_ne_backend ih
      · intro h; cases h

end Abacus.Expr
