-- SUMMARY: Expressions that stay within their scope, and why evaluating them may halt.
import Abacus.Intrinsic
import Abacus.Proofs.Evaluation

/-!
# Scopes

An expression stays within its scope if its variables are parameters, its
operators are those that have a meaning, and its calls are allowed with the
number of arguments they have. What calls are allowed is a parameter: those that
a table knows while a function is checked, and those that go to a body or to the
host once it is linked.

Evaluation of such an expression halts only where an allowed call does: it is never
stuck as long as no allowed call is, and comes to a value if they all do.
-/

namespace Abacus

namespace Expr

/-- The variables, operators and calls of an expression are all in order. -/
inductive Scoped (params : List String) (calls : String → Nat → Prop) : Expr → Prop where
  | number (x : Float) : Scoped params calls (.number x)
  | var {name : String} (param : name ∈ params) : Scoped params calls (.var name)
  | binary {op : Char} {lhs rhs : Expr} (operator : op ∈ ['+', '-', '*', '<'])
      (left : Scoped params calls lhs) (right : Scoped params calls rhs) :
      Scoped params calls (.binary op lhs rhs)
  | call {callee : String} {args : List Expr} (allowed : calls callee args.length)
      (arguments : ∀ arg ∈ args, Scoped params calls arg) : Scoped params calls (.call callee args)

variable {params : List String} {calls calls' : String → Nat → Prop} {e : Expr}

/-- An expression without objections calls functions with as many arguments as
    they have parameters. -/
theorem scoped_of_objection? {arity? : String → Option Nat}
    (h : e.objection? params arity? = none) :
    e.Scoped params fun callee n => arity? callee = some n := by
  induction e with
  | number x => exact .number x
  | var name =>
    simp only [objection?, ite_eq_left_iff, reduceCtorEq, imp_false, Decidable.not_not] at h
    exact .var h
  | binary op lhs rhs ihl ihr =>
    simp only [objection?, Option.or_eq_none_iff, ite_eq_left_iff, reduceCtorEq, imp_false,
      Decidable.not_not] at h
    exact .binary h.2 (ihl h.1.1) (ihr h.1.2)
  | call callee args ih =>
    cases harity : arity? callee with
    | none =>
      rw [objection?_call_of_none harity] at h
      cases h
    | some n =>
      rw [objection?_call_of_some harity] at h
      split at h
      case isTrue hn =>
        subst hn
        have hargs := objectionAll?_eq_none.mp h
        exact .call harity fun arg harg => ih arg harg (hargs arg harg)
      case isFalse => cases h

/-- Only the calls that an expression makes have to be allowed. -/
theorem Scoped.imp (h : e.Scoped params calls)
    (himp : ∀ callee ∈ e.callees, ∀ n, calls callee n → calls' callee n) :
    e.Scoped params calls' := by
  induction h with
  | number x => exact .number x
  | var param => exact .var param
  | binary operator left right ihl ihr =>
    simp only [callees, List.mem_append] at himp
    refine .binary operator ?_ ?_
    · exact ihl fun callee hc => himp callee (.inl hc)
    · exact ihr fun callee hc => himp callee (.inr hc)
  | @call callee args allowed arguments ih =>
    simp only [callees, List.mem_cons, mem_calleesAll] at himp
    refine .call (himp callee (.inl rfl) _ allowed) fun arg harg => ?_
    exact ih arg harg fun c hc => himp c (.inr ⟨arg, harg, hc⟩)

end Expr

/-! ## Why runs halt -/

namespace Code

variable {α β : Type} {reasons : Halt → Prop}

/-- A run halts for the given reasons only, and if it ends, its result is as `holds` says. -/
def Exec.Only (run : Exec α) (reasons : Halt → Prop) (holds : α → Prop) : Prop :=
  ∀ out, match run out with
    | .error reason => reasons reason
    | .ok (a, _) => holds a

/-- A run is not stuck, and if it ends, its result is as `holds` says. -/
def Exec.Safe (run : Exec α) (holds : α → Prop) : Prop :=
  run.Only (· ≠ .stuck) holds

theorem Exec.Safe.ne_stuck {run : Exec α} {holds : α → Prop} (h : run.Safe holds)
    (out : List UInt8) : run out ≠ .error .stuck := by
  intro herror
  have hout := h out
  rw [herror] at hout
  exact hout rfl

/-- A run without a reason to halt comes to an end. -/
theorem Exec.Only.returns {run : Exec α} {holds : α → Prop} (h : run.Only (fun _ => False) holds)
    (out : List UInt8) : ∃ a out', run out = .ok (a, out') := by
  have hout := h out
  cases hrun : run out with
  | error reason =>
    rw [hrun] at hout
    cases hout
  | ok result => exact ⟨result.1, result.2, rfl⟩

theorem only_pure {holds : α → Prop} {a : α} (h : holds a) : (pure a : Exec α).Only reasons holds :=
  fun _ => h

theorem Exec.Only.imp {reasons' : Halt → Prop} {run : Exec α} {holds : α → Prop}
    (h : run.Only reasons holds) (himp : ∀ reason, reasons reason → reasons' reason) :
    run.Only reasons' holds := by
  intro out
  have hout := h out
  cases hrun : run out with
  | error reason =>
    rw [hrun] at hout
    exact himp reason hout
  | ok result =>
    rw [hrun] at hout
    exact hout

theorem Exec.Only.bind {run : Exec α} {next : α → Exec β} {holds : α → Prop} {holds' : β → Prop}
    (h : run.Only reasons holds) (h' : ∀ a, holds a → (next a).Only reasons holds') :
    (run >>= next).Only reasons holds' := by
  intro out
  have hout := h out
  cases hrun : run out with
  | error reason =>
    rw [hrun] at hout
    rw [exec_bind_error hrun]
    exact hout
  | ok result =>
    rw [hrun] at hout
    rw [exec_bind_ok hrun]
    exact h' result.1 hout result.2

end Code

/-- An intrinsic returns from any arguments. -/
theorem Intrinsic.only_exec (i : Intrinsic) {reasons : Code.Halt → Prop} (args : List Float) :
    (i.exec args).Only reasons fun _ => True :=
  fun _ => trivial

/-! ## Evaluation -/

section Evaluation

open Code

variable {params : List String} {calls : String → Nat → Prop} {e : Expr} {call : Meaning String}
  {env : List (String × Float)} {reasons : Halt → Prop}

theorem only_operate {op : Char} (h : op ∈ ['+', '-', '*', '<']) (x y : Float) :
    (operate op x y).Only reasons fun _ => True := by
  simp only [List.mem_cons, List.not_mem_nil, or_false] at h
  rcases h with rfl | rfl | rfl | rfl <;> exact fun _ => trivial

theorem Expr.only_evalAll {args : List Expr}
    (h : ∀ arg ∈ args, (arg.eval call env).Only reasons fun _ => True) :
    (Expr.evalAll call env args).Only reasons fun xs => xs.length = args.length := by
  induction args with
  | nil => exact only_pure rfl
  | cons arg args ih =>
    rw [Expr.evalAll]
    refine (h arg List.mem_cons_self).bind fun x _ => ?_
    refine (ih fun a ha => h a (List.mem_cons_of_mem arg ha)).bind fun xs hxs => ?_
    exact only_pure (congrArg Nat.succ hxs)

/-- An expression within its scope halts only for the reasons that the calls it is
    allowed halt for. -/
theorem Expr.Scoped.only_eval (h : e.Scoped params calls)
    (hparams : ∀ name ∈ params, ∃ x, env.lookup name = some x)
    (hcalls : ∀ callee n, calls callee n → ∀ xs : List Float, xs.length = n →
      (call callee xs).Only reasons fun _ => True) :
    (e.eval call env).Only reasons fun _ => True := by
  induction h with
  | number x =>
    rw [Expr.eval]
    exact only_pure trivial
  | var param =>
    obtain ⟨x, hx⟩ := hparams _ param
    rw [Expr.eval, hx]
    exact only_pure trivial
  | binary operator left right ihl ihr =>
    rw [Expr.eval]
    exact ihl.bind fun x _ => ihr.bind fun y _ => only_operate operator x y
  | call allowed arguments ih =>
    rw [Expr.eval]
    exact (Expr.only_evalAll ih).bind fun xs hxs => hcalls _ _ allowed xs hxs

/-- A function whose body is in order, at as many arguments as it has parameters, halts
    only for the reasons that its calls halt for. -/
theorem Function.only_eval {f : Function} (h : f.body.Scoped f.proto.params calls)
    (hcalls : ∀ callee n, calls callee n → ∀ xs : List Float, xs.length = n →
      (call callee xs).Only reasons fun _ => True)
    {args : List Float} (hargs : args.length = f.proto.arity) :
    (f.eval call args).Only reasons fun _ => True := by
  unfold Function.eval
  rw [if_pos hargs]
  refine h.only_eval (fun name hname => ?_) hcalls
  have hvalue : ∃ v, Scope.value? ⟨f.proto.params, []⟩ name = some v := exists_value? hname
  obtain ⟨v, hv⟩ := hvalue
  obtain ⟨x, -, hx⟩ := lookup_of_value? hargs hv
  exact ⟨x, hx⟩

end Evaluation

/-! ## Emitted calls -/

namespace Code

variable {scope : Scope} {draft draft' : Draft}

/-- Each of the functions is in scope, and some code calls it. -/
def Scope.Calls (scope : Scope) (callees : List String) (code : List (Instr FuncRef)) : Prop :=
  ∀ c ∈ callees, ∃ index d, scope.callee? c = some d ∧
    ∃ i ∈ code, i.callee? = some (.to index d)

theorem Scope.Calls.mono {callees : List String} {code code' : List (Instr FuncRef)}
    (h : scope.Calls callees code) (hcode : code ⊆ code') : scope.Calls callees code' := by
  intro c hc
  obtain ⟨index, d, hd, i, hi, hcallee⟩ := h c hc
  exact ⟨index, d, hd, i, hcode hi, hcallee⟩

theorem code_emitOperator {op : Char} {a b v : Nat}
    (h : emitOperator scope op a b draft = .ok (v, draft')) : draft.code ⊆ draft'.code := by
  rcases emitOperator_ok h with ⟨-, h⟩ | ⟨-, h⟩ | ⟨-, h⟩ | ⟨-, i, -, -, rfl⟩
  case inr.inr.inr => exact List.subset_append_left _ _
  all_goals
    cases h
    exact List.subset_append_left _ _

theorem calls_emitAll {args : List Expr} {values : List Nat}
    (ih : ∀ arg ∈ args, ∀ {draft draft' v}, emit scope arg draft = .ok (v, draft') →
      draft.code ⊆ draft'.code ∧ scope.Calls arg.callees draft'.code)
    (h : emitAll scope args draft = .ok (values, draft')) :
    draft.code ⊆ draft'.code ∧ ∀ arg ∈ args, scope.Calls arg.callees draft'.code := by
  induction args generalizing draft values with
  | nil =>
    cases h
    exact ⟨List.Subset.refl _, by simp⟩
  | cons arg args ihargs =>
    obtain ⟨a, d, as, ha, has, -⟩ := emitAll_cons.mp h
    obtain ⟨hcode, hcalls⟩ := ih arg List.mem_cons_self ha
    obtain ⟨hcode', hcalls'⟩ := ihargs (fun x hx => ih x (List.mem_cons_of_mem arg hx)) has
    refine ⟨List.Subset.trans hcode hcode', fun x hx => ?_⟩
    cases hx with
    | head => exact hcalls.mono hcode'
    | tail _ hx => exact hcalls' x hx

/-- The code of an expression calls everything that the expression calls. -/
theorem calls_emit {e : Expr} {v : Nat} (h : emit scope e draft = .ok (v, draft')) :
    draft.code ⊆ draft'.code ∧ scope.Calls e.callees draft'.code := by
  induction e generalizing draft draft' v with
  | number x =>
    cases h
    exact ⟨List.subset_append_left _ _, by simp [Scope.Calls, Expr.callees]⟩
  | var name =>
    obtain ⟨-, rfl⟩ := emit_var.mp h
    exact ⟨List.Subset.refl _, by simp [Scope.Calls, Expr.callees]⟩
  | binary op lhs rhs ihl ihr =>
    obtain ⟨a, d₁, b, d₂, ha, hb, hop⟩ := emit_binary.mp h
    obtain ⟨hcode₁, hcalls₁⟩ := ihl ha
    obtain ⟨hcode₂, hcalls₂⟩ := ihr hb
    have hcode₃ := code_emitOperator hop
    refine ⟨List.Subset.trans hcode₁ (List.Subset.trans hcode₂ hcode₃), fun c hc => ?_⟩
    rw [Expr.callees, List.mem_append] at hc
    cases hc with
    | inl hc => exact (hcalls₁.mono hcode₂).mono hcode₃ c hc
    | inr hc => exact hcalls₂.mono hcode₃ c hc
  | call callee args ih =>
    obtain ⟨decl, values, d, hdecl, hvalues, hpush⟩ := emit_call.mp h
    obtain ⟨hcode, hcalls⟩ := calls_emitAll (fun arg harg _ _ _ => ih arg harg) hvalues
    cases hpush
    refine ⟨List.Subset.trans hcode (List.subset_append_left _ _), fun c hc => ?_⟩
    simp only [Expr.callees, List.mem_cons, Expr.mem_calleesAll] at hc
    rcases hc with rfl | ⟨arg, harg, hc⟩
    · exact ⟨draft.refs, decl, hdecl, _, List.mem_append_right _ (List.mem_singleton_self _), rfl⟩
    · exact (hcalls arg harg).mono (List.subset_append_left _ _) c hc

/-- A routine refers to everything that the body of its function calls. -/
theorem exists_ref_of_callee {decl : Declaration} {body : Expr} {r : Routine FuncRef}
    (h : Routine.ofExpr decl scope body = .ok r) {c : String} (hc : c ∈ body.callees) :
    ∃ index d, scope.callee? c = some d ∧ FuncRef.to index d ∈ r.callees := by
  obtain ⟨v, draft, hemit, rfl⟩ := ofExpr_ok.mp h
  obtain ⟨index, d, hd, i, hi, hcallee⟩ := (calls_emit hemit).2 c hc
  exact ⟨index, d, hd, List.mem_filterMap.mpr ⟨i, hi, hcallee⟩⟩

end Code

end Abacus
