-- SUMMARY: Emission succeeds on checked expressions, and refers to what is in scope.
import Abacus.Code.Emit
import Abacus.Proofs.Checking

/-!
# Emission

Emission of an expression without objections succeeds if all its callees are in
scope. Whatever it emits refers to functions in scope, and whatever it fails
with is about the expression.
-/

namespace Abacus.Code

variable {α β : Type} {scope : Scope} {draft draft' : Draft}

/-! ## Taking emission apart -/

theorem emit_bind_ok {x : Emit α} {f : α → Emit β} {b : β} :
    (x >>= f) draft = .ok (b, draft') ↔
      ∃ a d, x draft = .ok (a, d) ∧ f a d = .ok (b, draft') := by
  simp only [bind, StateT.bind, Except.bind]
  constructor
  · intro h
    split at h
    · cases h
    case h_2 r heq => exact ⟨r.1, r.2, heq, h⟩
  · rintro ⟨a, d, hx, hf⟩
    rw [hx]
    exact hf

theorem emit_bind_error {x : Emit α} {f : α → Emit β} {e : CompileError} :
    (x >>= f) draft = .error e ↔
      x draft = .error e ∨ ∃ a d, x draft = .ok (a, d) ∧ f a d = .error e := by
  simp only [bind, StateT.bind, Except.bind]
  constructor
  · intro h
    split at h
    case h_1 e' heq => cases h; exact .inl heq
    case h_2 r heq => exact .inr ⟨r.1, r.2, heq, h⟩
  · rintro (hx | ⟨a, d, hx, hf⟩)
    · rw [hx]
    · rw [hx]
      exact hf

@[simp] theorem push_apply (i : Instr FuncRef) :
    push scope i draft =
      .ok (scope.params.length + draft.code.length, { draft with code := draft.code ++ [i] }) :=
  rfl

@[simp] theorem refer_apply (decl : Declaration) :
    refer decl draft = .ok (.to draft.refs decl, { draft with refs := draft.refs + 1 }) :=
  rfl

@[simp] theorem emit_pure_apply (a : α) : (pure a : Emit α) draft = .ok (a, draft) := rfl

@[simp] theorem emit_throw_apply (e : CompileError) : (throw e : Emit α) draft = .error e := rfl

theorem emit_number {x : Float} :
    emit scope (.number x) draft = push scope (.const x) draft := rfl

theorem emit_var {name : String} {v : Nat} :
    emit scope (.var name) draft = .ok (v, draft') ↔
      scope.value? name = some v ∧ draft' = draft := by
  rw [emit]
  cases h : scope.value? name with
  | none => simp
  | some value => simp [eq_comm]

theorem emit_binary {op : Char} {lhs rhs : Expr} {v : Nat} :
    emit scope (.binary op lhs rhs) draft = .ok (v, draft') ↔
      ∃ a d₁ b d₂, emit scope lhs draft = .ok (a, d₁) ∧ emit scope rhs d₁ = .ok (b, d₂) ∧
        emitOperator scope op a b d₂ = .ok (v, draft') := by
  rw [emit]
  simp only [emit_bind_ok]
  constructor
  · rintro ⟨a, d₁, ha, b, d₂, hb, hop⟩
    exact ⟨a, d₁, b, d₂, ha, hb, hop⟩
  · rintro ⟨a, d₁, b, d₂, ha, hb, hop⟩
    exact ⟨a, d₁, ha, b, d₂, hb, hop⟩

theorem emit_call {callee : String} {args : List Expr} {v : Nat} :
    emit scope (.call callee args) draft = .ok (v, draft') ↔
      ∃ decl values d, scope.callee? callee = some decl ∧
        emitAll scope args { draft with refs := draft.refs + 1 } = .ok (values, d) ∧
        push scope (.call (.to draft.refs decl) values) d = .ok (v, draft') := by
  rw [emit]
  cases h : scope.callee? callee with
  | none => simp
  | some decl =>
    simp only [emit_bind_ok, refer_apply]
    constructor
    · rintro ⟨ref, d₀, hrefer, values, d, hvalues, hpush⟩
      cases hrefer
      exact ⟨decl, values, d, rfl, hvalues, hpush⟩
    · rintro ⟨decl', values, d, hdecl, hvalues, hpush⟩
      cases hdecl
      exact ⟨_, _, rfl, values, d, hvalues, hpush⟩

theorem emitAll_cons {arg : Expr} {args : List Expr} {values : List Nat} :
    emitAll scope (arg :: args) draft = .ok (values, draft') ↔
      ∃ a d as, emit scope arg draft = .ok (a, d) ∧ emitAll scope args d = .ok (as, draft') ∧
        values = a :: as := by
  simp only [emitAll, emit_bind_ok]
  constructor
  · rintro ⟨a, d, ha, as, d', has, hret⟩
    cases hret
    exact ⟨a, d, as, ha, has, rfl⟩
  · rintro ⟨a, d, as, ha, has, rfl⟩
    exact ⟨a, d, ha, as, draft', has, rfl⟩

/-- The code of an operator: one instruction, or three for a comparison. -/
theorem emitOperator_ok {op : Char} {a b v : Nat}
    (h : emitOperator scope op a b draft = .ok (v, draft')) :
    (op = '+' ∧ push scope (.arith .add a b) draft = .ok (v, draft')) ∨
    (op = '-' ∧ push scope (.arith .sub a b) draft = .ok (v, draft')) ∨
    (op = '*' ∧ push scope (.arith .mul a b) draft = .ok (v, draft')) ∨
    (op = '<' ∧ ∃ i, i = scope.params.length + draft.code.length ∧ v = i + 2 ∧
      draft' = { draft with code := draft.code ++ [.less a b, .extend i, .convert (i + 1)] }) := by
  unfold emitOperator at h
  split at h
  · exact .inl ⟨rfl, h⟩
  · exact .inr (.inl ⟨rfl, h⟩)
  · exact .inr (.inr (.inl ⟨rfl, h⟩))
  · refine .inr (.inr (.inr ⟨rfl, _, rfl, ?_⟩))
    simp only [emit_bind_ok, push_apply] at h
    obtain ⟨flag, d₁, h₁, wide, d₂, h₂, h₃⟩ := h
    cases h₁
    cases h₂
    cases h₃
    simp [Nat.add_assoc]
  · cases h

/-! ## Success -/

theorem exists_value? {name : String} (h : name ∈ scope.params) :
    ∃ v, scope.value? name = some v := by
  have hmem : name ∈ scope.params.reverse := List.mem_reverse.mpr h
  obtain ⟨i, hi⟩ := Option.isSome_iff_exists.mp (List.isSome_idxOf?.mpr hmem)
  refine ⟨scope.params.length - 1 - i, ?_⟩
  simp [Scope.value?, hi]

theorem exists_emitOperator {op : Char} (h : op ∈ ['+', '-', '*', '<']) (a b : Nat)
    (draft : Draft) : ∃ v d, emitOperator scope op a b draft = .ok (v, d) := by
  simp only [List.mem_cons, List.not_mem_nil, or_false] at h
  rcases h with rfl | rfl | rfl | rfl <;> exact ⟨_, _, rfl⟩

theorem exists_emitAll {args : List Expr}
    (h : ∀ arg ∈ args, ∀ draft, ∃ v d, emit scope arg draft = .ok (v, d)) (draft : Draft) :
    ∃ values d, emitAll scope args draft = .ok (values, d) := by
  induction args generalizing draft with
  | nil => exact ⟨[], draft, rfl⟩
  | cons arg args ih =>
    obtain ⟨a, d, ha⟩ := h arg List.mem_cons_self draft
    obtain ⟨as, d', has⟩ := ih (fun arg harg => h arg (List.mem_cons_of_mem _ harg)) d
    exact ⟨_, _, emitAll_cons.mpr ⟨a, d, as, ha, has, rfl⟩⟩

/-- An expression without objections is emitted if its callees are in scope. -/
theorem exists_emit {arity? : String → Option Nat} {e : Expr}
    (he : e.objection? scope.params arity? = none)
    (hc : ∀ c ∈ e.callees, ∃ decl, scope.callee? c = some decl) (draft : Draft) :
    ∃ v d, emit scope e draft = .ok (v, d) := by
  induction e generalizing draft with
  | number value => exact ⟨_, _, rfl⟩
  | var name =>
    simp only [Expr.objection?, ite_eq_left_iff, reduceCtorEq, imp_false, Decidable.not_not] at he
    obtain ⟨v, hv⟩ := exists_value? he
    exact ⟨v, draft, emit_var.mpr ⟨hv, rfl⟩⟩
  | binary op lhs rhs ihl ihr =>
    simp only [Expr.objection?, Option.or_eq_none_iff, ite_eq_left_iff, reduceCtorEq, imp_false,
      Decidable.not_not] at he
    obtain ⟨⟨hl, hr⟩, hop⟩ := he
    simp only [Expr.callees, List.mem_append] at hc
    obtain ⟨a, d₁, ha⟩ := ihl hl (fun c h => hc c (.inl h)) draft
    obtain ⟨b, d₂, hb⟩ := ihr hr (fun c h => hc c (.inr h)) d₁
    obtain ⟨v, d, hv⟩ := exists_emitOperator hop a b d₂
    exact ⟨v, d, emit_binary.mpr ⟨a, d₁, b, d₂, ha, hb, hv⟩⟩
  | call callee args ih =>
    simp only [Expr.callees, List.mem_cons, Expr.mem_calleesAll] at hc
    obtain ⟨decl, hdecl⟩ := hc callee (.inl rfl)
    have hargs : ∀ arg ∈ args, arg.objection? scope.params arity? = none := by
      simp only [Expr.objection?] at he
      split at he
      · cases he
      · split at he
        · exact Expr.objectionAll?_eq_none.mp he
        · cases he
    obtain ⟨values, d, hvalues⟩ := exists_emitAll
      (fun arg harg => ih arg harg (hargs arg harg) fun c h => hc c (.inr ⟨arg, harg, h⟩))
      { draft with refs := draft.refs + 1 }
    exact ⟨_, _, emit_call.mpr ⟨decl, values, d, hdecl, hvalues, rfl⟩⟩

/-! ## References -/

/-- A reference to a function in scope. -/
def Scope.Refers (scope : Scope) (ref : FuncRef) : Prop :=
  ∃ index c decl, scope.callee? c = some decl ∧ ref = .to index decl

/-- All calls of some code are to functions in scope. -/
def Scope.Confines (scope : Scope) (code : List (Instr FuncRef)) : Prop :=
  ∀ i ∈ code, ∀ ref, i.callee? = some ref → scope.Refers ref

theorem confines_append {code code' : List (Instr FuncRef)} :
    scope.Confines (code ++ code') ↔ scope.Confines code ∧ scope.Confines code' := by
  simp only [Scope.Confines, List.mem_append]
  constructor
  · exact fun h => ⟨fun i hi => h i (.inl hi), fun i hi => h i (.inr hi)⟩
  · rintro ⟨h, h'⟩ i (hi | hi)
    · exact h i hi
    · exact h' i hi

theorem confines_emitOperator {op : Char} {a b v : Nat}
    (h : emitOperator scope op a b draft = .ok (v, draft')) (hd : scope.Confines draft.code) :
    scope.Confines draft'.code := by
  rcases emitOperator_ok h with ⟨-, h⟩ | ⟨-, h⟩ | ⟨-, h⟩ | ⟨-, i, -, -, rfl⟩
  case inr.inr.inr => exact confines_append.mpr ⟨hd, by simp [Scope.Confines, Instr.callee?]⟩
  all_goals
    cases h
    exact confines_append.mpr ⟨hd, by simp [Scope.Confines, Instr.callee?]⟩

theorem confines_emitAll {args : List Expr} {values : List Nat}
    (ih : ∀ arg ∈ args, ∀ {draft draft' v}, emit scope arg draft = .ok (v, draft') →
      scope.Confines draft.code → scope.Confines draft'.code)
    (h : emitAll scope args draft = .ok (values, draft')) (hd : scope.Confines draft.code) :
    scope.Confines draft'.code := by
  induction args generalizing draft values with
  | nil => cases h; exact hd
  | cons arg args ihargs =>
    obtain ⟨a, d, as, ha, has, -⟩ := emitAll_cons.mp h
    exact ihargs (fun arg harg => ih arg (List.mem_cons_of_mem _ harg)) has
      (ih arg List.mem_cons_self ha hd)

theorem confines_emit {e : Expr} {v : Nat} (h : emit scope e draft = .ok (v, draft'))
    (hd : scope.Confines draft.code) : scope.Confines draft'.code := by
  induction e generalizing draft draft' v with
  | number value =>
    cases h
    exact confines_append.mpr ⟨hd, by simp [Scope.Confines, Instr.callee?]⟩
  | var name =>
    obtain ⟨-, rfl⟩ := emit_var.mp h
    exact hd
  | binary op lhs rhs ihl ihr =>
    obtain ⟨a, d₁, b, d₂, ha, hb, hop⟩ := emit_binary.mp h
    exact confines_emitOperator hop (ihr hb (ihl ha hd))
  | call callee args ih =>
    obtain ⟨decl, values, d, hdecl, hvalues, hpush⟩ := emit_call.mp h
    have hargs : scope.Confines d.code := by
      refine confines_emitAll ?_ hvalues hd
      intro arg harg draft draft' v
      exact ih arg harg
    cases hpush
    refine confines_append.mpr ⟨hargs, ?_⟩
    intro i hi ref href
    obtain rfl := List.mem_singleton.mp hi
    cases href
    exact ⟨_, callee, decl, hdecl, rfl⟩

/-! ## Failure -/

theorem emitAll_ne_backend {args : List Expr} {message : String}
    (ih : ∀ arg ∈ args, ∀ draft, emit scope arg draft ≠ .error (.backend message))
    (draft : Draft) : emitAll scope args draft ≠ .error (.backend message) := by
  induction args generalizing draft with
  | nil => intro h; cases h
  | cons arg args ihargs =>
    intro h
    simp only [emitAll, emit_bind_error] at h
    rcases h with h | ⟨a, d, -, h | ⟨as, d', -, h⟩⟩
    · exact ih arg List.mem_cons_self _ h
    · exact ihargs (fun arg harg => ih arg (List.mem_cons_of_mem _ harg)) _ h
    · cases h

/-- Emission itself never finds two declarations at odds. -/
theorem emit_ne_backend {e : Expr} {message : String} (draft : Draft) :
    emit scope e draft ≠ .error (.backend message) := by
  induction e generalizing draft with
  | number value => intro h; cases h
  | var name =>
    rw [emit]
    cases scope.value? name <;> intro h <;> cases h
  | binary op lhs rhs ihl ihr =>
    intro h
    simp only [emit, emit_bind_error] at h
    rcases h with h | ⟨a, d₁, -, h | ⟨b, d₂, -, h⟩⟩
    · exact ihl _ h
    · exact ihr _ h
    · unfold emitOperator at h
      split at h <;> cases h
  | call callee args ih =>
    rw [emit]
    cases scope.callee? callee with
    | none => intro h; cases h
    | some decl =>
      intro h
      simp only [emit_bind_error, refer_apply] at h
      rcases h with h | ⟨ref, d₁, -, h | ⟨values, d₂, -, h⟩⟩
      · cases h
      · exact emitAll_ne_backend (fun arg harg draft => ih arg harg draft) _ h
      · cases h

/-! ## Routines -/

theorem ofExpr_ok {decl : Declaration} {body : Expr} {r : Routine FuncRef} :
    Routine.ofExpr decl scope body = .ok r ↔
      ∃ v d, emit scope body {} = .ok (v, d) ∧
        r = { id := decl.id, symbol := decl.symbol, arity := scope.params.length,
              code := d.code, result := v } := by
  simp only [Routine.ofExpr, StateT.run]
  cases h : emit scope body {} with
  | error e => simp [bind, Except.bind]
  | ok p =>
    obtain ⟨v, d⟩ := p
    simp only [bind, Except.bind, pure, Except.pure, Except.ok.injEq, Prod.mk.injEq]
    constructor
    · rintro rfl
      exact ⟨v, d, ⟨rfl, rfl⟩, rfl⟩
    · rintro ⟨v', d', ⟨rfl, rfl⟩, rfl⟩
      rfl

theorem refers_of_mem_callees {decl : Declaration} {body : Expr} {r : Routine FuncRef}
    (h : Routine.ofExpr decl scope body = .ok r) {ref : FuncRef} (href : ref ∈ r.callees) :
    scope.Refers ref := by
  obtain ⟨v, d, hemit, rfl⟩ := ofExpr_ok.mp h
  have hconf : scope.Confines d.code := confines_emit hemit (by simp [Scope.Confines])
  obtain ⟨i, hi, href⟩ := List.mem_filterMap.mp href
  exact hconf i hi ref href

theorem ofExpr_ne_backend {decl : Declaration} {body : Expr} {message : String} :
    Routine.ofExpr decl scope body ≠ .error (.backend message) := by
  simp only [Routine.ofExpr, StateT.run]
  cases h : emit scope body {} with
  | error e =>
    intro heq
    cases heq
    exact emit_ne_backend _ h
  | ok p => intro heq; cases heq

end Abacus.Code
