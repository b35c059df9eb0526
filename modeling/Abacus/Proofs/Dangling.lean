-- SUMMARY: Which call makes linking a unit fail.
import Abacus.Proofs.Generating
import Abacus.Proofs.Linking

/-!
# Dangling calls

A call dangles if its symbol has no body in the unit of the caller and resolves
nowhere. Linking a unit goes through its routines in the order they were defined
and through the calls of each in the order they are made; it fails at the first
call that dangles, and only there.

Routines make their calls in the order of evaluation, so all of this can be told
from the bodies that were compiled.
-/

namespace Abacus

/-! ## Order of evaluation -/

namespace Expr

mutual

/-- The functions an expression calls, in the order of the calls: the arguments
    of a call are evaluated before it. -/
def called : Expr → List String
  | .number _ => []
  | .var _ => []
  | .binary _ lhs rhs => lhs.called ++ rhs.called
  | .call callee args => calledAll args ++ [callee]

def calledAll : List Expr → List String
  | [] => []
  | arg :: args => arg.called ++ calledAll args

end

theorem mem_calledAll {args : List Expr} {c : String} :
    c ∈ calledAll args ↔ ∃ arg ∈ args, c ∈ arg.called := by
  induction args with
  | nil => simp [calledAll]
  | cons arg args ih => simp [calledAll, ih]

theorem mem_called {e : Expr} {c : String} : c ∈ e.called ↔ c ∈ e.callees := by
  induction e with
  | number value => simp [called, callees]
  | var name => simp [called, callees]
  | binary op lhs rhs ihl ihr => simp [called, callees, ihl, ihr]
  | call callee args ih =>
    have hargs : (∃ arg ∈ args, c ∈ arg.called) ↔ ∃ arg ∈ args, c ∈ arg.callees :=
      exists_congr fun arg => and_congr_right fun harg => ih arg harg
    simp [called, callees, mem_calledAll, hargs, or_comm]

end Expr

/-- The symbols that a function calls, in the order of the calls. -/
def Function.calls (f : Function) : List String :=
  f.body.called.map Symbol.legalize

namespace Code

/-- The symbols that code calls, in the order of the calls. -/
def calls (code : List (Instr FuncRef)) : List String :=
  (code.filterMap Instr.callee?).map (·.symbol)

def Routine.calls (r : Routine FuncRef) : List String :=
  Code.calls r.code

@[simp] theorem calls_append (code code' : List (Instr FuncRef)) :
    calls (code ++ code') = calls code ++ calls code' := by
  simp [calls]

@[simp] theorem calls_call (ref : FuncRef) (args : List Nat) :
    calls [.call ref args] = [ref.symbol] := rfl

section Emission

variable {scope : Scope} {draft draft' : Draft}

/-- The callees of a scope are known by the symbols of their names. -/
def Scope.Legal (scope : Scope) : Prop :=
  ∀ c d, scope.callee? c = some d → d.symbol = Symbol.legalize c

theorem calls_of_emitOperator {op : Char} {a b v : Nat}
    (h : emitOperator scope op a b draft = .ok (v, draft')) :
    calls draft'.code = calls draft.code := by
  rcases emitOperator_ok h with ⟨-, h⟩ | ⟨-, h⟩ | ⟨-, h⟩ | ⟨-, i, -, -, rfl⟩
  case inr.inr.inr => simp [calls, Instr.callee?]
  all_goals
    cases h
    simp [calls, Instr.callee?]

theorem calls_of_emitAll {args : List Expr} {values : List Nat}
    (ih : ∀ arg ∈ args, ∀ {draft draft' v}, emit scope arg draft = .ok (v, draft') →
      calls draft'.code = calls draft.code ++ arg.called.map Symbol.legalize)
    (h : emitAll scope args draft = .ok (values, draft')) :
    calls draft'.code = calls draft.code ++ (Expr.calledAll args).map Symbol.legalize := by
  induction args generalizing draft values with
  | nil =>
    cases h
    simp [Expr.calledAll]
  | cons arg args ihargs =>
    obtain ⟨a, d, as, ha, has, -⟩ := emitAll_cons.mp h
    have htail := ihargs (fun arg harg => ih arg (List.mem_cons_of_mem _ harg)) has
    simp [htail, ih arg List.mem_cons_self ha, Expr.calledAll]

/-- Emission adds the calls of an expression in the order of evaluation. -/
theorem calls_of_emit (hscope : scope.Legal) {e : Expr} {v : Nat}
    (h : emit scope e draft = .ok (v, draft')) :
    calls draft'.code = calls draft.code ++ e.called.map Symbol.legalize := by
  induction e generalizing draft draft' v with
  | number value =>
    cases h
    simp [calls, Instr.callee?, Expr.called]
  | var name =>
    obtain ⟨-, rfl⟩ := emit_var.mp h
    simp [Expr.called]
  | binary op lhs rhs ihl ihr =>
    obtain ⟨a, d₁, b, d₂, ha, hb, hop⟩ := emit_binary.mp h
    simp [calls_of_emitOperator hop, ihr hb, ihl ha, Expr.called]
  | call callee args ih =>
    obtain ⟨decl, values, d, hdecl, hvalues, hpush⟩ := emit_call.mp h
    have hargs : calls d.code = calls draft.code ++ (Expr.calledAll args).map Symbol.legalize := by
      simpa using calls_of_emitAll (fun arg harg _ _ _ => ih arg harg) hvalues
    cases hpush
    simp [hargs, Expr.called, FuncRef.to, hscope callee decl hdecl]

theorem calls_of_ofExpr (hscope : scope.Legal) {decl : Declaration} {body : Expr}
    {r : Routine FuncRef} (h : Routine.ofExpr decl scope body = .ok r) :
    r.calls = body.called.map Symbol.legalize := by
  obtain ⟨v, d, hemit, rfl⟩ := ofExpr_ok.mp h
  exact calls_of_emit hscope hemit

end Emission

end Code

theorem CodeUnit.Compiles.calls_eq {u : CodeUnit} {f : Function} {symbol : String}
    {r : Code.Routine Code.FuncRef} (h : u.Compiles f symbol r) : r.calls = f.calls := by
  obtain ⟨decl, scope, -, -, -, hr, hscope⟩ := h
  exact Code.calls_of_ofExpr (fun c d hd => (hscope c d hd).1) hr

/-! ## Failure -/

/-- What went wrong, if anything did. -/
def refusal? {ε α : Type} : Except ε α → Option ε
  | .ok _ => none
  | .error e => some e

section Refusal

variable {ε α β : Type}

theorem refusal?_eq_some {x : Except ε α} {e : ε} : refusal? x = some e ↔ x = .error e := by
  cases x <;> simp [refusal?]

theorem refusal?_eq_none {x : Except ε α} : refusal? x = none ↔ ∃ a, x = .ok a := by
  cases x <;> simp [refusal?]

/-- The first step that fails decides. -/
theorem refusal?_bind (x : Except ε α) (f : α → Except ε β) (e? : Option ε)
    (hf : ∀ a, refusal? (f a) = e?) : refusal? (x >>= f) = (refusal? x).or e? := by
  cases x with
  | error e => rfl
  | ok a => exact hf a

end Refusal

namespace Code

variable {κ κ' ε : Type} (resolve : κ → Except ε κ')

theorem refusal?_link (i : Instr κ) :
    refusal? (i.link resolve) = i.callee?.bind fun c => refusal? (resolve c) := by
  cases i with
  | call callee args =>
    simp only [Instr.link, Instr.callee?, Option.bind_some]
    cases resolve callee <;> rfl
  | _ => rfl

theorem refusal?_linkAll (is : List (Instr κ)) :
    refusal? (linkAll resolve is) =
      (is.filterMap Instr.callee?).findSome? fun c => refusal? (resolve c) := by
  induction is with
  | nil => rfl
  | cons i is ih =>
    have htail : ∀ i' : Instr κ', refusal? (do
        let is ← linkAll resolve is
        return i' :: is) = refusal? (linkAll resolve is) := fun i' => by
      simpa using refusal?_bind (linkAll resolve is) (fun is => pure (i' :: is)) none fun _ => rfl
    rw [linkAll, refusal?_bind _ _ _ htail, refusal?_link, ih, List.filterMap_cons]
    cases i.callee? with
    | none => rfl
    | some c => cases h : refusal? (resolve c) <;> simp [h]

theorem Routine.refusal?_link (r : Routine κ) :
    refusal? (r.link resolve) = r.callees.findSome? fun c => refusal? (resolve c) := by
  rw [Routine.link, refusal?_bind _ _ none fun _ => rfl, Option.or_none, refusal?_linkAll]
  rfl

end Code

/-! ## Units -/

namespace CodeUnit

variable (u : CodeUnit) (k : Nat) (registry : Registry Address)

/-- A symbol that calls from the unit cannot be bound to. -/
def dangles (symbol : String) : Bool :=
  !u.defines symbol && (registry.resolve symbol).isNone

/-- The symbols that the routines of a unit call, in the order of linking. -/
def calls : List String :=
  u.routines.flatMap (·.calls)

theorem refusal?_bind (ref : Code.FuncRef) :
    refusal? (u.bind k registry ref) =
      if u.dangles registry ref.symbol then some ref.symbol else none := by
  unfold bind dangles
  cases u.defines ref.symbol with
  | true => rfl
  | false => cases registry.resolve ref.symbol <;> rfl

theorem refusal?_link_routine (r : Code.Routine Code.FuncRef) :
    refusal? (r.link (u.bind k registry)) = r.calls.find? (u.dangles registry) := by
  simp only [Code.Routine.refusal?_link, refusal?_bind, Code.Routine.calls, Code.calls,
    Code.Routine.callees]
  induction r.code.filterMap Code.Instr.callee? with
  | nil => rfl
  | cons ref refs ih => cases h : u.dangles registry ref.symbol <;> simp [h, ih]

theorem refusal?_linkRoutines (rs : List (Code.Routine Code.FuncRef)) :
    refusal? (u.linkRoutines k registry rs) =
      (rs.flatMap (·.calls)).find? (u.dangles registry) := by
  induction rs with
  | nil => rfl
  | cons r rs ih =>
    have htail : ∀ r' : Code.Routine (Link Address), refusal? (do
        let rs ← u.linkRoutines k registry rs
        return r' :: rs) = refusal? (u.linkRoutines k registry rs) := fun r' => by
      simpa using Abacus.refusal?_bind (u.linkRoutines k registry rs)
        (fun rs => pure (r' :: rs)) none fun _ => rfl
    rw [linkRoutines, Abacus.refusal?_bind _ _ _ htail, refusal?_link_routine, ih,
      List.flatMap_cons, List.find?_append]

theorem refusal?_link :
    refusal? (u.link k registry) = u.calls.find? (u.dangles registry) := by
  rw [link, Abacus.refusal?_bind _ _ none fun _ => rfl, Option.or_none, refusal?_linkRoutines]
  rfl

/-- Linking fails with the first symbol that dangles. -/
theorem link_eq_error_iff {symbol : String} :
    u.link k registry = .error symbol ↔ u.calls.find? (u.dangles registry) = some symbol := by
  rw [← refusal?_eq_some, refusal?_link]

end CodeUnit

end Abacus
