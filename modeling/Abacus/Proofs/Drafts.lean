-- SUMMARY: The code of a function before it is added, and what its unit and a backend make of it.
import Abacus.Proofs.Composition
import Abacus.Proofs.SingleAssignment
import Abacus.Proofs.UnitTables

/-!
# Drafts

Generating a function first comes to its code and then adds it to the open unit. In
between the unit awaits the code: it has declared the function with a linkage that lets it
have a body, has none yet, and has declared all that the body calls.

The code is emitted against what references tell of callees, so it makes no difference
whether these are given by their declarations or by their numbers. It assigns each value
once, and its calls pass as many arguments as callees have parameters. That is all a
backend asks of it, if it is `Accepting`.
-/

namespace Abacus

open Workspace

/-! ## Emission by number -/

namespace Code

variable {scope scope' : Scope}

/-- The scopes have the same parameters, and the same callees as far as references tell. -/
structure Scope.Resembles (scope' scope : Scope) : Prop where
  params  : scope'.params = scope.params
  callees : ∀ c, Option.Rel (fun d' d => ∀ index, FuncRef.to index d' = .to index d)
    (scope'.callee? c) (scope.callee? c)

theorem emitAll_congr {args : List Expr} (ih : ∀ arg ∈ args, emit scope' arg = emit scope arg) :
    emitAll scope' args = emitAll scope args := by
  induction args with
  | nil => rfl
  | cons arg args ihargs =>
    rw [emitAll, emitAll, ih arg List.mem_cons_self,
      ihargs fun arg harg => ih arg (List.mem_cons_of_mem _ harg)]

/-- Emission sees of callees what references tell of them. -/
theorem emit_congr (h : scope'.Resembles scope) (e : Expr) : emit scope' e = emit scope e := by
  have hpush : push scope' = push scope := by
    funext i
    rw [push, push, h.params]
  have hoperator : emitOperator scope' = emitOperator scope := by
    funext op a b
    unfold emitOperator
    rw [hpush]
  induction e with
  | number x => rw [emit, emit, hpush]
  | var name => rw [emit, emit, Scope.value?, Scope.value?, h.params]
  | binary op lhs rhs ihl ihr => rw [emit, emit, ihl, ihr, hoperator]
  | call callee args ih =>
    rw [emit, emit, emitAll_congr ih, hpush]
    have hcallee := h.callees callee
    generalize scope'.callee? callee = d'? at hcallee
    generalize scope.callee? callee = d? at hcallee
    cases hcallee with
    | none => rfl
    | @some d' d hsame =>
      have hrefer : refer d' = refer d := by
        unfold refer
        simp only [hsame]
      simp only [hrefer]

theorem callee?_map (params : List String) (callees : List (String × Declaration))
    (g : Declaration → Declaration) (c : String) :
    Scope.callee? ⟨params, callees.map fun p => (p.1, g p.2)⟩ c =
      (Scope.callee? ⟨params, callees⟩ c).map g := by
  unfold Scope.callee?
  induction callees with
  | nil => rfl
  | cons p callees ih =>
    rw [List.map_cons, List.lookup_cons, List.lookup_cons, ih]
    cases c == p.1 <;> rfl

theorem ofExpr_congr {decl decl' : Declaration} (h : scope'.Resembles scope)
    (hid : decl'.id = decl.id) (hsymbol : decl'.symbol = decl.symbol) (body : Expr) :
    Routine.ofExpr decl' scope' body = Routine.ofExpr decl scope body := by
  rw [Routine.ofExpr, Routine.ofExpr, emit_congr h, hid, hsymbol, h.params]

end Code

/-! ## Declared functions -/

namespace CodeUnit

variable {u : CodeUnit} {name symbol : String} {arity : Nat} {linkage : Linkage} {d : Declaration}

/-- Declaring gives no body, and the linkage of both declarations. -/
theorem declaration_of_declare (h : (u.declare name symbol arity linkage).1 = .ok d) :
    (d.linkage = linkage ∧ d.hasBody = false) ∨
      ∃ e, u.find? symbol = some e ∧ d.linkage = e.linkage.merge linkage ∧
        d.hasBody = e.hasBody := by
  cases hu : u.find? symbol with
  | none =>
    rw [declare_of_none hu] at h
    cases h
    exact .inl ⟨rfl, rfl⟩
  | some e =>
    simp only [declare, hu] at h
    split at h
    · cases h
      exact .inr ⟨e, rfl, rfl, rfl⟩
    · cases h

end CodeUnit

theorem Linkage.merge_exported (linkage : Linkage) : linkage.merge .exported = .exported := by
  cases linkage <;> rfl

/-- Each call passes as many arguments as its callee is declared to have parameters. -/
def Code.Routine.CallsMatch (r : Code.Routine Code.FuncRef) : Prop :=
  ∀ call ∈ Code.sites r.code, call.2.length = call.1.arity

/-- The backend accepts emitted code, which assigns each value once, if its calls match
    their declarations. -/
def Backend.Accepting (backend : Backend) : Prop :=
  ∀ (decl : Declaration) (scope : Code.Scope) (body : Expr) (r : Code.Routine Code.FuncRef),
    Code.Routine.ofExpr decl scope body = .ok r → r.SingleAssignment → r.CallsMatch →
    backend.verify r = none ∧ backend.compile r = none

theorem exists_of_mem_right {α β : Type} {R : α → β → Prop} {as : List α} {bs : List β} {b : β}
    (h : List.Forall₂ R as bs) (hb : b ∈ bs) : ∃ a ∈ as, R a b := by
  induction h with
  | nil => cases hb
  | cons hab _ ih =>
    rcases List.mem_cons.mp hb with rfl | hb
    · exact ⟨_, List.mem_cons_self, hab⟩
    · obtain ⟨a, ha, hr⟩ := ih hb
      exact ⟨a, List.mem_cons_of_mem _ ha, hr⟩

namespace Build

variable {s s' : World} {f : Function} {symbol : String} {r : Code.Routine Code.FuncRef}

/-- The part of generating a function that comes to its code. -/
def draft (function : Function) : Build (String × Code.Routine Code.FuncRef) := do
  let proto := function.proto
  let symbol ← symbolFor proto.name
  checkDefinition proto.name symbol proto.arity
  let callees ← resolve proto symbol [] function.body
  let decl ← declare proto.name symbol proto.arity .exported
  match Code.Routine.ofExpr decl ⟨proto.params, withOwn proto decl callees⟩ function.body with
  | .error e => reject e
  | .ok routine => return (symbol, routine)

/-- The part that adds the code to the open unit. -/
def install (proto : Prototype) (symbol : String) (routine : Code.Routine Code.FuncRef) :
    Build Handle := do
  showCode proto routine
  let u ← openUnit
  setCurrent (u.define routine)
  return { name := proto.name, symbol, arity := proto.arity }

theorem generate_eq (f : Function) :
    generate f = draft f >>= fun drafted => install f.proto drafted.1 drafted.2 := by
  simp only [generate, draft, bind_assoc]
  congr 1
  funext symbol
  congr 1
  funext _
  congr 1
  funext callees
  congr 1
  funext decl
  generalize Code.Routine.ofExpr decl ⟨f.proto.params, withOwn f.proto decl callees⟩ f.body = emitted
  cases emitted <;> rfl

theorem composed_draft (f : Function) : Composed (draft f) := by
  apply (Composed.symbolFor f.proto.name).bind
  intro symbol
  apply (composed_checkDefinition f.proto.name symbol f.proto.arity).bind
  intro _
  apply (composed_resolve f.body []).bind
  intro callees
  apply (Composed.declare f.proto.name symbol f.proto.arity .exported).bind
  intro decl
  split
  · exact composed_reject _
  · exact .pure _

theorem composed_install (proto : Prototype) (symbol : String) (r : Code.Routine Code.FuncRef) :
    Composed (install proto symbol r) :=
  (composed_showCode proto r).bind fun _ => composed_define r _

/-- Where a function comes to code, it was resolved and declared. -/
theorem draft_ok (h : draft f s = .ok (symbol, r) s') :
    ∃ s₁ s₂ s₃ callees decl, symbolFor f.proto.name s = .ok symbol s₁ ∧
      checkDefinition f.proto.name symbol f.proto.arity s₁ = .ok () s₂ ∧
      resolve f.proto symbol [] f.body s₂ = .ok callees s₃ ∧
      declare f.proto.name symbol f.proto.arity .exported s₃ = .ok decl s' ∧
      Code.Routine.ofExpr decl ⟨f.proto.params, withOwn f.proto decl callees⟩ f.body = .ok r := by
  obtain ⟨symbol', s₁, hsymbol, h⟩ := bind_eq_ok.mp h
  obtain ⟨_, s₂, hcheck, h⟩ := bind_eq_ok.mp h
  obtain ⟨callees, s₃, hresolve, h⟩ := bind_eq_ok.mp h
  obtain ⟨decl, s₄, hdeclare, h⟩ := bind_eq_ok.mp h
  cases hr : Code.Routine.ofExpr decl ⟨f.proto.params, withOwn f.proto decl callees⟩ f.body with
  | error e =>
    rw [hr] at h
    cases h
  | ok routine =>
    rw [hr] at h
    cases h
    exact ⟨s₁, s₂, s₃, callees, decl, hsymbol, hcheck, hresolve, hdeclare, hr⟩

/-- The open unit awaits the code that a function comes to. -/
theorem awaits_of_draft (h : draft f s = .ok (symbol, r) s') :
    s'.workspace.current = some s'.workspace.unit ∧ r.symbol = symbol ∧
      s'.workspace.unit.Awaits r := by
  obtain ⟨s₁, s₂, s₃, callees, decl, hsymbol, hcheck, hresolve, hdeclare, hr⟩ := draft_ok h
  obtain ⟨hdecl, harity, hl, hscoped⟩ := listed_of_declare hresolve hdeclare
  obtain ⟨hok, hws⟩ := declare_ok hdeclare
  have hcurrent : s'.workspace.current = some s'.workspace.unit := by rw [hws]; rfl
  have hds : decl.symbol = symbol := CodeUnit.symbol_of_find? hdecl
  have hexported : decl.linkage = .exported ∧ decl.hasBody = false := by
    obtain ⟨rfl, hlisted⟩ := checkDefinition_ok hcheck
    have hnil : Lists symbol s₂.workspace.unit [] := by simp [Lists]
    obtain ⟨⟨supplement, -, -⟩, -⟩ := resolve_ok hresolve hnil
    rcases CodeUnit.declaration_of_declare hok with hnew | ⟨e, he, hlinkage, hbody⟩
    · exact hnew
    · rw [supplement.own_eq] at he
      rw [hlinkage, hbody, (hlisted e he).1]
      exact ⟨Linkage.merge_exported _, rfl⟩
  obtain ⟨hlinkage, hbody⟩ := hexported
  have hrefs : ∀ ref ∈ r.callees, s'.workspace.unit.Declares ref.symbol ref.id ref.arity := by
    intro ref href
    obtain ⟨index, c, d, hd, rfl⟩ := Code.refers_of_mem_callees hr href
    have hfind := find?_of_scope (symbol_of_symbolFor hsymbol) hdecl hl hd
    exact ⟨d, CodeUnit.mem_of_find? hfind, rfl, rfl, rfl⟩
  obtain ⟨v, code, -, rfl⟩ := Code.ofExpr_ok.mp hr
  refine ⟨hcurrent, hds, ⟨decl, ?_, rfl, harity, ?_, hbody⟩, hrefs⟩
  · rw [hds]
    exact hdecl
  · rw [hlinkage]
    rfl

/-- Its calls pass as many arguments as the callees are declared to have parameters. -/
theorem callsMatch_of_draft (h : draft f s = .ok (symbol, r) s') : r.CallsMatch := by
  obtain ⟨s₁, s₂, s₃, callees, decl, hsymbol, -, hresolve, hdeclare, hr⟩ := draft_ok h
  obtain ⟨hdecl, harity, hl, hscoped⟩ := listed_of_declare hresolve hdeclare
  intro call hcall
  obtain ⟨site, hsite, hlength, index, d, hd, hto⟩ :=
    exists_of_mem_right (Code.renders_ofExpr hr) hcall
  have hfind := find?_of_scope (symbol_of_symbolFor hsymbol) hdecl hl hd
  rw [hlength, hto, ← arity_of_callable hdecl harity hl (hscoped.allowed site hsite) hfind]
  rfl

end Build

end Abacus
