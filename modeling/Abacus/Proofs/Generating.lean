-- SUMMARY: The endings of generating a function, and what each leaves behind.
import Abacus.Proofs.Building

/-!
# Generating functions

A function is refused because of its own symbol, because of its body, or, if it
was not read from a text, because it calls its own symbol by another name.
Otherwise the open unit gains its routine, every call of which refers to a
declaration of the unit.
-/

namespace Abacus

open Workspace

/-- A routine of a unit is what a function was compiled to. -/
def CodeUnit.Compiles (u : CodeUnit) (f : Function) (symbol : String)
    (r : Code.Routine Code.FuncRef) : Prop :=
  ∃ (decl : Declaration) (scope : Code.Scope),
    scope.params = f.proto.params ∧ decl.symbol = symbol ∧
    u.Declares symbol decl.id f.proto.arity ∧
    Code.Routine.ofExpr decl scope f.body = .ok r ∧
    ∀ c d, scope.callee? c = some d →
      d.symbol = Symbol.legalize c ∧ u.Declares d.symbol d.id d.arity

namespace CodeUnit.Compiles

variable {u u' : CodeUnit} {f : Function} {symbol : String} {r : Code.Routine Code.FuncRef}

theorem mono (h : u.Compiles f symbol r)
    (hu : ∀ s id n, u.Declares s id n → u'.Declares s id n) : u'.Compiles f symbol r := by
  obtain ⟨decl, scope, hparams, hsymbol, hdecl, hr, hscope⟩ := h
  refine ⟨decl, scope, hparams, hsymbol, hu _ _ _ hdecl, hr, fun c d hd => ?_⟩
  exact ⟨(hscope c d hd).1, hu _ _ _ (hscope c d hd).2⟩

theorem symbol_eq (h : u.Compiles f symbol r) : r.symbol = symbol := by
  obtain ⟨decl, scope, -, hsymbol, -, hr, -⟩ := h
  obtain ⟨v, d, -, rfl⟩ := Code.ofExpr_ok.mp hr
  exact hsymbol

theorem arity_eq (h : u.Compiles f symbol r) : r.arity = f.proto.arity := by
  obtain ⟨decl, scope, hparams, -, -, hr, -⟩ := h
  obtain ⟨v, d, -, rfl⟩ := Code.ofExpr_ok.mp hr
  simp [Prototype.arity, hparams]

theorem declares (h : u.Compiles f symbol r) : u.Declares r.symbol r.id r.arity := by
  have hs := h.symbol_eq
  have ha := h.arity_eq
  obtain ⟨decl, scope, -, -, hdecl, hr, -⟩ := h
  obtain ⟨v, d, -, rfl⟩ := Code.ofExpr_ok.mp hr
  rw [hs, ha]
  exact hdecl

theorem callee_declared (h : u.Compiles f symbol r) :
    ∀ ref ∈ r.callees, u.Declares ref.symbol ref.id ref.arity := by
  obtain ⟨decl, scope, -, -, -, hr, hscope⟩ := h
  intro ref href
  obtain ⟨index, c, d, hd, rfl⟩ := Code.refers_of_mem_callees hr href
  exact (hscope c d hd).2

end CodeUnit.Compiles

namespace Build

variable {s s' : World} {name symbol : String} {arity : Nat}

/-! ## Symbols and scopes -/

/-- The workspace after a symbol was handed out for a name. -/
def supplied (w : Workspace) (name : String) : Workspace :=
  { w with supply := (w.supply.symbolFor name).2 }

theorem symbolFor_apply (name : String) (s : World) :
    symbolFor name s = .ok (s.workspace.supply.symbolFor name).1
      { s with workspace := supplied s.workspace name } := rfl

theorem symbolFor_of_named (supply : Symbol.Supply) (h : name.isEmpty = false) :
    supply.symbolFor name = (Symbol.legalize name, supply) := by
  simp [Symbol.Supply.symbolFor, h]

theorem exists_lookup {callees : Callees} {c : String} {d : Declaration} (h : (c, d) ∈ callees) :
    ∃ d', callees.lookup c = some d' := by
  refine Option.ne_none_iff_exists'.mp fun hnone => ?_
  have hne := List.lookup_eq_none_iff.mp hnone (c, d) h
  simp at hne

theorem mem_of_lookup {callees : Callees} {c : String} {d : Declaration}
    (h : callees.lookup c = some d) : (c, d) ∈ callees := by
  obtain ⟨l₁, l₂, rfl, -⟩ := List.lookup_eq_some_iff.mp h
  simp

/-- The callees of a function in the scope of its own body. -/
theorem callee?_withOwn {proto : Prototype} {decl d : Declaration} {callees : Callees} {c : String}
    (h : Code.Scope.callee? ⟨proto.params, withOwn proto decl callees⟩ c = some d) :
    (proto.isAnonymous = false ∧ c = proto.name ∧ d = decl) ∨ (c, d) ∈ callees := by
  simp only [Code.Scope.callee?, withOwn] at h
  split at h
  · exact .inr (mem_of_lookup h)
  case isFalse hanon =>
    rw [List.lookup_cons] at h
    split at h
    case h_1 hc =>
      cases h
      exact .inl ⟨Bool.eq_false_iff.mpr hanon, by simpa using hc, rfl⟩
    case h_2 => exact .inr (mem_of_lookup h)

theorem exists_callee?_withOwn {proto : Prototype} {decl : Declaration} {callees : Callees}
    {c : String} (h : (proto.isAnonymous = false ∧ c = proto.name) ∨ ∃ d, (c, d) ∈ callees) :
    ∃ d, Code.Scope.callee? ⟨proto.params, withOwn proto decl callees⟩ c = some d := by
  simp only [Code.Scope.callee?, withOwn]
  split
  case isTrue hanon =>
    rcases h with ⟨hnamed, -⟩ | ⟨d, hd⟩
    · rw [hanon] at hnamed; cases hnamed
    · exact exists_lookup hd
  case isFalse hanon =>
    rcases h with ⟨-, rfl⟩ | ⟨d, hd⟩
    · exact ⟨decl, by simp⟩
    · exact exists_lookup (List.mem_cons_of_mem _ hd)

/-! ## Endings -/

/-- A function calls its own symbol by a name that is not its own. -/
def CallsItselfByAnotherName (f : Function) (symbol : String) : Prop :=
  ∃ c ∈ f.body.callees, Symbol.legalize c = symbol ∧ ¬ (f.proto.isAnonymous = false ∧ c = f.proto.name)

/-- The open unit gained declarations and the routine of a function. -/
inductive Extension (f : Function) (symbol : String) (w w' : Workspace) : Prop where
  | mk {w₁ : Workspace} {u : CodeUnit} {r : Code.Routine Code.FuncRef} (grown : Grown w w₁)
      (current : w₁.current = some u) (compiles : u.Compiles f symbol r)
      (workspace : w' = { w₁ with current := some (u.define r) }) (step : Step w₁ w')
      (signature? : ∀ t, w'.signature? t =
        if t = symbol then some ⟨f.proto.arity, true⟩ else w.signature? t)

theorem Extension.steps {f : Function} {w w' : Workspace} (h : Extension f symbol w w') :
    Steps w w' := by
  obtain ⟨grown, -, -, -, step, -⟩ := h
  exact grown.steps.tail step

/-- Only the open unit has changed, and it has the body. -/
theorem Extension.frame {f : Function} {w w' : Workspace} (h : Extension f symbol w w') :
    w'.closed = w.closed ∧ w'.engines = w.engines ∧ w'.registry = w.registry ∧
      w'.supply = w.supply ∧ ∃ u, w'.current = some u ∧ u.defines symbol = true := by
  obtain @⟨w₁, u, r, grown, current, compiles, rfl, step, -⟩ := h
  refine ⟨grown.closed, grown.engines, grown.registry, grown.supply, _, rfl, ?_⟩
  obtain ⟨d, hd, hs, -, -⟩ := compiles.declares
  refine CodeUnit.defines_define.mpr (.inr ⟨compiles.symbol_eq.symm, d, hd, ?_⟩)
  exact hs.trans compiles.symbol_eq

/-- The endings of generating a function whose symbol is `symbol`. -/
inductive Generated (f : Function) (symbol : String) (s : World) :
    EStateM.Result Fault World Handle → Prop where
  /-- The symbol may not be defined. -/
  | clash {e : CompileError} {s' : World} (admits : ¬ Admits s.workspace symbol f.proto.arity)
      (objection : objection? f.proto.name f.proto.arity (s.workspace.declarations symbol) = some e)
      (workspace : s'.workspace = supplied s.workspace f.proto.name) (quiet : Quiet s s') :
      Generated f symbol s (.error (.rejected e) s')
  /-- There is an objection to the body. -/
  | refused {e : CompileError} {s' : World} (admits : Admits s.workspace symbol f.proto.arity)
      (objection : f.body.objection? f.proto.params
        (arityWithin? s.workspace f.proto symbol) = some e)
      (forwards : Forwards (supplied s.workspace f.proto.name) s'.workspace) (quiet : Quiet s s') :
      Generated f symbol s (.error (.rejected e) s')
  /-- The function was declared, but its code could not be emitted. -/
  | unemitted {e : CompileError} {s' : World} {w₁ : Workspace}
      (admits : Admits s.workspace symbol f.proto.arity)
      (other : CallsItselfByAnotherName f symbol) (ne_backend : ∀ message, e ≠ .backend message)
      (forwards : Forwards (supplied s.workspace f.proto.name) w₁)
      (workspace : s'.workspace = w₁.declare f.proto.name symbol f.proto.arity .exported)
      (quiet : Quiet s s') : Generated f symbol s (.error (.rejected e) s')
  /-- The open unit gained its routine. -/
  | compiled {s' : World} (admits : Admits s.workspace symbol f.proto.arity)
      (objection : f.body.objection? f.proto.params
        (arityWithin? s.workspace f.proto symbol) = none)
      (extension : Extension f symbol (supplied s.workspace f.proto.name) s'.workspace)
      (quiet : Quiet s s') :
      Generated f symbol s (.ok ⟨f.proto.name, symbol, f.proto.arity⟩ s')

theorem checkDefinition_apply (name symbol : String) (arity : Nat) (s : World) :
    checkDefinition name symbol arity s =
      match objection? name arity (s.workspace.declarations symbol) with
      | some e => .error (.rejected e) s
      | none => .ok () s := by
  unfold checkDefinition
  rw [bind_ok (workspace_apply s)]
  cases objection? name arity (s.workspace.declarations symbol) <;> rfl

theorem showCode_apply (proto : Prototype) (r : Code.Routine Code.FuncRef) (s : World) :
    ∃ t, showCode proto r s = .ok () { s with transcript := t } ∧ t.out = s.transcript.out := by
  unfold showCode
  rw [bind_ok (workspace_apply s)]
  split
  · exact ⟨_, rfl, rfl⟩
  · exact ⟨s.transcript, rfl, rfl⟩

/-- The scope of a function about to be emitted, seen from the unit that declares it. -/
theorem scope_of_found {w : Workspace} {f : Function} {decl : Declaration} {callees : Callees}
    (hsymbol : f.proto.isAnonymous = false → symbol = Symbol.legalize f.proto.name)
    (hdecl : decl ∈ w.unit.declarations) (hds : decl.symbol = symbol)
    (found : FoundIn w symbol callees) {c : String} {d : Declaration}
    (h : Code.Scope.callee? ⟨f.proto.params, withOwn f.proto decl callees⟩ c = some d) :
    d.symbol = Symbol.legalize c ∧ w.unit.Declares d.symbol d.id d.arity := by
  rcases callee?_withOwn h with ⟨hnamed, rfl, rfl⟩ | hmem
  · exact ⟨hds.trans (hsymbol hnamed), d, hdecl, rfl, rfl, rfl⟩
  · obtain ⟨hs, -, hd⟩ := found c d hmem
    exact ⟨hs, hd⟩

/-- Code is emitted for every function that was resolved, unless it calls its own
    symbol by another name. -/
theorem callsItself_of_ofExpr_error {f : Function} {decl : Declaration} {callees : Callees}
    {arity? : String → Option Nat} {e : CompileError}
    (hobj : f.body.objection? f.proto.params arity? = none)
    (all : ∀ c ∈ f.body.callees, Symbol.legalize c ≠ symbol → ∃ d, (c, d) ∈ callees)
    (h : Code.Routine.ofExpr decl ⟨f.proto.params, withOwn f.proto decl callees⟩ f.body = .error e) :
    CallsItselfByAnotherName f symbol := by
  by_contra hno
  have hscope : ∀ c ∈ f.body.callees, ∃ d,
      Code.Scope.callee? ⟨f.proto.params, withOwn f.proto decl callees⟩ c = some d := by
    intro c hc
    refine exists_callee?_withOwn ?_
    by_cases hs : Symbol.legalize c = symbol
    · refine .inl ?_
      by_contra hne
      exact hno ⟨c, hc, hs, hne⟩
    · exact .inr (all c hc hs)
  obtain ⟨v, d, hemit⟩ := Code.exists_emit hobj hscope {}
  rw [Code.ofExpr_ok.mpr ⟨v, d, hemit, rfl⟩] at h
  cases h

/-- A unit that gains the routine of a function it has declared without a body. -/
theorem Extension.of_compiles {f : Function} {w w₁ : Workspace} {u : CodeUnit}
    {r : Code.Routine Code.FuncRef} (hw₁ : w₁.Coherent) (grown : Grown w w₁)
    (current : w₁.current = some u) (compiles : u.Compiles f symbol r)
    (hsig : ∀ t, w₁.signature? t =
      if t = symbol then some ⟨f.proto.arity, false⟩ else w.signature? t) :
    Extension f symbol w { w₁ with current := some (u.define r) } := by
  have hnew : ∀ d ∈ w₁.declarations r.symbol, d.hasBody = false := by
    intro d hd
    rw [compiles.symbol_eq] at hd
    have hs := hsig symbol
    rw [if_pos rfl] at hs
    rw [Bool.eq_false_iff]
    intro hbody
    cases (hasBody_of_signature? hs).mpr ⟨d, hd, hbody⟩
  refine .mk grown current compiles rfl
    (.defined current compiles.declares hnew compiles.callee_declared) fun t => ?_
  rw [signature?_define hw₁ current compiles.declares hnew compiles.callee_declared,
    compiles.symbol_eq, compiles.arity_eq, hsig t]
  split <;> rfl

/-- Recording a routine changes the open unit only. -/
theorem define_apply {u : CodeUnit} {α : Type} (proto : Prototype) (r : Code.Routine Code.FuncRef)
    (a : α) (hcurrent : s.workspace.current = some u) :
    ∃ s', (do
        showCode proto r
        let u ← openUnit
        setCurrent (u.define r)
        return a : Build α) s = .ok a s' ∧
      s'.workspace = { s.workspace with current := some (u.define r) } ∧ Quiet s s' := by
  obtain ⟨t, hshow, hout⟩ := showCode_apply proto r s
  obtain ⟨s₁, hopen, hws, quiet⟩ := openUnit_apply { s with transcript := t }
  have hset : setCurrent (s.workspace.unit.define r) s₁ = .ok ()
      { s₁ with workspace := { s.workspace with current := some (u.define r) } } := by
    unfold setCurrent
    rw [bind_ok (workspace_apply s₁), setWorkspace_apply, hws, opened_of_some hcurrent,
      unit_of_some hcurrent]
  have hquiet : Quiet s { s with transcript := t } := hout
  refine ⟨{ s₁ with workspace := { s.workspace with current := some (u.define r) } }, ?_, rfl,
    hquiet.trans quiet⟩
  rw [bind_ok hshow, bind_ok hopen, bind_ok hset]
  rfl

/-- The second pass: the function is declared and its code emitted. -/
theorem generated_emit {f : Function} {s₁ : World} {callees : Callees} (hw : s.workspace.Coherent)
    (hsymbol : f.proto.isAnonymous = false → symbol = Symbol.legalize f.proto.name)
    (admits : Admits s.workspace symbol f.proto.arity)
    (objection : f.body.objection? f.proto.params (arityWithin? s.workspace f.proto symbol) = none)
    (forwards : Forwards (supplied s.workspace f.proto.name) s₁.workspace) (quiet : Quiet s s₁)
    (found : FoundIn s₁.workspace symbol callees)
    (all : ∀ c ∈ f.body.callees, Symbol.legalize c ≠ symbol → ∃ d, (c, d) ∈ callees) :
    Generated f symbol s ((do
      let decl ← declare f.proto.name symbol f.proto.arity .exported
      match Code.Routine.ofExpr decl ⟨f.proto.params, withOwn f.proto decl callees⟩ f.body with
      | .error e => reject e
      | .ok routine =>
        showCode f.proto routine
        let u ← openUnit
        setCurrent (u.define routine)
        return ⟨f.proto.name, symbol, f.proto.arity⟩ : Build Handle) s₁) := by
  have hw₀ : (supplied s.workspace f.proto.name).Coherent := hw.step (.supplied _)
  have hkept := forwards.kept hw₀
  have hw₁ := hw₀.steps hkept.steps
  have admits₀ : Admits (supplied s.workspace f.proto.name) symbol f.proto.arity := admits
  have admits₁ := admits₀.of_kept hkept
  have ha := admits₁.arity_eq hw₁
  obtain ⟨decl, s₂, hdeclare, hws₂, quiet₂, hdecl, hds, hda⟩ :=
    declare_apply hw₁ f.proto.name .exported ha
  have hgrown := grown_declare hw₁ ha f.proto.name .exported
  have hw₂ := hw₁.steps hgrown.steps
  rw [← hws₂] at hgrown hw₂
  rw [bind_ok hdeclare]
  cases hr : Code.Routine.ofExpr decl ⟨f.proto.params, withOwn f.proto decl callees⟩ f.body with
  | error e =>
    refine .unemitted admits (callsItself_of_ofExpr_error objection all hr) ?_ forwards hws₂
      (quiet.trans quiet₂)
    rintro message rfl
    exact Code.ofExpr_ne_backend hr
  | ok r =>
    have hcurrent : s₂.workspace.current = some s₂.workspace.unit := by
      rw [hws₂]; rfl
    have hcompiles : s₂.workspace.unit.Compiles f symbol r := by
      refine ⟨decl, _, rfl, hds, ⟨decl, hdecl, hds, rfl, hda⟩, hr, ?_⟩
      intro c d hd
      exact scope_of_found hsymbol hdecl hds (found.mono hgrown) hd
    have hsig : ∀ t, s₂.workspace.signature? t =
        if t = symbol then some ⟨f.proto.arity, false⟩ else s.workspace.signature? t := by
      intro t
      rw [hws₂, admits₁.signature?_declare hw₁, hkept.signature?]
      rfl
    obtain ⟨s₃, hdefine, hws₃, quiet₃⟩ := define_apply f.proto r
      (⟨f.proto.name, symbol, f.proto.arity⟩ : Handle) hcurrent
    dsimp only
    rw [hdefine]
    refine .compiled admits objection ?_ ((quiet.trans quiet₂).trans quiet₃)
    rw [hws₃]
    exact .of_compiles hw₂ (hkept.toGrown.trans hgrown) hcurrent hcompiles hsig

/-- Generating a function ends in one of the ways of `Generated`. -/
theorem generated_generate (hw : s.workspace.Coherent) (f : Function) :
    Generated f (s.workspace.supply.symbolFor f.proto.name).1 s (generate f s) := by
  have hsymbol : f.proto.isAnonymous = false →
      (s.workspace.supply.symbolFor f.proto.name).1 = Symbol.legalize f.proto.name := by
    intro hnamed
    rw [symbolFor_of_named _ hnamed]
  unfold generate
  rw [bind_ok (symbolFor_apply _ _)]
  generalize (s.workspace.supply.symbolFor f.proto.name).1 = symbol at hsymbol ⊢
  have hw₀ : (supplied s.workspace f.proto.name).Coherent := hw.step (.supplied _)
  have hcheck : checkDefinition f.proto.name symbol f.proto.arity
      { s with workspace := supplied s.workspace f.proto.name } =
        match objection? f.proto.name f.proto.arity (s.workspace.declarations symbol) with
        | some e => .error (.rejected e) { s with workspace := supplied s.workspace f.proto.name }
        | none => .ok () { s with workspace := supplied s.workspace f.proto.name } :=
    checkDefinition_apply _ _ _ _
  have hadmits := admits_iff hw f.proto.name symbol f.proto.arity
  cases hobj : objection? f.proto.name f.proto.arity (s.workspace.declarations symbol) with
  | some e =>
    rw [hobj] at hadmits hcheck
    rw [bind_error hcheck]
    exact .clash (fun h => by cases hadmits.mp h) hobj rfl rfl
  | none =>
    have admits := hadmits.mpr hobj
    rw [hobj] at hcheck
    rw [bind_ok hcheck]
    have hres : Resolution symbol f.body.callees []
        { s with workspace := supplied s.workspace f.proto.name }
        (f.body.objection? f.proto.params (arityWithin? s.workspace f.proto symbol))
        (resolve f.proto symbol [] f.body
          { s with workspace := supplied s.workspace f.proto.name }) :=
      resolution_resolve hw₀
    generalize hobjection : f.body.objection? f.proto.params
      (arityWithin? s.workspace f.proto symbol) = o at hres
    generalize hr : resolve f.proto symbol [] f.body
      { s with workspace := supplied s.workspace f.proto.name } = r at hres
    cases hres with
    | refused forwards quiet =>
      rw [bind_error hr]
      exact .refused admits hobjection forwards quiet
    | found forwards quiet declared all =>
      rw [bind_ok hr, List.append_nil]
      exact generated_emit hw hsymbol admits hobjection forwards quiet declared all

end Build

end Abacus
