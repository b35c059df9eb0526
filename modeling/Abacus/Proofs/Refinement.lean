-- SUMMARY: What managers do, workspaces do: a simulation of one by the other.
import Abacus.Proofs.Manager

/-!
# Managers and workspaces

A manager represents a workspace if its tables represent the units there and all else is
the same, what was written included. Each operation then does in both the same: it gives
the same, up to what an entry leaves out of a declaration, or fails in the same way, and
leaves a manager that represents the workspace left.

Generating a function is not among these operations: there a backend has its say.
-/

namespace Abacus

open Workspace

/-- The manager is the workspace, with its units in tables. -/
structure Manager.Represents (m : Manager) (s : World) : Prop where
  config     : m.config = s.workspace.config
  supply     : m.supply = s.workspace.supply
  opened     : Option.Rel OpenUnit.Represents m.opened s.workspace.current
  units      : List.Forall₂ UnitTable.Represents m.units s.workspace.closed
  engines    : m.engines = s.workspace.engines
  registry   : m.registry = s.workspace.registry
  nextUnit   : m.nextUnit = s.workspace.nextUnit
  transcript : m.transcript = s.transcript

/-! ## Looking up -/

section Lookup

variable {ts : List UnitTable} {us : List CodeUnit}

theorem UnitTable.findSome?_eq (h : List.Forall₂ UnitTable.Represents ts us) (symbol : String) :
    ts.findSome? (·.find? symbol) = (us.findSome? (·.find? symbol)).map Declaration.entry := by
  induction h with
  | nil => rfl
  | @cons t u ts us unit _ ih =>
    rw [List.findSome?_cons, List.findSome?_cons, unit.find?]
    cases u.find? symbol with
    | some d => rfl
    | none => exact ih

theorem UnitTable.filterMap_eq (h : List.Forall₂ UnitTable.Represents ts us) (symbol : String) :
    ts.filterMap (·.find? symbol) = (us.filterMap (·.find? symbol)).map Declaration.entry := by
  induction h with
  | nil => rfl
  | @cons t u ts us unit _ ih =>
    rw [List.filterMap_cons, List.filterMap_cons, unit.find?]
    cases u.find? symbol with
    | some d => exact congrArg _ ih
    | none => exact ih

end Lookup

namespace Manager.Represents

variable {m : Manager} {s : World}

theorem opened_cases (h : m.Represents s) :
    (m.opened = none ∧ s.workspace.current = none) ∨
      ∃ c u, m.opened = some c ∧ s.workspace.current = some u ∧ c.Represents u := by
  have hopened := h.opened
  generalize m.opened = c? at hopened
  generalize s.workspace.current = u? at hopened
  cases hopened with
  | none => exact .inl ⟨rfl, rfl⟩
  | some unit => exact .inr ⟨_, _, rfl, rfl, unit⟩

theorem openEntry?_eq (h : m.Represents s) (symbol : String) :
    m.openEntry? symbol = (s.workspace.currentDeclaration? symbol).map Declaration.entry := by
  unfold Manager.openEntry? Workspace.currentDeclaration?
  obtain ⟨hc, hu⟩ | ⟨c, u, hc, hu, unit⟩ := h.opened_cases
  · rw [hc, hu]
    rfl
  · rw [hc, hu]
    exact unit.table.find? symbol

theorem closedEntry?_eq (h : m.Represents s) (symbol : String) :
    m.closedEntry? symbol = (s.workspace.closedDeclaration? symbol).map Declaration.entry :=
  UnitTable.findSome?_eq h.units symbol

theorem entries_eq (h : m.Represents s) (symbol : String) :
    m.entries symbol = (s.workspace.declarations symbol).map Declaration.entry := by
  rw [Manager.entries, Workspace.declarations, h.openEntry?_eq, UnitTable.filterMap_eq h.units,
    List.map_append]
  cases s.workspace.currentDeclaration? symbol <;> rfl

theorem address?_eq (h : m.Represents s) (symbol : String) :
    m.address? symbol = s.workspace.address? symbol := by
  rw [Manager.address?, h.engines, Workspace.address?]

end Manager.Represents

namespace Manage

variable {α β γ δ : Type} {m : Manager} {s : World}

/-! ## Simulation -/

/-- Two computations that come to related results, or fail alike, and leave a manager and
    the workspace it represents. -/
inductive Agrees (R : α → β → Prop) :
    EStateM.Result Fault Manager α → EStateM.Result Fault World β → Prop
  | ok {a : α} {b : β} {m : Manager} {s : World} (value : R a b) (state : m.Represents s) :
      Agrees R (.ok a m) (.ok b s)
  | error {fault : Fault} {m : Manager} {s : World} (state : m.Represents s) :
      Agrees R (.error fault m) (.error fault s)

/-- What a manager does, the workspace that it represents does. -/
def Simulates (R : α → β → Prop) (x : Manage α) (y : Build β) : Prop :=
  ∀ m s, m.Represents s → Agrees R (x m) (y s)

variable {R : α → β → Prop} {Q : γ → δ → Prop} {x : Manage α} {y : Build β} {f : α → Manage γ}
  {g : β → Build δ}

/-- A step that succeeds hands its result and its manager to the next. -/
theorem bind_ok {m' : Manager} {a : α} (h : x m = .ok a m') : (x >>= f) m = f a m' := by
  simp only [bind, EStateM.bind, h]

theorem Agrees.bind (hx : Agrees R (x m) (y s))
    (hf : ∀ a b m' s', y s = .ok b s' → R a b → m'.Represents s' → Agrees Q (f a m') (g b s')) :
    Agrees Q ((x >>= f) m) ((y >>= g) s) := by
  generalize hr₁ : x m = r₁ at hx
  generalize hr₂ : y s = r₂ at hx
  simp only [Bind.bind, EStateM.bind, hr₁, hr₂]
  cases hx with
  | ok value state => exact hf _ _ _ _ hr₂ value state
  | error state => exact .error state

theorem Simulates.bind (hx : Simulates R x y) (hf : ∀ a b, R a b → Simulates Q (f a) (g b)) :
    Simulates Q (x >>= f) (y >>= g) :=
  fun m s h => (hx m s h).bind fun a b m' s' _ hab h' => hf a b hab m' s' h'

/-- Both may ask the same question. -/
theorem simulates_ite {p : Prop} [Decidable p] {x' : Manage α} {y' : Build β}
    (h : Simulates R x y) (h' : Simulates R x' y') :
    Simulates R (if p then x else x') (if p then y else y') := by
  by_cases hp : p
  · rwa [if_pos hp, if_pos hp]
  · rwa [if_neg hp, if_neg hp]

/-- Both may look at their state first. -/
theorem simulates_get {f : Manager → Manage γ} {g : Workspace → Build δ}
    (h : ∀ m s, m.Represents s → Agrees Q (f m m) (g s.workspace s)) :
    Simulates Q (get >>= f) (Build.workspace >>= g) :=
  h

theorem simulates_pure {a : α} {b : β} (h : R a b) : Simulates R (pure a) (pure b) :=
  fun _ _ state => .ok h state

theorem simulates_throw (fault : Fault) : Simulates R (throw fault) (throw fault) :=
  fun _ _ state => .error state

theorem simulates_reject (e : CompileError) : Simulates R (reject e) (Build.reject e) :=
  simulates_throw _

theorem simulates_writeOut (bytes : List UInt8) :
    Simulates Eq (writeOut bytes) (Build.writeOut bytes) := fun _ _ h =>
  .ok rfl { h with transcript := congrArg (fun t => { t with out := t.out ++ bytes }) h.transcript }

theorem simulates_writeErr (text : String) :
    Simulates Eq (writeErr text) (Build.writeErr text) := fun _ _ h =>
  .ok rfl { h with transcript := congrArg (fun t => { t with err := t.err ++ text }) h.transcript }

/-- Both are set to the same, so both write to standard error or neither does. -/
theorem simulates_writeErr_if (shown : Config → Bool) (text : String) :
    Simulates Eq (do if shown (← get).config then writeErr text)
      (do if shown (← Build.workspace).config then Build.writeErr text) := by
  apply simulates_get
  intro m s h
  rw [h.config]
  split
  · exact simulates_writeErr text m s h
  · exact .ok rfl h

theorem simulates_note (line : String) : Simulates Eq (note line) (Build.note line) :=
  simulates_writeErr_if (·.verbose) _

theorem simulates_showCode (proto : Prototype) (r : Code.Routine Code.FuncRef) :
    Simulates Eq (showCode proto r) (Build.showCode proto r) :=
  simulates_writeErr_if (·.printCode) _

theorem simulates_unresolved (symbol : String) :
    Simulates R (unresolved symbol) (Build.unresolved symbol) :=
  (simulates_writeErr _).bind fun _ _ _ => simulates_throw _

theorem simulates_exec (run : Code.Exec α) : Simulates Eq (exec run) (Build.exec run) := by
  unfold exec Build.exec
  cases run.run [] with
  | ok result => exact (simulates_writeOut _).bind fun _ _ _ => simulates_pure rfl
  | error reason => exact simulates_throw _

/-! ## Declaring -/

theorem simulates_openUnit : Simulates OpenUnit.Represents openUnit Build.openUnit := by
  apply simulates_get
  intro m s h
  obtain ⟨hc, hu⟩ | ⟨c, u, hc, hu, unit⟩ := h.opened_cases
  · rw [hc, hu, h.nextUnit]
    have hopen : Agrees Eq
        ((set { m with opened := some (OpenUnit.numbered s.workspace.nextUnit),
                       nextUnit := s.workspace.nextUnit + 1 } : Manage Unit) m)
        (Build.setWorkspace { s.workspace with
          current := some (CodeUnit.numbered s.workspace.nextUnit)
          nextUnit := s.workspace.nextUnit + 1 } s) :=
      .ok rfl { h with opened := .some (.numbered _), nextUnit := rfl }
    apply hopen.bind
    intro _ _ m' s' _ _ h'
    exact ((simulates_note _).bind fun _ _ _ => simulates_pure (.numbered _)) m' s' h'
  · rw [hc, hu]
    exact .ok unit h

/-- Where a unit is open already, it is the one to go on with. -/
theorem openUnit_of_current {u : CodeUnit} (h : m.Represents s)
    (hu : s.workspace.current = some u) : ∃ c, openUnit m = .ok c m ∧ c.Represents u := by
  obtain ⟨-, hnone⟩ | ⟨c, u', hc, hu', unit⟩ := h.opened_cases
  · rw [hnone] at hu
    cases hu
  · rw [hu'] at hu
    cases hu
    refine ⟨c, ?_, unit⟩
    have hget : (get : Manage Manager) m = .ok m m := rfl
    unfold openUnit
    rw [bind_ok hget, hc]
    rfl

theorem simulates_setOpened {c : OpenUnit} {u : CodeUnit} (unit : c.Represents u) :
    Simulates Eq (setOpened c) (Build.setCurrent u) :=
  fun _ _ h => .ok rfl { h with opened := .some unit }

/-- An entry is a declaration without its linkage. -/
abbrev Enters (e : UnitTable.Entry) (d : Declaration) : Prop :=
  e = d.entry

theorem simulates_declare (name symbol : String) (arity : Nat) (linkage : Linkage) :
    Simulates Enters (declare name symbol arity linkage)
      (Build.declare name symbol arity linkage) := by
  apply simulates_openUnit.bind
  intro c u unit
  obtain ⟨c', hdeclare, unit'⟩ := unit.declare name symbol arity linkage
  rw [hdeclare]
  generalize u.declare name symbol arity linkage = declared at unit' ⊢
  obtain ⟨result, u'⟩ := declared
  apply (simulates_setOpened unit').bind
  intro _ _ _
  cases result with
  | ok d => exact simulates_pure rfl
  | error e => exact simulates_reject e

theorem simulates_findDeclaration (symbol : String) :
    Simulates (fun e d => e = d.map Declaration.entry) (findDeclaration symbol)
      (Build.findDeclaration symbol) := by
  apply simulates_get
  intro m s h
  rw [h.openEntry?_eq, h.closedEntry?_eq]
  cases s.workspace.currentDeclaration? symbol with
  | some d => exact .ok rfl h
  | none =>
    cases s.workspace.closedDeclaration? symbol with
    | none => exact .ok rfl h
    | some found =>
      apply (simulates_declare found.name symbol found.arity .imported m s h).bind
      intro e d m' s' _ hentry h'
      exact .ok (congrArg some hentry) h'

theorem objection?_map (name : String) (arity : Nat) (ds : List Declaration) :
    objection? name arity (ds.map Declaration.entry) = Build.objection? name arity ds := by
  induction ds with
  | nil => rfl
  | cons d ds ih =>
    rw [List.map_cons, objection?, Build.objection?, ih]
    rfl

theorem simulates_checkDefinition (name symbol : String) (arity : Nat) :
    Simulates Eq (checkDefinition name symbol arity)
      (Build.checkDefinition name symbol arity) := by
  apply simulates_get
  intro m s h
  rw [h.entries_eq, objection?_map]
  cases Build.objection? name arity (s.workspace.declarations symbol) with
  | some e => exact .error h
  | none => exact .ok rfl h

theorem simulates_declareExternal (proto : Prototype) :
    Simulates Enters (declareExternal proto) (Build.declareExternal proto) := by
  apply simulates_get
  intro m s h
  rw [h.openEntry?_eq, h.closedEntry?_eq, ← Option.map_or, ← Workspace.declaration?]
  cases s.workspace.declaration? (Symbol.legalize proto.name) with
  | none => exact simulates_declare _ _ _ _ m s h
  | some d =>
    simp only [Option.map_some, Declaration.entry_arity]
    have hentry : Enters d.entry d := rfl
    exact simulates_ite (p := d.arity = proto.arity) (simulates_pure hentry)
      (simulates_reject _) m s h

theorem simulates_symbolFor (name : String) :
    Simulates Eq (symbolFor name) (Build.symbolFor name) := by
  apply simulates_get
  intro m s h
  rw [h.supply]
  exact .ok rfl { h with supply := rfl }

/-! ## Finalizing -/

theorem simulates_finalize : Simulates Eq finalize Build.finalize := by
  apply simulates_get
  intro m s h
  obtain ⟨hc, hu⟩ | ⟨c, u, hc, hu, unit⟩ := h.opened_cases
  · rw [hc, hu]
    exact .ok rfl h
  · rw [hc, hu, h.engines, h.registry]
    dsimp only
    rw [unit.link_eq, unit.table.name]
    cases u.link s.workspace.engines.length s.workspace.registry with
    | error symbol => exact simulates_unresolved symbol m s h
    | ok engine =>
      have hclose : Agrees Eq
          ((set { m with
            opened := none
            units := m.units ++ [c.table]
            engines := s.workspace.engines ++ [engine]
            registry := s.workspace.registry.publish engine.symbols } : Manage Unit) m)
          (Build.setWorkspace (s.workspace.close u engine) s) :=
        .ok rfl { h with
          opened := .none
          units := List.rel_append h.units (.cons unit.table .nil)
          engines := rfl
          registry := rfl }
      apply hclose.bind
      intro _ _ m' s' _ _ h'
      exact ((simulates_note _).bind fun _ _ _ => simulates_pure rfl) m' s' h'

theorem simulates_address (symbol : String) :
    Simulates Eq (address symbol) (Build.address symbol) := by
  apply simulates_get
  intro m s h
  rw [h.address?_eq, h.openEntry?_eq, Option.any_map]
  cases s.workspace.address? symbol with
  | some a => exact .ok rfl h
  | none =>
    simp only [Declaration.entry_hasBody]
    refine simulates_ite (simulates_finalize.bind fun _ _ _ => simulates_get fun m' s' h' => ?_)
      (simulates_reject _) m s h
    rw [h'.address?_eq]
    cases s'.workspace.address? symbol with
    | some a => exact .ok rfl h'
    | none => exact .error h'

theorem simulates_evaluate (handle : Build.Handle) :
    Simulates Eq (evaluate handle) (Build.evaluate handle) := by
  apply simulates_ite
  · exact simulates_reject _
  · apply (simulates_address handle.symbol).bind
    rintro a _ rfl
    apply simulates_get
    intro m s h
    rw [h.engines]
    exact simulates_exec _ m s h

/-! ## Resolving -/

/-- The callees that were found, by their numbers. -/
def numbers (callees : Build.Callees) : Callees :=
  callees.map fun c => (c.1, c.2.id)

theorem simulates_resolveAll {proto : Prototype} {own : String} {args : List Expr}
    (ih : ∀ arg ∈ args, ∀ callees, Simulates (fun c d => c = numbers d)
      (resolve proto own (numbers callees) arg) (Build.resolve proto own callees arg))
    (callees : Build.Callees) :
    Simulates (fun c d => c = numbers d) (resolveAll proto own (numbers callees) args)
      (Build.resolveAll proto own callees args) := by
  induction args generalizing callees with
  | nil =>
    rw [resolveAll, Build.resolveAll]
    exact simulates_pure rfl
  | cons arg args ihargs =>
    rw [resolveAll, Build.resolveAll]
    apply (ih arg List.mem_cons_self callees).bind
    rintro _ found rfl
    exact ihargs (fun arg harg => ih arg (List.mem_cons_of_mem _ harg)) found

theorem simulates_resolve {proto : Prototype} {own : String} (e : Expr) (callees : Build.Callees) :
    Simulates (fun c d => c = numbers d) (resolve proto own (numbers callees) e)
      (Build.resolve proto own callees e) := by
  induction e generalizing callees with
  | number value =>
    rw [resolve, Build.resolve]
    exact simulates_pure rfl
  | var name =>
    rw [resolve, Build.resolve]
    exact simulates_ite (simulates_pure rfl) (simulates_reject _)
  | binary op lhs rhs ihl ihr =>
    rw [resolve, Build.resolve]
    apply (ihl callees).bind
    rintro _ found rfl
    apply (ihr found).bind
    rintro _ all rfl
    exact simulates_ite (simulates_pure rfl) (simulates_reject _)
  | call callee args ih =>
    have hargs (callees : Build.Callees) := simulates_resolveAll ih callees
    rw [resolve, Build.resolve]
    apply simulates_ite
    · exact simulates_ite (hargs callees) (simulates_reject _)
    · apply (simulates_findDeclaration _).bind
      rintro _ found rfl
      cases found with
      | none => exact simulates_reject _
      | some d => exact simulates_ite (hargs ((callee, d) :: callees)) (simulates_reject _)

end Manage

end Abacus
