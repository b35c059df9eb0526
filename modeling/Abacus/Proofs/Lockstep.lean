-- SUMMARY: Units, engines, published symbols and numbers stay in step with each other.
import Abacus.Proofs.Composition

/-!
# Tables in lockstep

A workspace says several things more than once. Closed units, their engines and what
the engines published are three lists; units are numbered by a counter and by their
place; the declarations of a unit are found by symbol and numbered by place. No
operation checks that all this agrees.

It does after any operations, also where symbols are declared in the open unit with
numbers of parameters that contradict each other. So nothing is assumed about the
workspace here but what an empty one has: each step of an operation is a
`Workspace.Change`, and a change keeps the tables in lockstep.
-/

namespace Abacus

open Workspace

variable {w w' : Workspace} {s : World}

namespace Workspace

/-! ## Changes -/

/-- The changes that the steps of operations make. -/
inductive Change (w : Workspace) : Workspace → Prop where
  | supplied (supply : Symbol.Supply) : Change w { w with supply }
  | opened : Change w w.opened
  | declared (name symbol : String) (arity : Nat) (linkage : Linkage) :
      Change w (w.declare name symbol arity linkage)
  | defined (r : Code.Routine Code.FuncRef) :
      Change w { w.opened with current := some (w.unit.define r) }
  | closed {u : CodeUnit} {e : Engine} (current : w.current = some u)
      (link : u.link w.engines.length w.registry = .ok e) : Change w (w.close u e)

/-- Any number of changes. -/
abbrev Changes : Workspace → Workspace → Prop :=
  Relation.ReflTransGen Change

/-! ## Lockstep -/

/-- The tables of the workspace agree with each other. -/
structure Lockstep (w : Workspace) : Prop where
  linked    : w.Linked
  nextUnit  : w.nextUnit = w.units.length
  name      : ∀ (i : Nat) (u : CodeUnit), w.units[i]? = some u → u.name = (CodeUnit.numbered i).name
  tabulated : ∀ u ∈ w.units, u.Tabulated

theorem lockstep_start (config : Config) : Lockstep { config } where
  linked := linked_start config
  nextUnit := rfl
  name := by simp [units]
  tabulated := by simp [units]

namespace Lockstep

/-- With a unit open, the counter is one ahead of the closed units. -/
theorem opened_nextUnit (h : w.Lockstep) : w.opened.nextUnit = w.closed.length + 1 := by
  have hnext := h.nextUnit
  cases hu : w.current with
  | some u =>
    rw [opened_of_some hu, hnext, units_of_some hu]
    exact List.length_append
  | none => simpa only [opened, hu, units_of_none hu, Nat.add_right_cancel_iff] using hnext

theorem unit_name (h : w.Lockstep) : w.unit.name = (CodeUnit.numbered w.closed.length).name := by
  cases hu : w.current with
  | some u =>
    rw [unit_of_some hu]
    apply h.name
    simp [units_of_some hu]
  | none =>
    have hnext := h.nextUnit
    rw [units_of_none hu] at hnext
    simp only [unit, hu, hnext, Option.getD_none]

theorem unit_tabulated (h : w.Lockstep) : w.unit.Tabulated := by
  cases hu : w.current with
  | some u =>
    rw [unit_of_some hu]
    apply h.tabulated
    simp [units_of_some hu]
  | none =>
    simp only [unit, hu, Option.getD_none]
    exact (CodeUnit.wellFormed_numbered _).tabulated

/-- The open unit may be exchanged for one of the same name. -/
theorem exchange (h : w.Lockstep) {u : CodeUnit} (name : u.name = w.unit.name)
    (tabulated : u.Tabulated) : Lockstep { w.opened with current := some u } := by
  have hunits : units { w.opened with current := some u } = w.closed ++ [u] := by
    simp [units]
  refine ⟨?_, ?_, ?_, ?_⟩
  · exact h.linked.congr opened_closed opened_engines opened_registry
  · rw [hunits]
    simpa using h.opened_nextUnit
  · intro i v hv
    rw [hunits, List.getElem?_append] at hv
    split at hv
    · apply h.name
      rwa [units, List.getElem?_append_left ‹_›]
    · obtain ⟨hi, rfl⟩ := List.getElem?_eq_some_iff.mp hv
      have hi : i = w.closed.length := by
        simp only [List.length_singleton] at hi
        omega
      rw [List.getElem_singleton, name, h.unit_name, hi]
  · intro v hv
    rw [hunits] at hv
    rcases List.mem_append.mp hv with hv | hv
    · exact h.tabulated v (List.mem_append_left _ hv)
    · rwa [List.mem_singleton.mp hv]

theorem change (h : w.Lockstep) (hchange : Change w w') : w'.Lockstep := by
  cases hchange with
  | supplied supply => exact ⟨h.linked.congr rfl rfl rfl, h.nextUnit, h.name, h.tabulated⟩
  | opened =>
    have hexchange := h.exchange rfl h.unit_tabulated
    rwa [← opened_current] at hexchange
  | declared name symbol arity linkage =>
    apply h.exchange
    · unfold CodeUnit.declare
      split
      · dsimp only
        split <;> rfl
      · rfl
    · exact h.unit_tabulated.declare
  | defined r => exact h.exchange rfl h.unit_tabulated.define
  | @closed u e current link =>
    have hunits : (w.close u e).units = w.units := by
      rw [units_close, units_of_some current]
    refine ⟨h.linked.close link, ?_, ?_, ?_⟩
    · rw [hunits]
      exact h.nextUnit
    · rw [hunits]
      exact h.name
    · rw [hunits]
      exact h.tabulated

theorem changes (h : w.Lockstep) (hchanges : Changes w w') : w'.Lockstep := by
  induction hchanges with
  | refl => exact h
  | tail _ hchange ih => exact ih.change hchange

theorem nextUnit_eq_unitCount (h : w.Lockstep) : w.nextUnit = w.unitCount := by
  rw [h.nextUnit, units, unitCount, List.length_append]
  cases w.current <;> rfl

/-- An engine has the name of its unit, and the addresses of the bodies there. -/
theorem engine_of_closed (h : w.Lockstep) {i : Nat} {u : CodeUnit} (hu : w.closed[i]? = some u) :
    ∃ e, w.engines[i]? = some e ∧ w.registry.published[i]? = some e.symbols ∧
      e.unit = u.name ∧ e.symbols = u.addresses i := by
  obtain ⟨e, he⟩ := h.linked.exists_engine hu
  obtain ⟨code, -, hcode⟩ := CodeUnit.link_ok.mp (h.linked.link_eq i u e hu he)
  refine ⟨e, he, ?_, ?_, h.linked.symbols_eq hu he⟩
  · rw [h.linked.published, List.getElem?_map, he]
    rfl
  · rw [hcode]

/-- The engines know an address exactly if they published it. -/
theorem address?_eq_registry (h : w.Lockstep) (symbol : String) :
    w.address? symbol = w.registry.address? symbol := by
  rw [Registry.address?, h.linked.published, List.findSome?_map]
  rfl

end Lockstep

end Workspace

/-! ## Operations -/

namespace Build

/-- Computations that are made of steps change the workspace step by step. -/
theorem Composed.changes {α : Type} {x : Build α} (h : Composed x) (s : World) :
    Changes s.workspace (left x s).workspace := by
  induction h generalizing s with
  | pure a => exact .refl
  | throw fault => exact .refl
  | workspace => exact .refl
  | writeOut bytes => exact .refl
  | writeErr text => exact .refl
  | @bind α β x f _ _ ihx ihf =>
    have hfirst := ihx s
    cases hx : x s with
    | ok a s' =>
      have hbind : left (x >>= f) s = left (f a) s' := by simp only [left, bind_ok hx]
      rw [left_of_ok hx] at hfirst
      rw [hbind]
      exact hfirst.trans (ihf a s')
    | error fault s' =>
      rw [left_of_error hx] at hfirst
      rwa [left_of_error (bind_error hx)]
  | symbolFor name =>
    rw [left_of_ok (symbolFor_apply name s)]
    exact .single (.supplied _)
  | openUnit =>
    obtain ⟨s', hopen, hws, -⟩ := openUnit_apply s
    rw [left_of_ok hopen, hws]
    exact .single .opened
  | declare name symbol arity linkage =>
    obtain ⟨s', hws, hdeclare⟩ := declare_cases name symbol arity linkage s
    have hleft : left (Build.declare name symbol arity linkage) s = s' := by
      rw [left, hdeclare]
      cases (s.workspace.unit.declare name symbol arity linkage).1 <;> rfl
    rw [hleft, hws]
    exact .single (.declared ..)
  | define r =>
    obtain ⟨s', hopen, hws, -⟩ := openUnit_apply s
    have hset : (left (Build.openUnit >>= fun u => setCurrent (u.define r)) s).workspace =
        { s'.workspace with current := some (s.workspace.unit.define r) } := by
      simp only [left, bind_ok hopen, setCurrent, bind_ok (workspace_apply s'), setWorkspace_apply]
    rw [hset, hws]
    exact .single (.defined r)
  | finalize =>
    have hfinal := finalized_finalize s
    generalize hr : Build.finalize s = r at hfinal
    cases hfinal with
    | idle current => rw [left_of_ok hr]
    | unresolved current link workspace quiet => rw [left_of_error hr, workspace]
    | closed current link workspace quiet =>
      rw [left_of_ok hr, workspace]
      exact .single (.closed current link)

/-- The worlds that operations can lead to, and the declaring of any symbol in the open
    unit, with any number of parameters. -/
inductive Arranged : World → Prop where
  | start (config : Config) : Arranged { workspace := { config } }
  | perform {s : World} (op : Op) (h : Arranged s) : Arranged (left op.perform s)
  | declare {s : World} (name symbol : String) (arity : Nat) (linkage : Linkage) (h : Arranged s) :
      Arranged (left (declare name symbol arity linkage) s)

/-- Whatever operations were performed and symbols declared, the tables agree. -/
theorem Arranged.lockstep (h : Arranged s) : s.workspace.Lockstep := by
  induction h with
  | start config => exact lockstep_start config
  | perform op _ ih => exact ih.changes (op.composed.changes _)
  | declare name symbol arity linkage _ ih =>
    exact ih.changes ((Composed.declare name symbol arity linkage).changes _)

end Build

end Abacus
