-- SUMMARY: Managers and workspaces go the same way, with any backend as far as tables go.
import Abacus.Proofs.Drafts
import Abacus.Proofs.Lockstep
import Abacus.Proofs.Refinement

/-!
# Backends

A function comes to the same code in a manager as in the workspace it represents. If the
backend accepts that code, both add it, so a manager with an accepting backend does all
that a workspace does and nothing else.

If it refuses, the function stays declared without a body. No operation of a workspace
ends there, but some of its steps lead there: the manager still represents a workspace
whose tables are in lockstep.
-/

namespace Abacus

open Workspace

namespace Manage

variable {m : Manager} {s : World} {backend : Backend}

/-! ## Coming to code -/

/-- A module sees of a function what its unit declares. -/
theorem view_eq {code : CodeModule} {u : CodeUnit} {d : Declaration} (h : code.Represents u)
    (hu : u.Tabulated) (hd : d ∈ u.declarations) :
    (code.view d.id).symbol = d.symbol ∧
      ∀ index, Code.FuncRef.to index (code.view d.id) = .to index d := by
  rw [CodeModule.view, h.slot_eq hu hd]
  exact ⟨rfl, fun _ => rfl⟩

theorem withOwn_numbers (proto : Prototype) (decl : Declaration) (callees : Build.Callees) :
    withOwn proto decl.id (numbers callees) = numbers (Build.withOwn proto decl callees) := by
  unfold withOwn Build.withOwn
  split <;> rfl

/-- The scope of a body by numbers resembles that by declarations. -/
theorem resembles_of_lists {code : CodeModule} {u : CodeUnit} {f : Function} {symbol : String}
    {decl : Declaration} {callees : Build.Callees} (h : code.Represents u) (hu : u.Tabulated)
    (hsymbol : f.proto.isAnonymous = false → symbol = Symbol.legalize f.proto.name)
    (hdecl : u.find? symbol = some decl) (hl : Build.Lists symbol u callees) :
    Code.Scope.Resembles
      ⟨f.proto.params,
        (withOwn f.proto decl.id (numbers callees)).map fun c => (c.1, code.view c.2)⟩
      ⟨f.proto.params, Build.withOwn f.proto decl callees⟩ := by
  have hcallees : (withOwn f.proto decl.id (numbers callees)).map (fun c => (c.1, code.view c.2)) =
      (Build.withOwn f.proto decl callees).map fun c => (c.1, code.view c.2.id) := by
    rw [withOwn_numbers, numbers, List.map_map]
    rfl
  refine ⟨rfl, fun c => ?_⟩
  rw [hcallees, Code.callee?_map f.proto.params _ fun d => code.view d.id]
  cases hd : Code.Scope.callee? ⟨f.proto.params, Build.withOwn f.proto decl callees⟩ c with
  | none => exact .none
  | some d =>
    have hfind := Build.find?_of_scope hsymbol hdecl hl hd
    exact .some (view_eq h hu (CodeUnit.mem_of_find? hfind)).2

theorem simulates_draft (f : Function) : Simulates Eq (draft f) (Build.draft f) := by
  intro m s h
  apply (simulates_symbolFor f.proto.name m s h).bind
  rintro symbol _ m₁ s₁ hsymbol rfl h₁
  apply (simulates_checkDefinition f.proto.name symbol f.proto.arity m₁ s₁ h₁).bind
  rintro _ _ m₂ s₂ - - h₂
  apply (simulates_resolve f.body [] m₂ s₂ h₂).bind
  rintro _ callees m₃ s₃ hresolve rfl h₃
  apply (simulates_declare f.proto.name symbol f.proto.arity .exported m₃ s₃ h₃).bind
  rintro _ decl m₄ s₄ hdeclare rfl h₄
  -- Callees were found before the function was declared, and are listed as they were found.
  obtain ⟨hdecl, -, hl, -⟩ := Build.listed_of_declare hresolve hdeclare
  have hcurrent : s₄.workspace.current = some s₄.workspace.unit := by
    rw [(Build.declare_ok hdeclare).2]
    rfl
  obtain ⟨c, hopen, unit⟩ := openUnit_of_current h₄ hcurrent
  have hview := view_eq unit.code unit.wellFormed.tabulated (CodeUnit.mem_of_find? hdecl)
  have hscope := resembles_of_lists unit.code unit.wellFormed.tabulated
    (Build.symbol_of_symbolFor hsymbol) hdecl hl
  have hid : (c.code.view decl.id).id = decl.id := rfl
  have hcode := Code.ofExpr_congr hscope hid hview.1 f.body
  rw [bind_ok hopen]
  dsimp only [Declaration.entry_id]
  rw [hcode]
  cases Code.Routine.ofExpr decl ⟨f.proto.params, Build.withOwn f.proto decl callees⟩ f.body with
  | error e => exact .error h₄
  | ok r => exact .ok rfl h₄

/-! ## Adding code -/

/-- Showing code changes what was written, and that alike. -/
theorem exists_showCode (h : m.Represents s) (proto : Prototype) (r : Code.Routine Code.FuncRef) :
    ∃ m₁ t, showCode proto r m = .ok () m₁ ∧
      Build.showCode proto r s = .ok () { s with transcript := t } ∧
      m₁.Represents { s with transcript := t } := by
  have hagrees := simulates_showCode proto r m s h
  obtain ⟨t, hshow, -⟩ := Build.showCode_apply proto r s
  rw [hshow] at hagrees
  generalize hr : showCode proto r m = result at hagrees
  cases hagrees with
  | ok _ state => exact ⟨_, t, rfl, hshow, state⟩

/-- Code that the unit awaits is added, or the backend refuses it and nothing has changed
    but what was written. -/
theorem install_cases {u : CodeUnit} {r : Code.Routine Code.FuncRef} (h : m.Represents s)
    (hu : s.workspace.current = some u) (hr : u.Awaits r) (backend : Backend) (proto : Prototype) :
    Agrees Eq (install backend proto r.symbol r m) (Build.install proto r.symbol r s) ∨
      ((backend.verify r ≠ none ∨ backend.compile r ≠ none) ∧
        ∃ e m' t, install backend proto r.symbol r m = .error e m' ∧
          m'.Represents { s with transcript := t }) := by
  cases hverify : backend.verify r with
  | some message =>
    refine .inr ⟨.inl (Option.some_ne_none _), .rejected (.verifier r.symbol message), m, s.transcript,
      ?_, h⟩
    rw [install, hverify]
    rfl
  | none =>
    obtain ⟨m₁, t, hshow, hshow', h₁⟩ := exists_showCode h proto r
    obtain ⟨c, hopen, unit⟩ := openUnit_of_current h₁ hu
    obtain ⟨c', hdefine, unit'⟩ := unit.define hr backend
    cases hcompile : backend.compile r with
    | some message =>
      rw [hcompile] at hdefine
      refine .inr ⟨.inr (Option.some_ne_none _), .rejected (.backend message), m₁, t, ?_, h₁⟩
      rw [install, hverify]
      dsimp only
      rw [bind_ok hshow, bind_ok hopen, hdefine]
      rfl
    | none =>
      rw [hcompile] at hdefine
      have hopen' : Build.openUnit { s with transcript := t } = .ok u { s with transcript := t } := by
        unfold Build.openUnit
        rw [Build.bind_ok (Build.workspace_apply _), hu]
        rfl
      left
      rw [install, hverify, Build.install, Build.bind_ok hshow', Build.bind_ok hopen']
      dsimp only
      rw [bind_ok hshow, bind_ok hopen, hdefine]
      exact ((simulates_setOpened unit').bind fun _ _ _ => simulates_pure rfl) m₁ _ h₁

/-! ## Generating -/

/-- What a manager leaves is the workspace after some of the changes that operations make. -/
def Tracks (s : World) (m : Manager) : Prop :=
  ∃ s', Changes s.workspace s'.workspace ∧ m.Represents s'

section Left

variable {α β : Type} {R : α → β → Prop} {x : Manage α} {y : Build β} {f : α → Manage β}
  {m' : Manager}

theorem left_bind_of_ok {a : α} (h : x m = .ok a m') : left (x >>= f) m = left (f a) m' := by
  simp only [left, bind_ok h]

theorem left_bind_of_error {e : Fault} (h : x m = .error e m') : left (x >>= f) m = m' := by
  simp only [left, bind, EStateM.bind, h]

theorem Agrees.left (h : Agrees R (x m) (y s)) : (left x m).Represents (Build.left y s) := by
  unfold Manage.left Build.left
  generalize x m = r₁ at h
  generalize y s = r₂ at h
  cases h with
  | ok _ state => exact state
  | error state => exact state

theorem Agrees.tracks (h : Agrees R (x m) (y s)) (hy : Build.Composed y) :
    Tracks s (Manage.left x m) :=
  ⟨_, hy.changes s, h.left⟩

end Left

theorem Tracks.lockstep (h : Tracks s m) (hlock : s.workspace.Lockstep) :
    ∃ s' : World, s'.workspace.Lockstep ∧ m.Represents s' := by
  obtain ⟨s', hchanges, state⟩ := h
  exact ⟨s', hlock.changes hchanges, state⟩

theorem simulates_generate (hbackend : backend.Accepting) (f : Function) :
    Simulates Eq (generate backend f) (Build.generate f) := by
  intro m s h
  rw [Build.generate_eq]
  apply (simulates_draft f m s h).bind
  rintro _ ⟨symbol, r⟩ m₁ s₁ hdraft rfl h₁
  obtain ⟨hcurrent, rfl, hawaits⟩ := Build.awaits_of_draft hdraft
  obtain ⟨s₂, s₃, s₄, callees, decl, -, -, -, -, hr⟩ := Build.draft_ok hdraft
  obtain ⟨hverify, hcompile⟩ := hbackend decl _ f.body r hr (Code.singleAssignment_ofExpr hr)
    (Build.callsMatch_of_draft hdraft)
  rcases install_cases h₁ hcurrent hawaits backend f.proto with hagrees | ⟨hrefused, -⟩
  · exact hagrees
  · rcases hrefused with hne | hne
    · exact absurd hverify hne
    · exact absurd hcompile hne

/-- Whatever the backend refuses, the workspace keeps up. -/
theorem tracks_generate (backend : Backend) (f : Function) (h : m.Represents s) :
    Tracks s (left (generate backend f) m) := by
  have hdraft := simulates_draft f m s h
  have hchanges := (Build.composed_draft f).changes s
  generalize hx : draft f m = r₁ at hdraft
  generalize hy : Build.draft f s = r₂ at hdraft
  cases hdraft with
  | error state =>
    rw [Build.left_of_error hy] at hchanges
    rw [generate, left_bind_of_error hx]
    exact ⟨_, hchanges, state⟩
  | @ok _ drafted m₁ s₁ value state =>
    obtain ⟨symbol, r⟩ := drafted
    subst value
    obtain ⟨hcurrent, rfl, hawaits⟩ := Build.awaits_of_draft hy
    rw [Build.left_of_ok hy] at hchanges
    rw [generate, left_bind_of_ok hx]
    rcases install_cases state hcurrent hawaits backend f.proto with hagrees | ⟨-, hrefused⟩
    · obtain ⟨s', hinstall, state'⟩ := hagrees.tracks (Build.composed_install f.proto r.symbol r)
      exact ⟨s', hchanges.trans hinstall, state'⟩
    · obtain ⟨e, m', t, hinstall, state'⟩ := hrefused
      dsimp only
      rw [left, hinstall]
      exact ⟨{ s₁ with transcript := t }, hchanges, state'⟩

theorem simulates_perform_of_ne (backend : Backend) {op : Build.Op} (hop : ∀ f, op ≠ .generate f) :
    Simulates Eq (perform backend op) op.perform := by
  have discarded {α β : Type} {R : α → β → Prop} {x : Manage α} {y : Build β}
      (hx : Simulates R x y) : Simulates Eq (discard x) (discard y) :=
    hx.bind fun _ _ _ => simulates_pure rfl
  cases op with
  | symbolFor name => exact discarded (simulates_symbolFor name)
  | generate f => exact absurd rfl (hop f)
  | declareExternal proto => exact discarded (simulates_declareExternal proto)
  | findDeclaration symbol => exact discarded (simulates_findDeclaration symbol)
  | checkDefinition name symbol arity => exact simulates_checkDefinition name symbol arity
  | openUnit => exact discarded simulates_openUnit
  | finalize => exact discarded simulates_finalize
  | address symbol => exact discarded (simulates_address symbol)
  | evaluate handle => exact discarded (simulates_evaluate handle)

theorem simulates_perform (hbackend : backend.Accepting) (op : Build.Op) :
    Simulates Eq (perform backend op) op.perform := by
  by_cases hop : ∃ f, op = .generate f
  · obtain ⟨f, rfl⟩ := hop
    exact (simulates_generate hbackend f).bind fun _ _ _ => simulates_pure rfl
  · exact simulates_perform_of_ne backend fun f heq => hop ⟨f, heq⟩

theorem left_discard {α : Type} (x : Manage α) (m : Manager) : left (discard x) m = left x m := by
  have hdiscard : (discard x : Manage Unit) = x >>= fun _ => pure () := rfl
  rw [hdiscard]
  cases h : x m with
  | ok a m' =>
    rw [left_bind_of_ok h, left, left, h]
    rfl
  | error e m' => rw [left_bind_of_error h, left, h]

theorem tracks_perform (backend : Backend) (op : Build.Op) (h : m.Represents s) :
    Tracks s (left (perform backend op) m) := by
  by_cases hop : ∃ f, op = .generate f
  · obtain ⟨f, rfl⟩ := hop
    rw [perform, left_discard]
    exact tracks_generate backend f h
  · have hne : ∀ f, op ≠ .generate f := fun f heq => hop ⟨f, heq⟩
    exact (simulates_perform_of_ne backend hne m s h).tracks op.composed

end Manage

/-! ## Runs -/

namespace Manager

variable {m : Manager} {backend : Backend}

theorem represents_start (config : Config) :
    Represents { config } { workspace := { config } } :=
  ⟨rfl, rfl, .none, .nil, rfl, rfl, rfl, rfl⟩

/-- A manager represents a workspace whose tables are in lockstep, whatever the backend
    refuses. -/
theorem Arranged.exists_lockstep (h : Arranged backend m) :
    ∃ s : World, s.workspace.Lockstep ∧ m.Represents s := by
  induction h with
  | start config => exact ⟨_, lockstep_start config, represents_start config⟩
  | perform op _ ih =>
    obtain ⟨s, hlock, state⟩ := ih
    exact (Manage.tracks_perform backend op state).lockstep hlock
  | declare name symbol arity linkage _ ih =>
    obtain ⟨s, hlock, state⟩ := ih
    have hagrees := Manage.simulates_declare name symbol arity linkage _ s state
    exact (hagrees.tracks (.declare ..)).lockstep hlock

/-- With a backend that accepts what it is given, a manager goes where a workspace does. -/
theorem Arranged.exists_arranged (hbackend : backend.Accepting) (h : Arranged backend m) :
    ∃ s, Build.Arranged s ∧ m.Represents s := by
  induction h with
  | start config => exact ⟨_, .start config, represents_start config⟩
  | perform op _ ih =>
    obtain ⟨s, harranged, state⟩ := ih
    exact ⟨_, .perform op harranged, (Manage.simulates_perform hbackend op _ s state).left⟩
  | declare name symbol arity linkage _ ih =>
    obtain ⟨s, harranged, state⟩ := ih
    exact ⟨_, .declare name symbol arity linkage harranged,
      (Manage.simulates_declare name symbol arity linkage _ s state).left⟩

/-- And a workspace goes where such a manager does. -/
theorem exists_of_arranged (hbackend : backend.Accepting) {s : World} (h : Build.Arranged s) :
    ∃ m, Arranged backend m ∧ m.Represents s := by
  induction h with
  | start config => exact ⟨_, .start config, represents_start config⟩
  | perform op _ ih =>
    obtain ⟨m, harranged, state⟩ := ih
    exact ⟨_, .perform op harranged, (Manage.simulates_perform hbackend op m _ state).left⟩
  | declare name symbol arity linkage _ ih =>
    obtain ⟨m, harranged, state⟩ := ih
    exact ⟨_, .declare name symbol arity linkage harranged,
      (Manage.simulates_declare name symbol arity linkage m _ state).left⟩

end Manager

end Abacus
