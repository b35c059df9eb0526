-- SUMMARY: Which operations add code to the open unit.
import Abacus.Proofs.Dangling
import Abacus.Proofs.OneDefinition

/-!
# Added code

Generating a function adds one routine to the open unit, at the end, and that
routine makes the calls of the function. No other operation adds code: it may
declare symbols or hand them out, and it may close the unit, whether it succeeds or
not. Nothing is assumed about the workspace, whose units need not agree with each
other.
-/

namespace Abacus.Build

open Workspace

variable {α β : Type} {w w' w'' : Workspace}

/-! ## Operations that add no code -/

/-- Neither the code of the open unit nor the engines have changed. -/
structure SameCode (w w' : Workspace) : Prop where
  routines : w'.unit.routines = w.unit.routines
  engines  : w'.engines = w.engines
  registry : w'.registry = w.registry

theorem SameCode.refl (w : Workspace) : SameCode w w :=
  ⟨rfl, rfl, rfl⟩

theorem SameCode.trans (h : SameCode w w') (h' : SameCode w' w'') : SameCode w w'' :=
  ⟨h'.routines.trans h.routines, h'.engines.trans h.engines, h'.registry.trans h.registry⟩

/-- The endings of a computation that adds no code: its result has a property, or
    it fails. -/
inductive Uncoded (w : Workspace) (post : α → Prop) : EStateM.Result Fault World α → Prop where
  | ok {a : α} {s' : World} (same : SameCode w s'.workspace) (result : post a) :
      Uncoded w post (.ok a s')
  | error {e : Fault} {s' : World} (same : SameCode w s'.workspace) : Uncoded w post (.error e s')

/-- A computation that adds no code, and whose results have a property. -/
def Inert (x : Build α) (post : α → Prop) : Prop :=
  ∀ s, Uncoded s.workspace post (x s)

section Inert

variable {x : Build α} {f : α → Build β} {post : α → Prop} {post' : β → Prop}

/-- What follows a computation that adds no code starts from the same code. -/
theorem Inert.bind_cases (hx : Inert x post) {P : EStateM.Result Fault World β → Prop} (s : World)
    (hok : ∀ a s', SameCode s.workspace s'.workspace → post a → P (f a s'))
    (herror : ∀ e s', SameCode s.workspace s'.workspace → P (.error e s')) : P ((x >>= f) s) := by
  have h := hx s
  generalize hr : x s = r at h
  cases h with
  | ok same result =>
    rw [bind_ok hr]
    exact hok _ _ same result
  | error same =>
    rw [bind_error hr]
    exact herror _ _ same

theorem Uncoded.trans {r : EStateM.Result Fault World α} (h : SameCode w w')
    (h' : Uncoded w' post r) : Uncoded w post r := by
  cases h' with
  | ok same result => exact .ok (h.trans same) result
  | error same => exact .error (h.trans same)

theorem Inert.bind (hx : Inert x post) (hf : ∀ a, post a → Inert (f a) post') :
    Inert (x >>= f) post' := by
  intro s
  apply hx.bind_cases (P := Uncoded s.workspace post') s
  · exact fun a s' same ha => (hf a ha s').trans same
  · exact fun e s' same => .error same

theorem inert_pure {a : α} (ha : post a) : Inert (pure a) post :=
  fun _ => .ok (.refl _) ha

theorem inert_reject (e : CompileError) : Inert (reject e) post :=
  fun _ => .error (.refl _)

theorem inert_workspace : Inert workspace fun _ => True :=
  fun _ => .ok (.refl _) trivial

theorem Inert.left (hx : Inert x post) (s : World) :
    SameCode s.workspace (left x s).workspace := by
  have h := hx s
  generalize hr : x s = r at h
  cases h with
  | ok same result => rwa [left_of_ok hr]
  | error same => rwa [left_of_error hr]

theorem Inert.mono {post' : α → Prop} (hx : Inert x post) (h : ∀ a, post a → post' a) :
    Inert x post' := by
  intro s
  have hs := hx s
  generalize x s = r at hs
  cases hs with
  | ok same result => exact .ok same (h _ result)
  | error same => exact .error same

end Inert

theorem sameCode_opened (w : Workspace) : SameCode w w.opened where
  routines := by rw [unit_of_some opened_current]
  engines := opened_engines
  registry := opened_registry

/-- Declaring, whether it succeeds or not, changes declarations only. -/
theorem declare_cases (name symbol : String) (arity : Nat) (linkage : Linkage) (s : World) :
    ∃ s', s'.workspace = s.workspace.declare name symbol arity linkage ∧
      declare name symbol arity linkage s =
        match (s.workspace.unit.declare name symbol arity linkage).1 with
        | .ok d => .ok d s'
        | .error e => .error (.rejected e) s' := by
  obtain ⟨s₁, hopen, hws, -⟩ := openUnit_apply s
  refine ⟨{ s₁ with workspace := s.workspace.declare name symbol arity linkage }, rfl, ?_⟩
  have hset : setCurrent (s.workspace.unit.declare name symbol arity linkage).2 s₁ =
      .ok () { s₁ with workspace := s.workspace.declare name symbol arity linkage } := by
    simp only [setCurrent, bind_ok (workspace_apply s₁), setWorkspace_apply, hws]
    rfl
  simp only [declare, bind_ok hopen, bind_ok hset]
  cases (s.workspace.unit.declare name symbol arity linkage).1 <;> rfl

theorem sameCode_declare (w : Workspace) (name symbol : String) (arity : Nat) (linkage : Linkage) :
    SameCode w (w.declare name symbol arity linkage) where
  routines := CodeUnit.routines_declare
  engines := opened_engines
  registry := opened_registry

theorem symbol_of_declare {u : CodeUnit} {name symbol : String} {arity : Nat} {linkage : Linkage}
    {d : Declaration} (h : (u.declare name symbol arity linkage).1 = .ok d) :
    d.symbol = symbol := by
  unfold CodeUnit.declare at h
  split at h
  case h_1 d' hfind =>
    dsimp only at h
    split at h
    · cases h
      exact (CodeUnit.symbol_of_find? hfind :)
    · cases h
  case h_2 => cases h; rfl

theorem inert_declare (name symbol : String) (arity : Nat) (linkage : Linkage) :
    Inert (declare name symbol arity linkage) fun d => d.symbol = symbol := by
  intro s
  obtain ⟨s', hws, hdeclare⟩ := declare_cases name symbol arity linkage s
  have same : SameCode s.workspace s'.workspace := hws ▸ sameCode_declare ..
  rw [hdeclare]
  cases h : (s.workspace.unit.declare name symbol arity linkage).1 with
  | ok d => exact .ok same (symbol_of_declare h)
  | error e => exact .error same

theorem inert_openUnit : Inert openUnit fun _ => True := by
  intro s
  obtain ⟨s', hopen, hws, -⟩ := openUnit_apply s
  rw [hopen]
  exact .ok (hws ▸ sameCode_opened _) trivial

theorem inert_markDefined (symbol : String) : Inert (markDefined symbol) fun _ => True := by
  intro s
  obtain ⟨s', hopen, hws, -⟩ := openUnit_apply s
  simp only [markDefined, bind_ok hopen, setCurrent, bind_ok (workspace_apply s'),
    setWorkspace_apply, hws]
  exact .ok ⟨rfl, opened_engines, opened_registry⟩ trivial

theorem inert_symbolFor (name : String) :
    Inert (symbolFor name) fun symbol => name.isEmpty = false → symbol = Symbol.legalize name := by
  intro s
  rw [symbolFor_apply]
  refine .ok ⟨rfl, rfl, rfl⟩ fun hname => ?_
  rw [symbolFor_of_named _ hname]

theorem inert_checkDefinition (name symbol : String) (arity : Nat) :
    Inert (checkDefinition name symbol arity) fun _ => True := by
  refine inert_workspace.bind fun w _ => ?_
  split
  · exact inert_reject _
  · exact inert_pure trivial

theorem inert_findDeclaration (symbol : String) :
    Inert (findDeclaration symbol) fun found => ∀ d, found = some d → d.symbol = symbol := by
  refine inert_workspace.bind fun w _ => ?_
  split
  case h_1 decl hfind =>
    refine inert_pure ?_
    rintro d ⟨⟩
    obtain ⟨u, -, hd⟩ := Option.bind_eq_some_iff.mp hfind
    exact CodeUnit.symbol_of_find? hd
  case h_2 =>
    split
    · exact inert_pure (by simp)
    · refine (inert_declare _ _ _ _).bind fun decl hdecl => inert_pure ?_
      rintro d ⟨⟩
      exact hdecl

theorem inert_declareExternal (proto : Prototype) :
    Inert (declareExternal proto) fun _ => True := by
  refine inert_workspace.bind fun w _ => ?_
  split
  · split
    · exact inert_pure trivial
    · exact inert_reject _
  · exact (inert_declare _ _ _ _).mono fun _ _ => trivial

/-! ## Generating -/

/-- Callees that were found are known by the symbols of their names. -/
def Legal (callees : Callees) : Prop :=
  ∀ c d, (c, d) ∈ callees → d.symbol = Symbol.legalize c

theorem Legal.cons {callees : Callees} {c : String} {d : Declaration} (h : Legal callees)
    (hd : d.symbol = Symbol.legalize c) : Legal ((c, d) :: callees) := by
  intro c' d' hmem
  rcases List.mem_cons.mp hmem with heq | hmem
  · cases heq
    exact hd
  · exact h c' d' hmem

theorem inert_resolveAll {proto : Prototype} {own : String} {args : List Expr}
    (ih : ∀ arg ∈ args, ∀ callees, Legal callees → Inert (resolve proto own callees arg) Legal)
    {callees : Callees} (h : Legal callees) : Inert (resolveAll proto own callees args) Legal := by
  induction args generalizing callees with
  | nil => simpa [resolveAll] using inert_pure h
  | cons arg args ihargs =>
    rw [resolveAll]
    refine (ih arg List.mem_cons_self callees h).bind fun callees' h' => ?_
    exact ihargs (fun arg harg => ih arg (List.mem_cons_of_mem _ harg)) h'

theorem inert_resolve {proto : Prototype} {own : String} {e : Expr} {callees : Callees}
    (h : Legal callees) : Inert (resolve proto own callees e) Legal := by
  induction e generalizing callees with
  | number value => simpa [resolve] using inert_pure h
  | var name =>
    rw [resolve]
    split
    · exact inert_pure h
    · exact inert_reject _
  | binary op lhs rhs ihl ihr =>
    rw [resolve]
    refine (ihl h).bind fun callees₁ h₁ => (ihr h₁).bind fun callees₂ h₂ => ?_
    split
    · exact inert_pure h₂
    · exact inert_reject _
  | call callee args ih =>
    have hargs {callees : Callees} (h : Legal callees) :
        Inert (resolveAll proto own callees args) Legal :=
      inert_resolveAll (fun arg harg callees hc => ih arg harg hc) h
    rw [resolve]
    split
    · split
      · exact hargs h
      · exact inert_reject _
    · refine (inert_findDeclaration _).bind fun found hfound => ?_
      cases found with
      | none => exact inert_reject _
      | some decl =>
        dsimp only
        split
        · exact hargs (h.cons (hfound decl rfl))
        · exact inert_reject _

/-- The endings of generating a function, as far as code is concerned: its routine
    is the last of the open unit, or nothing has changed. -/
inductive Coded (f : Function) (w : Workspace) : EStateM.Result Fault World Handle → Prop where
  | ok {u : CodeUnit} {r : Code.Routine Code.FuncRef} {handle : Handle} {s' : World}
      (current : s'.workspace.current = some u) (routines : u.routines = w.unit.routines ++ [r])
      (calls : r.calls = f.calls) (engines : s'.workspace.engines = w.engines)
      (registry : s'.workspace.registry = w.registry) : Coded f w (.ok handle s')
  | error {e : Fault} {s' : World} (same : SameCode w s'.workspace) : Coded f w (.error e s')

theorem Legal.scope {proto : Prototype} {decl : Declaration} {callees : Callees}
    (h : Legal callees)
    (hdecl : proto.name.isEmpty = false → decl.symbol = Symbol.legalize proto.name) :
    Code.Scope.Legal ⟨proto.params, withOwn proto decl callees⟩ := by
  intro c d hd
  rcases callee?_withOwn hd with ⟨hnamed, rfl, rfl⟩ | hmem
  · exact hdecl hnamed
  · exact h c d hmem

theorem coded_define {f : Function} {r : Code.Routine Code.FuncRef} (hr : r.calls = f.calls)
    (handle : Handle) (s : World) :
    Coded f s.workspace ((do
      showCode f.proto r
      let u ← openUnit
      setCurrent (u.define r)
      return handle : Build Handle) s) := by
  obtain ⟨t, hshow, -⟩ := showCode_apply f.proto r s
  obtain ⟨s₁, hopen, hws, -⟩ := openUnit_apply { s with transcript := t }
  rw [bind_ok hshow, bind_ok hopen]
  refine .ok (u := s.workspace.unit.define r) rfl rfl hr ?_ ?_
  · exact (congrArg Workspace.engines hws).trans opened_engines
  · exact (congrArg Workspace.registry hws).trans opened_registry

theorem Coded.trans {f : Function} {r : EStateM.Result Fault World Handle} (h : SameCode w w')
    (h' : Coded f w' r) : Coded f w r := by
  cases h' with
  | ok current routines calls engines registry =>
    refine .ok current (h.routines ▸ routines) calls ?_ ?_
    · exact engines.trans h.engines
    · exact registry.trans h.registry
  | error same => exact .error (h.trans same)

/-- Steps that add no code may come before the one that does. -/
theorem Inert.coded {x : Build α} {post : α → Prop} {g : α → Build Handle} {f : Function}
    (hx : Inert x post) (hg : ∀ a, post a → ∀ s, Coded f s.workspace (g a s)) (s : World) :
    Coded f s.workspace ((x >>= g) s) := by
  apply hx.bind_cases (P := Coded f s.workspace) s
  · exact fun a s' same ha => (hg a ha s').trans same
  · exact fun e s' same => .error same

theorem coded_generate (f : Function) (s : World) : Coded f s.workspace (generate f s) := by
  refine (inert_symbolFor f.proto.name).coded (fun symbol hsymbol => ?_) s
  refine (inert_checkDefinition f.proto.name symbol f.proto.arity).coded fun _ _ => ?_
  have hnil : Legal [] := by simp [Legal]
  refine (inert_resolve hnil).coded fun callees hcallees => ?_
  refine (inert_declare f.proto.name symbol f.proto.arity .exported).coded fun decl hdecl => ?_
  have hscope := hcallees.scope fun hnamed => hdecl.trans (hsymbol hnamed)
  intro s
  cases hr : Code.Routine.ofExpr decl ⟨f.proto.params, withOwn f.proto decl callees⟩ f.body with
  | error e => exact .error (.refl _)
  | ok r => exact coded_define (Code.calls_of_ofExpr hscope hr) _ s

/-! ## Closing -/

/-- What operations other than generating do: they add no code, or close the unit. -/
inductive Settled (w : Workspace) : Workspace → Prop where
  | same {w' : Workspace} (same : SameCode w w') : Settled w w'
  | closed {u : CodeUnit} {e : Engine} : Settled w (w.close u e)

def Settles (x : Build α) : Prop :=
  ∀ s, Settled s.workspace (left x s).workspace

/-- A computation that reads the workspace at most. -/
def Reads (x : Build α) : Prop :=
  ∀ s, (left x s).workspace = s.workspace

theorem Inert.settles {x : Build α} {post : α → Prop} (hx : Inert x post) : Settles x :=
  fun s => .same (hx.left s)

theorem settles_pure (a : α) : Settles (pure a) :=
  fun _ => .same (.refl _)

theorem settles_reject (e : CompileError) : Settles (reject e : Build α) :=
  fun _ => .same (.refl _)

theorem settles_of_workspace {f : Workspace → Build β} (hf : ∀ w, Settles (f w)) :
    Settles (workspace >>= f) :=
  fun s => hf s.workspace s

/-- What only reads may come after. -/
theorem Settles.bind {x : Build α} {f : α → Build β} (hx : Settles x) (hf : ∀ a, Reads (f a)) :
    Settles (x >>= f) := by
  intro s
  have hs := hx s
  cases h : x s with
  | ok a s' =>
    have hbind : left (x >>= f) s = left (f a) s' := by simp only [left, bind_ok h]
    rw [left_of_ok h] at hs
    rwa [hbind, hf]
  | error e s' =>
    rw [left_of_error h] at hs
    rwa [left_of_error (bind_error h)]

theorem settles_finalize : Settles finalize := by
  intro s
  have h := finalized_finalize s
  generalize hr : finalize s = r at h
  cases h with
  | idle current => simpa only [left_of_ok hr] using .same (.refl _)
  | unresolved current link workspace quiet =>
    simpa only [left_of_error hr, workspace] using .same (.refl _)
  | closed current link workspace quiet => simpa only [left_of_ok hr, workspace] using .closed

theorem settles_address (symbol : String) : Settles (address symbol) := by
  refine settles_of_workspace fun w => ?_
  split
  · exact settles_pure _
  · split
    · refine settles_finalize.bind fun _ s => ?_
      rw [left, bind_ok (workspace_apply s)]
      cases s.workspace.address? symbol <;> rfl
    · exact settles_reject _

theorem reads_exec (run : Code.Exec α) : Reads (exec run) := by
  intro s
  unfold exec left
  cases run.run [] with
  | ok p => rfl
  | error reason => rfl

theorem settles_evaluate (handle : Handle) : Settles (evaluate handle) := by
  unfold evaluate
  split
  · exact settles_reject _
  · refine (settles_address handle.symbol).bind fun a s => ?_
    have hbind : left (workspace >>= fun w =>
        exec (Engine.run w.engines (Engine.depthBound w.engines) (.code a) [])) s =
      left (exec (Engine.run s.workspace.engines (Engine.depthBound s.workspace.engines)
        (.code a) [])) s := rfl
    exact (congrArg World.workspace hbind).trans (reads_exec _ s)

end Abacus.Build
