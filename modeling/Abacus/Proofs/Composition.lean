-- SUMMARY: Operations as compositions of a few steps, and that none of them reads what was written.
import Abacus.Proofs.AddedCode
import Abacus.Session

/-!
# Composed operations

Every operation of a workspace is made of a few steps, one after another, whatever
it is asked for and whether or not it succeeds. So what holds of each step, and of
one computation after another, holds of all operations.

The first thing that does: the transcript is written and never read. In two worlds
with the same workspace an operation comes to the same, leaves the same workspace
and adds the same bytes to standard output.
-/

namespace Abacus

namespace Build

variable {α β : Type} {s s₁ s₂ : World}

/-! ## Steps -/

/-- The computations that are made of steps. What comes next may depend on the
    results of what came before. -/
inductive Composed : {α : Type} → Build α → Prop where
  | pure {α : Type} (a : α) : Composed (pure a : Build α)
  | bind {α β : Type} {x : Build α} {f : α → Build β} (first : Composed x)
      (next : ∀ a, Composed (f a)) : Composed (x >>= f)
  | throw {α : Type} (fault : Fault) : Composed (throw fault : Build α)
  | workspace : Composed workspace
  | writeOut (bytes : List UInt8) : Composed (writeOut bytes)
  | writeErr (text : String) : Composed (writeErr text)
  | symbolFor (name : String) : Composed (symbolFor name)
  | openUnit : Composed openUnit
  | declare (name symbol : String) (arity : Nat) (linkage : Linkage) :
      Composed (declare name symbol arity linkage)
  | define (r : Code.Routine Code.FuncRef) :
      Composed (openUnit >>= fun u => setCurrent (u.define r))
  | finalize : Composed finalize

theorem composed_reject (e : CompileError) : Composed (reject e : Build α) :=
  .throw (.rejected e)

theorem composed_note (line : String) : Composed (note line) := by
  apply Composed.workspace.bind
  intro w
  split
  · exact .writeErr _
  · exact .pure ()

theorem composed_exec (run : Code.Exec α) : Composed (exec run) := by
  unfold exec
  split
  · exact (Composed.writeOut _).bind fun _ => .pure _
  · exact .throw _

theorem composed_checkDefinition (name symbol : String) (arity : Nat) :
    Composed (checkDefinition name symbol arity) := by
  apply Composed.workspace.bind
  intro w
  split
  · exact composed_reject _
  · exact .pure ()

theorem composed_findDeclaration (symbol : String) : Composed (findDeclaration symbol) := by
  apply Composed.workspace.bind
  intro w
  split
  · exact .pure _
  · split
    · exact .pure _
    · exact (Composed.declare ..).bind fun _ => .pure _

theorem composed_declareExternal (proto : Prototype) : Composed (declareExternal proto) := by
  apply Composed.workspace.bind
  intro w
  split
  · split
    · exact .pure _
    · exact composed_reject _
  · exact .declare ..

theorem composed_resolveAll {proto : Prototype} {own : String} {args : List Expr}
    (ih : ∀ arg ∈ args, ∀ callees, Composed (resolve proto own callees arg)) (callees : Callees) :
    Composed (resolveAll proto own callees args) := by
  induction args generalizing callees with
  | nil =>
    rw [resolveAll]
    exact .pure _
  | cons arg args ihargs =>
    rw [resolveAll]
    apply (ih arg List.mem_cons_self callees).bind
    exact ihargs fun arg harg => ih arg (List.mem_cons_of_mem _ harg)

theorem composed_resolve {proto : Prototype} {own : String} (e : Expr) (callees : Callees) :
    Composed (resolve proto own callees e) := by
  induction e generalizing callees with
  | number value =>
    rw [resolve]
    exact .pure _
  | var name =>
    rw [resolve]
    split
    · exact .pure _
    · exact composed_reject _
  | binary op lhs rhs ihl ihr =>
    rw [resolve]
    apply (ihl callees).bind
    intro found
    apply (ihr found).bind
    intro all
    split
    · exact .pure _
    · exact composed_reject _
  | call callee args ih =>
    have hargs (callees : Callees) : Composed (resolveAll proto own callees args) :=
      composed_resolveAll ih callees
    rw [resolve]
    split
    · split
      · exact hargs callees
      · exact composed_reject _
    · apply (composed_findDeclaration _).bind
      intro found
      cases found with
      | none => exact composed_reject _
      | some decl =>
        dsimp only
        split
        · exact hargs _
        · exact composed_reject _

theorem composed_showCode (proto : Prototype) (r : Code.Routine Code.FuncRef) :
    Composed (showCode proto r) := by
  apply Composed.workspace.bind
  intro w
  split
  · exact .writeErr _
  · exact .pure ()

theorem composed_define (r : Code.Routine Code.FuncRef) (a : α) :
    Composed (do let u ← openUnit; setCurrent (u.define r); return a) := by
  have h := (Composed.define r).bind fun _ => .pure a
  rwa [bind_assoc] at h

theorem composed_generate (f : Function) : Composed (generate f) := by
  apply (Composed.symbolFor f.proto.name).bind
  intro symbol
  apply (composed_checkDefinition f.proto.name symbol f.proto.arity).bind
  intro _
  apply (composed_resolve f.body []).bind
  intro callees
  apply (Composed.declare f.proto.name symbol f.proto.arity .exported).bind
  intro decl
  split
  · exact composed_reject _
  · exact (composed_showCode _ _).bind fun _ => composed_define _ _

theorem composed_address (symbol : String) : Composed (address symbol) := by
  apply Composed.workspace.bind
  intro w
  split
  · exact .pure _
  · split
    · apply Composed.finalize.bind
      intro _
      apply Composed.workspace.bind
      intro w'
      split
      · exact .pure _
      · exact composed_reject _
    · exact composed_reject _

theorem composed_evaluate (handle : Handle) : Composed (evaluate handle) := by
  unfold evaluate
  split
  · exact composed_reject _
  · apply (composed_address handle.symbol).bind
    intro a
    exact Composed.workspace.bind fun _ => composed_exec _

theorem Op.composed (op : Op) : Composed op.perform := by
  have discarded {α : Type} {x : Build α} (h : Composed x) : Composed (discard x) :=
    h.bind fun _ => .pure ()
  cases op with
  | symbolFor name => exact discarded (.symbolFor name)
  | generate f => exact discarded (composed_generate f)
  | declareExternal proto => exact discarded (composed_declareExternal proto)
  | findDeclaration symbol => exact discarded (composed_findDeclaration symbol)
  | checkDefinition name symbol arity => exact composed_checkDefinition name symbol arity
  | openUnit => exact discarded .openUnit
  | finalize => exact discarded .finalize
  | address symbol => exact discarded (composed_address symbol)
  | evaluate handle => exact discarded (composed_evaluate handle)

/-! ## What was written -/

/-- What two computations come to from two worlds, if they come to related results, stop
    alike, leave the same workspace and write the same bytes to standard output. -/
inductive Same (R : α → β → Prop) (s₁ s₂ : World) :
    EStateM.Result Fault World α → EStateM.Result Fault World β → Prop
  | ok {a : α} {b : β} {s₁' s₂' : World} (value : R a b) (bytes : List UInt8)
      (workspace : s₁'.workspace = s₂'.workspace)
      (out₁ : s₁'.transcript.out = s₁.transcript.out ++ bytes)
      (out₂ : s₂'.transcript.out = s₂.transcript.out ++ bytes) :
      Same R s₁ s₂ (.ok a s₁') (.ok b s₂')
  | error {fault : Fault} {s₁' s₂' : World} (bytes : List UInt8)
      (workspace : s₁'.workspace = s₂'.workspace)
      (out₁ : s₁'.transcript.out = s₁.transcript.out ++ bytes)
      (out₂ : s₂'.transcript.out = s₂.transcript.out ++ bytes) :
      Same R s₁ s₂ (.error fault s₁') (.error fault s₂')

/-- Two computations that cannot be told apart by what they do to a workspace. -/
def Matches (R : α → β → Prop) (x : Build α) (y : Build β) : Prop :=
  ∀ s₁ s₂, s₁.workspace = s₂.workspace → Same R s₁ s₂ (x s₁) (y s₂)

/-- A computation that does not read the transcript. -/
abbrev Blind (x : Build α) : Prop :=
  Matches Eq x x

variable {R : α → β → Prop}

theorem matches_pure {a : α} {b : β} (h : R a b) : Matches R (pure a) (pure b) :=
  fun _ _ hw => .ok h [] hw (List.append_nil _).symm (List.append_nil _).symm

theorem matches_throw (fault : Fault) : Matches R (throw fault) (throw fault) :=
  fun _ _ hw => .error [] hw (List.append_nil _).symm (List.append_nil _).symm

/-- What goes to standard error is not compared. -/
theorem matches_writeErr (text₁ text₂ : String) : Matches Eq (writeErr text₁) (writeErr text₂) :=
  fun _ _ hw => .ok rfl [] hw (List.append_nil _).symm (List.append_nil _).symm

theorem blind_setWorkspace (w : Workspace) : Blind (setWorkspace w) :=
  fun _ _ _ => .ok rfl [] rfl (List.append_nil _).symm (List.append_nil _).symm

theorem blind_writeOut (bytes : List UInt8) : Blind (writeOut bytes) :=
  fun _ _ hw => .ok rfl bytes hw rfl rfl

theorem blind_workspace : Blind workspace :=
  fun _ _ hw => .ok hw [] hw (List.append_nil _).symm (List.append_nil _).symm

/-- What was written before goes in front. -/
theorem Same.prepend {s₁' s₂' : World} {r₁ : EStateM.Result Fault World α}
    {r₂ : EStateM.Result Fault World β} (bytes : List UInt8)
    (out₁ : s₁'.transcript.out = s₁.transcript.out ++ bytes)
    (out₂ : s₂'.transcript.out = s₂.transcript.out ++ bytes) (h : Same R s₁' s₂' r₁ r₂) :
    Same R s₁ s₂ r₁ r₂ := by
  cases h with
  | ok value more workspace out₁' out₂' =>
    refine .ok value (bytes ++ more) workspace ?_ ?_
    · rw [out₁', out₁, List.append_assoc]
    · rw [out₂', out₂, List.append_assoc]
  | error more workspace out₁' out₂' =>
    refine .error (bytes ++ more) workspace ?_ ?_
    · rw [out₁', out₁, List.append_assoc]
    · rw [out₂', out₂, List.append_assoc]

theorem Matches.bind {γ δ : Type} {Q : γ → δ → Prop} {x : Build α} {y : Build β}
    {f : α → Build γ} {g : β → Build δ} (hx : Matches R x y)
    (hf : ∀ a b, R a b → Matches Q (f a) (g b)) : Matches Q (x >>= f) (y >>= g) := by
  intro s₁ s₂ hw
  have hsame := hx s₁ s₂ hw
  generalize hr₁ : x s₁ = r₁ at hsame
  generalize hr₂ : y s₂ = r₂ at hsame
  cases hsame with
  | ok value bytes workspace out₁ out₂ =>
    simp only [bind_ok hr₁, bind_ok hr₂]
    exact (hf _ _ value _ _ workspace).prepend bytes out₁ out₂
  | error bytes workspace out₁ out₂ =>
    simp only [bind_error hr₁, bind_error hr₂]
    exact .error bytes workspace out₁ out₂

theorem Blind.bind {x : Build α} {f : α → Build β} (hx : Blind x) (hf : ∀ a, Blind (f a)) :
    Blind (x >>= f) :=
  Matches.bind hx fun a _ h => h ▸ hf a

theorem blind_pure (a : α) : Blind (pure a) :=
  matches_pure rfl

theorem blind_throw (fault : Fault) : Blind (throw fault : Build α) :=
  matches_throw fault

theorem blind_writeErr (text : String) : Blind (writeErr text) :=
  matches_writeErr text text

theorem blind_setCurrent (u : CodeUnit) : Blind (setCurrent u) :=
  blind_workspace.bind fun _ => blind_setWorkspace _

theorem blind_note (line : String) : Blind (note line) := by
  apply blind_workspace.bind
  intro w
  split
  · exact blind_writeErr _
  · exact blind_pure ()

theorem blind_openUnit : Blind openUnit := by
  apply blind_workspace.bind
  intro w
  split
  · exact blind_pure _
  · apply (blind_setWorkspace _).bind
    intro _
    exact (blind_note _).bind fun _ => blind_pure _

theorem blind_declare (name symbol : String) (arity : Nat) (linkage : Linkage) :
    Blind (declare name symbol arity linkage) := by
  apply blind_openUnit.bind
  intro u
  apply (blind_setCurrent _).bind
  intro _
  split
  · exact blind_pure _
  · exact blind_throw _

theorem blind_finalize : Blind finalize := by
  apply blind_workspace.bind
  intro w
  split
  · exact blind_pure _
  · split
    · exact (blind_writeErr _).bind fun _ => blind_throw _
    · apply (blind_setWorkspace _).bind
      intro _
      exact (blind_note _).bind fun _ => blind_pure _

/-- No computation that is made of steps reads the transcript. -/
theorem Composed.blind {x : Build α} (h : Composed x) : Blind x := by
  induction h with
  | pure a => exact blind_pure a
  | bind _ _ ihx ihf => exact ihx.bind ihf
  | throw fault => exact blind_throw fault
  | workspace => exact blind_workspace
  | writeOut bytes => exact blind_writeOut bytes
  | writeErr text => exact blind_writeErr text
  | symbolFor name =>
    apply blind_workspace.bind
    intro w
    exact (blind_setWorkspace _).bind fun _ => blind_pure _
  | openUnit => exact blind_openUnit
  | declare name symbol arity linkage => exact blind_declare name symbol arity linkage
  | define r => exact blind_openUnit.bind fun u => blind_setCurrent (u.define r)
  | finalize => exact blind_finalize

end Build

/-! ## Statements -/

namespace Session

open Build

theorem composed_handle (item : Item) : Composed (handle item) := by
  cases item with
  | definition f => exact (composed_generate f).bind fun _ => .pure _
  | external proto => exact (composed_declareExternal proto).bind fun _ => .pure _
  | expression f =>
    apply (composed_generate f).bind
    intro compiled
    exact (composed_evaluate compiled).bind fun _ => .pure _

theorem composed_report (o : Outcome) : Composed (report o) := by
  unfold report
  split
  · exact .writeOut _
  · exact composed_note _
  · exact .writeErr _

/-- A rejection is an outcome, in both worlds alike. -/
theorem blind_outcome (statement : Program.Statement) : Blind (outcome statement) := by
  cases statement with
  | fault e => exact blind_pure _
  | item item =>
    intro s₁ s₂ hw
    have hsame := (composed_handle item.value).blind s₁ s₂ hw
    simp only [outcome]
    generalize handle item.value s₁ = r₁ at hsame
    generalize handle item.value s₂ = r₂ at hsame
    cases hsame with
    | ok value bytes workspace out₁ out₂ => exact .ok (congrArg _ value) bytes workspace out₁ out₂
    | @error fault s₁' s₂' bytes workspace out₁ out₂ =>
      cases fault with
      | rejected e => exact .ok rfl bytes workspace out₁ out₂
      | unresolved symbol => exact .error bytes workspace out₁ out₂
      | halted reason => exact .error bytes workspace out₁ out₂

end Session

end Abacus
