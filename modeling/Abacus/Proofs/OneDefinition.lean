-- SUMMARY: Every order of operations leaves one body and one number of parameters per symbol.
import Abacus.Proofs.Finalizing

/-!
# One definition

The operations of a workspace may come in any order, with any arguments, and go
on after one of them failed. Whatever was done, each of them is a sequence of
`Workspace.Step`s, so that the workspace is coherent and linked.
-/

namespace Abacus.Build

open Workspace

/-- The operations of a workspace. -/
inductive Op where
  | symbolFor (name : String)
  | generate (function : Function)
  | declareExternal (proto : Prototype)
  | findDeclaration (symbol : String)
  | checkDefinition (name symbol : String) (arity : Nat)
  | openUnit
  | finalize
  | address (symbol : String)
  | evaluate (handle : Handle)

def Op.perform : Op → Build Unit
  | .symbolFor name => discard (Build.symbolFor name)
  | .generate function => discard (Build.generate function)
  | .declareExternal proto => discard (Build.declareExternal proto)
  | .findDeclaration symbol => discard (Build.findDeclaration symbol)
  | .checkDefinition name symbol arity => Build.checkDefinition name symbol arity
  | .openUnit => discard Build.openUnit
  | .finalize => discard Build.finalize
  | .address symbol => discard (Build.address symbol)
  | .evaluate handle => discard (Build.evaluate handle)

/-- The world that a computation leaves, whether it succeeds or fails. -/
def left {α : Type} (x : Build α) (s : World) : World :=
  match x s with
  | .ok _ s' => s'
  | .error _ s' => s'

/-- The worlds that operations can lead to. -/
inductive Reachable : World → Prop where
  | start (config : Config) : Reachable { workspace := { config } }
  | perform {s : World} (op : Op) (h : Reachable s) : Reachable (left op.perform s)

/-! ## One operation -/

variable {α : Type} {s s' : World}

theorem left_of_ok {x : Build α} {a : α} (h : x s = .ok a s') : left x s = s' := by
  unfold left; rw [h]

theorem left_of_error {x : Build α} {e : Fault} (h : x s = .error e s') : left x s = s' := by
  unfold left; rw [h]

@[simp] theorem left_discard (x : Build α) (s : World) : left (discard x) s = left x s := by
  have hd : (discard x : Build Unit) = x >>= fun _ => pure () := rfl
  unfold left
  rw [hd]
  cases h : x s with
  | ok a s' => rw [bind_ok h]; rfl
  | error e s' => rw [bind_error h]

theorem steps_generate (hw : s.workspace.Coherent) (f : Function) :
    Steps s.workspace (left (generate f) s).workspace := by
  have hsupplied : Step s.workspace (supplied s.workspace f.proto.name) := .supplied _
  have hw₀ := hw.step hsupplied
  have hgen := generated_generate hw f
  generalize hr : generate f s = r at hgen
  cases hgen with
  | clash admits objection workspace quiet =>
    rw [left_of_error hr, workspace]
    exact .single hsupplied
  | refused admits objection forwards quiet =>
    rw [left_of_error hr]
    exact .head hsupplied (forwards.kept hw₀).steps
  | @unemitted e s' w₁ admits other ne_backend forwards workspace quiet =>
    have hkept := forwards.kept hw₀
    have admits₁ := (show Admits (supplied s.workspace f.proto.name) _ _ from admits).of_kept hkept
    have ha := objection?_eq_none.mp
      ((admits_iff (hw₀.steps hkept.steps) f.proto.name _ _).mp admits₁)
    rw [left_of_error hr, workspace]
    exact .head hsupplied (hkept.steps.tail (.declared _ _ fun d hd => (ha d hd).2))
  | compiled admits objection extension quiet =>
    rw [left_of_ok hr]
    exact .head hsupplied extension.steps

theorem steps_declareExternal (hw : s.workspace.Coherent) (proto : Prototype) :
    Steps s.workspace (left (declareExternal proto) s).workspace := by
  have hdecl := declared_declareExternal hw proto
  generalize hr : declareExternal proto s = r at hdecl
  cases hdecl with
  | new unknown workspace quiet =>
    rw [left_of_ok hr, workspace]
    refine .single (.declared _ _ fun d hd => ?_)
    rw [signature?_eq_none.mp unknown] at hd
    cases hd
  | known signature? arity => rw [left_of_ok hr]
  | clash signature? arity => rw [left_of_error hr]

theorem steps_checkDefinition (name symbol : String) (arity : Nat) (s : World) :
    Steps s.workspace (left (checkDefinition name symbol arity) s).workspace := by
  have hcheck := checkDefinition_apply name symbol arity s
  cases h : objection? name arity (s.workspace.declarations symbol) with
  | none => rw [h] at hcheck; rw [left_of_ok hcheck]
  | some e => rw [h] at hcheck; rw [left_of_error hcheck]

theorem steps_finalize (s : World) : Steps s.workspace (left finalize s).workspace := by
  have hfinal := finalized_finalize s
  generalize hr : finalize s = r at hfinal
  cases hfinal with
  | idle current => rw [left_of_ok hr]
  | unresolved current link workspace quiet => rw [left_of_error hr, workspace]
  | closed current link workspace quiet =>
    rw [left_of_ok hr, workspace]
    exact .single (.closed current link)

theorem Addressed.steps_ok {symbol : String} {a : Address}
    (h : Addressed symbol s (.ok a s')) : Steps s.workspace s'.workspace := by
  cases h with
  | known address? => exact .refl
  | linked address? current link workspace address quiet =>
    rw [workspace]
    exact .single (.closed current link)

theorem Addressed.workspace_error {symbol : String} {fault : Fault}
    (h : Addressed symbol s (.error fault s')) : s'.workspace = s.workspace := by
  cases h with
  | unknown address? bodiless => rfl
  | unresolved workspace quiet => exact workspace

theorem steps_address (hw : s.workspace.Coherent) (symbol : String) :
    Steps s.workspace (left (address symbol) s).workspace := by
  have haddr := addressed_address hw symbol
  cases hr : address symbol s with
  | ok a s' =>
    rw [hr] at haddr
    rw [left_of_ok hr]
    exact haddr.steps_ok
  | error fault s' =>
    rw [hr] at haddr
    rw [left_of_error hr, haddr.workspace_error]

theorem steps_evaluate (hw : s.workspace.Coherent) (handle : Handle) :
    Steps s.workspace (left (evaluate handle) s).workspace := by
  have heval := evaluated_evaluate hw handle
  generalize hr : evaluate handle s = r at heval
  cases heval with
  | arity ne => rw [left_of_error hr]
  | unaddressed arity addressed => rw [left_of_error hr, addressed.workspace_error]
  | halted arity addressed run => rw [left_of_error hr]; exact addressed.steps_ok
  | value arity addressed run => rw [left_of_ok hr]; exact addressed.steps_ok

/-- Every operation is a sequence of steps. -/
theorem Op.steps (hw : s.workspace.Coherent) (op : Op) :
    Steps s.workspace (left op.perform s).workspace := by
  cases op with
  | symbolFor name =>
    rw [Op.perform, left_discard, left_of_ok (symbolFor_apply name s)]
    exact .single (.supplied _)
  | generate function =>
    rw [Op.perform, left_discard]
    exact steps_generate hw function
  | declareExternal proto =>
    rw [Op.perform, left_discard]
    exact steps_declareExternal hw proto
  | findDeclaration symbol =>
    obtain ⟨found, s', hfind, forwards, -⟩ := findDeclaration_apply hw symbol
    rw [Op.perform, left_discard, left_of_ok hfind]
    exact (forwards.kept hw).steps
  | checkDefinition name symbol arity => exact steps_checkDefinition name symbol arity s
  | openUnit =>
    obtain ⟨s', hopen, hws, -⟩ := openUnit_apply s
    rw [Op.perform, left_discard, left_of_ok hopen, hws]
    exact .single .opened
  | finalize =>
    rw [Op.perform, left_discard]
    exact steps_finalize s
  | address symbol =>
    rw [Op.perform, left_discard]
    exact steps_address hw symbol
  | evaluate handle =>
    rw [Op.perform, left_discard]
    exact steps_evaluate hw handle

/-! ## Any number of operations -/

theorem Reachable.coherent (h : Reachable s) : s.workspace.Coherent := by
  induction h with
  | start config => exact coherent_start config
  | perform op _ ih => exact ih.steps (op.steps ih)

theorem Reachable.linked (h : Reachable s) : s.workspace.Linked := by
  induction h with
  | start config => exact linked_start config
  | perform op h ih => exact ih.steps (op.steps h.coherent)

/-- At most one engine defines a symbol, because at most one unit does. -/
theorem Reachable.engine_eq (h : Reachable s) {symbol : String} {i j : Nat} {e f : Engine}
    (hi : s.workspace.engines[i]? = some e) (hj : s.workspace.engines[j]? = some f)
    (he : e.defines symbol = true) (hf : f.defines symbol = true) : i = j := by
  have hl := h.linked
  obtain ⟨u, hu⟩ := hl.exists_unit hi
  obtain ⟨v, hv⟩ := hl.exists_unit hj
  rw [hl.defines_iff hu hi] at he
  rw [hl.defines_iff hv hj] at hf
  have hunit : ∀ {k : Nat} {x : CodeUnit}, s.workspace.closed[k]? = some x →
      s.workspace.units[k]? = some x := by
    intro k x hx
    obtain ⟨hk, -⟩ := List.getElem?_eq_some_iff.mp hx
    rw [units, List.getElem?_append_left hk]
    exact hx
  exact h.coherent.index_eq (hunit hu) (hunit hv) he hf

theorem generate_ne_backend (hw : s.workspace.Coherent) (f : Function) (message : String) :
    generate f s ≠ .error (.rejected (.backend message)) s' := by
  intro h
  have hgen := generated_generate hw f
  rw [h] at hgen
  cases hgen with
  | clash admits objection workspace quiet =>
    rcases objection?_eq_some objection with ⟨d, -, -, he⟩ | ⟨d, -, -, he⟩ <;> cases he
  | refused admits objection forwards quiet => exact Expr.objection?_ne_backend objection
  | unemitted admits other ne_backend forwards workspace quiet => exact ne_backend message rfl

theorem findDeclaration_ne_error (hw : s.workspace.Coherent) (symbol : String) (fault : Fault) :
    findDeclaration symbol s ≠ .error fault s' := by
  obtain ⟨found, s₁, hfind, -⟩ := findDeclaration_apply hw symbol
  rw [hfind]
  intro h
  cases h

theorem declareExternal_ne_backend (hw : s.workspace.Coherent) (proto : Prototype)
    (message : String) : declareExternal proto s ≠ .error (.rejected (.backend message)) s' := by
  intro h
  have hdecl := declared_declareExternal hw proto
  rw [h] at hdecl
  cases hdecl

/-- Whatever operations were performed, and whether or not they failed: a symbol
    has a body in at most one unit and an address in at most one engine, all its
    declarations have the same number of parameters, and no operation that
    declares ever finds two declarations at odds. -/
theorem one_definition (h : Reachable s) :
    (∀ symbol (i j : Nat) (u v : CodeUnit), s.workspace.units[i]? = some u →
      s.workspace.units[j]? = some v → u.defines symbol = true → v.defines symbol = true → i = j) ∧
    (∀ symbol (i j : Nat) (e f : Engine), s.workspace.engines[i]? = some e →
      s.workspace.engines[j]? = some f → e.defines symbol = true → f.defines symbol = true → i = j) ∧
    (∀ u ∈ s.workspace.units, ∀ v ∈ s.workspace.units,
      ∀ d ∈ u.declarations, ∀ e ∈ v.declarations, d.symbol = e.symbol → d.arity = e.arity) ∧
    (∀ message s',
      (∀ f, generate f s ≠ .error (.rejected (.backend message)) s') ∧
      (∀ symbol, findDeclaration symbol s ≠ .error (.rejected (.backend message)) s') ∧
      (∀ proto, declareExternal proto s ≠ .error (.rejected (.backend message)) s')) := by
  have hw := h.coherent
  refine ⟨?_, ?_, hw.arity_eq, ?_⟩
  · intro symbol i j u v hi hj hu hv
    exact hw.index_eq hi hj hu hv
  · intro symbol i j e f hi hj he hf
    exact h.engine_eq hi hj he hf
  · intro message s'
    refine ⟨fun f => generate_ne_backend hw f message, fun symbol => ?_, fun proto => ?_⟩
    · exact findDeclaration_ne_error hw symbol _
    · exact declareExternal_ne_backend hw proto message

/-- Two units declare `foo`, the second because it calls it; only the first has
    its body. -/
theorem one_definition_of_forwarded : ∃ s, Reachable s ∧
    (s.workspace.units.map fun u => u.declarations.map fun d => (d.symbol, d.arity, d.hasBody)) =
      [[("foo", 1, true)], [("foo", 1, false), ("bar", 1, true)]] ∧
    ∀ (i j : Nat) (u v : CodeUnit), s.workspace.units[i]? = some u → s.workspace.units[j]? = some v →
      u.defines "foo" = true → v.defines "foo" = true → i = j := by
  have h₁ := Reachable.perform (.generate ⟨⟨"foo", ["x"]⟩, .var "x"⟩) (.start {})
  have h₂ := Reachable.perform .finalize h₁
  have h₃ := Reachable.perform (.generate ⟨⟨"bar", ["y"]⟩, .call "foo" [.var "y"]⟩) h₂
  exact ⟨_, h₃, by decide +kernel, (one_definition h₃).1 "foo"⟩

end Abacus.Build
