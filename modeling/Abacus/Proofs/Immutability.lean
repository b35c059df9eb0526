-- SUMMARY: What was finalized stays as it is, whatever is done afterwards.
import Abacus.Proofs.Calls
import Abacus.Proofs.Depth
import Abacus.Proofs.OneDefinition

/-!
# Finalized code

Closed units, engines and published symbols are only ever added to. What a
symbol stands for may change when an engine publishes the name of an intrinsic,
but only for code that is linked afterwards: the calls of an engine go to
engines that are no younger, and to intrinsics, so its code runs as it did when
it was linked.
-/

namespace Abacus

/-! ## Growing -/

namespace Workspace

variable {w w' w'' : Workspace}

/-- What is closed, linked and published stays, and more may come behind it. -/
structure Extends (w w' : Workspace) : Prop where
  closed : w.closed <+: w'.closed
  engines : w.engines <+: w'.engines
  published : w.registry.published <+: w'.registry.published

theorem Extends.refl (w : Workspace) : Extends w w where
  closed := List.prefix_refl _
  engines := List.prefix_refl _
  published := List.prefix_refl _

theorem Extends.trans (h : Extends w w') (h' : Extends w' w'') : Extends w w'' where
  closed := h.closed.trans h'.closed
  engines := h.engines.trans h'.engines
  published := h.published.trans h'.published

theorem Extends.of_eq (hc : w'.closed = w.closed) (he : w'.engines = w.engines)
    (hr : w'.registry = w.registry) : Extends w w' where
  closed := by rw [hc]
  engines := by rw [he]
  published := by rw [hr]

theorem extends_step (h : Step w w') : Extends w w' := by
  cases h with
  | supplied supply => exact .of_eq rfl rfl rfl
  | opened => exact .of_eq opened_closed opened_engines opened_registry
  | declared name linkage ha => exact .of_eq opened_closed opened_engines opened_registry
  | defined hu hd hnew hrefs => exact .of_eq rfl rfl rfl
  | closed hu he =>
    exact ⟨List.prefix_append _ _, List.prefix_append _ _, List.prefix_append _ _⟩

theorem extends_steps (h : Steps w w') : Extends w w' := by
  induction h with
  | refl => exact .refl w
  | tail _ h ih => exact ih.trans (extends_step h)

/-! ## Addresses -/

/-- The oldest engine that defines a symbol is the same ever after. -/
theorem Extends.address? (h : Extends w w') {symbol : String} {a : Address}
    (ha : w.address? symbol = some a) : w'.address? symbol = some a :=
  h.engines.findSome?_eq_some ha

theorem Extends.resolve (h : Extends w w') {symbol : String} {a : Address}
    (ha : w.registry.resolve symbol = some (.code a)) :
    w'.registry.resolve symbol = some (.code a) := by
  rw [Registry.resolve_eq_code] at ha ⊢
  exact h.published.findSome?_eq_some ha

/-! ## Running -/

theorem Extends.fetch? (h : Extends w w') {a : Address} (ha : a.engine < w.engines.length) :
    Engine.fetch? w'.engines a = Engine.fetch? w.engines a := by
  obtain ⟨more, hmore⟩ := h.engines
  rw [Engine.fetch?, ← hmore, List.getElem?_append_left ha]
  rfl

/-- A routine runs with the engines that were there when it was linked. -/
theorem Extends.run (h : Extends w w') (hw : w.Linked) (depth : Nat) {l : Link Address}
    (hl : ∀ a, l = .code a → a.engine < w.engines.length) :
    Engine.run w'.engines depth l = Engine.run w.engines depth l := by
  induction depth generalizing l with
  | zero => cases l <;> rfl
  | succ depth ih =>
    cases l with
    | host i => rfl
    | code a =>
      have ha := hl a rfl
      funext args
      rw [Engine.run, Engine.run, h.fetch? ha]
      cases hr : Engine.fetch? w.engines a with
      | none => rfl
      | some r =>
        obtain ⟨e, he, hmem, -⟩ := Engine.fetch?_eq_some hr
        apply Code.Routine.exec_congr
        intro callee hcallee
        apply ih
        intro b hb
        subst hb
        exact Nat.lt_of_le_of_lt (hw.callee_engine_le he hmem hcallee) ha

end Workspace

/-! ## Operations -/

namespace Build

open Workspace

variable {s s' : World}

/-- The worlds that operations can lead to from `s` on. -/
inductive Later (s : World) : World → Prop where
  | refl : Later s s
  | perform {s' : World} (op : Op) (h : Later s s') : Later s (left op.perform s')

theorem Later.steps (h : Later s s') (hw : s.workspace.Coherent) :
    Steps s.workspace s'.workspace := by
  induction h with
  | refl => exact .refl
  | perform op _ ih => exact ih.trans (op.steps (hw.steps ih))

/-- An address that was given is that of the oldest engine that defines the symbol. -/
theorem Addressed.address? {symbol : String} {a : Address}
    (h : Addressed symbol s (.ok a s')) : s'.workspace.address? symbol = some a := by
  cases h with
  | known address? => exact address?
  | linked address? current link workspace address quiet =>
    rw [workspace, address?_close address? link]
    exact address

theorem address_of_address? {symbol : String} {a : Address}
    (h : s.workspace.address? symbol = some a) : address symbol s = .ok a s := by
  unfold address
  rw [bind_ok (workspace_apply s), h]
  rfl

/-- Whatever operations follow: what was closed, linked and published is the front
    of what there is then; an address that was given, or that a symbol stood for,
    is the same; and a routine of an engine runs to the same value and writes the
    same, at any depth and at the depth that runs are given. -/
theorem finalized_code_immutable (h : Reachable s) :
    (∀ s', Later s s' → Extends s.workspace s'.workspace) ∧
    (∀ symbol a s₁ s', address symbol s = .ok a s₁ → Later s₁ s' →
      address symbol s' = .ok a s') ∧
    (∀ symbol a s', s.workspace.registry.resolve symbol = some (.code a) → Later s s' →
      s'.workspace.registry.resolve symbol = some (.code a)) ∧
    (∀ a r s', Engine.fetch? s.workspace.engines a = some r → Later s s' →
      Engine.fetch? s'.workspace.engines a = some r ∧
      (∀ depth args out, Engine.run s'.workspace.engines depth (.code a) args out =
        Engine.run s.workspace.engines depth (.code a) args out) ∧
      ∀ args out result,
        Engine.run s'.workspace.engines (Engine.depthBound s'.workspace.engines) (.code a) args out =
            .ok result ↔
          Engine.run s.workspace.engines (Engine.depthBound s.workspace.engines) (.code a) args out =
            .ok result) := by
  have hextends {s' : World} (hlater : Later s s') : Extends s.workspace s'.workspace :=
    extends_steps (hlater.steps h.coherent)
  refine ⟨fun s' => hextends, ?_, ?_, ?_⟩
  · intro symbol a s₁ s' haddress hlater
    have haddressed := addressed_address h.coherent symbol
    rw [haddress] at haddressed
    have hcoherent := h.coherent.steps haddressed.steps_ok
    apply address_of_address?
    exact (extends_steps (hlater.steps hcoherent)).address? haddressed.address?
  · intro symbol a s' ha hlater
    exact (hextends hlater).resolve ha
  · intro a r s' hr hlater
    obtain ⟨e, he, -⟩ := Engine.fetch?_eq_some hr
    have ha : a.engine < s.workspace.engines.length := (List.getElem?_eq_some_iff.mp he).1
    have hrun (depth : Nat) (args : List Float) (out : List UInt8) :
        Engine.run s'.workspace.engines depth (.code a) args out =
          Engine.run s.workspace.engines depth (.code a) args out := by
      rw [(hextends hlater).run h.linked depth]
      intro b hb
      cases hb
      exact ha
    refine ⟨((hextends hlater).fetch? ha).trans hr, hrun, fun args out result => ?_⟩
    constructor
    · intro hresult
      rw [hrun] at hresult
      exact Engine.run_depthBound hresult
    · intro hresult
      rw [← hrun] at hresult
      exact Engine.run_depthBound hresult

/-- Code that was linked to an intrinsic goes on calling it after a definition has
    taken its name. -/
theorem finalized_code_immutable_of_shadowed : ∃ s s', Reachable s ∧ Later s s' ∧
    s.workspace.registry.resolve "sin" = some (.host .sin) ∧
    s'.workspace.registry.resolve "sin" = some (.code ⟨1, 0⟩) ∧
    (Engine.fetch? s'.workspace.engines ⟨0, 1⟩).map (·.callees) = some [.host .sin] ∧
    ∀ depth args out, Engine.run s'.workspace.engines depth (.code ⟨0, 1⟩) args out =
      Engine.run s.workspace.engines depth (.code ⟨0, 1⟩) args out := by
  have h₁ := Reachable.perform (.declareExternal ⟨"sin", ["x"]⟩) (.start {})
  have h₂ := Reachable.perform (.generate ⟨⟨"f", ["x"]⟩, .call "sin" [.var "x"]⟩) h₁
  have h₃ := Reachable.perform .finalize h₂
  have himmutable := (finalized_code_immutable h₃).2.2.2 ⟨0, 1⟩
  refine ⟨_, _, h₃, .perform .finalize (.perform (.generate ⟨⟨"sin", ["x"]⟩, .var "x"⟩) .refl),
    ?_, ?_, ?_, ?_⟩
  · decide +kernel
  · decide +kernel
  · decide +kernel
  · refine (himmutable _ _ (Option.some_get ?_).symm (.perform _ (.perform _ .refl))).2.1
    decide +kernel

end Build

end Abacus
