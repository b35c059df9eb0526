-- SUMMARY: A symbol has an address exactly if some unit has a body for it.
import Abacus.Proofs.Redefinition
import Abacus.Proofs.Safety

/-!
# Addresses of symbols

The address of a symbol is asked for when a function is to be run. Where the body is decides
what happens. In a closed unit it has an address already. In the open unit it gets one when
the unit is finalized, which is then done, and not before. If no unit has a body, there is no
address; declarations without body do not count, wherever they are.

A body stays once it is there (`signature?_steps`). So what was generated has an address, or
can be given one, ever after.
-/

namespace Abacus

/-! ## Bodies -/

namespace Workspace

variable {w : Workspace} {symbol : String} {u : CodeUnit}

/-- Some unit, open or closed, has a body for the symbol. -/
def Defines (w : Workspace) (symbol : String) : Prop :=
  ∃ u ∈ w.units, u.defines symbol = true

theorem defines_of_closed (hu : u ∈ w.closed) (hdef : u.defines symbol = true) :
    w.Defines symbol :=
  ⟨u, List.mem_append_left _ hu, hdef⟩

theorem defines_of_current (hu : w.current = some u) (hdef : u.defines symbol = true) :
    w.Defines symbol :=
  ⟨u, by simp [units_of_some hu], hdef⟩

/-- A body is in a closed unit, in the open one, or nowhere. -/
theorem defines_cases (w : Workspace) (symbol : String) :
    (∃ u ∈ w.closed, u.defines symbol = true) ∨
    (∃ u, w.current = some u ∧ u.defines symbol = true) ∨ ¬ w.Defines symbol := by
  by_cases h : w.Defines symbol
  · obtain ⟨u, hu, hdef⟩ := h
    rcases List.mem_append.mp hu with hu | hu
    · exact .inl ⟨u, hu, hdef⟩
    · exact .inr (.inl ⟨u, Option.mem_toList.mp hu, hdef⟩)
  · exact .inr (.inr h)

theorem defines_of_signature? (hw : w.Coherent) {arity : Nat}
    (h : w.signature? symbol = some ⟨arity, true⟩) : w.Defines symbol := by
  obtain ⟨d, hd, hb⟩ := (hasBody_of_signature? h).mp rfl
  obtain ⟨u, hu, hd, hs⟩ := (mem_declarations hw).mp hd
  exact ⟨u, hu, CodeUnit.defines_iff.mpr ⟨d, hd, hs, hb⟩⟩

/-- The open unit has no body that a closed one has. -/
theorem Coherent.current_of_closed (hw : w.Coherent) {v : CodeUnit} (hv : v ∈ w.closed)
    (hdef : v.defines symbol = true) (hu : w.current = some u) : u.defines symbol = false := by
  rw [Coherent, units_of_some hu] at hw
  have hone := (List.pairwise_append.mp hw.one_body).2.2 v hv u (List.mem_singleton_self u) symbol
  rw [Bool.eq_false_iff]
  exact fun hdef' => hone ⟨hdef, hdef'⟩

/-! ## Engines -/

/-- What has a body in a closed unit has an address. -/
theorem Linked.exists_address? (hl : w.Linked) (hu : u ∈ w.closed)
    (hdef : u.defines symbol = true) : ∃ a, w.address? symbol = some a := by
  obtain ⟨k, hk⟩ := List.getElem?_of_mem hu
  obtain ⟨e, he⟩ := hl.exists_engine hk
  refine Option.ne_none_iff_exists'.mp ?_
  intro hnone
  have hlookup := List.findSome?_eq_none_iff.mp hnone e (List.mem_of_getElem? he)
  rw [Engine.address?, hl.symbols_eq hk he, CodeUnit.lookup_addresses_eq_none, hdef] at hlookup
  cases hlookup

/-- An address is that of a body in a closed unit, and the code of the symbol is there. -/
theorem Linked.fetch?_of_address? (hw : w.Coherent) (hl : w.Linked) {a : Address}
    (h : w.address? symbol = some a) :
    (∃ u ∈ w.closed, u.defines symbol = true) ∧
      ∃ r, Engine.fetch? w.engines a = some r ∧ r.symbol = symbol := by
  obtain ⟨e, he, hlookup⟩ := List.exists_of_findSome?_eq_some h
  obtain ⟨k, hk⟩ := List.getElem?_of_mem he
  obtain ⟨u, hu⟩ := hl.exists_unit hk
  rw [Engine.address?, hl.symbols_eq hu hk] at hlookup
  obtain ⟨d, hd, hb, rfl, rfl⟩ := CodeUnit.lookup_addresses hlookup
  obtain ⟨r, hfetch, hsymbol, -⟩ := Session.body_of_declaration hw hl hu hd hb
  refine ⟨⟨u, List.mem_of_getElem? hu, ?_⟩, r, hfetch, hsymbol⟩
  exact CodeUnit.defines_iff.mpr ⟨d, hd, rfl, hb⟩

end Workspace

/-! ## Asking for an address -/

namespace Build

open Workspace

variable {s s' s₁ : World} {symbol : String} {u : CodeUnit} {a : Address} {f : Function}
  {handle : Handle}

/-- The code of a symbol is at an address. -/
def CodeAt (s : World) (symbol : String) (a : Address) : Prop :=
  ∃ r, Engine.fetch? s.workspace.engines a = some r ∧ r.symbol = symbol

/-- With a body in a closed unit nothing is left to do. -/
theorem address_of_closed (hw : s.workspace.Coherent) (hl : s.workspace.Linked)
    (hu : u ∈ s.workspace.closed) (hdef : u.defines symbol = true) :
    ∃ a, address symbol s = .ok a s ∧ CodeAt s symbol a := by
  obtain ⟨a, ha⟩ := hl.exists_address? hu hdef
  exact ⟨a, address_of_address? ha, (hl.fetch?_of_address? hw ha).2⟩

theorem address?_of_not_closed (hw : s.workspace.Coherent) (hl : s.workspace.Linked)
    (h : ¬ ∃ u ∈ s.workspace.closed, u.defines symbol = true) :
    s.workspace.address? symbol = none := by
  cases ha : s.workspace.address? symbol with
  | none => rfl
  | some a => exact absurd (hl.fetch?_of_address? hw ha).1 h

/-- With a body in the open unit that unit is finalized, once. Either this gives the address,
    or it fails, and asking for the address fails with it. -/
theorem address_of_current (hw : s.workspace.Coherent) (hl : s.workspace.Linked)
    (hu : s.workspace.current = some u) (hdef : u.defines symbol = true) :
    (∃ a s', finalize s = .ok (some s.workspace.engines.length) s' ∧
      address symbol s = .ok a s' ∧ CodeAt s' symbol a ∧ s'.workspace.current = none ∧
      s'.workspace.closed = s.workspace.closed ++ [u] ∧
      s'.workspace.engines.length = s.workspace.engines.length + 1) ∨
    ∃ t s', finalize s = .error (.unresolved t) s' ∧
      address symbol s = .error (.unresolved t) s' := by
  have hclosed : ¬ ∃ v ∈ s.workspace.closed, v.defines symbol = true := by
    rintro ⟨v, hv, hdef'⟩
    rw [hw.current_of_closed hv hdef' hu] at hdef
    cases hdef
  have hbody : (s.workspace.currentDeclaration? symbol).any (·.hasBody) = true :=
    (any_currentDeclaration? hw).mpr ⟨u, hu, hdef⟩
  -- The unit is closed, and then the engines are asked again.
  obtain ⟨again, hask, hagain⟩ : ∃ again : Build Address,
      address symbol s = (finalize >>= fun _ => again) s ∧
      ∀ s' a, s'.workspace.address? symbol = some a → again s' = .ok a s' := by
    unfold address
    rw [bind_ok (workspace_apply s), address?_of_not_closed hw hl hclosed]
    refine ⟨_, congrFun (if_pos hbody) s, fun s' a ha => ?_⟩
    rw [bind_ok (workspace_apply s'), ha]
    rfl
  have hfinal := finalized_finalize s
  generalize hr : finalize s = r at hfinal
  cases hfinal with
  | idle current =>
    rw [hu] at current
    cases current
  | @unresolved _ t s' current link workspace quiet =>
    exact .inr ⟨t, s', rfl, hask.trans (bind_error hr)⟩
  | @closed v e s' current link workspace quiet =>
    rw [hu] at current
    cases current
    have hstep : Step s.workspace s'.workspace := workspace ▸ .closed hu link
    have hw' := hw.step hstep
    have hl' := hl.step hstep
    have hmem : u ∈ s'.workspace.closed := by
      rw [workspace]
      exact List.mem_append_right _ (List.mem_singleton_self u)
    obtain ⟨a, ha⟩ := hl'.exists_address? hmem hdef
    refine .inl ⟨a, s', rfl, ?_, (hl'.fetch?_of_address? hw' ha).2, ?_, ?_, ?_⟩
    · rw [hask, bind_ok hr]
      exact hagain s' a ha
    · rw [workspace]
      rfl
    · rw [workspace]
      rfl
    · rw [workspace]
      simp [Workspace.close]

/-- Without a body there is no address, and nothing is done. -/
theorem address_of_bodiless (hw : s.workspace.Coherent) (hl : s.workspace.Linked)
    (h : ¬ s.workspace.Defines symbol) :
    address symbol s = .error (.rejected (.unknownSymbol symbol)) s := by
  have hclosed : ¬ ∃ u ∈ s.workspace.closed, u.defines symbol = true :=
    fun ⟨u, hu, hdef⟩ => h (defines_of_closed hu hdef)
  have hbody : ¬ (s.workspace.currentDeclaration? symbol).any (·.hasBody) = true := by
    intro hbody
    obtain ⟨u, hu, hdef⟩ := (any_currentDeclaration? hw).mp hbody
    exact h (defines_of_current hu hdef)
  unfold address
  rw [bind_ok (workspace_apply s), address?_of_not_closed hw hl hclosed]
  dsimp only
  rw [if_neg hbody]
  rfl

/-- A symbol with a body is never unknown. -/
theorem not_unknown_of_defines (hl : s.workspace.Linked) (h : s.workspace.Defines symbol)
    (name : String) : ¬ Addressed symbol s (.error (.rejected (.unknownSymbol name)) s') := by
  intro haddressed
  cases haddressed with
  | unknown address? bodiless =>
    rcases defines_cases s.workspace symbol with ⟨u, hu, hdef⟩ | ⟨u, hu, hdef⟩ | hnone
    · obtain ⟨a, ha⟩ := hl.exists_address? hu hdef
      rw [ha] at address?
      cases address?
    · rw [bodiless u hu] at hdef
      cases hdef
    · exact hnone h

theorem address_ne_unknown (hw : s.workspace.Coherent) (hl : s.workspace.Linked)
    (h : s.workspace.Defines symbol) (name : String) :
    address symbol s ≠ .error (.rejected (.unknownSymbol name)) s' := by
  intro herror
  have haddressed := addressed_address hw symbol
  rw [herror] at haddressed
  exact not_unknown_of_defines hl h name haddressed

theorem evaluate_ne_unknown (hw : s.workspace.Coherent) (hl : s.workspace.Linked)
    (h : s.workspace.Defines handle.symbol) (name : String) :
    evaluate handle s ≠ .error (.rejected (.unknownSymbol name)) s' := by
  intro herror
  have hevaluated := evaluated_evaluate hw handle
  rw [herror] at hevaluated
  cases hevaluated with
  | unaddressed arity addressed => exact not_unknown_of_defines hl h name addressed

/-! ## Handles -/

/-- What is generated gets a body, and had none. -/
theorem signature?_of_generate (hw : s.workspace.Coherent) (h : generate f s = .ok handle s') :
    s'.workspace.signature? handle.symbol = some ⟨handle.arity, true⟩ ∧
      ∀ arity, s.workspace.signature? handle.symbol ≠ some ⟨arity, true⟩ := by
  have hgen := generated_generate hw f
  rw [h] at hgen
  cases hgen with
  | compiled admits objection extension quiet =>
    obtain ⟨-, -, -, -, -, hsig⟩ := extension
    refine ⟨(hsig _).trans (if_pos rfl), ?_⟩
    intro arity hbody
    cases (admits _ hbody).1

theorem steps_of_generate (hw : s.workspace.Coherent) (h : generate f s = .ok handle s') :
    Steps s.workspace s'.workspace := by
  have hsteps := steps_generate hw f
  rwa [left_of_ok h] at hsteps

/-- Whatever operations follow, what was generated has its body. -/
theorem signature?_of_later (hw : s.workspace.Coherent) (h : generate f s = .ok handle s₁)
    (hlater : Later s₁ s') :
    s'.workspace.signature? handle.symbol = some ⟨handle.arity, true⟩ := by
  have hw₁ := hw.steps (steps_of_generate hw h)
  exact signature?_steps hw₁ (hlater.steps hw₁) (signature?_of_generate hw h).1

/-! ## Any number of operations -/

/-- Whatever operations were performed: asking for the address of a symbol gives one exactly
    if some unit has a body for the symbol, unless the unit that has to be finalized for it
    cannot be linked, and the code of the symbol is there. If the body is in the open unit,
    this unit is finalized, once, and nothing else is done; if not, nothing is done at all,
    and the symbol is reported as unknown if there is no address. What was generated
    is not unknown, to be asked for its address or to be run, whatever operations
    follow, and no two functions that were generated have the same symbol. -/
theorem address_available_iff_defined (h : Reachable s) :
    (∀ symbol, (∀ t s', address symbol s ≠ .error (.unresolved t) s') →
      ((∃ a s', address symbol s = .ok a s') ↔ s.workspace.Defines symbol)) ∧
    (∀ symbol a s', address symbol s = .ok a s' → CodeAt s' symbol a) ∧
    (∀ symbol u, s.workspace.current = some u → u.defines symbol = true →
      (∃ a s', finalize s = .ok (some s.workspace.engines.length) s' ∧
        address symbol s = .ok a s' ∧ s'.workspace.current = none ∧
        s'.workspace.closed = s.workspace.closed ++ [u] ∧
        s'.workspace.engines.length = s.workspace.engines.length + 1) ∨
      ∃ t s', finalize s = .error (.unresolved t) s' ∧
        address symbol s = .error (.unresolved t) s') ∧
    (∀ symbol, (∀ u, s.workspace.current = some u → u.defines symbol = false) →
      (∃ a, address symbol s = .ok a s) ∨
      address symbol s = .error (.rejected (.unknownSymbol symbol)) s) ∧
    (∀ f handle s₁ s', generate f s = .ok handle s₁ → Later s₁ s' →
      ∀ name s'', address handle.symbol s' ≠ .error (.rejected (.unknownSymbol name)) s'' ∧
        evaluate handle s' ≠ .error (.rejected (.unknownSymbol name)) s'') ∧
    (∀ f g handle handle' s₁ s₂ s₃, generate f s = .ok handle s₁ → Later s₁ s₂ →
      generate g s₂ = .ok handle' s₃ → handle.symbol ≠ handle'.symbol) := by
  have hw := h.coherent
  have hl := h.linked
  refine ⟨?_, ?_, ?_, ?_, ?_, ?_⟩
  · intro symbol hlinked
    rcases defines_cases s.workspace symbol with ⟨u, hu, hdef⟩ | ⟨u, hu, hdef⟩ | hnone
    · obtain ⟨a, ha, -⟩ := address_of_closed hw hl hu hdef
      exact iff_of_true ⟨a, s, ha⟩ (defines_of_closed hu hdef)
    · rcases address_of_current hw hl hu hdef with ⟨a, s', -, ha, -⟩ | ⟨t, s', -, ha⟩
      · exact iff_of_true ⟨a, s', ha⟩ (defines_of_current hu hdef)
      · exact absurd ha (hlinked t s')
    · refine iff_of_false ?_ hnone
      rintro ⟨a, s', ha⟩
      rw [address_of_bodiless hw hl hnone] at ha
      cases ha
  · intro symbol a s' ha
    have haddressed := addressed_address hw symbol
    rw [ha] at haddressed
    have hsteps := haddressed.steps_ok
    exact ((hl.steps hsteps).fetch?_of_address? (hw.steps hsteps) haddressed.address?).2
  · intro symbol u hu hdef
    rcases address_of_current hw hl hu hdef with
      ⟨a, s', hr, ha, -, hnone, hclosed, hlength⟩ | hfails
    · exact .inl ⟨a, s', hr, ha, hnone, hclosed, hlength⟩
    · exact .inr hfails
  · intro symbol hbodiless
    rcases defines_cases s.workspace symbol with ⟨u, hu, hdef⟩ | ⟨u, hu, hdef⟩ | hnone
    · obtain ⟨a, ha, -⟩ := address_of_closed hw hl hu hdef
      exact .inl ⟨a, ha⟩
    · rw [hbodiless u hu] at hdef
      cases hdef
    · exact .inr (address_of_bodiless hw hl hnone)
  · intro f handle s₁ s' hgen hlater name s''
    have hw₁ := hw.steps (steps_of_generate hw hgen)
    have hsteps := hlater.steps hw₁
    have hw' := hw₁.steps hsteps
    have hl' := (hl.steps (steps_of_generate hw hgen)).steps hsteps
    have hdef := defines_of_signature? hw' (signature?_of_later hw hgen hlater)
    exact ⟨address_ne_unknown hw' hl' hdef name, evaluate_ne_unknown hw' hl' hdef name⟩
  · intro f g handle handle' s₁ s₂ s₃ hgen hlater hgen' heq
    have hw₁ := hw.steps (steps_of_generate hw hgen)
    have hw₂ := hw₁.steps (hlater.steps hw₁)
    have hbody := signature?_of_later hw hgen hlater
    rw [heq] at hbody
    exact (signature?_of_generate hw₂ hgen').2 _ hbody

/-- `foo` is in a closed unit, and declared without body in the open one; `bar` is in the
    open unit; `baz` is nowhere. -/
theorem address_available_iff_defined_at_forwarded : ∃ s, Reachable s ∧
    (∃ a, address "foo" s = .ok a s) ∧
    (∃ a s', address "bar" s = .ok a s' ∧ s'.workspace.current = none) ∧
    address "baz" s = .error (.rejected (.unknownSymbol "baz")) s := by
  have h₁ := Reachable.perform (.generate ⟨⟨"foo", ["x"]⟩, .var "x"⟩) (.start {})
  have h₂ := Reachable.perform .finalize h₁
  have h₃ := Reachable.perform (.generate ⟨⟨"bar", ["y"]⟩, .call "foo" [.var "y"]⟩) h₂
  obtain ⟨-, -, hopen, hkept, -, -⟩ := address_available_iff_defined h₃
  refine ⟨_, h₃, ?_, ?_, ?_⟩
  · refine (hkept "foo" (by decide +kernel)).resolve_right ?_
    intro hunknown
    cases hunknown
  · obtain ⟨a, s', -, ha, hnone, -⟩ | ⟨t, s', hfails, -⟩ :=
      hopen "bar" _ rfl (by decide +kernel)
    · exact ⟨a, s', ha, hnone⟩
    · cases hfails
  · refine (hkept "baz" (by decide +kernel)).resolve_left ?_
    rintro ⟨a, ha⟩
    cases ha

end Build

end Abacus
