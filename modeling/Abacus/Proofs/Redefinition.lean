-- SUMMARY: What a second body for a symbol is rejected with.
import Abacus.Proofs.Immutability

/-!
# Second bodies

A body for a symbol is checked against the declarations of the symbol, the open unit's
first and then those of closed units, oldest first, and the first objection is reported.
Once some unit has a body every later one is objected to. With the number of parameters
that the symbol has, declarations without body are passed over until the body is found.
With another number the first declaration decides: a body there is reported as such, a
declaration without body as a number of parameters that does not match.
-/

namespace Abacus

/-! ## Declarations -/

namespace Build

variable {ds : List Declaration} {arity : Nat}

/-- Declarations without body that have the right number of parameters do not matter. -/
theorem objection?_of_arity_eq (harity : ∀ d ∈ ds, d.arity = arity)
    (hbody : ∃ d ∈ ds, d.hasBody = true) (name : String) :
    objection? name arity ds = some (.duplicateDefinition name) := by
  induction ds with
  | nil => simp at hbody
  | cons d ds ih =>
    have hd : d.arity = arity := harity d List.mem_cons_self
    cases hb : d.hasBody with
    | true => simp [objection?, hb]
    | false =>
      have hrest : ∃ e ∈ ds, e.hasBody = true := by simpa [hb] using hbody
      simp only [objection?, hb, hd, Bool.false_eq_true, if_false, ne_eq, not_true_eq_false]
      exact ih (fun e he => harity e (List.mem_cons_of_mem _ he)) hrest

/-- With another number of parameters the first declaration decides. -/
theorem objection?_of_arity_ne {n : Nat} (harity : ∀ d ∈ ds, d.arity = arity) (hne : ds ≠ [])
    (hn : n ≠ arity) (name : String) :
    objection? name n ds = some (if ds.head?.any (·.hasBody) then .duplicateDefinition name
      else .arityMismatch name arity n) := by
  cases ds with
  | nil => exact absurd rfl hne
  | cons d ds =>
    have hd : d.arity = arity := harity d List.mem_cons_self
    cases hb : d.hasBody <;> simp [objection?, hb, hd, hn.symm]

end Build

/-! ## Bodies stay -/

namespace Workspace

variable {w w' : Workspace} {symbol : String} {arity : Nat}

theorem head?_declarations (w : Workspace) (symbol : String) :
    (w.declarations symbol).head? = w.declaration? symbol := by
  unfold declarations declaration? closedDeclaration?
  cases w.currentDeclaration? symbol with
  | some d => rfl
  | none => simp [List.head?_filterMap]

theorem signature?_of_defines (hw : w.Coherent) {u : CodeUnit} (hu : u ∈ w.units)
    (hbody : u.defines symbol = true) : ∃ arity, w.signature? symbol = some ⟨arity, true⟩ := by
  obtain ⟨d, hd, hs, hb⟩ := CodeUnit.defines_iff.mp hbody
  have hmem : d ∈ w.declarations symbol := (mem_declarations hw).mpr ⟨u, hu, hd, hs⟩
  exact ⟨d.arity, (signature?_eq_some hw).mpr ⟨⟨d, hmem, rfl⟩, by simpa using ⟨d, hmem, hb⟩⟩⟩

theorem signature?_opened (hw : w.Coherent) : w.opened.signature? symbol = w.signature? symbol := by
  apply signature?_congr hw hw.opened
  · exact fun d hd => ⟨d, (mem_declarations_opened hw).mpr hd, rfl, fun h => h⟩
  · exact fun d hd => ⟨d, (mem_declarations_opened hw).mp hd, rfl, fun h => h⟩

/-- A symbol that has a body keeps its signature. -/
theorem signature?_step (hw : w.Coherent) (hstep : Step w w')
    (hsig : w.signature? symbol = some ⟨arity, true⟩) :
    w'.signature? symbol = some ⟨arity, true⟩ := by
  cases hstep with
  | supplied supply => exact hsig
  | opened => exact (signature?_opened hw).trans hsig
  | declared name linkage ha =>
    rw [signature?_declare hw ha]
    split
    case isTrue h => rw [← h, hsig]; rfl
    case isFalse => exact hsig
  | @defined u r hu hd hnew hrefs =>
    rw [signature?_define hw hu hd hnew hrefs]
    split
    case isTrue h =>
      -- A routine is added only for a symbol without body.
      obtain ⟨d, hmem, hb⟩ := (hasBody_of_signature? hsig).mp rfl
      rw [hnew d (h ▸ hmem)] at hb
      cases hb
    case isFalse => exact hsig
  | closed hu he => exact (signature?_close hw hu he).trans hsig

theorem signature?_steps (hw : w.Coherent) (hsteps : Steps w w')
    (hsig : w.signature? symbol = some ⟨arity, true⟩) :
    w'.signature? symbol = some ⟨arity, true⟩ := by
  induction hsteps with
  | refl => exact hsig
  | tail hsteps hstep ih => exact signature?_step (hw.steps hsteps) hstep ih

end Workspace

/-! ## Operations -/

namespace Build

open Workspace

variable {s : World}

/-- Once some unit has a body for a symbol, all declarations of the symbol have one number
    of parameters, then and after any operations. A further body with that number is
    always rejected as a second one, whatever else declares the symbol. With another
    number it is rejected as a second one if the declaration that is found first has a
    body, and else because the numbers differ. -/
theorem redefinition_rejected (h : Reachable s) {u : CodeUnit} {symbol : String}
    (hu : u ∈ s.workspace.units) (hbody : u.defines symbol = true) :
    ∃ arity, ∀ s', Later s s' →
      (∀ v ∈ s'.workspace.units, ∀ d ∈ v.declarations, d.symbol = symbol → d.arity = arity) ∧
      (∀ name, checkDefinition name symbol arity s' =
        .error (.rejected (.duplicateDefinition name)) s') ∧
      (∀ name n, n ≠ arity → checkDefinition name symbol n s' =
        .error (.rejected (if (s'.workspace.declaration? symbol).any (·.hasBody)
          then .duplicateDefinition name else .arityMismatch name arity n)) s') := by
  have hw := h.coherent
  obtain ⟨arity, hsig⟩ := signature?_of_defines hw hu hbody
  refine ⟨arity, ?_⟩
  intro s' hlater
  have hsteps := hlater.steps hw
  have hw' := hw.steps hsteps
  have hsig' := signature?_steps hw hsteps hsig
  have harity : ∀ d ∈ s'.workspace.declarations symbol, d.arity = arity :=
    fun d hd => arity_of_signature? hw' hsig' hd
  have hbody' := (hasBody_of_signature? hsig').mp rfl
  refine ⟨?_, ?_, ?_⟩
  · intro v hv d hd hs
    exact harity d ((mem_declarations hw').mpr ⟨v, hv, hd, hs⟩)
  · intro name
    rw [checkDefinition_apply, objection?_of_arity_eq harity hbody']
  · intro name n hn
    have hne : s'.workspace.declarations symbol ≠ [] := by
      obtain ⟨d, hd, -⟩ := hbody'
      exact List.ne_nil_of_mem hd
    rw [checkDefinition_apply, objection?_of_arity_ne harity hne hn, head?_declarations]

/-- `foo` is defined and linked; then `bar` is defined, which calls it, so that the open
    unit declares `foo` without body. -/
theorem exists_forwarded : ∃ (s : World) (u : CodeUnit), Reachable s ∧ u ∈ s.workspace.units ∧
    u.defines "foo" = true ∧
    checkDefinition "foo" "foo" 2 s = .error (.rejected (.arityMismatch "foo" 1 2)) s := by
  have h₁ := Reachable.perform (.generate ⟨⟨"foo", ["x"]⟩, .var "x"⟩) (.start {})
  have h₂ := Reachable.perform .finalize h₁
  have h₃ := Reachable.perform (.generate ⟨⟨"bar", ["y"]⟩, .call "foo" [.var "y"]⟩) h₂
  generalize hs : left _ _ = s at h₃
  have hbody : ∃ u ∈ s.workspace.units, u.defines "foo" = true := by
    rw [← hs]
    decide +kernel
  have hfirst : objection? "foo" 2 (s.workspace.declarations "foo") =
      some (.arityMismatch "foo" 1 2) := by
    rw [← hs]
    decide +kernel
  obtain ⟨u, hu, hbody⟩ := hbody
  refine ⟨s, u, h₃, hu, hbody, ?_⟩
  rw [checkDefinition_apply, hfirst]

theorem redefinition_rejected_at_forwarded : ∃ (s : World) (arity : Nat), Reachable s ∧
    checkDefinition "foo" "foo" arity s = .error (.rejected (.duplicateDefinition "foo")) s ∧
    checkDefinition "foo" "foo" 2 s = .error (.rejected (.arityMismatch "foo" 1 2)) s := by
  obtain ⟨s, u, h, hu, hbody, hmismatch⟩ := exists_forwarded
  obtain ⟨arity, hrejected⟩ := redefinition_rejected h hu hbody
  exact ⟨s, arity, h, (hrejected s .refl).2.1 "foo", hmismatch⟩

/-- A second body may be rejected for its number of parameters, though some unit has a
    body. -/
theorem redefinition_reported_as_mismatch : ¬ ∀ (s : World) (u : CodeUnit) (name symbol : String)
    (n : Nat), Reachable s → u ∈ s.workspace.units → u.defines symbol = true →
    checkDefinition name symbol n s = .error (.rejected (.duplicateDefinition name)) s := by
  intro hduplicate
  obtain ⟨s, u, h, hu, hbody, hmismatch⟩ := exists_forwarded
  have hcheck := hduplicate s u "foo" "foo" 2 h hu hbody
  rw [hmismatch] at hcheck
  cases hcheck

end Build

end Abacus
