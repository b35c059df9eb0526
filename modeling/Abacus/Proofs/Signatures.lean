-- SUMMARY: What a workspace knows about a symbol, all its units taken together.
import Abacus.Proofs.Coherence

/-!
# Signatures

To a caller it does not matter which unit declares a symbol. The signature of a
symbol is its number of parameters and whether some unit has a body for it. The
steps that resolve names (`Workspace.Forwards`) leave all signatures alone; to
declare or define a symbol changes that symbol's signature only.
-/

namespace Abacus

structure Signature where
  arity   : Nat
  hasBody : Bool
deriving DecidableEq, Repr

namespace Workspace

/-- The signature of a symbol, if some unit declares it. -/
def signature? (w : Workspace) (symbol : String) : Option Signature :=
  match w.declarations symbol with
  | [] => none
  | d :: ds => some ⟨d.arity, (d :: ds).any (·.hasBody)⟩

variable {w w' : Workspace} {symbol : String}

theorem signature?_eq_none : w.signature? symbol = none ↔ w.declarations symbol = [] := by
  unfold signature?
  split <;> simp_all

theorem arity_of_signature? (hw : w.Coherent) {sig : Signature}
    (h : w.signature? symbol = some sig) {d : Declaration} (hd : d ∈ w.declarations symbol) :
    d.arity = sig.arity := by
  unfold signature? at h
  split at h
  · cases h
  case h_2 e es heq =>
    cases h
    exact hw.arity_eq_of_mem hd (heq ▸ List.mem_cons_self)

theorem hasBody_of_signature? {sig : Signature} (h : w.signature? symbol = some sig) :
    sig.hasBody = true ↔ ∃ d ∈ w.declarations symbol, d.hasBody = true := by
  unfold signature? at h
  split at h
  · cases h
  case h_2 e es heq =>
    cases h
    rw [heq]
    exact List.any_eq_true

theorem exists_of_signature? {sig : Signature} (h : w.signature? symbol = some sig) :
    ∃ d, d ∈ w.declarations symbol := by
  refine List.exists_mem_of_ne_nil _ fun hnil => ?_
  rw [signature?_eq_none.mpr hnil] at h
  cases h

theorem exists_signature? {d : Declaration} (hd : d ∈ w.declarations symbol) :
    ∃ sig, w.signature? symbol = some sig := by
  refine Option.ne_none_iff_exists'.mp fun hnone => ?_
  rw [signature?_eq_none.mp hnone] at hd
  cases hd

/-- What makes up a signature: some declaration, its number of parameters, and
    whether there is one with a body. -/
theorem signature?_eq_some (hw : w.Coherent) {sig : Signature} :
    w.signature? symbol = some sig ↔
      (∃ d ∈ w.declarations symbol, d.arity = sig.arity) ∧
      (sig.hasBody = true ↔ ∃ d ∈ w.declarations symbol, d.hasBody = true) := by
  constructor
  · intro h
    obtain ⟨d, hd⟩ := exists_of_signature? h
    exact ⟨⟨d, hd, arity_of_signature? hw h hd⟩, hasBody_of_signature? h⟩
  · rintro ⟨⟨d, hd, ha⟩, hb⟩
    obtain ⟨sig', h⟩ := exists_signature? hd
    rw [h, Option.some.injEq]
    have harity : sig'.arity = sig.arity := (arity_of_signature? hw h hd).symm.trans ha
    have hbody : sig'.hasBody = sig.hasBody :=
      Bool.eq_iff_iff.mpr ((hasBody_of_signature? h).trans hb.symm)
    cases sig; cases sig'
    simp_all

/-- Whatever `w` says about a symbol, `w'` says as well. -/
def Covers (w w' : Workspace) (symbol : String) : Prop :=
  ∀ d ∈ w.declarations symbol, ∃ e ∈ w'.declarations symbol,
    e.arity = d.arity ∧ (d.hasBody = true → e.hasBody = true)

theorem signature?_congr (hw : w.Coherent) (hw' : w'.Coherent) (h : Covers w w' symbol)
    (h' : Covers w' w symbol) : w'.signature? symbol = w.signature? symbol := by
  cases hs : w.signature? symbol with
  | none =>
    rw [signature?_eq_none] at hs ⊢
    refine List.eq_nil_iff_forall_not_mem.mpr fun e he => ?_
    obtain ⟨d, hd, -⟩ := h' e he
    rw [hs] at hd
    cases hd
  | some sig =>
    obtain ⟨⟨d, hd, ha⟩, hb⟩ := (signature?_eq_some hw).mp hs
    obtain ⟨e, he, hea, -⟩ := h d hd
    refine (signature?_eq_some hw').mpr ⟨⟨e, he, hea.trans ha⟩, hb.trans ⟨?_, ?_⟩⟩
    · rintro ⟨d, hd, hbody⟩
      obtain ⟨e, he, -, himp⟩ := h d hd
      exact ⟨e, he, himp hbody⟩
    · rintro ⟨e, he, hbody⟩
      obtain ⟨d, hd, -, himp⟩ := h' e he
      exact ⟨d, hd, himp hbody⟩

/-! ## Declarations after a step -/

theorem mem_declarations_opened (hw : w.Coherent) {d : Declaration} :
    d ∈ w.opened.declarations symbol ↔ d ∈ w.declarations symbol := by
  constructor
  · intro h
    obtain ⟨u, hu, hd, rfl⟩ := (mem_declarations hw.opened).mp h
    exact mem_declarations_of_opened hw hu hd
  · intro h
    obtain ⟨u, hu, hd⟩ := (mem_declarations hw).mp h
    refine (mem_declarations hw.opened).mpr ⟨u, ?_, hd⟩
    cases hc : w.current with
    | some v => rwa [opened_of_some hc]
    | none =>
      rw [units_opened]
      rw [units_of_none hc] at hu
      exact List.mem_append_left _ hu

theorem mem_declarations_close (hw : w.Coherent) {u : CodeUnit} {e : Engine}
    (hu : w.current = some u) (he : u.link w.engines.length w.registry = .ok e) {d : Declaration} :
    d ∈ (w.close u e).declarations symbol ↔ d ∈ w.declarations symbol := by
  rw [mem_declarations (hw.step (.closed hu he)), mem_declarations hw, units_close,
    units_of_some hu]

theorem wellFormed_unit (hw : w.Coherent) : w.unit.WellFormed :=
  hw.opened.wellFormed w.unit (by rw [units_opened]; simp)

theorem mem_declarations_of_unit (hw : w.Coherent) {d : Declaration}
    (hd : d ∈ w.unit.declarations) : d ∈ w.declarations d.symbol :=
  mem_declarations_of_opened hw (by rw [units_opened]; simp) hd

section Declare

variable {name : String} {arity : Nat} {linkage : Linkage}

theorem arity_of_mem_unit (hw : w.Coherent) (ha : ∀ d ∈ w.declarations symbol, d.arity = arity) :
    ∀ d ∈ w.unit.declarations, d.symbol = symbol → d.arity = arity := by
  rintro d hd rfl
  exact ha d (mem_declarations_of_unit hw hd)

theorem alike_of_mem_declarations_declare (hw : w.Coherent)
    (ha : ∀ d ∈ w.declarations symbol, d.arity = arity) {s : String} {e : Declaration}
    (hmem : e ∈ (w.declare name symbol arity linkage).declarations s) :
    (∃ d ∈ w.declarations s, d.Alike e) ∨
      (s = symbol ∧ e = w.unit.fresh name symbol arity linkage) := by
  obtain ⟨u, hu, he, rfl⟩ := (mem_declarations (hw.step (.declared name linkage ha))).mp hmem
  rw [units_declare] at hu
  rcases List.mem_append.mp hu with hu | hu
  · have hunits : u ∈ w.units := List.mem_append_left _ hu
    exact .inl ⟨e, (mem_declarations hw).mpr ⟨u, hunits, he, rfl⟩, rfl, rfl, rfl, rfl⟩
  · obtain rfl := List.mem_singleton.mp hu
    rcases CodeUnit.alike_of_mem_declare (wellFormed_unit hw) he with ⟨d, hd, hde⟩ | ⟨-, rfl⟩
    · refine .inl ⟨d, ?_, hde⟩
      rw [← hde.symbol]
      exact mem_declarations_of_unit hw hd
    · exact .inr ⟨rfl, rfl⟩

theorem mem_declarations_declare_of_mem (hw : w.Coherent)
    (ha : ∀ d ∈ w.declarations symbol, d.arity = arity) {s : String} {d : Declaration}
    (hmem : d ∈ w.declarations s) :
    ∃ e ∈ (w.declare name symbol arity linkage).declarations s, d.Alike e := by
  have hw' := hw.step (.declared name linkage ha)
  obtain ⟨u, hu, hd, rfl⟩ := (mem_declarations hw.opened).mp ((mem_declarations_opened hw).mpr hmem)
  rw [units_opened] at hu
  rcases List.mem_append.mp hu with hu | hu
  · refine ⟨d, (mem_declarations hw').mpr ⟨u, ?_, hd, rfl⟩, rfl, rfl, rfl, rfl⟩
    rw [units_declare]
    exact List.mem_append_left _ hu
  · obtain rfl := List.mem_singleton.mp hu
    obtain ⟨e, he, hde⟩ := CodeUnit.mem_declare_of_mem (wellFormed_unit hw) name symbol arity
      linkage hd
    refine ⟨e, (mem_declarations hw').mpr ⟨_, ?_, he, hde.symbol.symm⟩, hde⟩
    rw [units_declare]
    simp

/-- A declared symbol is declared, as it was before if it was. -/
theorem signature?_declare (hw : w.Coherent) (ha : ∀ d ∈ w.declarations symbol, d.arity = arity)
    (s : String) :
    (w.declare name symbol arity linkage).signature? s =
      if s = symbol then some ((w.signature? symbol).getD ⟨arity, false⟩) else w.signature? s := by
  have hw' := hw.step (.declared name linkage ha)
  have hcover : ∀ s, Covers w (w.declare name symbol arity linkage) s := by
    intro s d hd
    obtain ⟨e, he, hde⟩ := mem_declarations_declare_of_mem hw ha hd
    exact ⟨e, he, hde.arity.symm, fun h => hde.hasBody ▸ h⟩
  cases hs : w.signature? s with
  | some sig =>
    -- A symbol that was declared before gains at most a declaration without body.
    have hback : Covers (w.declare name symbol arity linkage) w s := by
      intro e he
      rcases alike_of_mem_declarations_declare hw ha he with ⟨d, hd, hde⟩ | ⟨rfl, rfl⟩
      · exact ⟨d, hd, hde.arity, fun h => hde.hasBody ▸ h⟩
      · obtain ⟨d, hd⟩ := exists_of_signature? hs
        exact ⟨d, hd, ha d hd, fun h => by cases h⟩
    rw [signature?_congr hw hw' (hcover s) hback, hs]
    split
    case isTrue h => rw [← h, hs]; rfl
    case isFalse h => rfl
  | none =>
    have hnil := signature?_eq_none.mp hs
    split
    case isTrue h =>
      subst h
      rw [hs]
      refine (signature?_eq_some hw').mpr ⟨?_, ?_⟩
      · obtain ⟨d, -, hd, hds, hda⟩ := CodeUnit.declare_ok (wellFormed_unit hw) name linkage
          (arity_of_mem_unit hw ha)
        exact ⟨d, (mem_declarations hw').mpr ⟨_, by rw [units_declare]; simp, hd, hds⟩, hda⟩
      · refine ⟨fun h => (by cases h), ?_⟩
        rintro ⟨e, he, hbody⟩
        rcases alike_of_mem_declarations_declare hw ha he with ⟨d, hd, -⟩ | ⟨-, rfl⟩
        · rw [hnil] at hd; cases hd
        · exact hbody
    case isFalse h =>
      refine signature?_eq_none.mpr (List.eq_nil_iff_forall_not_mem.mpr fun e he => ?_)
      rcases alike_of_mem_declarations_declare hw ha he with ⟨d, hd, -⟩ | ⟨heq, -⟩
      · rw [hnil] at hd; cases hd
      · exact h heq

end Declare

/-! ## Signatures after the other steps -/

theorem signature?_close (hw : w.Coherent) {u : CodeUnit} {e : Engine} (hu : w.current = some u)
    (he : u.link w.engines.length w.registry = .ok e) :
    (w.close u e).signature? symbol = w.signature? symbol := by
  refine signature?_congr hw (hw.step (.closed hu he)) ?_ ?_
  · exact fun d hd => ⟨d, (mem_declarations_close hw hu he).mpr hd, rfl, fun h => h⟩
  · exact fun d hd => ⟨d, (mem_declarations_close hw hu he).mp hd, rfl, fun h => h⟩

section Define

variable {u : CodeUnit} {r : Code.Routine Code.FuncRef}

/-- To define a symbol gives it a body, and changes no other symbol. -/
theorem signature?_define (hw : w.Coherent) (hu : w.current = some u)
    (hd : u.Declares r.symbol r.id r.arity)
    (hnew : ∀ d ∈ w.declarations r.symbol, d.hasBody = false)
    (hrefs : ∀ ref ∈ r.callees, u.Declares ref.symbol ref.id ref.arity) (s : String) :
    ({ w with current := some (u.define r) } : Workspace).signature? s =
      if s = r.symbol then some ⟨r.arity, true⟩ else w.signature? s := by
  have hw' := hw.step (.defined hu hd hnew hrefs)
  have hmem : ∀ v, v ∈ ({ w with current := some (u.define r) } : Workspace).units ↔
      v ∈ w.closed ∨ v = u.define r := by
    simp [units]
  split
  case isTrue h =>
    subst h
    obtain ⟨d, hd, hs, -, ha⟩ := hd
    have he : { d with hasBody := true } ∈
        ({ w with current := some (u.define r) } : Workspace).declarations r.symbol := by
      refine (mem_declarations hw').mpr ⟨u.define r, (hmem _).mpr (.inr rfl), ?_, hs⟩
      exact CodeUnit.mem_define.mpr ⟨d, hd, if_pos hs⟩
    exact (signature?_eq_some hw').mpr ⟨⟨_, he, ha⟩, fun _ => ⟨_, he, rfl⟩, fun _ => rfl⟩
  case isFalse h =>
    have hsame : ∀ e, e ∈ ({ w with current := some (u.define r) } : Workspace).declarations s ↔
        e ∈ w.declarations s := by
      intro e
      rw [mem_declarations hw', mem_declarations hw, units_of_some hu, units_of_some rfl]
      simp only [List.mem_append, List.mem_singleton]
      constructor
      · rintro ⟨v, hv | rfl, he, rfl⟩
        · exact ⟨v, .inl hv, he, rfl⟩
        · obtain ⟨d, hd, hde⟩ := CodeUnit.mem_define.mp he
          split at hde
          case isTrue hs => subst hde; exact absurd hs h
          case isFalse hs => subst hde; exact ⟨u, .inr rfl, hd, rfl⟩
      · rintro ⟨v, hv | rfl, he, rfl⟩
        · exact ⟨v, .inl hv, he, rfl⟩
        · exact ⟨_, .inr rfl, CodeUnit.mem_define.mpr ⟨e, he, if_neg h⟩, rfl⟩
    refine signature?_congr hw hw' ?_ ?_
    · exact fun d hd => ⟨d, (hsame d).mpr hd, rfl, fun h => h⟩
    · exact fun d hd => ⟨d, (hsame d).mp hd, rfl, fun h => h⟩

end Define

/-! ## Forwarding -/

/-- A symbol that only closed units declare is declared again in the open unit. -/
inductive Forward (w : Workspace) : Workspace → Prop where
  | mk {found : Declaration} (hopen : w.currentDeclaration? found.symbol = none)
      (hclosed : w.closedDeclaration? found.symbol = some found) :
      Forward w (w.declare found.name found.symbol found.arity .imported)

abbrev Forwards : Workspace → Workspace → Prop :=
  Relation.ReflTransGen Forward

/-- Nothing was added but declarations without a body. -/
structure Grown (w w' : Workspace) : Prop where
  steps : Steps w w'
  closed : w'.closed = w.closed
  engines : w'.engines = w.engines
  registry : w'.registry = w.registry
  supply : w'.supply = w.supply
  declares : ∀ symbol id arity, w.unit.Declares symbol id arity → w'.unit.Declares symbol id arity
  routines : w'.unit.routines = w.unit.routines

/-- Nothing was added that changes a signature. -/
structure Kept (w w' : Workspace) : Prop extends Grown w w' where
  signature? : ∀ symbol, w'.signature? symbol = w.signature? symbol

theorem Grown.refl (w : Workspace) : Grown w w :=
  ⟨.refl, rfl, rfl, rfl, rfl, fun _ _ _ h => h, rfl⟩

theorem Grown.trans {w₁ w₂ w₃ : Workspace} (h : Grown w₁ w₂) (h' : Grown w₂ w₃) :
    Grown w₁ w₃ where
  steps := h.steps.trans h'.steps
  closed := h'.closed.trans h.closed
  engines := h'.engines.trans h.engines
  registry := h'.registry.trans h.registry
  supply := h'.supply.trans h.supply
  declares symbol id arity hd := h'.declares symbol id arity (h.declares symbol id arity hd)
  routines := h'.routines.trans h.routines

theorem Kept.refl (w : Workspace) : Kept w w :=
  ⟨.refl w, fun _ => rfl⟩

theorem Kept.trans {w₁ w₂ w₃ : Workspace} (h : Kept w₁ w₂) (h' : Kept w₂ w₃) : Kept w₁ w₃ :=
  ⟨h.toGrown.trans h'.toGrown, fun s => (h'.signature? s).trans (h.signature? s)⟩

theorem grown_declare (hw : w.Coherent) {arity : Nat}
    (ha : ∀ d ∈ w.declarations symbol, d.arity = arity) (name : String) (linkage : Linkage) :
    Grown w (w.declare name symbol arity linkage) where
  steps := .single (.declared name linkage ha)
  closed := opened_closed
  engines := opened_engines
  registry := opened_registry
  supply := opened_supply
  declares _ _ _ hd := hd.declare (wellFormed_unit hw)
  routines := CodeUnit.routines_declare

theorem mem_of_closedDeclaration? {d : Declaration} (h : w.closedDeclaration? symbol = some d) :
    d ∈ w.declarations symbol := by
  obtain ⟨u, hu, hd⟩ := List.exists_of_findSome?_eq_some h
  exact List.mem_append_right _ (List.mem_filterMap.mpr ⟨u, hu, hd⟩)

/-- A symbol that has a signature keeps it when it is declared once more. -/
theorem kept_declare (hw : w.Coherent) {sig : Signature} (hs : w.signature? symbol = some sig)
    (name : String) (linkage : Linkage) : Kept w (w.declare name symbol sig.arity linkage) := by
  have ha : ∀ d ∈ w.declarations symbol, d.arity = sig.arity :=
    fun _ hd => arity_of_signature? hw hs hd
  refine ⟨grown_declare hw ha name linkage, fun s => ?_⟩
  rw [signature?_declare hw ha]
  split
  case isTrue h => rw [h, hs]; rfl
  case isFalse => rfl

theorem Forward.kept (hw : w.Coherent) (h : Forward w w') : Kept w w' := by
  cases h with
  | @mk found hopen hclosed =>
    have hmem := mem_of_closedDeclaration? hclosed
    obtain ⟨sig, hs⟩ := exists_signature? hmem
    rw [arity_of_signature? hw hs hmem]
    exact kept_declare hw hs found.name .imported

theorem Forwards.kept (hw : w.Coherent) (h : Forwards w w') : Kept w w' := by
  induction h with
  | refl => exact .refl w
  | tail _ h ih => exact ih.trans (h.kept (hw.steps ih.steps))

end Workspace

end Abacus
