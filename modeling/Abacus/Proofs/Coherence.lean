-- SUMMARY: What units and engines of a workspace agree on, and the steps that keep it so.
import Abacus.Build.Basic
import Abacus.Proofs.Units
import Mathlib.Logic.Relation

/-!
# Coherent workspaces

In a coherent workspace all declarations of a symbol have the same number of
parameters, and at most one unit has a body for it. In a linked workspace every
closed unit has an engine, which was linked against the engines before it.

No operation checks these facts as a whole. Each of them is a sequence of
`Workspace.Step`s, and a step keeps both.
-/

namespace Abacus.Workspace

variable {w w' : Workspace}

/-! ## Units -/

/-- All units, oldest first; the open unit comes last. -/
def units (w : Workspace) : List CodeUnit :=
  w.closed ++ w.current.toList

/-- The open unit, or the one that would be opened. -/
def unit (w : Workspace) : CodeUnit :=
  w.current.getD (.numbered w.nextUnit)

/-- The workspace with a unit open. -/
def opened (w : Workspace) : Workspace :=
  match w.current with
  | some _ => w
  | none => { w with current := some w.unit, nextUnit := w.nextUnit + 1 }

/-- The workspace with a symbol declared in its open unit. -/
def declare (w : Workspace) (name symbol : String) (arity : Nat) (linkage : Linkage) : Workspace :=
  { w.opened with current := some (w.unit.declare name symbol arity linkage).2 }

/-- The workspace with its open unit closed and linked. -/
def close (w : Workspace) (u : CodeUnit) (e : Engine) : Workspace :=
  { w with
    current  := none
    closed   := w.closed ++ [u]
    engines  := w.engines ++ [e]
    registry := w.registry.publish e.symbols }

@[simp] theorem opened_closed : w.opened.closed = w.closed := by
  unfold opened; split <;> rfl

@[simp] theorem opened_engines : w.opened.engines = w.engines := by
  unfold opened; split <;> rfl

@[simp] theorem opened_registry : w.opened.registry = w.registry := by
  unfold opened; split <;> rfl

@[simp] theorem opened_supply : w.opened.supply = w.supply := by
  unfold opened; split <;> rfl

@[simp] theorem opened_current : w.opened.current = some w.unit := by
  unfold opened unit
  split
  case h_1 u h => rw [h]; rfl
  case h_2 h => rfl

theorem opened_of_some {u : CodeUnit} (h : w.current = some u) : w.opened = w := by
  unfold opened; rw [h]

theorem unit_of_some {u : CodeUnit} (h : w.current = some u) : w.unit = u := by
  unfold unit; rw [h]; rfl

theorem units_of_some {u : CodeUnit} (h : w.current = some u) : w.units = w.closed ++ [u] := by
  unfold units; rw [h]; rfl

theorem units_of_none (h : w.current = none) : w.units = w.closed := by
  unfold units; rw [h]; exact List.append_nil _

@[simp] theorem units_declare {name symbol : String} {arity : Nat} {linkage : Linkage} :
    (w.declare name symbol arity linkage).units =
      w.closed ++ [(w.unit.declare name symbol arity linkage).2] := by
  simp [units, declare]

@[simp] theorem units_close {u : CodeUnit} {e : Engine} :
    (w.close u e).units = w.closed ++ [u] := by
  simp [units, close]

/-! ## Coherence -/

/-- What a list of units agrees on. -/
structure Agree (us : List CodeUnit) : Prop where
  wellFormed : ∀ u ∈ us, u.WellFormed
  arity_eq : ∀ u ∈ us, ∀ v ∈ us, ∀ d ∈ u.declarations, ∀ e ∈ v.declarations,
    d.symbol = e.symbol → d.arity = e.arity
  one_body : us.Pairwise fun u v => ∀ symbol, ¬ (u.defines symbol = true ∧ v.defines symbol = true)

/-- The units agree with each other. -/
def Coherent (w : Workspace) : Prop :=
  Agree w.units

/-- Every closed unit is linked against the engines before its own. -/
structure Linked (w : Workspace) : Prop where
  length_eq : w.engines.length = w.closed.length
  link_eq : ∀ (k : Nat) (u : CodeUnit) (e : Engine), w.closed[k]? = some u → w.engines[k]? = some e →
    u.link k ⟨(w.engines.take k).map (·.symbols)⟩ = .ok e
  published : w.registry.published = w.engines.map (·.symbols)

theorem mem_declarations (hw : w.Coherent) {symbol : String} {d : Declaration} :
    d ∈ w.declarations symbol ↔ ∃ u ∈ w.units, d ∈ u.declarations ∧ d.symbol = symbol := by
  have hfind : ∀ u ∈ w.units, u.find? symbol = some d ↔ d ∈ u.declarations ∧ d.symbol = symbol :=
    fun u hu => (hw.wellFormed u hu).find?_eq_some
  simp only [declarations, currentDeclaration?, List.mem_append, Option.mem_toList,
    Option.bind_eq_some_iff, List.mem_filterMap]
  constructor
  · rintro (⟨u, hu, hd⟩ | ⟨u, hu, hd⟩)
    · have hmem : u ∈ w.units := by simp [units, hu]
      exact ⟨u, hmem, (hfind u hmem).mp hd⟩
    · have hmem : u ∈ w.units := by simp [units, hu]
      exact ⟨u, hmem, (hfind u hmem).mp hd⟩
  · rintro ⟨u, hu, hd⟩
    have hd := (hfind u hu).mpr hd
    simp only [units, List.mem_append, Option.mem_toList] at hu
    rcases hu with hu | hu
    · exact .inr ⟨u, hu, hd⟩
    · exact .inl ⟨u, hu, hd⟩

theorem Coherent.arity_eq_of_mem (hw : w.Coherent) {symbol : String} {d e : Declaration}
    (hd : d ∈ w.declarations symbol) (he : e ∈ w.declarations symbol) : d.arity = e.arity := by
  obtain ⟨u, hu, hd, hds⟩ := (mem_declarations hw).mp hd
  obtain ⟨v, hv, he, hes⟩ := (mem_declarations hw).mp he
  exact hw.arity_eq u hu v hv d hd e he (hds.trans hes.symm)

/-! ## Changing the newest unit -/

namespace Agree

variable {us : List CodeUnit} {u u' : CodeUnit}

theorem of_append (h : Agree (us ++ [u])) : Agree us where
  wellFormed v hv := h.wellFormed v (List.mem_append_left _ hv)
  arity_eq v hv x hx := h.arity_eq v (List.mem_append_left _ hv) x (List.mem_append_left _ hx)
  one_body := (List.pairwise_append.mp h.one_body).1

/-- A unit may join if it is well-formed, has its numbers of parameters from the
    others, and none of their bodies. -/
theorem append (h : Agree us) (hu : u.WellFormed)
    (ha : ∀ e ∈ u.declarations, ∀ v ∈ us, ∀ d ∈ v.declarations,
      d.symbol = e.symbol → d.arity = e.arity)
    (hb : ∀ symbol, u.defines symbol = true → ∀ v ∈ us, v.defines symbol = false) :
    Agree (us ++ [u]) where
  wellFormed v hv := by
    rcases List.mem_append.mp hv with hv | hv
    · exact h.wellFormed v hv
    · exact List.mem_singleton.mp hv ▸ hu
  arity_eq v hv x hx d hd e he hde := by
    simp only [List.mem_append, List.mem_singleton] at hv hx
    rcases hv with hv | rfl <;> rcases hx with hx | rfl
    · exact h.arity_eq v hv x hx d hd e he hde
    · exact ha e he v hv d hd hde
    · exact (ha d hd x hx e he hde.symm).symm
    · rw [hu.eq_of_symbol_eq hd he hde]
  one_body := by
    refine List.pairwise_append.mpr ⟨h.one_body, List.pairwise_singleton _ _, ?_⟩
    rintro v hv x hx symbol ⟨hvs, hxs⟩
    obtain rfl := List.mem_singleton.mp hx
    rw [hb symbol hxs v hv] at hvs
    cases hvs

theorem append_numbered (h : Agree us) (n : Nat) : Agree (us ++ [.numbered n]) := by
  refine h.append (CodeUnit.wellFormed_numbered n) ?_ ?_
  · simp [CodeUnit.numbered]
  · simp [CodeUnit.numbered, CodeUnit.defines]

/-- The newest unit may declare a symbol with the number of parameters it has in
    all units. -/
theorem declare (h : Agree (us ++ [u])) {name symbol : String} {arity : Nat} {linkage : Linkage}
    (ha : ∀ v ∈ us ++ [u], ∀ d ∈ v.declarations, d.symbol = symbol → d.arity = arity) :
    Agree (us ++ [(u.declare name symbol arity linkage).2]) := by
  have hu : u.WellFormed := h.wellFormed u (by simp)
  refine h.of_append.append hu.declare ?_ ?_
  · intro e he v hv d hd hde
    rcases CodeUnit.alike_of_mem_declare hu he with ⟨d', hd', hd'e⟩ | ⟨-, rfl⟩
    · rw [← hd'e.arity]
      exact h.arity_eq v (List.mem_append_left _ hv) u (by simp) d hd d' hd'
        (hde.trans hd'e.symbol.symm)
    · exact ha v (List.mem_append_left _ hv) d hd hde
  · intro s hs v hv
    rw [CodeUnit.defines_declare hu] at hs
    have hvu := (List.pairwise_append.mp h.one_body).2.2 v hv u (by simp) s
    simpa [hs] using hvu

/-- The newest unit may define a symbol that it declares and no unit defines. -/
theorem define (h : Agree (us ++ [u])) {r : Code.Routine Code.FuncRef}
    (hd : u.Declares r.symbol r.id r.arity)
    (hnew : ∀ v ∈ us ++ [u], v.defines r.symbol = false)
    (hrefs : ∀ ref ∈ r.callees, u.Declares ref.symbol ref.id ref.arity) :
    Agree (us ++ [u.define r]) := by
  have hu : u.WellFormed := h.wellFormed u (by simp)
  refine h.of_append.append (hu.define hd (hnew u (by simp)) hrefs) ?_ ?_
  · intro e he v hv d hd hde
    obtain ⟨d', hd', rfl⟩ := CodeUnit.mem_define.mp he
    obtain ⟨hs, -, ha⟩ := CodeUnit.keeps_hasBody.ite r.symbol d'
    exact (h.arity_eq v (List.mem_append_left _ hv) u (by simp) d hd d' hd' (hde.trans hs)).trans
      ha.symm
  · intro s hs v hv
    rcases CodeUnit.defines_define.mp hs with hs | ⟨rfl, -⟩
    · have hvu := (List.pairwise_append.mp h.one_body).2.2 v hv u (by simp) s
      simpa [hs] using hvu
    · exact hnew v (List.mem_append_left _ hv)

/-- A symbol has a body in at most one place. -/
theorem index_eq (h : Agree us) {symbol : String} {i j : Nat} (hi : us[i]? = some u)
    (hj : us[j]? = some u') (hu : u.defines symbol = true) (hu' : u'.defines symbol = true) :
    i = j := by
  obtain ⟨hilt, rfl⟩ := List.getElem?_eq_some_iff.mp hi
  obtain ⟨hjlt, rfl⟩ := List.getElem?_eq_some_iff.mp hj
  have hpair := List.pairwise_iff_getElem.mp h.one_body
  rcases Nat.lt_trichotomy i j with hij | hij | hij
  · exact absurd ⟨hu, hu'⟩ (hpair i j hilt hjlt hij symbol)
  · exact hij
  · exact absurd ⟨hu', hu⟩ (hpair j i hjlt hilt hij symbol)

end Agree

/-! ## Steps -/

/-- The changes that building makes, each with what was checked before. -/
inductive Step (w : Workspace) : Workspace → Prop where
  | supplied (supply : Symbol.Supply) : Step w { w with supply }
  | opened : Step w w.opened
  | declared (name : String) {symbol : String} {arity : Nat} (linkage : Linkage)
      (ha : ∀ d ∈ w.declarations symbol, d.arity = arity) :
      Step w (w.declare name symbol arity linkage)
  | defined {u : CodeUnit} {r : Code.Routine Code.FuncRef} (hu : w.current = some u)
      (hd : u.Declares r.symbol r.id r.arity)
      (hnew : ∀ d ∈ w.declarations r.symbol, d.hasBody = false)
      (hrefs : ∀ ref ∈ r.callees, u.Declares ref.symbol ref.id ref.arity) :
      Step w { w with current := some (u.define r) }
  | closed {u : CodeUnit} {e : Engine} (hu : w.current = some u)
      (he : u.link w.engines.length w.registry = .ok e) :
      Step w (w.close u e)

/-- Any number of steps. -/
abbrev Steps : Workspace → Workspace → Prop :=
  Relation.ReflTransGen Step

theorem Coherent.opened (hw : w.Coherent) : w.opened.Coherent := by
  cases h : w.current with
  | some u => rw [opened_of_some h]; exact hw
  | none =>
    unfold Coherent units
    rw [opened_current, opened_closed]
    have hunit : w.unit = .numbered w.nextUnit := by unfold unit; rw [h]; rfl
    rw [Coherent, units_of_none h] at hw
    rw [hunit]
    exact hw.append_numbered _

theorem units_opened : w.opened.units = w.closed ++ [w.unit] := by
  simp [units]

/-- An open unit without declarations adds none. -/
theorem mem_declarations_of_opened (hw : w.Coherent) {u : CodeUnit} {d : Declaration}
    (hu : u ∈ w.opened.units) (hd : d ∈ u.declarations) : d ∈ w.declarations d.symbol := by
  refine (mem_declarations hw).mpr ⟨u, ?_, hd, rfl⟩
  cases h : w.current with
  | some v => rwa [opened_of_some h] at hu
  | none =>
    rw [units_opened] at hu
    rcases List.mem_append.mp hu with hu | hu
    · rwa [units_of_none h]
    · obtain rfl := List.mem_singleton.mp hu
      simp [unit, h, CodeUnit.numbered] at hd

theorem Coherent.step (hw : w.Coherent) (h : Step w w') : w'.Coherent := by
  cases h with
  | supplied supply => exact hw
  | opened => exact hw.opened
  | declared name linkage ha =>
    have ho := hw.opened
    unfold Coherent at ho ⊢
    rw [units_opened] at ho
    rw [units_declare]
    refine ho.declare fun v hv d hd hs => ?_
    rw [← units_opened] at hv
    exact ha d (hs ▸ mem_declarations_of_opened hw hv hd)
  | @defined u r hu hd hnew hrefs =>
    unfold Coherent at hw ⊢
    rw [units_of_some hu] at hw
    rw [units_of_some rfl]
    refine hw.define hd (fun v hv => ?_) hrefs
    rw [Bool.eq_false_iff]
    intro hdef
    obtain ⟨d, hd, hs, hbody⟩ := CodeUnit.defines_iff.mp hdef
    rw [← units_of_some hu] at hv hw
    have hfalse := hnew d ((mem_declarations hw).mpr ⟨v, hv, hd, hs⟩)
    rw [hfalse] at hbody
    cases hbody
  | closed hu he =>
    unfold Coherent at hw ⊢
    rw [units_close, ← units_of_some hu]
    exact hw

theorem Linked.congr (hw : w.Linked) (hc : w'.closed = w.closed) (he : w'.engines = w.engines)
    (hr : w'.registry = w.registry) : w'.Linked where
  length_eq := by rw [hc, he]; exact hw.length_eq
  link_eq := by rw [hc, he]; exact hw.link_eq
  published := by rw [hr, he]; exact hw.published

theorem Linked.close (hw : w.Linked) {u : CodeUnit} {e : Engine}
    (he : u.link w.engines.length w.registry = .ok e) : (w.close u e).Linked where
  length_eq := by simp [Workspace.close, hw.length_eq]
  link_eq := by
    intro k v f hv hf
    simp only [Workspace.close] at hv hf ⊢
    by_cases hk : k < w.engines.length
    · rw [List.getElem?_append_left (hw.length_eq ▸ hk)] at hv
      rw [List.getElem?_append_left hk] at hf
      rw [List.take_append_of_le_length (Nat.le_of_lt hk)]
      exact hw.link_eq k v f hv hf
    · obtain ⟨hlt, hf⟩ := List.getElem?_eq_some_iff.mp hf
      have hk : k = w.engines.length := by
        simp only [List.length_append, List.length_singleton] at hlt
        omega
      subst hk
      rw [List.getElem?_append_right (Nat.le_of_eq hw.length_eq.symm), hw.length_eq, Nat.sub_self] at hv
      simp only [List.getElem?_cons_zero, Option.some.injEq] at hv
      simp only [List.getElem_append_right (Nat.le_refl _), Nat.sub_self,
        List.getElem_cons_zero] at hf
      subst hv hf
      rw [List.take_left, ← hw.published]
      exact he
  published := by
    simp [Workspace.close, Registry.publish, hw.published]

theorem Linked.step (hw : w.Linked) (h : Step w w') : w'.Linked := by
  cases h with
  | supplied supply => exact hw.congr rfl rfl rfl
  | opened => exact hw.congr opened_closed opened_engines opened_registry
  | declared name linkage ha => exact hw.congr opened_closed opened_engines opened_registry
  | defined hu hd hnew hrefs => exact hw.congr rfl rfl rfl
  | closed hu he => exact hw.close he

theorem Coherent.steps (hw : w.Coherent) (h : Steps w w') : w'.Coherent := by
  induction h with
  | refl => exact hw
  | tail _ h ih => exact ih.step h

theorem Linked.steps (hw : w.Linked) (h : Steps w w') : w'.Linked := by
  induction h with
  | refl => exact hw
  | tail _ h ih => exact ih.step h

/-- A workspace starts without units. -/
theorem coherent_start (config : Config) : Coherent { config } where
  wellFormed := by simp [units]
  arity_eq := by simp [units]
  one_body := .nil

theorem linked_start (config : Config) : Linked { config } where
  length_eq := rfl
  link_eq := by simp
  published := rfl

end Abacus.Workspace
