-- SUMMARY: Units that building can produce, and what declaring and defining does to them.
import Abacus.CodeUnit
import Mathlib.Data.List.Nodup

/-!
# Well-formed units

A unit declares a symbol at most once and numbers its declarations in order. Its
routines are those of the declarations that have a body, and what they call is
declared. Declaring a symbol keeps all of this; so does adding the routine of a
declared symbol that has no body yet.
-/

namespace Abacus

/-- Two declarations that differ in nothing but name and linkage. -/
structure Declaration.Alike (d e : Declaration) : Prop where
  symbol  : d.symbol = e.symbol
  id      : d.id = e.id
  arity   : d.arity = e.arity
  hasBody : d.hasBody = e.hasBody

namespace CodeUnit

/-- The unit declares what a reference refers to. -/
def Declares (u : CodeUnit) (symbol : String) (id arity : Nat) : Prop :=
  ∃ d ∈ u.declarations, d.symbol = symbol ∧ d.id = id ∧ d.arity = arity

/-- A symbol is declared at most once, and declarations are numbered in order. -/
structure Tabulated (u : CodeUnit) : Prop where
  symbols_nodup : (u.declarations.map (·.symbol)).Nodup
  id_eq : ∀ (i : Nat) (d : Declaration), u.declarations[i]? = some d → d.id = i

structure WellFormed (u : CodeUnit) : Prop where
  symbols_nodup : (u.declarations.map (·.symbol)).Nodup
  id_eq : ∀ (i : Nat) (d : Declaration), u.declarations[i]? = some d → d.id = i
  routines_nodup : (u.routines.map (·.symbol)).Nodup
  declaration_of_routine : ∀ r ∈ u.routines, ∃ d ∈ u.declarations,
    d.hasBody = true ∧ d.symbol = r.symbol ∧ d.id = r.id ∧ d.arity = r.arity
  routine_of_declaration : ∀ d ∈ u.declarations, d.hasBody = true →
    ∃ r ∈ u.routines, r.symbol = d.symbol
  callee_declared : ∀ r ∈ u.routines, ∀ ref ∈ r.callees,
    u.Declares ref.symbol ref.id ref.arity

variable {u : CodeUnit}

/-! ## Looking up -/

theorem mem_of_find? {symbol : String} {d : Declaration} (h : u.find? symbol = some d) :
    d ∈ u.declarations :=
  List.mem_of_find?_eq_some h

theorem symbol_of_find? {symbol : String} {d : Declaration} (h : u.find? symbol = some d) :
    d.symbol = symbol := by
  simpa using List.find?_some h

theorem find?_eq_none {symbol : String} :
    u.find? symbol = none ↔ ∀ d ∈ u.declarations, d.symbol ≠ symbol := by
  simp [find?]

theorem defines_iff {symbol : String} :
    u.defines symbol = true ↔ ∃ d ∈ u.declarations, d.symbol = symbol ∧ d.hasBody = true := by
  simp [defines]

namespace Tabulated

theorem eq_of_symbol_eq (hu : u.Tabulated) {d e : Declaration} (hd : d ∈ u.declarations)
    (he : e ∈ u.declarations) (h : d.symbol = e.symbol) : d = e :=
  List.inj_on_of_nodup_map hu.symbols_nodup hd he h

theorem find?_eq_some (hu : u.Tabulated) {symbol : String} {d : Declaration} :
    u.find? symbol = some d ↔ d ∈ u.declarations ∧ d.symbol = symbol := by
  constructor
  · exact fun h => ⟨mem_of_find? h, symbol_of_find? h⟩
  · rintro ⟨hd, rfl⟩
    cases h : u.find? d.symbol with
    | none => exact absurd rfl (find?_eq_none.mp h d hd)
    | some e => rw [hu.eq_of_symbol_eq (mem_of_find? h) hd (symbol_of_find? h)]

end Tabulated

namespace WellFormed

theorem tabulated (hu : u.WellFormed) : u.Tabulated :=
  ⟨hu.symbols_nodup, hu.id_eq⟩

theorem eq_of_symbol_eq (hu : u.WellFormed) {d e : Declaration} (hd : d ∈ u.declarations)
    (he : e ∈ u.declarations) (h : d.symbol = e.symbol) : d = e :=
  hu.tabulated.eq_of_symbol_eq hd he h

theorem find?_eq_some (hu : u.WellFormed) {symbol : String} {d : Declaration} :
    u.find? symbol = some d ↔ d ∈ u.declarations ∧ d.symbol = symbol :=
  hu.tabulated.find?_eq_some

/-- Declarations are told apart by their numbers as well. -/
theorem eq_of_id_eq (hu : u.WellFormed) {d e : Declaration} (hd : d ∈ u.declarations)
    (he : e ∈ u.declarations) (h : d.id = e.id) : d = e := by
  obtain ⟨i, hi⟩ := List.getElem?_of_mem hd
  obtain ⟨j, hj⟩ := List.getElem?_of_mem he
  have hij : i = j := by rw [← hu.id_eq i d hi, ← hu.id_eq j e hj, h]
  rw [hij, hj] at hi
  exact (Option.some.inj hi).symm

end WellFormed

/-! ## Updating -/

/-- A change of declarations that callers do not notice. -/
def Keeps (f : Declaration → Declaration) : Prop :=
  ∀ d, (f d).symbol = d.symbol ∧ (f d).id = d.id ∧ (f d).arity = d.arity

theorem mem_update {symbol : String} {f : Declaration → Declaration} {e : Declaration} :
    e ∈ (u.update symbol f).declarations ↔
      ∃ d ∈ u.declarations, (if d.symbol = symbol then f d else d) = e := by
  simp [update]

section Keeps

variable {symbol : String} {f : Declaration → Declaration}

theorem Keeps.ite (hf : Keeps f) (symbol : String) :
    Keeps fun d => if d.symbol = symbol then f d else d := by
  intro d
  dsimp only
  split
  · exact hf d
  · exact ⟨rfl, rfl, rfl⟩

theorem symbols_update (hf : Keeps f) :
    (u.update symbol f).declarations.map (·.symbol) = u.declarations.map (·.symbol) := by
  simp only [update, List.map_map]
  refine List.map_congr_left fun d _ => ?_
  simpa using (hf.ite symbol d).1

theorem declares_update (hf : Keeps f) {s : String} {id arity : Nat} :
    (u.update symbol f).Declares s id arity ↔ u.Declares s id arity := by
  unfold Declares
  constructor
  · rintro ⟨e, he, rfl, rfl, rfl⟩
    obtain ⟨d, hd, rfl⟩ := mem_update.mp he
    obtain ⟨h₁, h₂, h₃⟩ := hf.ite symbol d
    exact ⟨d, hd, h₁.symm, h₂.symm, h₃.symm⟩
  · rintro ⟨d, hd, rfl, rfl, rfl⟩
    exact ⟨_, mem_update.mpr ⟨d, hd, rfl⟩, hf.ite symbol d⟩

theorem Tabulated.update (hu : u.Tabulated) (hf : Keeps f) : (u.update symbol f).Tabulated where
  symbols_nodup := by
    rw [symbols_update hf]
    exact hu.symbols_nodup
  id_eq i e he := by
    simp only [CodeUnit.update, List.getElem?_map, Option.map_eq_some_iff] at he
    obtain ⟨d, hd, rfl⟩ := he
    rw [← hu.id_eq i d hd]
    simpa using (hf.ite symbol d).2.1

end Keeps

/-! ## Declaring -/

section Declare

variable {name symbol : String} {arity : Nat} {linkage : Linkage}

/-- The declaration that is added for a new symbol. -/
def fresh (u : CodeUnit) (name symbol : String) (arity : Nat) (linkage : Linkage) : Declaration :=
  { name, symbol, arity, id := u.declarations.length, linkage }

theorem declare_of_none (h : u.find? symbol = none) :
    u.declare name symbol arity linkage =
      (.ok (u.fresh name symbol arity linkage),
        { u with declarations := u.declarations ++ [u.fresh name symbol arity linkage] }) := by
  unfold declare
  rw [h]
  rfl

/-- Exports the declaration of a symbol, or leaves it as it is. -/
def relink (u : CodeUnit) (symbol : String) (linkage : Linkage) : CodeUnit :=
  u.update symbol fun d => { d with linkage := d.linkage.merge linkage }

theorem keeps_relink : Keeps fun d => { d with linkage := d.linkage.merge linkage } :=
  fun _ => ⟨rfl, rfl, rfl⟩

theorem declare_of_some (hu : u.Tabulated) {d : Declaration} (h : u.find? symbol = some d) :
    (u.declare name symbol arity linkage).2 = u.relink symbol linkage := by
  unfold declare relink update
  rw [h]
  have hmap : (u.declarations.map fun e =>
        if e.symbol == symbol then { d with linkage := d.linkage.merge linkage } else e) =
      u.declarations.map fun e =>
        if e.symbol == symbol then { e with linkage := e.linkage.merge linkage } else e := by
    refine List.map_congr_left fun e he => ?_
    by_cases hes : e.symbol = symbol
    · rw [hu.eq_of_symbol_eq he (mem_of_find? h) (hes.trans (symbol_of_find? h).symm)]
    · simp [hes]
  dsimp only
  split <;> simp only [hmap]

@[simp] theorem routines_declare :
    (u.declare name symbol arity linkage).2.routines = u.routines := by
  unfold declare
  cases u.find? symbol with
  | none => rfl
  | some d => dsimp only; split <;> rfl

/-- What is declared afterwards was declared before, or is the new symbol. -/
theorem alike_of_mem_declare (hu : u.WellFormed) {e : Declaration}
    (he : e ∈ (u.declare name symbol arity linkage).2.declarations) :
    (∃ d ∈ u.declarations, d.Alike e) ∨
      (u.find? symbol = none ∧ e = u.fresh name symbol arity linkage) := by
  cases h : u.find? symbol with
  | none =>
    rw [declare_of_none h] at he
    rcases List.mem_append.mp he with hd | hd
    · exact .inl ⟨e, hd, rfl, rfl, rfl, rfl⟩
    · exact .inr ⟨rfl, List.mem_singleton.mp hd⟩
  | some d =>
    rw [declare_of_some hu.tabulated h] at he
    obtain ⟨d, hd, rfl⟩ := mem_update.mp he
    refine .inl ⟨d, hd, ?_⟩
    split <;> exact ⟨rfl, rfl, rfl, rfl⟩

/-- Declaring loses no declaration. -/
theorem mem_declare_of_mem (hu : u.WellFormed) (name symbol : String) (arity : Nat)
    (linkage : Linkage) {d : Declaration} (hd : d ∈ u.declarations) :
    ∃ e ∈ (u.declare name symbol arity linkage).2.declarations, d.Alike e := by
  cases h : u.find? symbol with
  | none =>
    rw [declare_of_none h]
    exact ⟨d, List.mem_append_left _ hd, rfl, rfl, rfl, rfl⟩
  | some d' =>
    rw [declare_of_some hu.tabulated h]
    refine ⟨_, mem_update.mpr ⟨d, hd, rfl⟩, ?_⟩
    split <;> exact ⟨rfl, rfl, rfl, rfl⟩

theorem Declares.declare (hu : u.WellFormed) {s : String} {id n : Nat} (h : u.Declares s id n) :
    (u.declare name symbol arity linkage).2.Declares s id n := by
  obtain ⟨d, hd, rfl, rfl, rfl⟩ := h
  obtain ⟨e, he, hde⟩ := mem_declare_of_mem hu name symbol arity linkage hd
  exact ⟨e, he, hde.symbol.symm, hde.id.symm, hde.arity.symm⟩

theorem Tabulated.declare (hu : u.Tabulated) :
    (u.declare name symbol arity linkage).2.Tabulated := by
  cases h : u.find? symbol with
  | some d =>
    rw [declare_of_some hu h]
    exact hu.update keeps_relink
  | none =>
    rw [declare_of_none h]
    constructor
    · simp only [List.map_append, List.map_cons, List.map_nil]
      refine List.Nodup.append hu.symbols_nodup (List.nodup_singleton _) ?_
      intro s hs hs'
      obtain ⟨d, hd, rfl⟩ := List.mem_map.mp hs
      exact find?_eq_none.mp h d hd (List.mem_singleton.mp hs')
    · intro i e he
      rw [List.getElem?_append] at he
      split at he
      · exact hu.id_eq i e he
      · obtain ⟨hi, rfl⟩ := List.getElem?_eq_some_iff.mp he
        simp only [List.length_cons, List.length_nil] at hi
        simp only [fresh, List.getElem_singleton]
        omega

theorem WellFormed.declare (hu : u.WellFormed) :
    (u.declare name symbol arity linkage).2.WellFormed where
  symbols_nodup := hu.tabulated.declare.symbols_nodup
  id_eq := hu.tabulated.declare.id_eq
  routines_nodup := by rw [routines_declare]; exact hu.routines_nodup
  declaration_of_routine := by
    intro r hr
    rw [routines_declare] at hr
    obtain ⟨d, hd, hbody, hs, hid, ha⟩ := hu.declaration_of_routine r hr
    obtain ⟨e, he, hde⟩ := mem_declare_of_mem hu name symbol arity linkage hd
    exact ⟨e, he, hde.hasBody ▸ hbody, hde.symbol ▸ hs, hde.id ▸ hid, hde.arity ▸ ha⟩
  routine_of_declaration := by
    intro e he hbody
    rw [routines_declare]
    rcases alike_of_mem_declare hu he with ⟨d, hd, hde⟩ | ⟨_, rfl⟩
    · obtain ⟨r, hr, hs⟩ := hu.routine_of_declaration d hd (hde.hasBody.trans hbody)
      exact ⟨r, hr, hs.trans hde.symbol⟩
    · cases hbody
  callee_declared := by
    intro r hr ref href
    rw [routines_declare] at hr
    exact (hu.callee_declared r hr ref href).declare hu

theorem defines_declare (hu : u.WellFormed) {s : String} :
    (u.declare name symbol arity linkage).2.defines s = true ↔ u.defines s = true := by
  rw [defines_iff, defines_iff]
  constructor
  · rintro ⟨e, he, rfl, hbody⟩
    rcases alike_of_mem_declare hu he with ⟨d, hd, hde⟩ | ⟨_, rfl⟩
    · exact ⟨d, hd, hde.symbol, hde.hasBody.trans hbody⟩
    · cases hbody
  · rintro ⟨d, hd, rfl, hbody⟩
    obtain ⟨e, he, hde⟩ := mem_declare_of_mem hu name symbol arity linkage hd
    exact ⟨e, he, hde.symbol.symm, hde.hasBody ▸ hbody⟩

/-- With the number of parameters it is declared with, a symbol is declared. -/
theorem declare_ok (hu : u.WellFormed) (name : String) (linkage : Linkage)
    (ha : ∀ d ∈ u.declarations, d.symbol = symbol → d.arity = arity) :
    ∃ d, (u.declare name symbol arity linkage).1 = .ok d ∧
      d ∈ (u.declare name symbol arity linkage).2.declarations ∧
      d.symbol = symbol ∧ d.arity = arity := by
  cases h : u.find? symbol with
  | none =>
    rw [declare_of_none h]
    exact ⟨_, rfl, List.mem_append_right _ (List.mem_singleton_self _), rfl, rfl⟩
  | some d =>
    have hs := symbol_of_find? h
    have hd := ha d (mem_of_find? h) hs
    refine ⟨{ d with linkage := d.linkage.merge linkage }, ?_, ?_, hs, hd⟩
    · unfold CodeUnit.declare
      rw [h]
      simp only [hd, if_true]
    · rw [declare_of_some hu.tabulated h]
      refine mem_update.mpr ⟨d, mem_of_find? h, ?_⟩
      rw [if_pos hs]

end Declare

/-! ## Defining -/

section Define

variable {r : Code.Routine Code.FuncRef}

theorem keeps_hasBody : Keeps fun d => { d with hasBody := true } :=
  fun _ => ⟨rfl, rfl, rfl⟩

@[simp] theorem routines_define : (u.define r).routines = u.routines ++ [r] := rfl

theorem mem_define {e : Declaration} :
    e ∈ (u.define r).declarations ↔
      ∃ d ∈ u.declarations, (if d.symbol = r.symbol then { d with hasBody := true } else d) = e :=
  mem_update

theorem declares_define {s : String} {id arity : Nat} :
    (u.define r).Declares s id arity ↔ u.Declares s id arity :=
  declares_update keeps_hasBody

/-- What has a body afterwards is the new routine or had one before. -/
theorem defines_define {s : String} :
    (u.define r).defines s = true ↔
      u.defines s = true ∨ (s = r.symbol ∧ ∃ d ∈ u.declarations, d.symbol = s) := by
  simp only [defines_iff, mem_define]
  constructor
  · rintro ⟨e, ⟨d, hd, rfl⟩, hs, hbody⟩
    split at hs
    case isTrue h => exact .inr ⟨hs ▸ h, d, hd, hs⟩
    case isFalse h =>
      rw [if_neg h] at hbody
      exact .inl ⟨d, hd, hs, hbody⟩
  · rintro (⟨d, hd, rfl, hbody⟩ | ⟨rfl, d, hd, hs⟩)
    · refine ⟨_, ⟨d, hd, rfl⟩, ?_⟩
      split
      · exact ⟨rfl, rfl⟩
      · exact ⟨rfl, hbody⟩
    · exact ⟨_, ⟨d, hd, rfl⟩, by rw [if_pos hs]; exact ⟨hs, rfl⟩⟩

theorem Tabulated.define (hu : u.Tabulated) : (u.define r).Tabulated := by
  obtain ⟨hnodup, hid⟩ := @Tabulated.update _ r.symbol _ hu keeps_hasBody
  exact ⟨hnodup, hid⟩

/-- A routine may be added for a declared symbol without a body. -/
theorem WellFormed.define (hu : u.WellFormed) (hd : u.Declares r.symbol r.id r.arity)
    (hnew : u.defines r.symbol = false)
    (hrefs : ∀ ref ∈ r.callees, u.Declares ref.symbol ref.id ref.arity) :
    (u.define r).WellFormed where
  symbols_nodup := hu.tabulated.define.symbols_nodup
  id_eq := hu.tabulated.define.id_eq
  routines_nodup := by
    rw [routines_define, List.map_append]
    refine List.Nodup.append hu.routines_nodup (List.nodup_singleton _) ?_
    intro s hs hs'
    obtain ⟨q, hq, rfl⟩ := List.mem_map.mp hs
    obtain ⟨d, hd, hbody, hds, -⟩ := hu.declaration_of_routine q hq
    have hdef : u.defines r.symbol = true :=
      defines_iff.mpr ⟨d, hd, hds.trans (List.mem_singleton.mp hs'), hbody⟩
    rw [hnew] at hdef
    cases hdef
  declaration_of_routine := by
    intro q hq
    rw [routines_define] at hq
    rcases List.mem_append.mp hq with hq | hq
    · obtain ⟨d, hd, hbody, hs, hid, ha⟩ := hu.declaration_of_routine q hq
      refine ⟨_, mem_define.mpr ⟨d, hd, rfl⟩, ?_⟩
      split
      · exact ⟨rfl, hs, hid, ha⟩
      · exact ⟨hbody, hs, hid, ha⟩
    · obtain rfl := List.mem_singleton.mp hq
      obtain ⟨d, hd, hs, hid, ha⟩ := hd
      refine ⟨_, mem_define.mpr ⟨d, hd, rfl⟩, ?_⟩
      rw [if_pos hs]
      exact ⟨rfl, hs, hid, ha⟩
  routine_of_declaration := by
    intro e he hbody
    obtain ⟨d, hd, rfl⟩ := mem_define.mp he
    rw [routines_define]
    by_cases h : d.symbol = r.symbol
    · rw [if_pos h]
      exact ⟨r, List.mem_append_right _ (List.mem_singleton_self _), h.symm⟩
    · rw [if_neg h] at hbody ⊢
      obtain ⟨q, hq, hs⟩ := hu.routine_of_declaration d hd hbody
      exact ⟨q, List.mem_append_left _ hq, hs⟩
  callee_declared := by
    intro q hq ref href
    rw [declares_define]
    rw [routines_define] at hq
    rcases List.mem_append.mp hq with hq | hq
    · exact hu.callee_declared q hq ref href
    · obtain rfl := List.mem_singleton.mp hq
      exact hrefs ref href

end Define

/-- A unit starts well-formed. -/
theorem wellFormed_numbered (n : Nat) : (numbered n).WellFormed where
  symbols_nodup := List.nodup_nil
  id_eq := by simp [numbered]
  routines_nodup := List.nodup_nil
  declaration_of_routine := by simp [numbered]
  routine_of_declaration := by simp [numbered]
  callee_declared := by simp [numbered]

end CodeUnit

end Abacus
