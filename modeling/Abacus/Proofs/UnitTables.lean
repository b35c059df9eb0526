-- SUMMARY: A unit in parallel tables: entries by symbol, symbols in order, functions of its module.
import Abacus.Proofs.Resolving
import Mathlib.Data.List.AList

/-!
# Tables of a unit

A unit that is being built is kept in parallel tables. Its entries are found by symbol,
its symbols are listed in the order they were declared in, and its module has a table of
its own: functions by number, and numbers by symbol. Declaring a symbol goes through all
of them, one after the other, and may stop in between.

`CodeUnit` keeps one list instead. The tables represent such a list, and declaring a
symbol or adding code keeps it so: an entry with the linkage that the module has for it
is a declaration, and the place of a symbol is its number.
-/

namespace Abacus

/-! ## Modules -/

/-- What a module knows of a function. -/
structure CodeModule.Slot where
  symbol  : String
  arity   : Nat
  linkage : Linkage
deriving DecidableEq, Repr

/-- The part of a unit that code is compiled into. -/
structure CodeModule where
  /-- The number of each symbol. -/
  numbers : AList (fun _ : String => Nat) := ∅
  /-- Functions by number. -/
  slots   : List CodeModule.Slot := []
  /-- The code of functions, in the order it was given in. -/
  bodies  : List (Code.Routine Code.FuncRef) := []

/-- What may refuse code: the check of a routine, and its translation. Each says why. -/
structure Backend where
  verify  : Code.Routine Code.FuncRef → Option String
  compile : Code.Routine Code.FuncRef → Option String

namespace CodeModule

/-- The function with a number. -/
def slot (m : CodeModule) (n : Nat) : Slot :=
  m.slots.getD n { symbol := "", arity := 0, linkage := .imported }

/-- Whether a function has code. -/
def hasBody (m : CodeModule) (n : Nat) : Bool :=
  m.bodies.any (·.id == n)

/-- Numbers a symbol. One that is known keeps its number and gets the wider linkage, also
    where the number of parameters is found to be another. -/
def declare (m : CodeModule) (symbol : String) (arity : Nat) (linkage : Linkage) :
    Except CompileError Nat × CodeModule :=
  match m.numbers.lookup symbol with
  | some n =>
    let slots := m.slots.modify n fun f => { f with linkage := f.linkage.merge linkage }
    if (m.slot n).arity = arity then (.ok n, { m with slots })
    else (.error (.backend ("incompatible declaration of '" ++ symbol ++ "'")), { m with slots })
  | none =>
    let n := m.slots.length
    (.ok n, { m with
      numbers := m.numbers.insert symbol n
      slots   := m.slots ++ [{ symbol, arity, linkage }] })

/-- Adds code to a function that is not imported and has none. -/
def define (backend : Backend) (m : CodeModule) (r : Code.Routine Code.FuncRef) :
    Except CompileError CodeModule :=
  if (m.slot r.id).linkage.isDefinable = false then
    .error (.backend ("definition of the import '" ++ (m.slot r.id).symbol ++ "'"))
  else if m.hasBody r.id then
    .error (.backend ("second definition of '" ++ (m.slot r.id).symbol ++ "'"))
  else
    match backend.compile r with
    | some message => .error (.backend message)
    | none => .ok { m with bodies := m.bodies ++ [r] }

/-- What code sees of the function with a number. -/
def view (m : CodeModule) (n : Nat) : Declaration where
  name    := (m.slot n).symbol
  symbol  := (m.slot n).symbol
  arity   := (m.slot n).arity
  id      := n
  linkage := (m.slot n).linkage

/-- Where a call goes once the module is that of the `k`-th engine: to code of its own, or
    to what the symbol of the callee resolves to. -/
def bind (m : CodeModule) (k : Nat) (registry : Registry Address) (ref : Code.FuncRef) :
    Except String (Link Address) :=
  if m.hasBody ref.id then .ok (.code ⟨k, ref.id⟩)
  else match registry.resolve (m.slot ref.id).symbol with
    | some link => .ok link
    | none => .error (m.slot ref.id).symbol

/-- Links routines in order, up to the first symbol that resolves nowhere. -/
def linkRoutines (m : CodeModule) (k : Nat) (registry : Registry Address) :
    List (Code.Routine Code.FuncRef) → Except String (List (Code.Routine (Link Address)))
  | [] => .ok []
  | r :: rs => do
    let r ← r.link (m.bind k registry)
    let rs ← m.linkRoutines k registry rs
    return r :: rs

end CodeModule

/-! ## Units -/

/-- What a unit keeps of a function. -/
structure UnitTable.Entry where
  name    : String
  symbol  : String
  arity   : Nat
  /-- The number of the function in the module. -/
  id      : Nat
  hasBody : Bool := false
deriving DecidableEq, Repr

/-- A unit without its code. -/
structure UnitTable where
  name    : String
  entries : AList (fun _ : String => UnitTable.Entry) := ∅
  /-- The symbols, in the order they were declared in. -/
  order   : List String := []

namespace UnitTable

def find? (t : UnitTable) (symbol : String) : Option Entry :=
  t.entries.lookup symbol

/-- The entries in the order of their symbols. -/
def listed (t : UnitTable) : List Entry :=
  t.order.filterMap t.find?

/-- The entries that have a body. -/
def defined (t : UnitTable) : List Entry :=
  t.listed.filter (·.hasBody)

/-- The addresses of the unit's bodies once it is the `k`-th engine. -/
def addresses (t : UnitTable) (k : Nat) : List (String × Address) :=
  t.defined.map fun e => (e.symbol, ⟨k, e.id⟩)

/-- Lists a symbol that has no entry yet. -/
def list (t : UnitTable) (symbol : String) : UnitTable :=
  if symbol ∈ t.entries then t else { t with order := t.order ++ [symbol] }

/-- Enters a symbol under a number, unless it has an entry. -/
def enter (t : UnitTable) (name symbol : String) (arity id : Nat) : Entry × UnitTable :=
  match t.find? symbol with
  | some e => (e, t)
  | none =>
    let e : Entry := { name, symbol, arity, id }
    (e, { t with entries := t.entries.insert symbol e })

/-- Records that a symbol has a body. -/
def markDefined (t : UnitTable) (symbol : String) : UnitTable :=
  match t.find? symbol with
  | some e => { t with entries := t.entries.insert symbol { e with hasBody := true } }
  | none => t

end UnitTable

/-- A unit that accepts declarations. -/
structure OpenUnit where
  table : UnitTable
  code  : CodeModule := {}

namespace OpenUnit

/-- The `n`-th unit, with nothing in it. -/
def numbered (n : Nat) : OpenUnit where
  table := { name := (CodeUnit.numbered n).name }

/-- Declares a symbol: in the module, then in the list, then among the entries. -/
def declare (u : OpenUnit) (name symbol : String) (arity : Nat) (linkage : Linkage) :
    Except CompileError UnitTable.Entry × OpenUnit :=
  match u.code.declare symbol arity linkage with
  | (.error e, code) => (.error e, { u with code })
  | (.ok id, code) =>
    let (entry, table) := (u.table.list symbol).enter name symbol arity id
    (.ok entry, { table, code })

/-- Adds the code of a function and records that it has a body. -/
def define (backend : Backend) (u : OpenUnit) (symbol : String)
    (r : Code.Routine Code.FuncRef) : Except CompileError OpenUnit := do
  let code ← u.code.define backend r
  return { table := u.table.markDefined symbol, code }

/-- The unit as the `k`-th engine. -/
def link (u : OpenUnit) (k : Nat) (registry : Registry Address) : Except String Engine := do
  let code ← u.code.linkRoutines k registry u.code.bodies
  return { unit := u.table.name, symbols := u.table.addresses k, code }

end OpenUnit

/-! ## What tables represent -/

/-- A declaration without its linkage. -/
def Declaration.entry (d : Declaration) : UnitTable.Entry :=
  { name := d.name, symbol := d.symbol, arity := d.arity, id := d.id, hasBody := d.hasBody }

/-- A declaration as a module knows it. -/
def Declaration.slot (d : Declaration) : CodeModule.Slot :=
  { symbol := d.symbol, arity := d.arity, linkage := d.linkage }

namespace Declaration

variable (d : Declaration)

@[simp] theorem entry_arity : d.entry.arity = d.arity := rfl

@[simp] theorem entry_id : d.entry.id = d.id := rfl

@[simp] theorem entry_hasBody : d.entry.hasBody = d.hasBody := rfl

end Declaration

/-- The entries and the order are those of the declarations of a unit. -/
structure UnitTable.Represents (t : UnitTable) (u : CodeUnit) : Prop where
  name  : t.name = u.name
  order : t.order = u.declarations.map (·.symbol)
  find? : ∀ symbol, t.find? symbol = (u.find? symbol).map Declaration.entry

/-- The functions of the module are the declarations of a unit, numbered by place. -/
structure CodeModule.Represents (m : CodeModule) (u : CodeUnit) : Prop where
  numbers : ∀ symbol, m.numbers.lookup symbol = (u.find? symbol).map (·.id)
  slots   : m.slots = u.declarations.map Declaration.slot
  bodies  : m.bodies = u.routines

structure OpenUnit.Represents (c : OpenUnit) (u : CodeUnit) : Prop where
  table      : c.table.Represents u
  code       : c.code.Represents u
  wellFormed : u.WellFormed

namespace CodeUnit

variable {u : CodeUnit} {symbol name : String} {arity : Nat} {linkage : Linkage} {d : Declaration}

/-- A declaration stands where its number says. -/
theorem Tabulated.getElem?_id (h : u.Tabulated) (hd : d ∈ u.declarations) :
    u.declarations[d.id]? = some d := by
  obtain ⟨i, hi⟩ := List.getElem?_of_mem hd
  rw [h.id_eq i d hi, hi]

/-- In a table, changing the declaration of a symbol is changing one place. -/
theorem Tabulated.update_eq_modify (h : u.Tabulated) (hd : u.find? symbol = some d)
    (f : Declaration → Declaration) :
    (u.update symbol f).declarations = u.declarations.modify d.id f := by
  have hplace := h.getElem?_id (mem_of_find? hd)
  apply List.ext_getElem?
  intro i
  rw [List.getElem?_modify, CodeUnit.update, List.getElem?_map]
  cases hi : u.declarations[i]? with
  | none => rfl
  | some e =>
    have hiff : e.symbol = symbol ↔ d.id = i := by
      constructor
      · intro hs
        rw [← h.eq_of_symbol_eq (List.mem_of_getElem? hi) (mem_of_find? hd)
          (hs.trans (symbol_of_find? hd).symm)]
        exact h.id_eq i e hi
      · rintro rfl
        rw [hplace] at hi
        cases hi
        exact symbol_of_find? hd
    by_cases hs : e.symbol = symbol
    · simp [hs, hiff.mp hs]
    · have hne : d.id ≠ i := fun heq => hs (hiff.mpr heq)
      simp [hs, hne]

/-- What a change leaves as it is, is found as before. -/
theorem map_find?_update {α : Type} {f : Declaration → Declaration} {g : Declaration → α}
    (hf : Keeps f) (hg : ∀ d, g (f d) = g d) (t : String) :
    ((u.update symbol f).find? t).map g = (u.find? t).map g := by
  rw [find?_update (fun d hs => (hf d).1.trans hs)]
  split
  · rw [Option.map_map]
    congr 1
    exact funext hg
  · rfl

end CodeUnit

namespace CodeModule.Represents

variable {m : CodeModule} {u : CodeUnit} {symbol : String} {arity : Nat} {linkage : Linkage}
  {d : Declaration}

theorem slot_eq (h : m.Represents u) (hu : u.Tabulated) (hd : d ∈ u.declarations) :
    m.slot d.id = d.slot := by
  rw [slot, List.getD_eq_getElem?_getD, h.slots, List.getElem?_map, hu.getElem?_id hd]
  rfl

/-- A symbol with a declaration keeps its number. -/
theorem declare_of_some (h : m.Represents u) (hu : u.Tabulated) (hd : u.find? symbol = some d)
    (arity : Nat) (linkage : Linkage) :
    ∃ m', m.declare symbol arity linkage =
        (if d.arity = arity then .ok d.id
          else .error (.backend ("incompatible declaration of '" ++ symbol ++ "'")), m') ∧
      m'.Represents (u.relink symbol linkage) := by
  have hnumber : m.numbers.lookup symbol = some d.id := by rw [h.numbers, hd]; rfl
  have hslot : m.slot d.id = d.slot := h.slot_eq hu (CodeUnit.mem_of_find? hd)
  have hslots : m.slots.modify d.id (fun f => { f with linkage := f.linkage.merge linkage }) =
      (u.relink symbol linkage).declarations.map Declaration.slot := by
    rw [CodeUnit.relink, hu.update_eq_modify hd, h.slots]
    apply List.ext_getElem?
    intro i
    simp only [List.getElem?_modify, List.getElem?_map]
    cases u.declarations[i]? with
    | none => rfl
    | some e => by_cases hi : d.id = i <;> simp [hi, Declaration.slot]
  refine ⟨{ m with slots := _ }, ?_, fun t => ?_, hslots, h.bodies⟩
  · rw [declare, hnumber]
    dsimp only
    rw [hslot, Declaration.slot]
    split <;> rfl
  · rw [CodeUnit.relink, CodeUnit.map_find?_update CodeUnit.keeps_relink fun _ => rfl]
    exact h.numbers t

/-- A new symbol gets the next number. -/
theorem declare_of_none (h : m.Represents u) (hnone : u.find? symbol = none) (name : String)
    (arity : Nat) (linkage : Linkage) :
    ∃ m', m.declare symbol arity linkage = (.ok u.declarations.length, m') ∧
      m'.Represents (u.declare name symbol arity linkage).2 := by
  have hnumber : m.numbers.lookup symbol = none := by rw [h.numbers, hnone]; rfl
  have hlength : m.slots.length = u.declarations.length := by rw [h.slots, List.length_map]
  have hnew : u.declare name symbol arity linkage = _ := CodeUnit.declare_of_none hnone
  have hfind := CodeUnit.find?_declare (congrArg Prod.fst hnew)
  refine ⟨{ m with
    numbers := m.numbers.insert symbol u.declarations.length
    slots   := m.slots ++ [{ symbol, arity, linkage }] }, ?_, fun t => ?_, ?_, ?_⟩
  · rw [declare, hnumber, hlength]
  · rw [hfind]
    by_cases ht : t = symbol
    · subst ht
      rw [AList.lookup_insert, if_pos rfl]
      rfl
    · rw [AList.lookup_insert_ne ht, if_neg ht, h.numbers]
  · rw [h.slots, hnew, List.map_append]
    rfl
  · rw [CodeUnit.routines_declare]
    exact h.bodies

end CodeModule.Represents

namespace UnitTable.Represents

variable {t : UnitTable} {u : CodeUnit} {symbol name : String} {arity : Nat} {linkage : Linkage}
  {d : Declaration}

theorem mem_entries (h : t.Represents u) : symbol ∈ t.entries ↔ (u.find? symbol).isSome := by
  rw [← AList.lookup_isSome, ← UnitTable.find?, h.find?, Option.isSome_map]

theorem listed_eq (h : t.Represents u) (hu : u.Tabulated) :
    t.listed = u.declarations.map Declaration.entry := by
  rw [listed, h.order, List.filterMap_map, List.filterMap_eq_map_iff_forall_eq_some]
  intro d hd
  rw [Function.comp_apply, h.find?, hu.find?_eq_some.mpr ⟨hd, rfl⟩]
  rfl

theorem addresses_eq (h : t.Represents u) (hu : u.Tabulated) (k : Nat) :
    t.addresses k = u.addresses k := by
  rw [addresses, defined, h.listed_eq hu, CodeUnit.addresses, CodeUnit.defined, List.filter_map,
    List.map_map]
  rfl

/-- A symbol with an entry keeps it. -/
theorem enter_of_some (h : t.Represents u) (hd : u.find? symbol = some d) (name : String)
    (arity id : Nat) : (t.list symbol).enter name symbol arity id = (d.entry, t) := by
  have hlist : t.list symbol = t := if_pos (h.mem_entries.mpr (by rw [hd]; rfl))
  have hfind : t.find? symbol = some d.entry := by rw [h.find?, hd]; rfl
  rw [hlist, enter, hfind]

/-- Linkage is none of the table's business. -/
theorem relink (h : t.Represents u) (symbol : String) (linkage : Linkage) :
    t.Represents (u.relink symbol linkage) := by
  refine ⟨h.name, ?_, fun s => ?_⟩
  · rw [h.order, CodeUnit.relink, CodeUnit.symbols_update CodeUnit.keeps_relink]
  · rw [h.find?, CodeUnit.relink, CodeUnit.map_find?_update CodeUnit.keeps_relink fun _ => rfl]

/-- A new symbol is listed and entered. -/
theorem enter_of_none (h : t.Represents u) (hnone : u.find? symbol = none) (name : String)
    (arity : Nat) (linkage : Linkage) :
    ∃ t', (t.list symbol).enter name symbol arity u.declarations.length =
        ((u.fresh name symbol arity linkage).entry, t') ∧
      t'.Represents (u.declare name symbol arity linkage).2 := by
  have hmem : symbol ∉ t.entries := by
    rw [h.mem_entries, hnone]
    exact Bool.false_ne_true
  have hfind : t.find? symbol = none := AList.lookup_eq_none.mpr hmem
  have hnew : u.declare name symbol arity linkage = _ := CodeUnit.declare_of_none hnone
  have hdeclared := CodeUnit.find?_declare (congrArg Prod.fst hnew)
  refine ⟨{ t with
    order   := t.order ++ [symbol]
    entries := t.entries.insert symbol (u.fresh name symbol arity linkage).entry },
    ?_, ?_, ?_, fun s => ?_⟩
  · have hlisted : UnitTable.find? { t with order := t.order ++ [symbol] } symbol = none := hfind
    rw [list, if_neg hmem, enter, hlisted]
    rfl
  · rw [h.name, hnew]
  · rw [h.order, hnew, List.map_append]
    rfl
  · rw [hdeclared, UnitTable.find?]
    by_cases hs : s = symbol
    · subst hs
      rw [AList.lookup_insert, if_pos rfl]
      rfl
    · rw [AList.lookup_insert_ne hs, if_neg hs]
      exact h.find? s

end UnitTable.Represents

namespace OpenUnit.Represents

variable {c : OpenUnit} {u : CodeUnit} {symbol : String} {d : Declaration}

/-- Declaring a symbol in all tables is declaring it in the list. -/
theorem declare (h : c.Represents u) (name symbol : String) (arity : Nat) (linkage : Linkage) :
    ∃ c', c.declare name symbol arity linkage =
        ((u.declare name symbol arity linkage).1.map Declaration.entry, c') ∧
      c'.Represents (u.declare name symbol arity linkage).2 := by
  have hu := h.wellFormed.tabulated
  cases hfind : u.find? symbol with
  | none =>
    obtain ⟨code, hdeclare, hcode⟩ := h.code.declare_of_none hfind name arity linkage
    obtain ⟨table, henter, htable⟩ := h.table.enter_of_none hfind name arity linkage
    refine ⟨⟨table, code⟩, ?_, htable, hcode, h.wellFormed.declare⟩
    rw [OpenUnit.declare, hdeclare, CodeUnit.declare_of_none hfind]
    dsimp only
    rw [henter]
    rfl
  | some d =>
    obtain ⟨code, hdeclare, hcode⟩ := h.code.declare_of_some hu hfind arity linkage
    have hrelink : (u.declare name symbol arity linkage).2 = u.relink symbol linkage :=
      CodeUnit.declare_of_some hu hfind
    refine ⟨⟨c.table, code⟩, ?_, ?_⟩
    · rw [OpenUnit.declare, hdeclare, CodeUnit.declare, hfind]
      by_cases ha : d.arity = arity
      · subst ha
        simp only [if_true, h.table.enter_of_some hfind]
        rfl
      · simp only [ha, if_false]
        rfl
    · rw [hrelink]
      refine ⟨h.table.relink symbol linkage, hcode, ?_⟩
      rw [← hrelink]
      exact h.wellFormed.declare

/-- A unit starts with nothing in any table. -/
theorem numbered (n : Nat) : (OpenUnit.numbered n).Represents (CodeUnit.numbered n) :=
  ⟨⟨rfl, rfl, fun _ => rfl⟩, ⟨fun _ => rfl, rfl, rfl⟩, CodeUnit.wellFormed_numbered n⟩

end OpenUnit.Represents

/-! ## Adding code -/

/-- A unit has declared a function that it may give a body, and all that the body calls. -/
structure CodeUnit.Awaits (u : CodeUnit) (r : Code.Routine Code.FuncRef) : Prop where
  declared : ∃ d, u.find? r.symbol = some d ∧ d.id = r.id ∧ d.arity = r.arity ∧
    d.linkage.isDefinable = true ∧ d.hasBody = false
  callees  : ∀ ref ∈ r.callees, u.Declares ref.symbol ref.id ref.arity

namespace CodeUnit

variable {u : CodeUnit} {r : Code.Routine Code.FuncRef} {d : Declaration}

theorem Tabulated.defines_eq (hu : u.Tabulated) (symbol : String) :
    u.defines symbol = (u.find? symbol).any (·.hasBody) := by
  rw [Bool.eq_iff_iff, defines_iff, Option.any_eq_true]
  simp only [hu.find?_eq_some, and_assoc]

theorem Tabulated.defines_of_mem (hu : u.Tabulated) (hd : d ∈ u.declarations) :
    u.defines d.symbol = d.hasBody := by
  rw [hu.defines_eq, hu.find?_eq_some.mpr ⟨hd, rfl⟩]
  rfl

theorem Awaits.define (h : u.Awaits r) (hu : u.WellFormed) : (u.define r).WellFormed := by
  obtain ⟨d, hfind, hid, ha, -, hbody⟩ := h.declared
  have hmem := mem_of_find? hfind
  have hs := symbol_of_find? hfind
  refine hu.define ⟨d, hmem, hs, hid, ha⟩ ?_ h.callees
  rw [← hs, hu.tabulated.defines_of_mem hmem, hbody]

end CodeUnit

namespace CodeModule.Represents

variable {m : CodeModule} {u : CodeUnit} {d : Declaration}

/-- The module has code for what is declared to have a body. -/
theorem hasBody_eq (h : m.Represents u) (hu : u.WellFormed) (hd : d ∈ u.declarations) :
    m.hasBody d.id = d.hasBody := by
  rw [Bool.eq_iff_iff, hasBody, h.bodies, List.any_eq_true]
  constructor
  · rintro ⟨r, hr, hid⟩
    obtain ⟨e, he, hbody, -, hre, -⟩ := hu.declaration_of_routine r hr
    rwa [← hu.eq_of_id_eq he hd (hre.trans (beq_iff_eq.mp hid))]
  · intro hbody
    obtain ⟨r, hr, hs⟩ := hu.routine_of_declaration d hd hbody
    obtain ⟨e, he, -, hre, hid, -⟩ := hu.declaration_of_routine r hr
    rw [hu.eq_of_symbol_eq he hd (hre.trans hs)] at hid
    exact ⟨r, hr, beq_iff_eq.mpr hid.symm⟩

/-- A call goes by numbers where it went by symbols. -/
theorem bind_eq (h : m.Represents u) (hu : u.WellFormed) {ref : Code.FuncRef}
    (href : u.Declares ref.symbol ref.id ref.arity) (k : Nat) (registry : Registry Address) :
    m.bind k registry ref = u.bind k registry ref := by
  obtain ⟨d, hd, hs, hid, -⟩ := href
  have hsymbol : (m.slot ref.id).symbol = ref.symbol := by
    rw [← hid, h.slot_eq hu.tabulated hd, ← hs]
    rfl
  have hdefines : u.defines ref.symbol = m.hasBody ref.id := by
    rw [← hs, ← hid, hu.tabulated.defines_of_mem hd, h.hasBody_eq hu hd]
  unfold CodeModule.bind
  cases hbody : m.hasBody ref.id with
  | true =>
    rw [CodeUnit.bind_of_defines (hdefines.trans hbody)]
    exact if_pos rfl
  | false =>
    rw [CodeUnit.bind_of_resolve k registry (hdefines.trans hbody), hsymbol]
    cases registry.resolve ref.symbol <;> rfl

end CodeModule.Represents

namespace UnitTable.Represents

variable {t : UnitTable} {u : CodeUnit} {r : Code.Routine Code.FuncRef} {d : Declaration}

theorem markDefined (h : t.Represents u) (hd : u.find? r.symbol = some d) :
    (t.markDefined r.symbol).Represents (u.define r) := by
  have hfind : t.find? r.symbol = some d.entry := by rw [h.find?, hd]; rfl
  rw [UnitTable.markDefined, hfind]
  refine ⟨h.name, ?_, fun s => ?_⟩
  · rw [h.order]
    exact (CodeUnit.symbols_update CodeUnit.keeps_hasBody).symm
  · rw [CodeUnit.find?_define, UnitTable.find?]
    by_cases hs : s = r.symbol
    · subst hs
      rw [AList.lookup_insert, if_pos rfl, hd]
      rfl
    · rw [AList.lookup_insert_ne hs, if_neg hs]
      exact h.find? s

end UnitTable.Represents

namespace OpenUnit.Represents

variable {c : OpenUnit} {u : CodeUnit} {r : Code.Routine Code.FuncRef}

/-- A unit that awaits a routine takes it, unless the backend refuses it. -/
theorem define (h : c.Represents u) (hr : u.Awaits r) (backend : Backend) :
    ∃ c', c.define backend r.symbol r = (match backend.compile r with
        | some message => .error (.backend message)
        | none => .ok c') ∧
      c'.Represents (u.define r) := by
  obtain ⟨d, hfind, hid, -, hdefinable, hbody⟩ := hr.declared
  have hmem := CodeUnit.mem_of_find? hfind
  have hslot : (c.code.slot r.id).linkage = d.linkage := by
    rw [← hid, h.code.slot_eq h.wellFormed.tabulated hmem]
    rfl
  have hcode : c.code.hasBody r.id = false := by
    rw [← hid, h.code.hasBody_eq h.wellFormed hmem, hbody]
  have hslots : c.code.slots = (u.define r).declarations.map Declaration.slot := by
    rw [h.code.slots]
    simp only [CodeUnit.define, CodeUnit.markDefined, CodeUnit.update, List.map_map]
    refine List.map_congr_left fun e _ => ?_
    rw [Function.comp_apply]
    split <;> rfl
  refine ⟨⟨c.table.markDefined r.symbol, { c.code with bodies := c.code.bodies ++ [r] }⟩, ?_,
    h.table.markDefined hfind, ⟨fun s => ?_, hslots, ?_⟩, hr.define h.wellFormed⟩
  · rw [OpenUnit.define, CodeModule.define, hslot, hdefinable, hcode]
    cases backend.compile r <;> rfl
  · have hnumber : ((u.define r).find? s).map (·.id) = (u.find? s).map (·.id) :=
      CodeUnit.map_find?_update CodeUnit.keeps_hasBody (fun _ => rfl) s
    exact (h.code.numbers s).trans hnumber.symm
  · rw [CodeUnit.routines_define, h.code.bodies]

end OpenUnit.Represents

/-! ## Linking -/

namespace Code

variable {κ κ' ε : Type} {resolve resolve' : κ → Except ε κ'}

/-- Linking asks for what is called and nothing else. -/
theorem linkAll_congr {code : List (Instr κ)}
    (h : ∀ ref ∈ code.filterMap Instr.callee?, resolve ref = resolve' ref) :
    linkAll resolve code = linkAll resolve' code := by
  induction code with
  | nil => rfl
  | cons i code ih =>
    have hi : i.link resolve = i.link resolve' := by
      cases i with
      | call callee args => simp only [Instr.link, h callee (by simp [Instr.callee?])]
      | _ => rfl
    have hcode : ∀ ref ∈ code.filterMap Instr.callee?, resolve ref = resolve' ref := by
      intro ref href
      obtain ⟨j, hj, hcallee⟩ := List.mem_filterMap.mp href
      exact h ref (List.mem_filterMap.mpr ⟨j, List.mem_cons_of_mem _ hj, hcallee⟩)
    rw [linkAll, linkAll, hi, ih hcode]

end Code

namespace CodeModule.Represents

variable {m : CodeModule} {u : CodeUnit}

theorem linkRoutines_eq (h : m.Represents u) (hu : u.WellFormed) (k : Nat)
    (registry : Registry Address) {rs : List (Code.Routine Code.FuncRef)} (hrs : rs ⊆ u.routines) :
    m.linkRoutines k registry rs = u.linkRoutines k registry rs := by
  induction rs with
  | nil => rfl
  | cons r rs ih =>
    obtain ⟨hr, hrs⟩ := List.cons_subset.mp hrs
    have hlink : r.link (m.bind k registry) = r.link (u.bind k registry) := by
      have hcode : Code.linkAll (m.bind k registry) r.code =
          Code.linkAll (u.bind k registry) r.code :=
        Code.linkAll_congr fun ref href => h.bind_eq hu (hu.callee_declared r hr ref href) k registry
      rw [Code.Routine.link, Code.Routine.link, hcode]
    rw [linkRoutines, CodeUnit.linkRoutines, hlink, ih hrs]

end CodeModule.Represents

/-- The tables are linked to the engine that the list is linked to. -/
theorem OpenUnit.Represents.link_eq {c : OpenUnit} {u : CodeUnit} (h : c.Represents u) (k : Nat)
    (registry : Registry Address) : c.link k registry = u.link k registry := by
  rw [OpenUnit.link, CodeUnit.link, h.code.bodies, h.table.name,
    h.table.addresses_eq h.wellFormed.tabulated,
    h.code.linkRoutines_eq h.wellFormed k registry (List.Subset.refl _)]

end Abacus
