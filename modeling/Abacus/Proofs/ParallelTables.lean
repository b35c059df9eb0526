-- SUMMARY: The parallel tables of a manager agree, whatever is declared and refused.
import Abacus.Proofs.Backends

/-!
# Parallel tables

A manager says many things more than once, and no operation checks that they agree. Open
unit, closed units, engines and published symbols are kept apart; units are numbered by a
counter and by their place; in a unit there are the entries by symbol, the order of the
symbols, and the numbers and functions of the module.

They agree after any operations, also where symbols are declared with numbers of parameters
that contradict each other or with any linkage, and whatever the backend refuses. Nothing of
this is true of all managers: it is read off the workspace that a manager represents.
-/

namespace Abacus

namespace UnitTable.Represents

variable {t : UnitTable} {u : CodeUnit}

/-- The order has each key of the entries once, where the entry is numbered. -/
theorem order_entries (h : t.Represents u) (hu : u.Tabulated) :
    t.order.Nodup ∧ (∀ symbol, symbol ∈ t.order ↔ symbol ∈ t.entries) ∧
      ∀ symbol e, t.find? symbol = some e → e.symbol = symbol ∧ t.order[e.id]? = some symbol := by
  refine ⟨?_, fun symbol => ?_, fun symbol e he => ?_⟩
  · rw [h.order]
    exact hu.symbols_nodup
  · rw [h.mem_entries, h.order, Option.isSome_iff_exists]
    simp only [hu.find?_eq_some, List.mem_map]
  · rw [h.find?, Option.map_eq_some_iff] at he
    obtain ⟨d, hd, rfl⟩ := he
    obtain ⟨hmem, rfl⟩ := hu.find?_eq_some.mp hd
    refine ⟨rfl, ?_⟩
    rw [h.order, List.getElem?_map, Declaration.entry_id, hu.getElem?_id hmem]
    rfl

/-- An engine with the addresses of a unit defines what the unit has bodies for. -/
theorem defines_eq (h : t.Represents u) (hu : u.Tabulated) {e : Engine} {i : Nat}
    (he : e.symbols = u.addresses i) (symbol : String) :
    e.defines symbol = (t.find? symbol).any (·.hasBody) := by
  have hdefines : (t.find? symbol).any (·.hasBody) = u.defines symbol := by
    rw [h.find?, Option.any_map, hu.defines_eq]
    rfl
  rw [hdefines, Engine.defines, Engine.address?, he]
  cases hlookup : (u.addresses i).lookup symbol with
  | none => rw [CodeUnit.lookup_addresses_eq_none.mp hlookup, Option.isSome_none]
  | some a =>
    obtain ⟨d, hd, hbody, hs, -⟩ := CodeUnit.lookup_addresses hlookup
    rw [CodeUnit.defines_iff.mpr ⟨d, hd, hs, hbody⟩, Option.isSome_some]

end UnitTable.Represents

namespace OpenUnit.Represents

variable {c : OpenUnit} {u : CodeUnit}

/-- The module numbers the symbols of the table as the entries do, and has the code of
    those that have a body. -/
theorem code_table (h : c.Represents u) :
    c.code.slots.map (·.symbol) = c.table.order ∧
      ∀ symbol, c.code.numbers.lookup symbol = (c.table.find? symbol).map (·.id) ∧
        ∀ e, c.table.find? symbol = some e →
          (c.code.slot e.id).arity = e.arity ∧ c.code.hasBody e.id = e.hasBody := by
  refine ⟨?_, fun symbol => ⟨?_, fun e he => ?_⟩⟩
  · rw [h.code.slots, h.table.order, List.map_map]
    rfl
  · rw [h.code.numbers, h.table.find?, Option.map_map]
    rfl
  · rw [h.table.find?, Option.map_eq_some_iff] at he
    obtain ⟨d, hd, rfl⟩ := he
    have hmem := CodeUnit.mem_of_find? hd
    rw [Declaration.entry_id, h.code.slot_eq h.wellFormed.tabulated hmem,
      h.code.hasBody_eq h.wellFormed hmem]
    exact ⟨rfl, rfl⟩

end OpenUnit.Represents

namespace Manager

variable {m : Manager} {s : World} {backend : Backend}

namespace Represents

/-- A closed unit of the manager is that of the workspace at its place. -/
theorem exists_closed (h : m.Represents s) {i : Nat} {t : UnitTable} (ht : m.units[i]? = some t) :
    ∃ u, s.workspace.closed[i]? = some u ∧ t.Represents u := by
  obtain ⟨hi, rfl⟩ := List.getElem?_eq_some_iff.mp ht
  have hi' : i < s.workspace.closed.length := h.units.length_eq ▸ hi
  exact ⟨_, List.getElem?_eq_getElem hi', h.units.get hi hi'⟩

/-- Each table of the manager represents a unit of the workspace. -/
theorem exists_unit (h : m.Represents s) {t : UnitTable} (ht : t ∈ m.tables) :
    ∃ u ∈ s.workspace.units, t.Represents u := by
  rcases List.mem_append.mp ht with ht | ht
  · obtain ⟨i, hi⟩ := List.getElem?_of_mem ht
    obtain ⟨u, hu, table⟩ := h.exists_closed hi
    exact ⟨u, List.mem_append_left _ (List.mem_of_getElem? hu), table⟩
  · obtain ⟨hc, -⟩ | ⟨c, u, hc, hu, unit⟩ := h.opened_cases
    · simp [hc] at ht
    · obtain rfl : t = c.table := by simpa [hc] using ht
      refine ⟨u, ?_, unit.table⟩
      rw [Workspace.units_of_some hu]
      exact List.mem_append_right _ (List.mem_singleton_self u)

end Represents

/-- Whatever operations were performed, symbols declared and code refused: units, engines
    and published symbols are equally many; units and engines have the names of their
    places, and the counter is the number of units; an engine has, and published, the
    addresses of the bodies of its unit, and defines nothing else, so looking among engines
    and looking among published symbols find the same. In every unit the order has each key
    of the entries once, where its entry is numbered, and an entry stands under its own
    symbol; and the module of the open unit numbers the same symbols alike, and has code for
    those with a body. -/
theorem tables_in_lockstep (h : Arranged backend m) :
    m.engines.length = m.units.length ∧
    m.registry.published.length = m.units.length ∧
    m.nextUnit = m.unitCount ∧
    (∀ c, m.opened = some c → c.table.name = "unit_" ++ toString m.units.length) ∧
    (∀ (i : Nat) (t : UnitTable), m.units[i]? = some t →
      t.name = "unit_" ++ toString i ∧
      ∃ e, m.engines[i]? = some e ∧ e.unit = "unit_" ++ toString i ∧
        e.symbols = t.defined.map (fun d => (d.symbol, ⟨i, d.id⟩)) ∧
        m.registry.published[i]? = some e.symbols ∧
        ∀ symbol, e.defines symbol = (t.find? symbol).any (·.hasBody)) ∧
    (∀ symbol, m.address? symbol = m.registry.address? symbol) ∧
    (∀ t ∈ m.tables,
      t.order.Nodup ∧
      (∀ symbol, symbol ∈ t.order ↔ symbol ∈ t.entries) ∧
      (∀ symbol e, t.find? symbol = some e →
        e.symbol = symbol ∧ t.order[e.id]? = some symbol)) ∧
    (∀ c, m.opened = some c →
      c.code.slots.map (·.symbol) = c.table.order ∧
      ∀ symbol, c.code.numbers.lookup symbol = (c.table.find? symbol).map (·.id) ∧
        ∀ e, c.table.find? symbol = some e →
          (c.code.slot e.id).arity = e.arity ∧ c.code.hasBody e.id = e.hasBody) := by
  obtain ⟨s, hlock, state⟩ := h.exists_lockstep
  have hlength : m.units.length = s.workspace.closed.length := state.units.length_eq
  refine ⟨?_, ?_, ?_, ?_, ?_, ?_, ?_, ?_⟩
  · rw [state.engines, hlength, hlock.linked.length_eq]
  · rw [state.registry, hlength, hlock.linked.published, List.length_map, hlock.linked.length_eq]
  · rw [state.nextUnit, hlock.nextUnit_eq_unitCount, unitCount, Workspace.unitCount, hlength]
    obtain ⟨hc, hu⟩ | ⟨c, u, hc, hu, -⟩ := state.opened_cases
    · rw [hc, hu]
      rfl
    · rw [hc, hu]
      rfl
  · intro c hc
    obtain ⟨hnone, -⟩ | ⟨c', u, hc', hu, unit⟩ := state.opened_cases
    · rw [hnone] at hc
      cases hc
    · rw [hc'] at hc
      cases hc
      rw [unit.table.name, hlength]
      apply hlock.name
      simp [Workspace.units_of_some hu]
  · intro i t ht
    obtain ⟨u, hu, table⟩ := state.exists_closed ht
    have hmem : s.workspace.units[i]? = some u := by
      rwa [Workspace.units, List.getElem?_append_left (List.getElem?_eq_some_iff.mp hu).1]
    have htable := hlock.tabulated u (List.mem_of_getElem? hmem)
    have hname : u.name = "unit_" ++ toString i := hlock.name i u hmem
    obtain ⟨e, he, hpublished, hunit, hsymbols⟩ := hlock.engine_of_closed hu
    refine ⟨table.name.trans hname, e, ?_, hunit.trans hname, ?_, ?_, ?_⟩
    · rwa [state.engines]
    · exact hsymbols.trans (table.addresses_eq htable i).symm
    · rwa [state.registry]
    · exact table.defines_eq htable hsymbols
  · intro symbol
    rw [state.address?_eq, state.registry]
    exact hlock.address?_eq_registry symbol
  · intro t ht
    obtain ⟨u, hu, table⟩ := state.exists_unit ht
    exact table.order_entries (hlock.tabulated u hu)
  · intro c hc
    obtain ⟨hnone, -⟩ | ⟨c', u, hc', -, unit⟩ := state.opened_cases
    · rw [hnone] at hc
      cases hc
    · rw [hc'] at hc
      cases hc
      exact unit.code_table

/-- `f` is defined with one parameter and linked. The backend refuses `h`, which stays
    declared; and `f` is declared with two parameters, and then with three, which fails but
    widens its linkage. -/
theorem tables_in_lockstep_of_contradiction : ∃ (backend : Backend) (m : Manager),
    Arranged backend m ∧
    (m.tables.map fun t => t.listed.map fun e => (e.symbol, e.arity, e.id, e.hasBody)) =
      [[("f", 1, 0, true)], [("h", 0, 0, false), ("f", 2, 1, false)]] ∧
    (m.opened.map fun c => c.code.slots.map (·.linkage)) = some [.exported, .hidden] ∧
    m.nextUnit = m.unitCount ∧
    m.address? "f" = m.registry.address? "f" := by
  have h₁ := Arranged.declare "f" "f" 1 .preemptible (.start {} :
    Arranged ⟨fun _ => none, fun r => if r.symbol = "h" then some "refused" else none⟩ _)
  have h₂ := Arranged.perform (.generate ⟨⟨"f", ["x"]⟩, .var "x"⟩) h₁
  have h₃ := Arranged.perform .finalize h₂
  have h₄ := Arranged.perform (.generate ⟨⟨"h", []⟩, .number 1⟩) h₃
  have h₅ := Arranged.declare "f" "f" 2 .confined h₄
  have h₆ := Arranged.declare "f" "f" 3 .hidden h₅
  have hlock := tables_in_lockstep h₆
  exact ⟨_, _, h₆, by decide +kernel, by decide +kernel, hlock.2.2.1, hlock.2.2.2.2.2.1 "f"⟩

end Manager

end Abacus
