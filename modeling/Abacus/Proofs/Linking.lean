-- SUMMARY: What linking a unit makes of its routines and symbols.
import Abacus.Proofs.Coherence

/-!
# Linked units

The engine of a unit has the addresses of the unit's bodies and, in order, its
routines with every call bound. Running a bound routine is running the routine
with each call going where it was bound to.
-/

namespace Abacus

/-! ## Code -/

namespace Code

variable {κ κ' ε : Type} {resolve : κ → Except ε κ'}

/-- What a call does that is bound before it is run. -/
def Meaning.via (resolve : κ → Except ε κ') (call : Meaning κ') : Meaning κ :=
  fun callee args =>
    match resolve callee with
    | .ok callee => call callee args
    | .error _ => throw .stuck

theorem Meaning.via_of_ok {call : Meaning κ'} {callee : κ} {target : κ'}
    (h : resolve callee = .ok target) : call.via resolve callee = call target := by
  unfold Meaning.via; rw [h]

theorem Meaning.via_of_error {call : Meaning κ'} {callee : κ} {e : ε}
    (h : resolve callee = .error e) : call.via resolve callee = fun _ => throw .stuck := by
  unfold Meaning.via; rw [h]

theorem Instr.exec_link {i : Instr κ} {i' : Instr κ'} (h : i.link resolve = .ok i')
    (call : Meaning κ') (env : List Value) :
    i'.exec call env = i.exec (call.via resolve) env := by
  cases i with
  | call callee args =>
    cases hr : resolve callee with
    | error e => simp [Instr.link, hr, Except.map] at h
    | ok target =>
      simp only [Instr.link, hr, Except.map, Except.ok.injEq] at h
      subst h
      simp only [Instr.exec, Meaning.via, hr]
  | _ => cases h; rfl

theorem linkAll_cons {i : Instr κ} {is : List (Instr κ)} {code : List (Instr κ')} :
    linkAll resolve (i :: is) = .ok code ↔
      ∃ i' is', i.link resolve = .ok i' ∧ linkAll resolve is = .ok is' ∧ code = i' :: is' := by
  simp only [linkAll, bind, Except.bind, pure, Except.pure]
  cases i.link resolve with
  | error e => simp
  | ok i' =>
    cases linkAll resolve is with
    | error e => simp
    | ok is' => simp [eq_comm]

theorem execAll_linkAll {is : List (Instr κ)} {code : List (Instr κ')}
    (h : linkAll resolve is = .ok code) (call : Meaning κ') (env : List Value) :
    execAll call env code = execAll (call.via resolve) env is := by
  induction is generalizing code env with
  | nil => cases h; rfl
  | cons i is ih =>
    obtain ⟨i', is', hi, his, rfl⟩ := linkAll_cons.mp h
    simp only [execAll, Instr.exec_link hi, ih his]

theorem Routine.link_ok {r : Routine κ} {r' : Routine κ'} :
    r.link resolve = .ok r' ↔
      ∃ code, linkAll resolve r.code = .ok code ∧ r' = { r with code } := by
  simp only [Routine.link, bind, Except.bind, pure, Except.pure]
  cases linkAll resolve r.code with
  | error e => simp
  | ok code => simp [eq_comm]

theorem Routine.id_of_link {r : Routine κ} {r' : Routine κ'} (h : r.link resolve = .ok r') :
    r'.id = r.id := by
  obtain ⟨code, -, rfl⟩ := Routine.link_ok.mp h
  rfl

theorem Routine.exec_link {r : Routine κ} {r' : Routine κ'} (h : r.link resolve = .ok r')
    (call : Meaning κ') (args : List Float) :
    r'.exec call args = r.exec (call.via resolve) args := by
  obtain ⟨code, hcode, rfl⟩ := Routine.link_ok.mp h
  simp only [Routine.exec, execAll_linkAll hcode]

end Code

/-! ## Units -/

namespace CodeUnit

variable {u : CodeUnit} {k : Nat} {registry : Registry Address} {e : Engine}

theorem bind_of_defines {ref : Code.FuncRef} (h : u.defines ref.symbol = true) :
    u.bind k registry ref = .ok (.code ⟨k, ref.id⟩) := by
  unfold bind; rw [if_pos h]

theorem bind_of_resolve (k : Nat) (registry : Registry Address) {ref : Code.FuncRef}
    (h : u.defines ref.symbol = false) :
    u.bind k registry ref = (registry.resolve ref.symbol).elim (.error ref.symbol) .ok := by
  unfold bind
  rw [h, if_neg Bool.false_ne_true]
  cases registry.resolve ref.symbol <;> rfl

theorem linkRoutines_cons {r : Code.Routine Code.FuncRef} {rs : List (Code.Routine Code.FuncRef)}
    {code : List (Code.Routine (Link Address))} :
    u.linkRoutines k registry (r :: rs) = .ok code ↔
      ∃ r' rs', r.link (u.bind k registry) = .ok r' ∧ u.linkRoutines k registry rs = .ok rs' ∧
        code = r' :: rs' := by
  simp only [linkRoutines, Bind.bind, Except.bind, pure, Except.pure]
  cases r.link (u.bind k registry) with
  | error e => simp
  | ok r' =>
    cases u.linkRoutines k registry rs with
    | error e => simp
    | ok rs' => simp [eq_comm]

theorem link_ok :
    u.link k registry = .ok e ↔
      ∃ code, u.linkRoutines k registry u.routines = .ok code ∧
        e = { unit := u.name, symbols := u.addresses k, code } := by
  simp only [link, Bind.bind, Except.bind, pure, Except.pure]
  cases u.linkRoutines k registry u.routines with
  | error e => simp
  | ok code => simp [eq_comm]

theorem symbols_of_link (h : u.link k registry = .ok e) : e.symbols = u.addresses k := by
  obtain ⟨code, -, rfl⟩ := link_ok.mp h
  rfl

/-- Routines that are told apart by their numbers are found by them once linked. -/
theorem find?_linkRoutines {rs : List (Code.Routine Code.FuncRef)}
    {code : List (Code.Routine (Link Address))} (h : u.linkRoutines k registry rs = .ok code)
    {r : Code.Routine Code.FuncRef} (hr : r ∈ rs) (hinj : ∀ q ∈ rs, q.id = r.id → q = r) :
    ∃ r', code.find? (·.id == r.id) = some r' ∧ r.link (u.bind k registry) = .ok r' := by
  induction rs generalizing code with
  | nil => cases hr
  | cons q rs ih =>
    obtain ⟨q', rs', hq, hrs, rfl⟩ := linkRoutines_cons.mp h
    rw [List.find?_cons]
    by_cases hid : q.id = r.id
    · obtain rfl := hinj q List.mem_cons_self hid
      refine ⟨q', ?_, hq⟩
      simp [Code.Routine.id_of_link hq]
    · have hne : (q'.id == r.id) = false := by simp [Code.Routine.id_of_link hq, hid]
      rw [hne]
      rcases List.mem_cons.mp hr with rfl | hr
      · exact absurd rfl hid
      · exact ih hrs hr fun p hp => hinj p (List.mem_cons_of_mem _ hp)

/-- An engine has, under its number, the linked form of every routine of its unit. -/
theorem routine?_of_mem (hu : u.WellFormed) (h : u.link k registry = .ok e)
    {r : Code.Routine Code.FuncRef} (hr : r ∈ u.routines) :
    ∃ r', e.routine? r.id = some r' ∧ r.link (u.bind k registry) = .ok r' := by
  obtain ⟨code, hcode, rfl⟩ := link_ok.mp h
  refine find?_linkRoutines hcode hr fun q hq hid => ?_
  obtain ⟨d, hd, -, hds, hdi, -⟩ := hu.declaration_of_routine q hq
  obtain ⟨c, hc, -, hcs, hci, -⟩ := hu.declaration_of_routine r hr
  have hdc : d = c := hu.eq_of_id_eq hd hc (by rw [hdi, hci, hid])
  have hsymbol : q.symbol = r.symbol := by rw [← hds, ← hcs, hdc]
  exact List.inj_on_of_nodup_map hu.routines_nodup hq hr hsymbol

theorem mem_addresses {symbol : String} {a : Address} :
    (symbol, a) ∈ u.addresses k ↔
      ∃ d ∈ u.declarations, d.hasBody = true ∧ d.symbol = symbol ∧ a = ⟨k, d.id⟩ := by
  simp only [addresses, defined, List.mem_map, List.mem_filter, Prod.mk.injEq]
  constructor
  · rintro ⟨d, ⟨hd, hbody⟩, hs, ha⟩
    exact ⟨d, hd, hbody, hs, ha.symm⟩
  · rintro ⟨d, hd, hbody, hs, ha⟩
    exact ⟨d, ⟨hd, hbody⟩, hs, ha.symm⟩

/-- The address of a body has the number of its declaration. -/
theorem lookup_addresses {symbol : String} {a : Address}
    (h : (u.addresses k).lookup symbol = some a) :
    ∃ d ∈ u.declarations, d.hasBody = true ∧ d.symbol = symbol ∧ a = ⟨k, d.id⟩ := by
  obtain ⟨l₁, l₂, heq, -⟩ := List.lookup_eq_some_iff.mp h
  refine mem_addresses.mp ?_
  rw [heq]
  simp

theorem lookup_addresses_eq_none {symbol : String} :
    (u.addresses k).lookup symbol = none ↔ u.defines symbol = false := by
  rw [List.lookup_eq_none_iff, Bool.eq_false_iff, Ne, defines_iff]
  constructor
  · rintro h ⟨d, hd, hs, hbody⟩
    have hne := h (symbol, ⟨k, d.id⟩) (mem_addresses.mpr ⟨d, hd, hbody, hs, rfl⟩)
    simp at hne
  · rintro h ⟨s, a⟩ hmem
    obtain ⟨d, hd, hbody, hs, -⟩ := mem_addresses.mp hmem
    have hne : symbol ≠ s := by
      rintro rfl
      exact h ⟨d, hd, hs, hbody⟩
    simpa using hne

end CodeUnit

/-! ## Workspaces -/

namespace Workspace

variable {w : Workspace} {k : Nat}

theorem Linked.symbols_eq (hw : w.Linked) {u : CodeUnit} {e : Engine}
    (hu : w.closed[k]? = some u) (he : w.engines[k]? = some e) : e.symbols = u.addresses k :=
  CodeUnit.symbols_of_link (hw.link_eq k u e hu he)

theorem Linked.exists_unit (hw : w.Linked) {e : Engine} (he : w.engines[k]? = some e) :
    ∃ u, w.closed[k]? = some u := by
  obtain ⟨hk, -⟩ := List.getElem?_eq_some_iff.mp he
  exact ⟨_, List.getElem?_eq_getElem (hw.length_eq ▸ hk)⟩

theorem Linked.exists_engine (hw : w.Linked) {u : CodeUnit} (hu : w.closed[k]? = some u) :
    ∃ e, w.engines[k]? = some e := by
  obtain ⟨hk, -⟩ := List.getElem?_eq_some_iff.mp hu
  exact ⟨_, List.getElem?_eq_getElem (hw.length_eq.symm ▸ hk)⟩

/-- An engine defines the symbols that its unit has bodies for. -/
theorem Linked.defines_iff (hw : w.Linked) {u : CodeUnit} {e : Engine}
    (hu : w.closed[k]? = some u) (he : w.engines[k]? = some e) (symbol : String) :
    e.defines symbol = u.defines symbol := by
  have hnone : (u.addresses k).lookup symbol = none ↔ u.defines symbol = false :=
    CodeUnit.lookup_addresses_eq_none
  unfold Engine.defines Engine.address?
  rw [hw.symbols_eq hu he]
  cases hl : (u.addresses k).lookup symbol with
  | none => rw [hnone.mp hl]; rfl
  | some a =>
    have hdef : u.defines symbol ≠ false := by
      intro hfalse
      rw [hnone.mpr hfalse] at hl
      cases hl
    simp [hdef]

/-- What no closed unit declares has no address. -/
theorem Linked.address?_eq_none (hw : w.Linked) {symbol : String}
    (h : ∀ u ∈ w.closed, u.find? symbol = none) : w.address? symbol = none := by
  refine List.findSome?_eq_none_iff.mpr fun e he => ?_
  obtain ⟨k, he⟩ := List.getElem?_of_mem he
  obtain ⟨u, hu⟩ := hw.exists_unit he
  have hfind := CodeUnit.find?_eq_none.mp (h u (List.mem_of_getElem? hu))
  unfold Engine.address?
  rw [hw.symbols_eq hu he, CodeUnit.lookup_addresses_eq_none, Bool.eq_false_iff]
  intro hdef
  obtain ⟨d, hd, hs, -⟩ := CodeUnit.defines_iff.mp hdef
  exact hfind d hd hs

/-- What an engine linked against: the bodies of the units before its own. -/
theorem Linked.address?_take (hw : w.Linked) {symbol : String} {a : Address}
    (h : (⟨(w.engines.take k).map (·.symbols)⟩ : Registry Address).address? symbol = some a) :
    ∃ (j : Nat) (u : CodeUnit), j < k ∧ w.closed[j]? = some u ∧
      (u.addresses j).lookup symbol = some a := by
  obtain ⟨symbols, hmem, ha⟩ := List.exists_of_findSome?_eq_some h
  obtain ⟨e, he, rfl⟩ := List.mem_map.mp hmem
  obtain ⟨j, hj⟩ := List.getElem?_of_mem he
  rw [List.getElem?_take] at hj
  split at hj
  case isTrue hlt =>
    obtain ⟨u, hu⟩ := hw.exists_unit hj
    exact ⟨j, u, hlt, hu, hw.symbols_eq hu hj ▸ ha⟩
  case isFalse => cases hj

theorem Linked.address?_take_eq_none (hw : w.Linked) {symbol : String} {j : Nat} {u : CodeUnit}
    (h : (⟨(w.engines.take k).map (·.symbols)⟩ : Registry Address).address? symbol = none)
    (hj : j < k) (hu : w.closed[j]? = some u) : u.defines symbol = false := by
  obtain ⟨e, he⟩ := hw.exists_engine hu
  have hmem : e.symbols ∈ (w.engines.take k).map (·.symbols) := by
    refine List.mem_map.mpr ⟨e, List.mem_of_getElem? (i := j) ?_, rfl⟩
    rw [List.getElem?_take_of_lt hj, he]
  have hnone := List.findSome?_eq_none_iff.mp h e.symbols hmem
  rw [hw.symbols_eq hu he] at hnone
  exact CodeUnit.lookup_addresses_eq_none.mp hnone

end Workspace

end Abacus
