-- SUMMARY: Where the calls of linked code go.
import Abacus.Engine
import Abacus.Proofs.Linking

/-!
# Calls of linked code

Every routine of an engine is a routine of its unit with its calls bound. A call
is bound to a body of the unit itself, to one that an older engine has
published, or to the host, so that calls never go to a younger engine.
-/

namespace Abacus

/-! ## Code -/

namespace Code

variable {κ κ' ε : Type} {resolve : κ → Except ε κ'}

/-- What linking an instruction does to its callee, if it has one. -/
theorem Instr.callee?_of_link {i : Instr κ} {i' : Instr κ'} (h : i.link resolve = .ok i') :
    i.callee?.map resolve = i'.callee?.map .ok := by
  cases i with
  | call callee args =>
    cases hr : resolve callee with
    | error e =>
      simp only [Instr.link, hr] at h
      cases h
    | ok target =>
      simp only [Instr.link, hr] at h
      cases h
      exact congrArg some hr
  | _ =>
    cases h
    rfl

theorem callees_of_linkAll {is : List (Instr κ)} {code : List (Instr κ')}
    (h : linkAll resolve is = .ok code) :
    (is.filterMap Instr.callee?).map resolve = (code.filterMap Instr.callee?).map .ok := by
  induction is generalizing code with
  | nil =>
    cases h
    rfl
  | cons i is ih =>
    obtain ⟨i', is', hi, his, rfl⟩ := linkAll_cons.mp h
    have hhead := Instr.callee?_of_link hi
    have htail := ih his
    simp only [List.map_filterMap] at htail ⊢
    simp only [List.filterMap_cons, hhead, htail]

/-- Linked code calls, in order, what the callees of the code were bound to. -/
theorem Routine.callees_of_link {r : Routine κ} {r' : Routine κ'} (h : r.link resolve = .ok r') :
    r.callees.map resolve = r'.callees.map .ok := by
  obtain ⟨code, hcode, rfl⟩ := Routine.link_ok.mp h
  exact callees_of_linkAll hcode

theorem Routine.mem_callees_of_link {r : Routine κ} {r' : Routine κ'}
    (h : r.link resolve = .ok r') {c' : κ'} :
    c' ∈ r'.callees ↔ ∃ c ∈ r.callees, resolve c = .ok c' := by
  have hcallees := Routine.callees_of_link h
  calc c' ∈ r'.callees
    _ ↔ .ok c' ∈ r'.callees.map (Except.ok : κ' → Except ε κ') := by simp
    _ ↔ ∃ c ∈ r.callees, resolve c = .ok c' := by rw [← hcallees, List.mem_map]

/-- Every callee of code that was linked is bound. -/
theorem Routine.bound_of_link {r : Routine κ} {r' : Routine κ'} (h : r.link resolve = .ok r')
    {c : κ} (hc : c ∈ r.callees) : ∃ c', resolve c = .ok c' := by
  have hmem : resolve c ∈ r'.callees.map (Except.ok : κ' → Except ε κ') := by
    rw [← Routine.callees_of_link h]
    exact List.mem_map_of_mem hc
  obtain ⟨c', -, hc'⟩ := List.mem_map.mp hmem
  exact ⟨c', hc'.symm⟩

end Code

namespace Registry

variable {α : Type} {registry : Registry α} {symbol : String}

/-- A symbol stands for code if an engine has published it. -/
theorem resolve_eq_code {a : α} :
    registry.resolve symbol = some (.code a) ↔ registry.address? symbol = some a := by
  unfold resolve
  cases registry.address? symbol with
  | some b => simp
  | none => simp

/-- A symbol stands for an intrinsic if no engine has published it. -/
theorem resolve_eq_host {i : Intrinsic} :
    registry.resolve symbol = some (.host i) ↔
      registry.address? symbol = none ∧ Intrinsic.ofSymbol? symbol = some i := by
  unfold resolve
  cases registry.address? symbol with
  | some b => simp
  | none => simp

end Registry

/-! ## Units -/

namespace CodeUnit

variable {u : CodeUnit} {k : Nat} {registry : Registry Address}

/-- What an engine has was linked from a routine of its unit. -/
theorem routine_of_linkRoutines {rs : List (Code.Routine Code.FuncRef)}
    {code : List (Code.Routine (Link Address))} (h : u.linkRoutines k registry rs = .ok code)
    {r' : Code.Routine (Link Address)} (hr' : r' ∈ code) :
    ∃ r ∈ rs, r.link (u.bind k registry) = .ok r' := by
  induction rs generalizing code with
  | nil =>
    cases h
    cases hr'
  | cons r rs ih =>
    obtain ⟨q, qs, hq, hqs, rfl⟩ := linkRoutines_cons.mp h
    cases hr' with
    | head => exact ⟨r, List.mem_cons_self, hq⟩
    | tail _ hmem =>
      obtain ⟨p, hp, hlink⟩ := ih hqs hmem
      exact ⟨p, List.mem_cons_of_mem r hp, hlink⟩

theorem resolve_of_bind {ref : Code.FuncRef} {link : Link Address}
    (hdef : u.defines ref.symbol = false) (h : u.bind k registry ref = .ok link) :
    registry.resolve ref.symbol = some link := by
  rw [bind_of_resolve k registry hdef] at h
  cases hresolve : registry.resolve ref.symbol with
  | none =>
    rw [hresolve] at h
    cases h
  | some found =>
    rw [hresolve] at h
    cases h
    rfl

/-- A call that is bound to code goes to the unit itself or to an address that was
    published before. -/
theorem bind_eq_code {ref : Code.FuncRef} {a : Address}
    (h : u.bind k registry ref = .ok (.code a)) :
    (u.defines ref.symbol = true ∧ a = ⟨k, ref.id⟩) ∨
      (u.defines ref.symbol = false ∧ registry.address? ref.symbol = some a) := by
  cases hdef : u.defines ref.symbol with
  | true =>
    rw [bind_of_defines hdef] at h
    cases h
    exact .inl ⟨rfl, rfl⟩
  | false => exact .inr ⟨rfl, Registry.resolve_eq_code.mp (resolve_of_bind hdef h)⟩

/-- A call that is bound to the host goes to no code. -/
theorem bind_eq_host {ref : Code.FuncRef} {i : Intrinsic}
    (h : u.bind k registry ref = .ok (.host i)) :
    u.defines ref.symbol = false ∧ registry.address? ref.symbol = none ∧
      Intrinsic.ofSymbol? ref.symbol = some i := by
  cases hdef : u.defines ref.symbol with
  | true =>
    rw [bind_of_defines hdef] at h
    cases h
  | false => exact ⟨rfl, Registry.resolve_eq_host.mp (resolve_of_bind hdef h)⟩

end CodeUnit

/-! ## Workspaces -/

namespace Workspace

variable {w : Workspace} {k : Nat} {e : Engine}

/-- A routine of an engine, and the routine of the unit it was linked from. -/
theorem Linked.exists_routine (hw : w.Linked) (he : w.engines[k]? = some e)
    {r' : Code.Routine (Link Address)} (hr' : r' ∈ e.code) :
    ∃ u r, w.closed[k]? = some u ∧ r ∈ u.routines ∧
      r.link (u.bind k ⟨(w.engines.take k).map (·.symbols)⟩) = .ok r' := by
  obtain ⟨u, hu⟩ := hw.exists_unit he
  obtain ⟨code, hcode, rfl⟩ := CodeUnit.link_ok.mp (hw.link_eq k u e hu he)
  obtain ⟨r, hr, hlink⟩ := CodeUnit.routine_of_linkRoutines hcode hr'
  exact ⟨u, r, hu, hr, hlink⟩

/-- No call goes to a younger engine. -/
theorem Linked.callee_engine_le (hw : w.Linked) (he : w.engines[k]? = some e)
    {r' : Code.Routine (Link Address)} (hr' : r' ∈ e.code) {a : Address}
    (ha : Link.code a ∈ r'.callees) : a.engine ≤ k := by
  obtain ⟨u, r, hu, hr, hlink⟩ := hw.exists_routine he hr'
  obtain ⟨ref, href, hbind⟩ := (Code.Routine.mem_callees_of_link hlink).mp ha
  cases CodeUnit.bind_eq_code hbind with
  | inl h => exact Nat.le_of_eq (congrArg Address.engine h.2)
  | inr h =>
    obtain ⟨j, v, hj, hv, hlookup⟩ := hw.address?_take h.2
    obtain ⟨d, hd, hbody, hs, rfl⟩ := CodeUnit.lookup_addresses hlookup
    exact Nat.le_of_lt hj

end Workspace

namespace Engine

/-- A routine that is fetched is in the engine that its address names. -/
theorem fetch?_eq_some {engines : List Engine} {a : Address} {r : Code.Routine (Link Address)}
    (h : fetch? engines a = some r) :
    ∃ e, engines[a.engine]? = some e ∧ r ∈ e.code ∧ r.id = a.function := by
  obtain ⟨e, he, hr⟩ := Option.bind_eq_some_iff.mp h
  exact ⟨e, he, List.mem_of_find?_eq_some hr, by simpa using List.find?_some hr⟩

end Engine

end Abacus
