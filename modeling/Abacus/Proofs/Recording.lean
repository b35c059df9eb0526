-- SUMMARY: Where the definitions of a ledger are among the units of a workspace.
import Abacus.Proofs.Handling
import Abacus.Proofs.Ledger

/-!
# Recording

The units of a workspace hold the functions of a ledger: the unit of a function
is the one whose number is the function's generation, since each expression
closes a unit. Apart from anonymous functions the units hold nothing else.
-/

namespace Abacus.Session

open Build Workspace

variable {w w' : Workspace} {f : Function} {ledger : Ledger} {s s' : World}

/-! ## Units with their routines -/

/-- All units, with one open. -/
def shelf (w : Workspace) : List CodeUnit :=
  w.closed ++ [w.unit]

/-- Each unit keeps its routines and what it declares. -/
def Carries (us us' : List CodeUnit) : Prop :=
  ∀ (k : Nat) (u : CodeUnit), us[k]? = some u → ∃ u', us'[k]? = some u' ∧
    u.routines ⊆ u'.routines ∧ ∀ symbol id arity, u.Declares symbol id arity →
      u'.Declares symbol id arity

/-- Each routine was there before, or is one of the new ones. -/
def Confined (us us' : List CodeUnit) (new : Nat → Code.Routine Code.FuncRef → Prop) : Prop :=
  ∀ (k : Nat) (u' : CodeUnit), us'[k]? = some u' → ∀ r ∈ u'.routines,
    (∃ u, us[k]? = some u ∧ r ∈ u.routines) ∨ new k r

theorem getElem?_concat_eq_some {α : Type} {us : List α} {u v : α} {k : Nat} :
    (us ++ [u])[k]? = some v ↔ us[k]? = some v ∨ (k = us.length ∧ u = v) := by
  rcases Nat.lt_trichotomy k us.length with hk | rfl | hk
  · rw [List.getElem?_append_left hk]
    have hne : k ≠ us.length := Nat.ne_of_lt hk
    simp [hne]
  · simp
  · have hnone : us[k]? = none := List.getElem?_eq_none (Nat.le_of_lt hk)
    have hne : k ≠ us.length := Nat.ne_of_gt hk
    rw [List.getElem?_eq_none (by simp; omega), hnone]
    simp [hne]

theorem carries_concat {us : List CodeUnit} {u u' : CodeUnit} (hr : u.routines ⊆ u'.routines)
    (hd : ∀ symbol id arity, u.Declares symbol id arity → u'.Declares symbol id arity) :
    Carries (us ++ [u]) (us ++ [u']) := by
  intro k v hv
  rcases getElem?_concat_eq_some.mp hv with hv | ⟨rfl, rfl⟩
  · exact ⟨v, getElem?_concat_eq_some.mpr (.inl hv), fun _ h => h, fun _ _ _ h => h⟩
  · exact ⟨u', getElem?_concat_eq_some.mpr (.inr ⟨rfl, rfl⟩), hr, hd⟩

theorem confined_concat {us : List CodeUnit} {u u' : CodeUnit}
    {new : Nat → Code.Routine Code.FuncRef → Prop}
    (h : ∀ r ∈ u'.routines, r ∈ u.routines ∨ new us.length r) :
    Confined (us ++ [u]) (us ++ [u']) new := by
  intro k v hv r hr
  rcases getElem?_concat_eq_some.mp hv with hv | ⟨rfl, rfl⟩
  · exact .inl ⟨v, getElem?_concat_eq_some.mpr (.inl hv), hr⟩
  · rcases h r hr with hr | hr
    · exact .inl ⟨u, getElem?_concat_eq_some.mpr (.inr ⟨rfl, rfl⟩), hr⟩
    · exact .inr hr

theorem carries_grown (h : Grown w w') : Carries (shelf w) (shelf w') := by
  unfold shelf
  rw [h.closed]
  refine carries_concat (fun r hr => ?_) h.declares
  rw [h.routines]
  exact hr

theorem confined_grown (h : Grown w w') : Confined (shelf w) (shelf w') fun _ _ => False := by
  unfold shelf
  rw [h.closed]
  refine confined_concat fun r hr => ?_
  rw [h.routines] at hr
  exact .inl hr

/-- The open unit after a function was compiled into it. -/
theorem unit_of_extension {symbol : String} (h : Extension f symbol w w') :
    ∃ r, w'.unit.routines = w.unit.routines ++ [r] ∧ w'.unit.Compiles f symbol r ∧
      ∀ s id n, w.unit.Declares s id n → w'.unit.Declares s id n := by
  obtain @⟨w₁, u, r, grown, current, compiles, rfl, -, -⟩ := h
  have hunit : w₁.unit = u := unit_of_some current
  have hdefine : ∀ s id n, u.Declares s id n → (u.define r).Declares s id n :=
    fun _ _ _ hd => CodeUnit.declares_define.mpr hd
  refine ⟨r, ?_, compiles.mono hdefine, fun s id n hd => ?_⟩
  · change u.routines ++ [r] = _
    rw [← grown.routines, hunit]
  · exact hdefine s id n (hunit ▸ grown.declares s id n hd)

theorem carries_extension {symbol : String} (h : Extension f symbol w w') :
    Carries (shelf w) (shelf w') := by
  obtain ⟨r, hr, -, hd⟩ := unit_of_extension h
  unfold shelf
  rw [h.frame.1]
  refine carries_concat (fun q hq => ?_) hd
  rw [hr]
  exact List.mem_append_left _ hq

theorem confined_extension {symbol : String} (h : Extension f symbol w w') :
    Confined (shelf w) (shelf w') fun k r => k = w.closed.length ∧ r.symbol = symbol := by
  obtain ⟨r, hr, hcompiles, -⟩ := unit_of_extension h
  unfold shelf
  rw [h.frame.1]
  refine confined_concat fun q hq => ?_
  rw [hr] at hq
  rcases List.mem_append.mp hq with hq | hq
  · exact .inl hq
  · obtain rfl := List.mem_singleton.mp hq
    exact .inr ⟨rfl, hcompiles.symbol_eq⟩

theorem shelf_close {u : CodeUnit} {e : Engine} (hu : w.current = some u) :
    shelf (w.close u e) = shelf w ++ [.numbered w.nextUnit] := by
  unfold shelf
  rw [unit_of_some hu]
  rfl

/-- What an expression adds: its own routine, and an empty unit to go on with. -/
theorem shelf_of_placed {a : Address} (h : Placed f w w' a) :
    Carries (shelf w) (shelf w') ∧
    Confined (shelf w) (shelf w') (fun k r => k = w.closed.length ∧
      r.symbol = Symbol.anonymous w.supply.next) ∧
    w'.closed.length = w.closed.length + 1 := by
  obtain @⟨w₁, u, e, extension, current, -, -, rfl⟩ := h
  have hcarries := carries_extension extension
  have hconfined := confined_extension extension
  rw [shelf_close current]
  refine ⟨fun k v hv => ?_, fun k v hv r hr => ?_, ?_⟩
  · obtain ⟨v', hv', hkeeps⟩ := hcarries k v hv
    exact ⟨v', getElem?_concat_eq_some.mpr (.inl hv'), hkeeps⟩
  · rcases getElem?_concat_eq_some.mp hv with hv | ⟨-, rfl⟩
    · exact hconfined k v hv r hr
    · cases hr
  · have hclosed : w₁.closed = w.closed := extension.frame.1
    simp [close, hclosed]

/-! ## Ledgers -/

/-- The units hold the definitions of a ledger, each in the unit of its
    generation, and no other function that has a name. -/
structure Records (ledger : Ledger) (w : Workspace) : Prop where
  plain : ∀ item ∈ ledger, item.Plain
  generations : ledger.countP Item.isExpression = w.closed.length
  unique : ∀ (i j : Nat) (f g : Function), ledger[i]? = some (.definition f) →
    ledger[j]? = some (.definition g) → f.proto.name = g.proto.name → i = j
  compiled : ∀ (i : Nat) (f : Function), ledger[i]? = some (.definition f) →
    ∃ u r, (shelf w)[ledger.generation i]? = some u ∧ r ∈ u.routines ∧
      u.Compiles f f.proto.name r
  recorded : ∀ (k : Nat) (u : CodeUnit), (shelf w)[k]? = some u → ∀ r ∈ u.routines,
    Named r.symbol → ∃ i f, ledger[i]? = some (.definition f) ∧ f.proto.name = r.symbol ∧
      ledger.generation i = k

theorem records_start (config : Config) : Records [] { config } where
  plain := by simp
  generations := rfl
  unique := by simp
  compiled := by simp
  recorded k u hu r hr := by
    rcases getElem?_concat_eq_some.mp hu with hu | ⟨-, rfl⟩
    · cases hu
    · cases hr

/-- Nothing changes for a ledger while no routine is added. -/
theorem Records.grown (h : Records ledger w) (hg : Grown w w') : Records ledger w' where
  plain := h.plain
  generations := by rw [hg.closed]; exact h.generations
  unique := h.unique
  compiled i f hi := by
    obtain ⟨u, r, hu, hr, hcompiles⟩ := h.compiled i f hi
    obtain ⟨u', hu', hroutines, hdeclares⟩ := carries_grown hg _ _ hu
    exact ⟨u', r, hu', hroutines hr, hcompiles.mono hdeclares⟩
  recorded k u hu r hr hname := by
    rcases confined_grown hg k u hu r hr with ⟨v, hv, hrv⟩ | hfalse
    · exact h.recorded k v hv r hrv hname
    · cases hfalse

/-- An item joins a ledger. Its own definition, if it is one, must be new, and is
    all that may be added to the units. -/
theorem Records.append {item : Item} (h : Records ledger w) (hitem : item.Plain)
    (hclosed : w'.closed.length = w.closed.length + if item.isExpression then 1 else 0)
    (hcarries : Carries (shelf w) (shelf w'))
    (hconfined : Confined (shelf w) (shelf w') fun k r => Named r.symbol →
      k = w.closed.length ∧ ∃ f, item = .definition f ∧ f.proto.name = r.symbol)
    (hnew : ∀ f, item = .definition f →
      (∀ (j : Nat) (g : Function), ledger[j]? = some (.definition g) → g.proto.name ≠ f.proto.name) ∧
      ∃ u r, (shelf w')[w.closed.length]? = some u ∧ r ∈ u.routines ∧
        u.Compiles f f.proto.name r) : Records (ledger ++ [item]) w' := by
  have hgen : ∀ {i : Nat}, i ≤ ledger.length →
      Ledger.generation (ledger ++ [item]) i = ledger.generation i :=
    fun hi => Ledger.generation_append hi item
  have hlast : ledger.generation ledger.length = w.closed.length :=
    Ledger.generation_length.trans h.generations
  refine ⟨?_, ?_, ?_, ?_, ?_⟩
  · intro x hx
    rcases List.mem_append.mp hx with hx | hx
    · exact h.plain x hx
    · exact List.mem_singleton.mp hx ▸ hitem
  · rw [hclosed, List.countP_append, h.generations, List.countP_singleton]
  · intro i j f g hi hj hname
    rcases getElem?_concat_eq_some.mp hi with hi | ⟨rfl, rfl⟩ <;>
      rcases getElem?_concat_eq_some.mp hj with hj | ⟨rfl, hg⟩
    · exact h.unique i j f g hi hj hname
    · exact absurd hname ((hnew g hg).1 i f hi)
    · exact absurd hname.symm ((hnew f rfl).1 j g hj)
    · rfl
  · intro i f hi
    rcases getElem?_concat_eq_some.mp hi with hi | ⟨rfl, rfl⟩
    · obtain ⟨hlt, -⟩ := List.getElem?_eq_some_iff.mp hi
      obtain ⟨u, r, hu, hr, hcompiles⟩ := h.compiled i f hi
      obtain ⟨u', hu', hroutines, hdeclares⟩ := hcarries _ _ hu
      exact ⟨u', r, by rw [hgen (Nat.le_of_lt hlt)]; exact hu', hroutines hr,
        hcompiles.mono hdeclares⟩
    · obtain ⟨u, r, hu, hr, hcompiles⟩ := (hnew f rfl).2
      exact ⟨u, r, by rw [hgen (Nat.le_refl _), hlast]; exact hu, hr, hcompiles⟩
  · intro k u hu r hr hname
    rcases hconfined k u hu r hr with ⟨v, hv, hrv⟩ | hnewr
    · obtain ⟨i, f, hi, hf, hk⟩ := h.recorded k v hv r hrv hname
      obtain ⟨hlt, -⟩ := List.getElem?_eq_some_iff.mp hi
      exact ⟨i, f, getElem?_concat_eq_some.mpr (.inl hi), hf,
        by rw [hgen (Nat.le_of_lt hlt), hk]⟩
    · obtain ⟨rfl, f, hf, hfname⟩ := hnewr hname
      exact ⟨ledger.length, f, getElem?_concat_eq_some.mpr (.inr ⟨rfl, hf⟩), hfname,
        by rw [hgen (Nat.le_refl _), hlast]⟩

/-! ## One item -/

/-- A name that a ledger defines has a body in the workspace. -/
theorem Records.hasBody (hw : w.Coherent) (h : Records ledger w) {i : Nat}
    (hi : ledger[i]? = some (.definition f)) :
    ∃ sig, w.signature? f.proto.name = some sig ∧ sig.hasBody = true := by
  obtain ⟨u, r, hu, hr, hcompiles⟩ := h.compiled i f hi
  have hmem : u ∈ w.opened.units := by
    rw [units_opened]
    exact List.mem_of_getElem? hu
  obtain ⟨d, hd, hb, hs, -, -⟩ := (hw.opened.wellFormed u hmem).declaration_of_routine r hr
  have hsymbol : d.symbol = f.proto.name := hs.trans hcompiles.symbol_eq
  have hdecl : d ∈ w.declarations f.proto.name := hsymbol ▸ mem_declarations_of_opened hw hmem hd
  obtain ⟨sig, hsig⟩ := exists_signature? hdecl
  exact ⟨sig, hsig, (hasBody_of_signature? hsig).mpr ⟨d, hdecl, hb⟩⟩

theorem Records.rejected {item : Item} {e : CompileError} (h : Records ledger s.workspace)
    (hh : Handled s item (.error (.rejected e) s')) : Records ledger s'.workspace := by
  cases hh with
  | rejected objects kept quiet =>
    have hnumbered : Records ledger (numbered s.workspace item) := by
      cases item <;> exact ⟨h.plain, h.generations, h.unique, h.compiled, h.recorded⟩
    exact hnumbered.grown kept.toGrown

/-- An expression joins the ledger as soon as it is linked. -/
theorem Records.placed {a : Address} (h : Records ledger w) (hitem : (Item.expression f).Plain)
    (placed : Placed f w w' a) : Records (ledger ++ [.expression f]) w' := by
  obtain ⟨hcarries, hconfined, hclosed⟩ := shelf_of_placed placed
  refine h.append hitem hclosed hcarries ?_ (by simp)
  intro k u hu r hr
  rcases hconfined k u hu r hr with hold | ⟨-, hr⟩
  · exact .inl hold
  · exact .inr fun hname => absurd hr (hname _)

/-- An accepted item joins the ledger. -/
theorem Records.accepted {item : Item} {reply : Reply} (hw : s.workspace.Coherent)
    (h : Records ledger s.workspace) (hitem : item.Plain) (hh : Handled s item (.ok reply s')) :
    Records (ledger ++ [item]) s'.workspace := by
  cases hh with
  | declared accepts grown signature? quiet =>
    refine h.append hitem (by rw [grown.closed]; rfl) (carries_grown grown) ?_ (by simp)
    intro k u hu r hr
    rcases confined_grown grown k u hu r hr with hold | hfalse
    · exact .inl hold
    · cases hfalse
  | @defined f _ accepts extension quiet =>
    have hclosed := extension.frame.1
    refine h.append hitem (by rw [hclosed]; rfl) (carries_extension extension) ?_ ?_
    · intro k u hu r hr
      rcases confined_extension extension k u hu r hr with hold | ⟨hk, hr⟩
      · exact .inl hold
      · exact .inr fun _ => ⟨hk, f, rfl, hr.symm⟩
    · rintro g ⟨⟩
      refine ⟨fun j g hg hname => ?_, ?_⟩
      · obtain ⟨sig, hsig, hb⟩ := h.hasBody hw hg
        rw [hname] at hsig
        rw [(accepts.1 sig hsig).1] at hb
        cases hb
      · obtain ⟨r, hr, hcompiles, -⟩ := unit_of_extension extension
        refine ⟨s'.workspace.unit, r, ?_, by rw [hr]; simp, hcompiles⟩
        exact getElem?_concat_eq_some.mpr (.inr ⟨by rw [hclosed], rfl⟩)
  | evaluated accepts placed run out => exact h.placed hitem placed

theorem Trace.records {items ledger : List Item} (h : Trace items ledger s) :
    Records ledger s.workspace := by
  refine h.keeps (P := fun _ ledger w => Records ledger w) records_start ?_ ?_
  · exact fun hs hitem hh ih => ih.accepted hs.coherent hitem hh
  · exact fun _ _ hh ih => ih.rejected hh

end Abacus.Session
