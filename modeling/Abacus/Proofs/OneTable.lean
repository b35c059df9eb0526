-- SUMMARY: A session accepts and rejects items as one flat table of signatures does.
import Abacus.Proofs.Handling

/-!
# One table for all units

Acceptance is computed from an open unit, the closed units before it and the
declarations that were forwarded from one to another. A session nevertheless
behaves as if it kept a single table: after any number of items the table is the
union of all units, and the next item is accepted exactly if the table accepts
it.
-/

namespace Abacus

/-- A table is the union of the declarations of all units, those of anonymous
    functions left out. -/
structure Table.Unites (T : Table) (w : Workspace) : Prop where
  declared : ∀ u ∈ w.units, ∀ d ∈ u.declarations, Session.Named d.symbol →
    ∃ sig, T d.symbol = some sig ∧ sig.arity = d.arity ∧ (d.hasBody = true → sig.hasBody = true)
  known : ∀ name sig, T name = some sig → ∃ u ∈ w.units, ∃ d ∈ u.declarations,
    d.symbol = name ∧ d.arity = sig.arity ∧ d.hasBody = sig.hasBody

namespace Session

open Build Workspace

variable {s s' : World} {T : Table} {items ledger : List Item} {item : Item}

/-- The table is what a workspace knows about names. -/
structure Tracks (T : Table) (w : Workspace) : Prop where
  named : ∀ name, Named name → T name = w.signature? name
  anonymous : ∀ k, T (Symbol.anonymous k) = none

theorem Tracks.agrees {w : Workspace} (h : Tracks T w) : T.Agrees w.signature? :=
  fun name hname => h.named name hname.ne_anonymous

theorem Tracks.unites {w : Workspace} (hw : w.Coherent) (h : Tracks T w) : T.Unites w where
  declared u hu d hd hname := by
    have hmem : d ∈ w.declarations d.symbol := (mem_declarations hw).mpr ⟨u, hu, hd, rfl⟩
    obtain ⟨sig, hs⟩ := exists_signature? hmem
    refine ⟨sig, (h.named _ hname).trans hs, (arity_of_signature? hw hs hmem).symm, fun hb => ?_⟩
    exact (hasBody_of_signature? hs).mpr ⟨d, hmem, hb⟩
  known name sig hT := by
    have hname : Named name := by
      rintro k rfl
      rw [h.anonymous k] at hT
      cases hT
    have hs := (h.named name hname).symm.trans hT
    have hbody := hasBody_of_signature? hs
    -- A declaration with the body, if the table says there is one, and else any.
    obtain ⟨d, hd, hb⟩ : ∃ d ∈ w.declarations name, d.hasBody = sig.hasBody := by
      cases hsig : sig.hasBody with
      | true =>
        obtain ⟨d, hd, hb⟩ := hbody.mp hsig
        exact ⟨d, hd, hb⟩
      | false =>
        obtain ⟨d, hd⟩ := exists_of_signature? hs
        refine ⟨d, hd, Bool.eq_false_iff.mpr fun hb => ?_⟩
        rw [hbody.mpr ⟨d, hd, hb⟩] at hsig
        cases hsig
    obtain ⟨u, hu, hdu, hds⟩ := (mem_declarations hw).mp hd
    exact ⟨u, hu, d, hdu, hds, arity_of_signature? hw hs hd, hb⟩

/-! ## One item -/

/-- An item is accepted if the table accepts it. -/
theorem Handled.accepts {r : EStateM.Result Fault World Reply} (h : Handled s item r)
    (hr : ∀ e s', r ≠ .error (.rejected e) s') : Table.Accepts s.workspace.signature? item := by
  cases h with
  | rejected objects kept quiet => exact absurd rfl (hr _ _)
  | declared accepts grown signature? quiet => exact accepts
  | defined accepts extension quiet => exact accepts
  | unresolved accepts => exact accepts
  | halted accepts placed run => exact accepts
  | evaluated accepts placed run out => exact accepts

/-- An item is rejected if the table has an objection, and for that reason. -/
theorem Handled.objects {e : CompileError} (h : Handled s item (.error (.rejected e) s')) :
    Table.Objects s.workspace.signature? item e := by
  cases h with
  | rejected objects kept quiet => exact objects

theorem Tracks.rejected {e : CompileError} (hs : Sound s.workspace) (ht : Tracks T s.workspace)
    (hitem : item.Plain) (h : Handled s item (.error (.rejected e) s')) :
    Tracks (T.step item) s'.workspace := by
  have hrejects : ¬ T.Accepts item :=
    Table.not_accepts_of_objects (ht.agrees.symm.objects hitem h.objects)
  rw [Table.step, if_neg hrejects]
  refine ⟨fun name hname => ?_, ht.anonymous⟩
  rw [(hs.rejected h).2]
  exact ht.named name hname

/-- Tables that say the same about names do so after the same item. -/
theorem Tracks.after_eq {w : Workspace} (ht : Tracks T w) {name : String} (hname : Named name)
    (hitem : item.Plain) : T.after item name = Table.after w.signature? item name := by
  cases item with
  | external proto =>
    have heq := ht.agrees proto.name hitem
    cases hsig : w.signature? proto.name with
    | some sig =>
      simp only [Table.after, heq, hsig]
      exact ht.named name hname
    | none =>
      simp only [Table.after, heq, hsig, Table.insert, ht.named name hname]
  | definition f => simp only [Table.after, Table.insert, ht.named name hname]
  | expression f => exact ht.named name hname

theorem Tracks.accepted {reply : Reply} (hs : Sound s.workspace) (ht : Tracks T s.workspace)
    (hitem : item.Plain) (h : Handled s item (.ok reply s')) :
    Tracks (T.step item) s'.workspace := by
  have haccepts : T.Accepts item :=
    ht.agrees.symm.accepts hitem (h.accepts fun _ _ hr => by cases hr)
  rw [Table.step, if_pos haccepts]
  refine ⟨fun name hname => ?_, fun k => ?_⟩
  · rw [(hs.accepted hitem h).2 name hname, ht.after_eq hname hitem]
  · rw [Table.after_anonymous hitem, ht.anonymous]

/-! ## Any number of items -/

theorem Trace.tracks (h : Trace items ledger s) : Tracks (Table.ofItems items) s.workspace := by
  refine h.keeps (P := fun items _ w => Tracks (Table.ofItems items) w) ?_ ?_ ?_
  · exact fun config => ⟨fun _ _ => rfl, fun _ => rfl⟩
  · intro items ledger s s' item reply hs hitem hh ih
    simpa using ih.accepted hs hitem hh
  · intro items ledger s s' item e hs hitem hh ih
    simpa using ih.rejected hs hitem hh

/-- After any items that were read from texts, the table that was kept beside is
    the union of all units. The next item is accepted exactly if the table accepts
    it; if it is rejected, the table gives the reason; and a definition or extern
    that is accepted is answered at once. -/
theorem handle_refines_table (h : Trace items ledger s) :
    (Table.ofItems items).Unites s.workspace ∧
    ∀ item : Item, item.Parsed →
      ((Table.ofItems items).Accepts item ↔ ∀ e s', handle item s ≠ .error (.rejected e) s') ∧
      (∀ e s', handle item s = .error (.rejected e) s' → (Table.ofItems items).Objects item e) ∧
      ((Table.ofItems items).Accepts item → (∀ f, item ≠ .expression f) →
        ∃ reply s', handle item s = .ok reply s') := by
  have hs := h.sound
  have ht := h.tracks
  refine ⟨ht.unites hs.coherent, fun item parsed => ?_⟩
  have hitem := parsed.plain
  have hh := handled_handle hs.coherent hs.linked hs.fresh hitem
  have hobjects : ∀ e s', handle item s = .error (.rejected e) s' →
      (Table.ofItems items).Objects item e := by
    intro e s' hr
    rw [hr] at hh
    exact ht.agrees.symm.objects hitem hh.objects
  refine ⟨⟨fun ha e s' hr => ?_, fun hr => ?_⟩, hobjects, fun ha hne => ?_⟩
  · exact Table.not_accepts_of_objects (hobjects e s' hr) ha
  · exact ht.agrees.symm.accepts hitem (hh.accepts hr)
  · generalize hr : handle item s = r at hh hobjects
    cases hh with
    | rejected objects kept quiet =>
      exact absurd ha (Table.not_accepts_of_objects (hobjects _ _ rfl))
    | declared accepts grown signature? quiet => exact ⟨_, _, rfl⟩
    | defined accepts extension quiet => exact ⟨_, _, rfl⟩
    | unresolved accepts => exact absurd rfl (hne _)
    | halted accepts placed run => exact absurd rfl (hne _)
    | evaluated accepts placed run out => exact absurd rfl (hne _)

/-- After an extern and a function that calls it, a definition with another
    number of parameters is rejected. -/
theorem handle_refines_table_at_mismatch : ∃ items ledger s, Trace items ledger s ∧
    ¬ (Table.ofItems items).Accepts (.definition ⟨⟨"foo", ["x", "y"]⟩, .var "x"⟩) ∧
    ∃ e s', handle (.definition ⟨⟨"foo", ["x", "y"]⟩, .var "x"⟩) s = .error (.rejected e) s' ∧
      (Table.ofItems items).Objects (.definition ⟨⟨"foo", ["x", "y"]⟩, .var "x"⟩) e := by
  have p₁ : (Item.external ⟨"foo", ["x"]⟩).Parsed :=
    ⟨.standard, "extern foo(x)", .ofText "extern foo(x)", _, List.suffix_rfl, rfl⟩
  have p₂ : (Item.definition ⟨⟨"bar", ["y"]⟩, .call "foo" [.var "y"]⟩).Parsed :=
    ⟨.standard, "def bar(y) foo(y)", .ofText "def bar(y) foo(y)", _, List.suffix_rfl, rfl⟩
  have p₃ : (Item.definition ⟨⟨"foo", ["x", "y"]⟩, .var "x"⟩).Parsed :=
    ⟨.standard, "def foo(x y) x", .ofText "def foo(x y) x", _, List.suffix_rfl, rfl⟩
  have h₁ := (Trace.start {}).accepted p₁ rfl
  have h₂ := h₁.accepted p₂ rfl
  have h₃ := (handle_refines_table h₂).2 _ p₃
  exact ⟨_, _, _, h₂, by decide +kernel, _, _, rfl, h₃.2.1 _ _ rfl⟩

end Session

end Abacus
