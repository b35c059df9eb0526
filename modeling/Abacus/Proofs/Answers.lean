-- SUMMARY: What a session answers to an item, told by the ledger alone.
import Abacus.Proofs.OneTable
import Abacus.Proofs.Pending
import Abacus.Proofs.Reference

/-!
# Answers

To a ledger and an item there is one answer, and every session with that ledger
gives it: rejected items, and how the accepted ones were spread over units, leave
no mark. The table of the ledger says whether the item is accepted, the pending
definitions whether an expression can be linked, and the reference interpreter
what its value is and what it writes.
-/

namespace Abacus.Session

open Build Workspace

variable {s : World} {ledger : Ledger} {items : List Item} {item : Item}

/-- What became of an item. -/
inductive Answer where
  | accepted (reply : Reply)
  | rejected
  /-- A name that is called has no definition. -/
  | unresolved (name : String)
  /-- The expression has no value. -/
  | halted
deriving DecidableEq, Repr

/-- The answer to an item, and all that is on standard output by then. -/
def answer : EStateM.Result Fault World Reply → Answer × List UInt8
  | .ok reply s => (.accepted reply, s.transcript.out)
  | .error (.rejected _) s => (.rejected, s.transcript.out)
  | .error (.unresolved name) s => (.unresolved name, s.transcript.out)
  | .error (.halted _) s => (.halted, s.transcript.out)

/-! ## One answer -/

/-- What decides the answers to items: a table of signatures, the name that an
    expression cannot be linked because of, and its value and what it writes. -/
structure Oracle where
  table     : Table
  dangling? : Function → Option String
  Evaluates : Function → Float → List UInt8 → Prop

/-- The answer to an item, and what handling it writes to standard output. -/
inductive Oracle.Answers (o : Oracle) : Item → Answer → List UInt8 → Prop where
  | rejected {item : Item} (rejects : ¬ o.table.Accepts item) : Answers o item .rejected []
  | declared {proto : Prototype} (accepts : o.table.Accepts (.external proto)) :
      Answers o (.external proto) (.accepted (.declared proto.name)) []
  | defined {f : Function} (accepts : o.table.Accepts (.definition f)) :
      Answers o (.definition f) (.accepted (.defined f.proto.name)) []
  | unresolved {f : Function} {name : String} (accepts : o.table.Accepts (.expression f))
      (dangling? : o.dangling? f = some name) : Answers o (.expression f) (.unresolved name) []
  | halted {f : Function} (accepts : o.table.Accepts (.expression f))
      (dangling? : o.dangling? f = none) (endless : ∀ x bytes, ¬ o.Evaluates f x bytes) :
      Answers o (.expression f) .halted []
  | evaluated {f : Function} {x : Float} {bytes : List UInt8}
      (accepts : o.table.Accepts (.expression f)) (dangling? : o.dangling? f = none)
      (value : o.Evaluates f x bytes)
      (unique : ∀ y written, o.Evaluates f y written → (y, written) = (x, bytes)) :
      Answers o (.expression f) (.accepted (.evaluated x)) bytes

/-- There is one answer only. -/
theorem Oracle.Answers.unique {o : Oracle} {a₁ a₂ : Answer} {bytes₁ bytes₂ : List UInt8}
    (h₁ : o.Answers item a₁ bytes₁) (h₂ : o.Answers item a₂ bytes₂) :
    a₁ = a₂ ∧ bytes₁ = bytes₂ := by
  cases h₁ <;> cases h₂ <;> grind

/-- A session gives the answer of an oracle that knows its signatures, what it
    cannot link and what its code does. -/
theorem Handled.answers {o : Oracle} {r : EStateM.Result Fault World Reply} (h : Handled s item r)
    (hitem : item.Plain) (agrees : o.table.Agrees s.workspace.signature?)
    (link : ∀ f name, item = .expression f → o.table.Accepts item →
      ((∃ s', r = .error (.unresolved name) s') ↔ o.dangling? f = some name))
    (value : ∀ f a w', item = .expression f → Placed f s.workspace w' a → ∀ x bytes,
      ((runAt w'.engines a).run [] = .ok (x, bytes) ↔ o.Evaluates f x bytes)) :
    ∃ a bytes, o.Answers item a bytes ∧ answer r = (a, s.transcript.out ++ bytes) := by
  cases h with
  | rejected objects kept quiet =>
    refine ⟨_, _, .rejected fun haccepts => ?_, by simpa [answer, Quiet] using quiet⟩
    exact Table.not_accepts_of_objects objects (agrees.accepts hitem haccepts)
  | declared accepts grown signature? quiet =>
    exact ⟨_, _, .declared (agrees.symm.accepts hitem accepts),
      by simpa [answer, Quiet] using quiet⟩
  | defined accepts extension quiet =>
    exact ⟨_, _, .defined (agrees.symm.accepts hitem accepts), by simpa [answer, Quiet] using quiet⟩
  | unresolved accepts extension current _ quiet =>
    have haccepts := agrees.symm.accepts hitem accepts
    have hname := (link _ _ rfl haccepts).mp ⟨_, rfl⟩
    exact ⟨_, _, .unresolved haccepts hname, by simpa [answer, Quiet] using quiet⟩
  | halted accepts placed run quiet =>
    have haccepts := agrees.symm.accepts hitem accepts
    have hnone := Option.eq_none_iff_forall_ne_some.mpr fun name hname => by
      obtain ⟨_, ⟨⟩⟩ := (link _ name rfl haccepts).mpr hname
    refine ⟨_, _, .halted haccepts hnone fun x bytes hx => ?_, by simpa [answer, Quiet] using quiet⟩
    rw [← value _ _ _ rfl placed, run] at hx
    cases hx
  | evaluated accepts placed run out =>
    have haccepts := agrees.symm.accepts hitem accepts
    have hnone := Option.eq_none_iff_forall_ne_some.mpr fun name hname => by
      obtain ⟨_, ⟨⟩⟩ := (link _ name rfl haccepts).mpr hname
    refine ⟨_, _, .evaluated haccepts hnone ((value _ _ _ rfl placed _ _).mp run)
      fun y written hy => ?_, congrArg _ out⟩
    rw [← value _ _ _ rfl placed, run] at hy
    exact (Except.ok.inj hy).symm

/-! ## Ledgers -/

/-- A ledger knows all that a session knows about names. -/
theorem Trace.tracks_ledger (h : Trace items ledger s) :
    Tracks (Table.ofItems ledger) s.workspace := by
  refine h.keeps (P := fun _ ledger w => Tracks (Table.ofItems ledger) w) ?_ ?_ ?_
  · exact fun config => ⟨fun _ _ => rfl, fun _ => rfl⟩
  · intro items ledger s s' item reply hs hitem hh ih
    simpa using ih.accepted hs hitem hh
  · intro items ledger s s' item e hs _ hh ih
    have hsig := (hs.rejected hh).2
    exact ⟨fun name hname => hsig ▸ ih.named name hname, ih.anonymous⟩

/-- What a ledger decides. -/
def oracle (ledger : Ledger) : Oracle where
  table     := Table.ofItems ledger
  dangling? := ledger.dangling?
  Evaluates f := Ledger.Evaluates (ledger ++ [.expression f]) ledger.length

/-- Every session with a ledger gives the ledger's answers. -/
theorem Trace.answers (h : Trace items ledger s) (hitem : item.Plain) :
    ∃ a bytes, (oracle ledger).Answers item a bytes ∧
      answer (handle item s) = (a, s.transcript.out ++ bytes) := by
  have hs := h.sound
  have hagrees := h.tracks_ledger.agrees
  have hh := hs.handled hitem
  refine hh.answers hitem hagrees ?_ ?_
  · rintro f name rfl accepts
    refine h.unresolved_iff hitem (fun e s' hr => ?_) name
    rw [hr] at hh
    exact Table.not_accepts_of_objects hh.objects (hagrees.accepts hitem accepts)
  · rintro f a w' rfl placed
    exact runAt_iff_evaluates hs h.records hitem placed

end Abacus.Session
