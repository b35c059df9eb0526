-- SUMMARY: A reference interpreter over accepted items, with no units in it.
import Abacus.Engine
import Abacus.Proofs.Evaluation

/-!
# Ledgers

A ledger lists the items that a session has accepted, oldest first. It is all
that the reference interpreter knows: there is one map from names to their
definitions, and a function is told apart from others by its position.

A call means whatever its name stood for when the caller was linked, which is
when the first expression at or after the caller was accepted: the definition of
that name, if there was one by then, and otherwise the intrinsic.
-/

namespace Abacus

def Item.isExpression : Item → Bool
  | .expression _ => true
  | _ => false

/-- Whether an item gives a body to a name. -/
def Item.defines (name : String) : Item → Bool
  | .definition f => f.proto.name == name
  | _ => false

/-- The function that is to be compiled for an item. -/
def Item.function? : Item → Option Function
  | .definition f => some f
  | .external _ => none
  | .expression f => some f

/-- Accepted items, oldest first. -/
abbrev Ledger := List Item

namespace Ledger

/-- The position of the definition of a name. -/
def definition? (ledger : Ledger) (name : String) : Option Nat :=
  ledger.findIdx? (Item.defines name)

/-- The function at a position. -/
def function? (ledger : Ledger) (i : Nat) : Option Function :=
  ledger[i]?.bind Item.function?

/-- The position of the first expression at or after the given one. -/
def linkTime (ledger : Ledger) (i : Nat) : Nat :=
  i + (ledger.drop i).findIdx Item.isExpression

/-- What a call in the function at a position runs: the definition of the callee
    if it was accepted before the caller was linked, and else the intrinsic. -/
def callee? (ledger : Ledger) (i : Nat) (callee : String) : Option (Link Nat) :=
  match (ledger.definition? callee).filter (· < ledger.linkTime i) with
  | some j => some (.code j)
  | none => (Intrinsic.ofSymbol? callee).map .host

/-- Runs a function of the ledger, with calls nested at most `depth` deep. -/
def run (ledger : Ledger) : Nat → Link Nat → List Float → Code.Exec Float
  | _, .host intrinsic, args => intrinsic.exec args
  | 0, .code _, _ => throw .tooDeep
  | depth + 1, .code i, args =>
    match ledger.function? i with
    | none => throw .stuck
    | some f =>
      f.eval (fun callee args =>
        match ledger.callee? i callee with
        | some link => run ledger depth link args
        | none => throw .stuck) args

/-- The function at a position, run without arguments, ends with a value after
    writing some bytes. -/
def Evaluates (ledger : Ledger) (i : Nat) (x : Float) (bytes : List UInt8) : Prop :=
  ∃ depth, (ledger.run depth (.code i) []).run [] = .ok (x, bytes)

/-! ## Generations -/

/-- The number of expressions before a position. -/
def generation (ledger : Ledger) (i : Nat) : Nat :=
  (ledger.take i).countP Item.isExpression

variable {ledger : Ledger} {i j : Nat}

theorem generation_mono (h : i ≤ j) : ledger.generation i ≤ ledger.generation j :=
  (List.take_prefix_take_left h).sublist.countP_le

theorem generation_length : ledger.generation ledger.length = ledger.countP Item.isExpression := by
  rw [generation, List.take_length]

theorem generation_append (h : i ≤ ledger.length) (item : Item) :
    generation (ledger ++ [item]) i = ledger.generation i := by
  rw [generation, List.take_append_of_le_length h, generation]

/-- The generation of a later position counts the expressions in between. -/
theorem generation_add (ledger : Ledger) (i n : Nat) :
    ledger.generation (i + n) =
      ledger.generation i + ((ledger.drop i).take n).countP Item.isExpression := by
  rw [generation, generation, List.take_add, List.countP_append]

theorem lt_findIdx_iff {items : List Item} {n : Nat} {item : Item} (hn : items[n]? = some item)
    (hitem : item.isExpression = false) :
    n < items.findIdx Item.isExpression ↔ (items.take n).countP Item.isExpression = 0 := by
  induction items generalizing n with
  | nil => cases hn
  | cons x items ih =>
    cases n with
    | zero =>
      cases hn
      simp [List.findIdx_cons, hitem]
    | succ n =>
      rw [List.getElem?_cons_succ] at hn
      rw [List.findIdx_cons, List.take_succ_cons, List.countP_cons]
      cases hx : x.isExpression with
      | true => simp
      | false => simp [ih hn]

/-- A definition was accepted before a function was linked exactly if no more
    expressions precede it. -/
theorem lt_linkTime_iff {item : Item} (hj : ledger[j]? = some item)
    (hitem : item.isExpression = false) :
    j < ledger.linkTime i ↔ ledger.generation j ≤ ledger.generation i := by
  rcases Nat.lt_or_ge j i with hji | hij
  · have hlt : j < ledger.linkTime i := Nat.lt_of_lt_of_le hji (Nat.le_add_right _ _)
    exact iff_of_true hlt (generation_mono (Nat.le_of_lt hji))
  · obtain ⟨n, rfl⟩ := Nat.exists_eq_add_of_le hij
    have hget : (ledger.drop i)[n]? = some item := by rw [List.getElem?_drop, hj]
    have hfind := lt_findIdx_iff hget hitem
    rw [generation_add, linkTime]
    omega

/-! ## Callees -/

/-- The definition of a name that is defined once. -/
theorem definition?_eq_some {f : Function} (hj : ledger[j]? = some (.definition f))
    (hunique : ∀ (i : Nat) (g : Function), ledger[i]? = some (.definition g) →
      g.proto.name = f.proto.name → i = j) : ledger.definition? f.proto.name = some j := by
  obtain ⟨hlt, heq⟩ := List.getElem?_eq_some_iff.mp hj
  refine List.findIdx?_eq_some_iff_getElem.mpr ⟨hlt, by simp [heq, Item.defines], ?_⟩
  intro i hij hdef
  cases hitem : ledger[i] with
  | definition g =>
    rw [hitem] at hdef
    have hi : ledger[i]? = some (.definition g) := by rw [List.getElem?_eq_getElem (by omega), hitem]
    have := hunique i g hi (by simpa [Item.defines] using hdef)
    omega
  | external proto => rw [hitem] at hdef; cases hdef
  | expression g => rw [hitem] at hdef; cases hdef

theorem definition_of_definition? {name : String} (h : ledger.definition? name = some j) :
    ∃ f, ledger[j]? = some (.definition f) ∧ f.proto.name = name := by
  obtain ⟨hlt, hdef, -⟩ := List.findIdx?_eq_some_iff_getElem.mp h
  cases hitem : ledger[j] with
  | definition f =>
    rw [hitem] at hdef
    exact ⟨f, by rw [List.getElem?_eq_getElem hlt, hitem], by simpa [Item.defines] using hdef⟩
  | external proto => rw [hitem] at hdef; cases hdef
  | expression f => rw [hitem] at hdef; cases hdef

/-- A call runs the definition of its callee if that is of no later generation. -/
theorem callee?_of_definition {name : String} (h : ledger.definition? name = some j)
    (hgen : ledger.generation j ≤ ledger.generation i) :
    ledger.callee? i name = some (.code j) := by
  obtain ⟨f, hj, -⟩ := definition_of_definition? h
  have hlt : j < ledger.linkTime i := (lt_linkTime_iff hj rfl).mpr hgen
  have hfilter : (ledger.definition? name).filter (· < ledger.linkTime i) = some j := by
    rw [h, Option.filter_some, if_pos (by simpa using hlt)]
  rw [callee?, hfilter]

theorem callee?_of_no_definition {name : String}
    (h : ∀ j, ledger.definition? name = some j → ¬ ledger.generation j ≤ ledger.generation i) :
    ledger.callee? i name = (Intrinsic.ofSymbol? name).map .host := by
  have hfilter : (ledger.definition? name).filter (· < ledger.linkTime i) = none := by
    refine Option.filter_eq_none_iff.mpr fun j hdef hlt => ?_
    obtain ⟨f, hj, -⟩ := definition_of_definition? hdef
    exact h j hdef ((lt_linkTime_iff hj rfl).mp (by simpa using hlt))
  rw [callee?, hfilter]

end Ledger

end Abacus
