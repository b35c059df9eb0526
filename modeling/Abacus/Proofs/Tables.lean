-- SUMMARY: One flat table of signatures, and what it makes of items.
import Abacus.Proofs.Names
import Abacus.Proofs.Signatures

/-!
# Signature tables

A table knows the signature of each name and nothing about units. An item is
accepted or not by looking at the table alone, and an accepted item changes the
entry of its own name at most.
-/

namespace Abacus

/-- The signature of each name. -/
abbrev Table := String → Option Signature

namespace Table

def empty : Table := fun _ => none

def insert (T : Table) (name : String) (sig : Signature) : Table :=
  fun n => if n = name then some sig else T n

def arity? (T : Table) (name : String) : Option Nat :=
  (T name).map (·.arity)

/-- A name may be given a body: it has none, and no other number of parameters. -/
def Admits (T : Table) (name : String) (arity : Nat) : Prop :=
  ∀ sig ∈ T name, sig.hasBody = false ∧ sig.arity = arity

/-- What is wrong with the body of a function that is about to be defined. -/
def bodyObjection? (T : Table) (f : Function) : Option CompileError :=
  f.body.objection? f.proto.params (T.insert f.proto.name ⟨f.proto.arity, false⟩).arity?

/-- The items that fit a table. -/
def Accepts (T : Table) : Item → Prop
  | .external proto => ∀ sig ∈ T proto.name, sig.arity = proto.arity
  | .definition f => T.Admits f.proto.name f.proto.arity ∧ T.bodyObjection? f = none
  | .expression f => f.body.objection? f.proto.params T.arity? = none

instance (T : Table) (item : Item) : Decidable (T.Accepts item) :=
  match item with
  | .external _ => inferInstanceAs (Decidable (∀ sig ∈ _, _))
  | .definition _ => inferInstanceAs (Decidable ((∀ sig ∈ _, _) ∧ _))
  | .expression _ => inferInstanceAs (Decidable (_ = none))

/-- The errors that an item may be rejected with. A definition whose name has
    both a body and another number of parameters may be rejected for either. -/
inductive Objects (T : Table) : Item → CompileError → Prop where
  | external {proto : Prototype} {sig : Signature} (known : T proto.name = some sig)
      (arity : sig.arity ≠ proto.arity) :
      Objects T (.external proto) (.arityMismatch proto.name sig.arity proto.arity)
  | duplicate {f : Function} {sig : Signature} (known : T f.proto.name = some sig)
      (body : sig.hasBody = true) :
      Objects T (.definition f) (.duplicateDefinition f.proto.name)
  | arity {f : Function} {sig : Signature} (known : T f.proto.name = some sig)
      (arity : sig.arity ≠ f.proto.arity) :
      Objects T (.definition f) (.arityMismatch f.proto.name sig.arity f.proto.arity)
  | body {f : Function} {e : CompileError} (admits : T.Admits f.proto.name f.proto.arity)
      (objection : T.bodyObjection? f = some e) : Objects T (.definition f) e
  | expression {f : Function} {e : CompileError}
      (objection : f.body.objection? f.proto.params T.arity? = some e) :
      Objects T (.expression f) e

/-- The table after an accepted item. -/
def after (T : Table) : Item → Table
  | .external proto =>
    match T proto.name with
    | some _ => T
    | none => T.insert proto.name ⟨proto.arity, false⟩
  | .definition f => T.insert f.proto.name ⟨f.proto.arity, true⟩
  | .expression _ => T

/-- The table after an item; one that is not accepted leaves it as it is. -/
def step (T : Table) (item : Item) : Table :=
  if T.Accepts item then T.after item else T

/-- The table after items in order. -/
def ofItems (items : List Item) : Table :=
  items.foldl step empty

@[simp] theorem ofItems_append (items : List Item) (item : Item) :
    ofItems (items ++ [item]) = (ofItems items).step item := by
  simp [ofItems]

theorem insert_of_ne {T : Table} {name n : String} {sig : Signature} (h : n ≠ name) :
    T.insert name sig n = T n :=
  if_neg h

/-- Anonymous functions are none of a table's business. -/
theorem after_anonymous {T : Table} {item : Item} (hitem : item.Plain) (k : Nat) :
    T.after item (Symbol.anonymous k) = T (Symbol.anonymous k) := by
  cases item with
  | external proto =>
    cases h : T proto.name with
    | some sig => simp only [after, h]
    | none =>
      simp only [after, h]
      exact insert_of_ne (Symbol.IsWord.ne_anonymous hitem k).symm
  | definition f => exact insert_of_ne (hitem.1.ne_anonymous k).symm
  | expression f => rfl

theorem not_accepts_of_objects {T : Table} {item : Item} {e : CompileError}
    (h : T.Objects item e) : ¬ T.Accepts item := by
  cases h with
  | external known arity => exact fun h => arity (h _ known)
  | duplicate known body =>
    rintro ⟨hadmits, -⟩
    rw [(hadmits _ known).1] at body
    cases body
  | arity known arity => exact fun h => arity (h.1 _ known).2
  | body admits objection =>
    rintro ⟨-, hnone⟩
    rw [hnone] at objection
    cases objection
  | expression objection =>
    intro hnone
    rw [show _ = none from hnone] at objection
    cases objection

/-! ## Tables that agree -/

/-- Two tables say the same about all names that a text can hold. -/
def Agrees (T T' : Table) : Prop :=
  ∀ name, Symbol.IsWord name → T name = T' name

variable {T T' : Table}

theorem Agrees.symm (h : T.Agrees T') : T'.Agrees T :=
  fun name hname => (h name hname).symm

theorem Agrees.objection?_eq (h : T.Agrees T') {params : List String} {e : Expr} (he : e.Plain) :
    e.objection? params T.arity? = e.objection? params T'.arity? := by
  refine Expr.objection?_congr fun c hc => ?_
  unfold arity?
  rw [h c (he c hc)]

theorem Agrees.insert (h : T.Agrees T') (name : String) (sig : Signature) :
    (T.insert name sig).Agrees (T'.insert name sig) := by
  intro n hn
  unfold Table.insert
  rw [h n hn]

theorem Agrees.bodyObjection?_eq (h : T.Agrees T') {f : Function} (hf : f.body.Plain) :
    T.bodyObjection? f = T'.bodyObjection? f :=
  (h.insert _ _).objection?_eq hf

/-- Tables that agree accept the same items. -/
theorem Agrees.accepts (h : T.Agrees T') {item : Item} (hitem : item.Plain)
    (ha : T.Accepts item) : T'.Accepts item := by
  cases item with
  | external proto =>
    intro sig hsig
    rw [← h _ hitem] at hsig
    exact ha sig hsig
  | definition f =>
    obtain ⟨hname, hbody⟩ := hitem
    refine ⟨fun sig hsig => ?_, ?_⟩
    · rw [← h _ hname] at hsig
      exact ha.1 sig hsig
    · rw [← h.bodyObjection?_eq hbody]
      exact ha.2
  | expression f =>
    change f.body.objection? _ _ = none
    rw [← h.objection?_eq hitem.2]
    exact ha

/-- Tables that agree reject an item for the same reasons. -/
theorem Agrees.objects (h : T.Agrees T') {item : Item} {e : CompileError} (hitem : item.Plain)
    (ho : T.Objects item e) : T'.Objects item e := by
  cases ho with
  | external known arity => exact .external ((h _ hitem).symm.trans known) arity
  | duplicate known body => exact .duplicate ((h _ hitem.1).symm.trans known) body
  | arity known arity => exact .arity ((h _ hitem.1).symm.trans known) arity
  | body admits objection =>
    refine .body (fun sig hsig => ?_) ?_
    · rw [← h _ hitem.1] at hsig
      exact admits sig hsig
    · rw [← h.bodyObjection?_eq hitem.2]
      exact objection
  | expression objection =>
    refine .expression ?_
    rw [← h.objection?_eq hitem.2]
    exact objection

end Table

end Abacus
