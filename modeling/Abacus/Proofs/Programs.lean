-- SUMMARY: How a text is cut into items, and that parsing finds exactly this cut.
import Abacus.Proofs.Items
import Abacus.Read.Program

/-!
# Programs

The lexemes of a program are those of its items, one item behind the other, with
separators between them (`Program.Cuts`). Every lexeme belongs to one item or is
a separator, and the span of an item goes from its first lexeme to its last.
Without the places, what is left of a cut is a sentence (`Program.Sentence`).
-/

namespace Abacus

/-- The lexemes `piece` are the item `i`, when the lexemes `rest` come after them. -/
structure Item.Occupies (table : PrecedenceTable) (i : Located Item)
    (piece rest : List Lexeme) : Prop where
  derives : Item.Derives table i.value (tokens piece ++ tokens rest) (tokens rest)
  span : ∃ first last, piece.head? = some first ∧ piece.getLast? = some last ∧
    i.span = ⟨first.span.start, last.span.stop⟩

variable {table : PrecedenceTable}

/-! ## One item -/

/-- An item starts with a token that the reader absorbs. -/
theorem Item.Derives.exists_first {item : Item} {source rest : List Token}
    (h : Item.Derives table item source rest) :
    ∃ t ts s, source = t :: (ts ++ rest) ∧ ItemReader.absorb? table .start t = some s := by
  obtain ⟨ts, s, rfl, hrun, hitem, -⟩ := h.exists_run?
  cases ts with
  | nil =>
    cases hrun
    cases hitem
  | cons t ts =>
    obtain ⟨next, habsorb, -⟩ := Reader.run?_cons_eq_some.mp hrun
    exact ⟨t, ts, next, rfl, habsorb⟩

theorem Item.Derives.piece_ne_nil {item : Item} {piece : List Lexeme} {rest : List Token}
    (h : Item.Derives table item (tokens piece ++ rest) rest) : piece ≠ [] := by
  intro hpiece
  subst hpiece
  obtain ⟨t, ts, -, hsource, -⟩ := h.exists_first
  have hlength := congrArg List.length hsource
  simp at hlength
  omega

/-- What a reader reads off a stream, it has to show where it stops. -/
theorem Stream.read_eq_ok {σ α : Type} {r : Reader σ α} {s : Stream} {value : α} :
    s.read r = .ok value ↔
      r.conclude (r.advance r.start s.pending).state (s.after r).peek.value = .ok value := by
  unfold read
  cases r.conclude (r.advance r.start s.pending).state (s.after r).peek.value with
  | error cause => exact ⟨nofun, nofun⟩
  | ok value' => exact ⟨fun h => congrArg _ (Except.ok.inj h), fun h => congrArg _ (Except.ok.inj h)⟩

theorem Stream.item_eq_ok {s : Stream} {i : Located Item} :
    s.item table = .ok i ↔
      s.read (Item.reader table) = .ok i.value ∧ s.extent (Item.reader table) = i.span := by
  unfold item
  cases s.read (Item.reader table) with
  | error cause => exact ⟨nofun, fun h => nomatch h.1⟩
  | ok value =>
    constructor
    · intro h
      cases h
      exact ⟨rfl, rfl⟩
    · intro h
      cases h.1
      cases i
      cases h.2
      rfl

/-- The span of what a reader took. -/
theorem Stream.extent_eq {σ α : Type} {r : Reader σ α} {s : Stream} {piece rest : List Lexeme}
    {state : σ} {first last : Lexeme} (h : r.advance r.start s.pending = ⟨piece, state, rest⟩)
    (hfirst : piece.head? = some first) (hlast : piece.getLast? = some last) :
    s.extent r = ⟨first.span.start, last.span.stop⟩ := by
  have hpending : s.pending = piece ++ rest := (Reader.advance_eq_iff.mp h).1
  have hpeek : s.peek.span = first.span := by
    cases piece with
    | nil => cases hfirst
    | cons l piece =>
      cases hfirst
      simp only [peek, hpending, List.cons_append]
  simp only [extent, h, hpeek, hlast, Option.map_some, Option.getD_some]

/-- Reading an item off a stream is cutting off the lexemes that it occupies. -/
theorem Stream.item_eq_ok_iff {s : Stream} {i : Located Item} {rest : List Lexeme} :
    (s.item table = .ok i ∧ (s.after (Item.reader table)).pending = rest) ↔
      ∃ piece, s.pending = piece ++ rest ∧ Item.Occupies table i piece rest := by
  constructor
  · intro h
    obtain ⟨hitem, rfl⟩ := h
    have hread := Stream.item_eq_ok.mp hitem
    have hconclude := Stream.read_eq_ok.mp hread.1
    have hfinished := (ItemReader.conclude_eq_ok_iff _).mp hconclude
    have hrun := (Item.reader table).run?_advance (Item.reader table).start s.pending
    have hhalts := (Item.reader table).halts_advance (Item.reader table).start s.pending
    have hall := (Item.reader table).taken_append_rest (Item.reader table).start s.pending
    have hderives := Item.Derives.of_run? hrun hfinished hhalts
    have hne := hderives.piece_ne_nil
    have hfirst := List.head?_eq_some_head hne
    have hlast := List.getLast?_eq_some_getLast hne
    refine ⟨_, hall.symm, hderives, _, _, hfirst, hlast, ?_⟩
    rw [← hread.2]
    exact Stream.extent_eq rfl hfirst hlast
  · intro h
    obtain ⟨piece, hpending, hderives, first, last, hfirst, hlast, hspan⟩ := h
    obtain ⟨ts, state, hts, hrun, hfinished, hhalts⟩ := hderives.exists_run?
    cases List.append_cancel_right hts
    have hadvance : (Item.reader table).advance (Item.reader table).start s.pending =
        ⟨piece, state, rest⟩ := Reader.advance_eq_iff.mpr ⟨hpending, hrun, hhalts⟩
    have hread : s.read (Item.reader table) = .ok i.value := by
      apply Stream.read_eq_ok.mpr
      simp only [hadvance]
      exact (ItemReader.conclude_eq_ok_iff _).mpr hfinished
    refine ⟨Stream.item_eq_ok.mpr ⟨hread, ?_⟩, congrArg Progress.rest hadvance⟩
    rw [hspan]
    exact Stream.extent_eq hadvance hfirst hlast

/-! ## All items -/

namespace Program

/-- The lexemes are those of the items, in order, with separators between them. -/
inductive Cuts (table : PrecedenceTable) : List (Located Item) → List Lexeme → Prop where
  | done : Cuts table [] []
  | separator {l : Lexeme} {ls : List Lexeme} {is : List (Located Item)}
      (hl : l.value = .char ';') (h : Cuts table is ls) : Cuts table is (l :: ls)
  | item {i : Located Item} {piece rest : List Lexeme} {is : List (Located Item)}
      (hi : Item.Occupies table i piece rest) (h : Cuts table is rest) :
      Cuts table (i :: is) (piece ++ rest)

/-- The items that are found cut the lexemes that were there. -/
theorem cuts_of_items {s : Stream} {is : List (Located Item)} (h : items table s = .ok is) :
    Cuts table is s.pending := by
  fun_induction items table s generalizing is with
  | case1 s hp =>
    cases h
    rw [hp]
    exact .done
  | case2 s l ls hp hl ih =>
    rw [hp]
    exact .separator (eq_of_beq hl) (ih h)
  | case3 s l ls hp hl e hi => cases h
  | case4 s l ls hp hl i hi ih =>
    obtain ⟨piece, hpending, hoccupies⟩ := Stream.item_eq_ok_iff.mp ⟨hi, rfl⟩
    cases htail : items table (s.after (Item.reader table)) with
    | error e =>
      rw [htail] at h
      cases h
    | ok is' =>
      rw [htail] at h
      cases h
      rw [hpending]
      exact .item hoccupies (ih htail)

/-- Where no separator stands, an item is read first, and then the others. -/
theorem items_of_cons {s : Stream} {l : Lexeme} {ls : List Lexeme} (hp : s.pending = l :: ls)
    (hl : ¬ Stream.isSeparator l = true) :
    items table s =
      match s.item table with
      | .error e => .error e
      | .ok i => (items table (s.after (Item.reader table))).map (i :: ·) := by
  rw [items.eq_def]
  split
  case h_1 hnil => cases hp.symm.trans hnil
  case h_2 l' ls' hcons =>
    cases hp.symm.trans hcons
    rw [if_neg hl]
    split
    case h_1 e he => rw [he]
    case h_2 i hi => rw [hi]

/-- No item starts with a separator. -/
theorem not_isSeparator_of_occupies {i : Located Item} {l : Lexeme} {piece rest : List Lexeme}
    (h : Item.Occupies table i (l :: piece) rest) : ¬ Stream.isSeparator l = true := by
  intro hl
  obtain ⟨t, ts, s, hsource, habsorb⟩ := h.derives.exists_first
  have ht : l.value = t := (List.cons.inj hsource).1
  have hsemicolon : t = .char ';' := ht.symm.trans (eq_of_beq hl)
  subst hsemicolon
  cases habsorb

/-- There is no other cut than the one that is found. -/
theorem Cuts.items {is : List (Located Item)} {ls : List Lexeme} (h : Cuts table is ls)
    (stop : Nat) : items table ⟨ls, stop⟩ = .ok is := by
  induction h with
  | done =>
    rw [Program.items]
  | @separator l ls is hl h ih =>
    have hseparator : Stream.isSeparator l = true := beq_iff_eq.mpr hl
    rw [Program.items]
    simp only [hseparator, if_true]
    exact ih
  | @item i piece rest is hi h ih =>
    have hread : (Stream.mk (piece ++ rest) stop).item table = .ok i ∧
        ((Stream.mk (piece ++ rest) stop).after (Item.reader table)).pending = rest :=
      Stream.item_eq_ok_iff.mpr ⟨piece, rfl, hi⟩
    have hafter : (Stream.mk (piece ++ rest) stop).after (Item.reader table) = ⟨rest, stop⟩ :=
      congrArg (Stream.mk · stop) hread.2
    cases piece with
    | nil => exact absurd rfl hi.derives.piece_ne_nil
    | cons l piece =>
      rw [items_of_cons rfl (not_isSeparator_of_occupies hi), hread.1, hafter, ih]
      rfl

/-- A stream holds the items that cut its lexemes. -/
theorem items_eq_ok_iff {s : Stream} {is : List (Located Item)} :
    items table s = .ok is ↔ Cuts table is s.pending :=
  ⟨cuts_of_items, fun h => h.items s.stop⟩

/-! ## Sentences -/

/-- The tokens are those of items, with separators between them. -/
inductive Sentence (table : PrecedenceTable) : List Token → Prop where
  | done : Sentence table []
  | separator {ts : List Token} (h : Sentence table ts) : Sentence table (.char ';' :: ts)
  | item {item : Item} {ts rest : List Token} (hitem : Item.Derives table item ts rest)
      (h : Sentence table rest) : Sentence table ts

theorem Cuts.sentence {is : List (Located Item)} {ls : List Lexeme} (h : Cuts table is ls) :
    Sentence table (tokens ls) := by
  induction h with
  | done => exact .done
  | separator hl _ ih =>
    rw [tokens_cons, hl]
    exact .separator ih
  | item hi _ ih =>
    rw [tokens_append]
    exact .item hi.derives ih

theorem Sentence.exists_cuts {ts : List Token} (h : Sentence table ts) :
    ∀ ls, tokens ls = ts → ∃ is, Cuts table is ls := by
  induction h with
  | done =>
    intro ls hls
    cases List.map_eq_nil_iff.mp hls
    exact ⟨[], .done⟩
  | separator _ ih =>
    intro ls hls
    obtain ⟨l, ls, rfl, hl, hls⟩ := List.map_eq_cons_iff.mp hls
    obtain ⟨is, his⟩ := ih ls hls
    exact ⟨is, .separator hl his⟩
  | @item item ts rest hitem _ ih =>
    intro ls hls
    obtain ⟨us, -, rfl, -⟩ := hitem.exists_run?
    obtain ⟨piece, left, rfl, rfl, rfl⟩ := List.map_eq_append_iff.mp hls
    obtain ⟨is, his⟩ := ih left rfl
    have hne := hitem.piece_ne_nil
    exact ⟨⟨item, _⟩ :: is, .item ⟨hitem, _, _, List.head?_eq_some_head hne,
      List.getLast?_eq_some_getLast hne, rfl⟩ his⟩

/-- A stream can be cut into items where its tokens are a sentence. -/
theorem exists_items_iff {s : Stream} :
    (∃ is, items table s = .ok is) ↔ Sentence table (tokens s.pending) := by
  constructor
  · intro h
    obtain ⟨is, his⟩ := h
    exact (items_eq_ok_iff.mp his).sentence
  · intro h
    obtain ⟨is, his⟩ := h.exists_cuts s.pending rfl
    exact ⟨is, items_eq_ok_iff.mpr his⟩

end Program

end Abacus
