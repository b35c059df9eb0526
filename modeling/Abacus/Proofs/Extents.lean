-- SUMMARY: Where items stand in a text, and that what an item covers is that item on its own.
import Abacus.Proofs.Layout
import Abacus.Proofs.Programs

/-!
# Extents of items

Items stand in a text as lexemes do, with separators among the layout around them. What an
item covers goes from its first token to its last, and is read on its own as it is read in
the text: whatever token comes behind an item ends it as the end of the text would.
-/

namespace Abacus

open Text (byteSize byteSize_append)

/-- The span covers `part` in the text. Both its ends are boundaries of characters. -/
def Span.Covers (span : Span) (text part : String) : Prop :=
  ∃ before after, text = before ++ part ++ after ∧
    span = ⟨before.utf8ByteSize, (before ++ part).utf8ByteSize⟩

variable {table : PrecedenceTable}

/-- The whole text is one item, from its first character to its last. -/
structure Item.Alone (table : PrecedenceTable) (item : Item) (text : String) : Prop where
  read  : (Stream.ofText text).item table = .ok ⟨item, ⟨0, text.utf8ByteSize⟩⟩
  atEnd : ((Stream.ofText text).after (Item.reader table)).atEnd = true

/-- An item ends at the end of the text if it ends before other tokens. -/
theorem Item.Derives.alone {item : Item} {ts rest : List Token}
    (h : Item.Derives table item (ts ++ rest) rest) : Item.Derives table item (ts ++ []) [] := by
  obtain ⟨us, s, hus, hrun, hitem, -⟩ := h.exists_run?
  cases List.append_cancel_right hus
  exact .of_run? hrun hitem (Reader.halts_nil _ s)

/-- The characters that the lexemes of an item stand in are that item alone. -/
theorem Item.Occupies.alone {i : Located Item} {piece rest : List Lexeme} {pos : Nat}
    {cs : List Char} (h : Item.Occupies table i piece rest)
    (hpiece : Spaced Text.isBlank Lexer.Spelled pos piece cs)
    (hspan : i.span = ⟨pos, pos + byteSize cs⟩) : Item.Alone table i.value (String.ofList cs) := by
  have hlexemes : piece = (lexemes (String.ofList cs)).map (Located.shift pos) := by
    have hshift := Lexer.scan_shift pos 0 .between cs
    rw [Nat.zero_add] at hshift
    rw [lexemes, String.toList_ofList, ← hshift]
    exact (Lexer.scan_of_spaced hpiece).symm
  have hoccupies : Item.Occupies table ⟨i.value, ⟨0, (String.ofList cs).utf8ByteSize⟩⟩
      (lexemes (String.ofList cs)) [] := by
    obtain ⟨_, _, hfirst, hlast, hends⟩ := h.span
    rw [hlexemes, List.head?_map] at hfirst
    rw [hlexemes, List.getLast?_map] at hlast
    obtain ⟨first, hhead, rfl⟩ := Option.map_eq_some_iff.mp hfirst
    obtain ⟨last, htail, rfl⟩ := Option.map_eq_some_iff.mp hlast
    have hderives := h.derives.alone
    rw [hlexemes, tokens_shift] at hderives
    refine ⟨hderives, first, last, hhead, htail, ?_⟩
    simp only [hspan, Located.shift, Span.mk.injEq] at hends
    rw [utf8ByteSize_ofList, Span.mk.injEq]
    omega
  have hread := Stream.item_eq_ok_iff (s := .ofText (String.ofList cs)).mpr
    ⟨lexemes (String.ofList cs), (List.append_nil _).symm, hoccupies⟩
  refine ⟨hread.1, ?_⟩
  rw [Stream.atEnd, hread.2]
  rfl

/-- What may stand between items, comments aside. -/
def Text.isFiller (c : Char) : Bool :=
  isBlank c || c == ';'

theorem Lexer.Spelled.eq_of_char {c : Char} {cs rest : List Char} (h : Spelled (.char c) cs rest) :
    cs = [c] := by
  generalize ht : Token.char c = t at h
  cases h with
  | word hc hcs hrest =>
    unfold Token.ofWord at ht
    split at ht
    · cases ht
    · split at ht <;> cases ht
  | numeral hc hcs hrest => cases ht
  | mark hc =>
    cases ht
    rfl

namespace Program

/-- The characters are an item on its own, whatever comes behind them. -/
def Stands (table : PrecedenceTable) (item : Item) (cs _rest : List Char) : Prop :=
  Item.Alone table item (String.ofList cs)

theorem spaced_of_occupies {i : Located Item} {is : List (Located Item)}
    {piece rest : List Lexeme} {pos : Nat} {cs : List Char} (hi : Item.Occupies table i piece rest)
    (hls : Spaced Text.isBlank Lexer.Spelled pos (piece ++ rest) cs)
    (hrest : ∀ pos cs, Spaced Text.isBlank Lexer.Spelled pos rest cs →
      Spaced Text.isFiller (Stands table) pos is cs) :
    Spaced Text.isFiller (Stands table) pos (i :: is) cs := by
  obtain ⟨first, last, hfirst, hlast, hspan⟩ := hi.span
  obtain ⟨more, hmore⟩ := List.head?_eq_some_iff.mp hfirst
  obtain ⟨init, hinit⟩ := List.getLast?_eq_some_iff.mp hlast
  -- The layout before the first lexeme is cut off, then what comes behind the last one.
  rw [hmore, List.cons_append] at hls
  obtain ⟨gap, back, rfl, hgap, hstart, hls⟩ := hls.lead
  rw [← List.cons_append, ← hmore, hinit, List.append_assoc] at hls
  obtain ⟨front, part, back, rfl, hx, -, hpiece, hback⟩ := hls.split Lexer.Spelled.of_isPrefix
  rw [← hinit] at hpiece
  have hends : i.span =
      ⟨pos + byteSize gap, pos + byteSize gap + byteSize (front ++ part)⟩ := by
    rw [hspan, hstart, hx]
  have hne : front ++ part ≠ [] := by
    intro hnil
    rw [hnil] at hpiece
    exact hi.derives.piece_ne_nil (Lexer.scan_of_spaced hpiece).symm
  have hstop : last.span.stop = i.span.stop := by rw [hspan]
  rw [hstop] at hback
  rw [← List.append_assoc]
  exact .part (hgap.imp fun c hc => by simp [Text.isFiller, hc]) hne (hi.alone hpiece hends) hends
    (hrest _ _ hback)

/-- Where the lexemes of items stand, there stand the items. -/
theorem Cuts.spaced {is : List (Located Item)} {ls : List Lexeme} (h : Cuts table is ls)
    {pos : Nat} {cs : List Char} (hls : Spaced Text.isBlank Lexer.Spelled pos ls cs) :
    Spaced Text.isFiller (Stands table) pos is cs := by
  have hfill (c : Char) (hc : Text.isBlank c = true) : Text.isFiller c = true := by
    simp [Text.isFiller, hc]
  induction h generalizing pos cs with
  | done =>
    cases hls with
    | done hcs => exact .done (hcs.imp hfill)
  | separator hl _ ih =>
    cases hls with
    | @part _ gap part rest _ _ hgap _ hpart hspan hls =>
      rw [hl] at hpart
      cases hpart.eq_of_char
      have hlayout : Layout Text.isFiller (gap ++ [';']) rest :=
        (hgap.imp hfill).append (.fill rfl (.nil rest))
      have hrest := ih hls
      rw [hspan, Nat.add_assoc, ← byteSize_append] at hrest
      exact hrest.prepend hlayout
  | item hi _ ih => exact spaced_of_occupies hi hls fun _ _ => ih

/-- The items of a text that is parsed take up its tokens, but for separators, from the
    first token of each to its last. They stand one behind the other, with nothing but
    blanks, comments and separators around them. What each covers is not empty, starts and
    ends at the boundary of a character, and is that item alone: it is read as the same item
    on its own, from its first byte to its last. -/
theorem items_exact_and_local {text : String} {is : List (Located Item)}
    (h : parse text = .ok is) :
    Cuts .standard is (lexemes text) ∧
    Spaced Text.isFiller (Stands .standard) 0 is text.toList ∧
    is.Pairwise (fun i j => i.span.stop ≤ j.span.start) ∧
    ∀ i ∈ is, i.span.start < i.span.stop ∧
      ∃ part, i.span.Covers text part ∧ Item.Alone .standard i.value part := by
  have hcuts : Cuts .standard is (lexemes text) := items_eq_ok_iff.mp h
  have hspaced := hcuts.spaced (Lexer.spaced_scan 0 text.toList)
  refine ⟨hcuts, hspaced, hspaced.pairwise, ?_⟩
  intro i hi
  obtain ⟨front, part, back, htext, hne, halone, hspan⟩ := hspaced.exists_of_mem hi
  rw [Nat.zero_add, Nat.zero_add] at hspan
  have hpos : 0 < byteSize part := byteSize_pos hne
  refine ⟨?_, String.ofList part, ⟨String.ofList front, String.ofList back, ?_, ?_⟩, halone⟩
  · rw [hspan, byteSize_append]
    exact Nat.lt_add_of_pos_right hpos
  · rw [← String.ofList_append, ← String.ofList_append, ← htext, String.ofList_toList]
  · rw [hspan, ← String.ofList_append, utf8ByteSize_ofList, utf8ByteSize_ofList]

/-- A call with a comment in it, and an extern right behind a separator. -/
theorem items_exact_and_local_at_comment : ∃ is,
    parse "f(y # é\n) ;extern g(x)" = .ok is ∧ is.map (·.span) = [⟨0, 10⟩, ⟨12, 23⟩] ∧
    ∀ i ∈ is, ∃ part, i.span.Covers "f(y # é\n) ;extern g(x)" part ∧
      Item.Alone .standard i.value part := by
  have h : parse "f(y # é\n) ;extern g(x)" =
      .ok [⟨.expression (.ofExpr (.call "f" [.var "y"])), ⟨0, 10⟩⟩,
        ⟨.external ⟨"g", ["x"]⟩, ⟨12, 23⟩⟩] := by with_unfolding_all rfl
  refine ⟨_, h, rfl, ?_⟩
  intro i hi
  exact ((items_exact_and_local h).2.2.2 i hi).2

end Program

end Abacus
