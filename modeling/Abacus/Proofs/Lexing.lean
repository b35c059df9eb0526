-- SUMMARY: Lexing loses nothing of a text, and cannot look across a line feed.
import Abacus.Proofs.Cursor
import Abacus.Proofs.RoundTrip

/-!
# Lexing

All that a cursor pulls off a text stands there as it was pulled: each token where its span
says, spelled as far as it goes, and nothing but layout in between.

So tokens come apart where there is layout between them. A line feed is layout wherever it
stands, and the parts of a text that its tokens cover can be written down again with single
blanks between them.
-/

namespace Abacus

open Cursor
open Text (byteSize byteSize_append)

/-! ## What is pulled -/

theorem lexAll_eq (text : String) :
    lexAll text = Part.some ((Stream.ofText text).sights.map Located.clip) :=
  (follows_start text).lex []

/-- A position before the end of a short text is kept as it is. -/
theorem clip_eq {α : Type} {l : Located α} {n : Nat} (hn : n < 2 ^ 32)
    (hstart : l.span.start ≤ n) (hstop : l.span.stop ≤ n) : l.clip = l := by
  have hsize : n < UInt32.size := hn
  rw [Located.clip, Nat.mod_eq_of_lt (Nat.lt_of_le_of_lt hstart hsize),
    Nat.mod_eq_of_lt (Nat.lt_of_le_of_lt hstop hsize)]

/-- Where a lexeme stands, and that it is spelled there. -/
theorem exists_of_mem_lexemes {text : String} {l : Lexeme} (h : l ∈ lexemes text) :
    ∃ before part after, text = before ++ part ++ after ∧ part ≠ "" ∧
      l.span = ⟨before.utf8ByteSize, (before ++ part).utf8ByteSize⟩ ∧
      Lexer.Spelled l.value part.toList after.toList := by
  obtain ⟨front, part, back, htext, hne, hspelled, hspan⟩ :=
    (Lexer.spaced_scan 0 text.toList).exists_of_mem h
  refine ⟨String.ofList front, String.ofList part, String.ofList back, ?_, ?_, ?_, ?_⟩
  · rw [← String.ofList_append, ← String.ofList_append, ← htext, String.ofList_toList]
  · intro hempty
    exact hne (by simpa using hempty)
  · rw [hspan, ← String.ofList_append, utf8ByteSize_ofList, utf8ByteSize_ofList, Nat.zero_add,
      Nat.zero_add]
  · rwa [String.toList_ofList, String.toList_ofList]

theorem clip_of_mem_sights {text : String} (h : text.utf8ByteSize < 2 ^ 32)
    {t : Located (Option Token)} (ht : t ∈ (Stream.ofText text).sights) : t.clip = t := by
  rcases List.mem_append.mp ht with ht | ht
  · obtain ⟨l, hl, rfl⟩ := List.mem_map.mp ht
    obtain ⟨before, part, after, htext, -, hspan, -⟩ := exists_of_mem_lexemes hl
    have hsize : text.utf8ByteSize =
        before.utf8ByteSize + part.utf8ByteSize + after.utf8ByteSize := by
      rw [htext, String.utf8ByteSize_append, String.utf8ByteSize_append]
    refine clip_eq h ?_ ?_
    · simp only [hspan]
      omega
    · simp only [hspan, String.utf8ByteSize_append]
      omega
  · rw [List.mem_singleton.mp ht]
    exact clip_eq h (Nat.le_refl _) (Nat.le_refl _)

/-- In a short text all positions are kept as they are. -/
theorem clip_sights {text : String} (h : text.utf8ByteSize < 2 ^ 32) :
    (Stream.ofText text).sights.map Located.clip = (Stream.ofText text).sights :=
  (List.map_congr_left fun _ ht => clip_of_mem_sights h ht).trans (List.map_id _)

/-- A word carries its spelling, and is a keyword exactly if it spells one. -/
theorem Token.ofWord_cases (word : String) :
    (∃ w : Keyword, word = w.text ∧ Token.ofWord word = .keyword w) ∨
    ((∀ w : Keyword, word ≠ w.text) ∧ Token.ofWord word = .ident word) := by
  unfold Token.ofWord
  split
  case isTrue h => exact .inl ⟨.define, h, rfl⟩
  case isFalse hdefine =>
    split
    case isTrue h => exact .inl ⟨.declare, h, rfl⟩
    case isFalse hdeclare =>
      refine .inr ⟨fun w => ?_, rfl⟩
      cases w with
      | define => exact hdefine
      | declare => exact hdeclare

/-- What an identifier or a keyword covers is its text. -/
theorem Lexer.Spelled.text {t : Token} {part : String} {rest : List Char}
    (h : Spelled t part.toList rest) :
    (∀ name, t = .ident name → part = name ∧ ∀ w : Keyword, name ≠ w.text) ∧
    (∀ w, t = .keyword w → part = w.text) := by
  generalize hchars : part.toList = cs at h
  cases h with
  | @word c cs _ hc hcs hrest =>
    rw [← hchars, String.ofList_toList]
    rcases Token.ofWord_cases part with ⟨w, hw, ht⟩ | ⟨hw, ht⟩
    · rw [ht]
      refine ⟨fun name hname => (nomatch hname), fun w' hw' => ?_⟩
      cases hw'
      exact hw
    · rw [ht]
      refine ⟨fun name hname => ?_, fun w' hw' => nomatch hw'⟩
      cases hname
      exact ⟨rfl, hw⟩
  | numeral => exact ⟨fun name hname => (nomatch hname), fun w hw => nomatch hw⟩
  | mark => exact ⟨fun name hname => (nomatch hname), fun w hw => nomatch hw⟩

/-- Lexing a text of less than 2^32 bytes comes to an end and cuts the text between
    characters only. It gives the lexemes of the text, and once the end; pulling further
    tokens gives the end again. The lexemes stand one behind the other with layout around
    them: blanks, and comments up to their line ends. Each covers at least a character, and
    whole characters: a letter and the letters and digits behind it, as far as they go; a
    run of digits and points, as far as it goes; or a single character that starts none of
    these and no layout. Identifiers and keywords carry the text that they cover. -/
theorem lexing_lossless {text : String} (h : text.utf8ByteSize < 2 ^ 32) :
    lexAll text = Part.some (Stream.ofText text).sights ∧
    (∀ n, pull text n 0 = Part.some
      (((Stream.ofText text).sights ++ List.replicate n (Stream.ofText text).ending).take n)) ∧
    Spaced Text.isBlank Lexer.Spelled 0 (lexemes text) text.toList ∧
    (lexemes text).Pairwise (fun l m => l.span.stop ≤ m.span.start) ∧
    ∀ l ∈ lexemes text, l.span.start < l.span.stop ∧
      ∃ before part after, text = before ++ part ++ after ∧
        l.span = ⟨before.utf8ByteSize, (before ++ part).utf8ByteSize⟩ ∧
        Lexer.Spelled l.value part.toList after.toList ∧
        (∀ name, l.value = .ident name → part = name ∧ ∀ w : Keyword, name ≠ w.text) ∧
        (∀ w, l.value = .keyword w → part = w.text) := by
  have hspaced := Lexer.spaced_scan 0 text.toList
  refine ⟨?_, fun n => ?_, hspaced, hspaced.pairwise, fun l hl => ?_⟩
  · rw [lexAll_eq, clip_sights h]
  · rw [(follows_start text).pull n]
    refine congrArg Part.some ((List.map_congr_left fun t ht => ?_).trans (List.map_id _))
    rcases List.mem_append.mp (List.mem_of_mem_take ht) with ht | ht
    · exact clip_of_mem_sights h ht
    · rw [(List.mem_replicate.mp ht).2]
      exact clip_eq h (Nat.le_refl _) (Nat.le_refl _)
  · obtain ⟨before, part, after, htext, hne, hspan, hspelled⟩ := exists_of_mem_lexemes hl
    refine ⟨?_, before, part, after, htext, hspan, hspelled, hspelled.text⟩
    rw [hspan, String.utf8ByteSize_append]
    exact Nat.lt_add_of_pos_right
      (Nat.pos_of_ne_zero fun hzero => hne (String.utf8ByteSize_eq_zero_iff.mp hzero))

/-- A comment with blanks in it that end no line, and a word behind it that starts with a
    keyword. -/
theorem lexing_lossless_at_comment :
    lexAll "f #\x85é\ndefs" =
      Part.some
        [⟨some (.ident "f"), ⟨0, 1⟩⟩, ⟨some (.ident "defs"), ⟨8, 12⟩⟩, ⟨none, ⟨12, 12⟩⟩] ∧
    pull "f #\x85é\ndefs" 4 0 =
      Part.some
        [⟨some (.ident "f"), ⟨0, 1⟩⟩, ⟨some (.ident "defs"), ⟨8, 12⟩⟩, ⟨none, ⟨12, 12⟩⟩,
          ⟨none, ⟨12, 12⟩⟩] := by
  have hshort : "f #\x85é\ndefs".utf8ByteSize < 2 ^ 32 := by decide
  obtain ⟨hall, hpull, -⟩ := lexing_lossless hshort
  have hlexemes : lexemes "f #\x85é\ndefs" =
      [⟨.ident "f", ⟨0, 1⟩⟩, ⟨.ident "defs", ⟨8, 12⟩⟩] := by with_unfolding_all rfl
  have hsights : (Stream.ofText "f #\x85é\ndefs").sights =
      [⟨some (.ident "f"), ⟨0, 1⟩⟩, ⟨some (.ident "defs"), ⟨8, 12⟩⟩, ⟨none, ⟨12, 12⟩⟩] := by
    rw [Stream.sights, Stream.ofText, hlexemes]
    rfl
  refine ⟨hall.trans (congrArg Part.some hsights), (hpull 4).trans ?_⟩
  rw [hsights]
  rfl

/-! ## Line feeds -/

/-- What a stream shows before its end. -/
def Stream.shown (s : Stream) : List (Located (Option Token)) :=
  s.pending.map fun l => ⟨some l.value, l.span⟩

/-- What is shown of a text with a line feed in it: the tokens before the line feed, and
    all that is shown of the text behind it. -/
theorem sights_append_lineFeed (a b : String) :
    (Stream.ofText (a ++ "\n" ++ b)).sights =
      (Stream.ofText a).shown ++
        (Stream.ofText b).sights.map (Located.shift (a.utf8ByteSize + 1)) := by
  have hsize : (a ++ "\n" ++ b).utf8ByteSize = b.utf8ByteSize + (a.utf8ByteSize + 1) := by
    rw [String.utf8ByteSize_append, String.utf8ByteSize_append, Nat.add_comm]
    rfl
  simp only [Stream.sights, Stream.shown, Stream.ofText, lexemes_append_lineFeed, hsize,
    List.map_append, List.map_map, List.append_assoc]
  rfl

theorem clip_shift_clip {α : Type} (n : Nat) (l : Located α) :
    (l.clip.shift n).clip = (l.shift n).clip := by
  simp only [Located.clip, Located.shift, Nat.mod_add_mod]

/-! ## Parts written down again -/

/-- What spells a token spells it wherever nothing continues it. -/
theorem Lexer.Spelled.spells {t : Token} {part rest : List Char} (h : Spelled t part rest) :
    Spells part [t] := by
  intro back hback
  refine tokensOf_spelled ?_
  cases h with
  | word hc hcs => exact .word hc hcs fun c hc => (hback c hc).1
  | numeral hc hcs => exact .numeral hc hcs fun c hc => (hback c hc).2
  | mark hc => exact .mark hc back

theorem Lexer.spells_empty : Spells "".toList [] :=
  fun _ _ => rfl

/-- Parts with single blanks between them spell what they spell on their own. -/
theorem tokens_joined {parts : List String} {tss : List (List Token)}
    (h : List.Forall₂ (fun part ts => Lexer.Spells part.toList ts) parts tss) :
    tokens (lexemes (" ".intercalate parts)) = tss.flatten := by
  induction h with
  | nil => rfl
  | @cons part ts parts tss hpart hparts ih =>
    cases hparts with
    | nil =>
      rw [String.intercalate_singleton]
      exact hpart.eq.trans (List.append_nil ts).symm
    | @cons next _ parts _ _ _ =>
      have hchars : (part ++ " " ++ " ".intercalate (next :: parts)).toList =
          part.toList ++ ' ' :: (" ".intercalate (next :: parts)).toList := by
        simp [String.toList_append]
      have hspace : Lexer.Apart (' ' :: (" ".intercalate (next :: parts)).toList) :=
        Lexer.apart_cons rfl rfl _
      calc tokens (lexemes (" ".intercalate (part :: next :: parts)))
        _ = Lexer.tokensOf (part.toList ++ ' ' :: (" ".intercalate (next :: parts)).toList) := by
          rw [String.intercalate_cons_cons, lexemes, hchars, Lexer.tokensOf]
        _ = ts ++ Lexer.tokensOf (" ".intercalate (next :: parts)).toList := by
          rw [hpart _ hspace, Lexer.tokensOf_space]
        _ = _ := congrArg (ts ++ ·) ih

/-- What the lexemes of a text cover can be cut out, and spells them. -/
theorem exists_parts {text : String} {ls : List Lexeme} (h : ∀ l ∈ ls, l ∈ lexemes text) :
    ∃ parts : List String, ls.map (fun l => Text.slice? text l.span) = parts.map some ∧
      List.Forall₂ (fun part ts => Lexer.Spells part.toList ts) parts
        ((tokens ls).map fun t => [t]) := by
  induction ls with
  | nil => exact ⟨[], rfl, .nil⟩
  | cons l ls ih =>
    obtain ⟨hl, hls⟩ := List.forall_mem_cons.mp h
    obtain ⟨before, part, after, htext, -, hspan, hspelled⟩ := exists_of_mem_lexemes hl
    obtain ⟨parts, hslices, hspells⟩ := ih hls
    have hslice : Text.slice? text l.span = some part :=
      Text.slice?_of_covers ⟨before, after, htext, hspan⟩
    refine ⟨part :: parts, ?_, .cons hspelled.spells hspells⟩
    rw [List.map_cons, hslice, hslices, List.map_cons]

/-- The kinds and values that lexing gives are those of the lexemes. -/
theorem values_lexAll (text : String) : ∃ ts, lexAll text = Part.some ts ∧
    ts.map (·.value) = (tokens (lexemes text)).map some ++ [none] := by
  refine ⟨_, lexAll_eq text, ?_⟩
  simp only [Stream.sights, Stream.ofText, tokens, List.map_append, List.map_map]
  rfl

/-- Lexing two texts with a line feed between them gives the tokens of the first without
    its end, and behind them those of the second and its end, moved by the bytes before it;
    positions are kept in 32 bits, and so are moved exactly if all of the text is shorter
    than 2^32 bytes. What the tokens of a text cover can be cut out of it, and written down
    with single blanks in between, the end with an empty part or left out, is lexed to the
    same kinds and values. -/
theorem lexing_breaks_and_rejoins :
    (∀ a b : String, ∃ ts us, lexAll a = Part.some (ts ++ [(Stream.ofText a).ending.clip]) ∧
      lexAll b = Part.some us ∧
      lexAll (a ++ "\n" ++ b) =
        Part.some (ts ++ us.map fun t => (t.shift (a.utf8ByteSize + 1)).clip)) ∧
    (∀ a b : String, (a ++ "\n" ++ b).utf8ByteSize < 2 ^ 32 →
      ∃ ts us, lexAll a = Part.some (ts ++ [(Stream.ofText a).ending]) ∧
        lexAll b = Part.some us ∧
        lexAll (a ++ "\n" ++ b) =
          Part.some (ts ++ us.map (Located.shift (a.utf8ByteSize + 1)))) ∧
    (∀ text : String, ∃ ts parts us vs, lexAll text = Part.some ts ∧
      (Stream.ofText text).sights.map (fun t => Text.slice? text t.span) = parts.map some ∧
      lexAll (" ".intercalate parts) = Part.some us ∧ us.map (·.value) = ts.map (·.value) ∧
      lexAll (" ".intercalate parts.dropLast) = Part.some vs ∧
      vs.map (·.value) = ts.map (·.value) ∧
      (text.utf8ByteSize < 2 ^ 32 → ts = (Stream.ofText text).sights)) := by
  refine ⟨fun a b => ?_, fun a b h => ?_, fun text => ?_⟩
  · refine ⟨(Stream.ofText a).shown.map Located.clip, _, ?_, lexAll_eq b, ?_⟩
    · rw [lexAll_eq, Stream.sights, List.map_append]
      rfl
    · rw [lexAll_eq, sights_append_lineFeed, List.map_append, List.map_map, List.map_map]
      simp only [Function.comp_def, clip_shift_clip]
  · have hsize : (a ++ "\n" ++ b).utf8ByteSize = a.utf8ByteSize + 1 + b.utf8ByteSize := by
      rw [String.utf8ByteSize_append, String.utf8ByteSize_append]
      rfl
    have ha : a.utf8ByteSize < 2 ^ 32 := by omega
    have hb : b.utf8ByteSize < 2 ^ 32 := by omega
    refine ⟨(Stream.ofText a).shown, (Stream.ofText b).sights, ?_, ?_, ?_⟩
    · rw [lexAll_eq, clip_sights ha]
      rfl
    · rw [lexAll_eq, clip_sights hb]
    · rw [lexAll_eq, clip_sights h, sights_append_lineFeed]
  · obtain ⟨ts, hts, hvalues⟩ := values_lexAll text
    have hmem : ∀ l ∈ lexemes text, l ∈ lexemes text := fun l hl => hl
    obtain ⟨parts, hslices, hspells⟩ := exists_parts hmem
    obtain ⟨us, hus, husvalues⟩ := values_lexAll (" ".intercalate (parts ++ [""]))
    obtain ⟨vs, hvs, hvsvalues⟩ := values_lexAll (" ".intercalate parts)
    have hend : Text.slice? text (Stream.ofText text).ending.span = some "" :=
      Text.slice?_of_covers ⟨text, "", by simp, by simp [Stream.ending, Stream.ofText]⟩
    refine ⟨ts, parts ++ [""], us, vs, hts, ?_, hus, ?_, ?_, ?_, fun h => ?_⟩
    · rw [Stream.sights, List.map_append, List.map_map, List.map_append, ← hslices]
      exact congrArg (_ ++ [·]) hend
    · have hjoined := tokens_joined (List.rel_append hspells (.cons Lexer.spells_empty .nil))
      rw [List.flatten_append, ← List.flatMap_def, List.flatMap_singleton'] at hjoined
      rw [husvalues, hvalues, hjoined]
      simp
    · rw [List.dropLast_concat]
      exact hvs
    · have hjoined := tokens_joined hspells
      rw [← List.flatMap_def, List.flatMap_singleton'] at hjoined
      rw [hvsvalues, hvalues, hjoined]
    · rw [lexAll_eq, clip_sights h] at hts
      exact (Part.some_inj.mp hts).symm

/-- The first text ends in a comment, and the second starts with a letter. -/
theorem lexing_breaks_and_rejoins_at_comment : ∃ ts us,
    lexAll "f#" = Part.some (ts ++ [⟨none, ⟨2, 2⟩⟩]) ∧ lexAll "f" = Part.some us ∧
      lexAll ("f#" ++ "\n" ++ "f") = Part.some (ts ++ us.map (Located.shift 3)) :=
  lexing_breaks_and_rejoins.2.1 "f#" "f" (by decide)

end Abacus
