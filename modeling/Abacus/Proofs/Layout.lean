-- SUMMARY: How lexemes stand in a text, and that lexing finds exactly this.
import Abacus.Proofs.LineBreaks
import Abacus.Text.Typed

/-!
# Layout

Between and around the lexemes of a text stands layout: blanks, and comments that go on to
the end of their line. How located parts stand in characters is said once for parts of any
kind (`Spaced`). The part that spells a token goes as far as it can (`Lexer.Spelled`).

The lexer finds the lexemes that stand in a text, and no others (`Lexer.scan_eq_iff`). So a
text can be cut before and behind any lexeme, and what is cut off is lexed as before.
-/

namespace Abacus

open Text (byteSize byteSize_append)

/-! ## Bytes -/

theorem utf8ByteSize_ofList (cs : List Char) : (String.ofList cs).utf8ByteSize = byteSize cs := by
  induction cs with
  | nil => rfl
  | cons c cs ih => simp [byteSize, ← ih, String.ofList_cons]

theorem byteSize_pos {cs : List Char} (h : cs ≠ []) : 0 < byteSize cs := by
  cases cs with
  | nil => exact absurd rfl h
  | cons c cs => exact Nat.add_pos_left c.utf8Size_pos _

/-! ## Layout -/

def Text.isLineEnd (c : Char) : Bool :=
  c = '\n' ∨ c = '\r'

/-- The characters are layout, when the characters `rest` come behind them: characters that
    fill, and comments. A comment goes on to the next line end, or to the end of the text. -/
inductive Layout (fill : Char → Bool) : List Char → List Char → Prop where
  | nil (rest : List Char) : Layout fill [] rest
  | fill {c : Char} {cs rest : List Char} (hc : fill c = true) (h : Layout fill cs rest) :
      Layout fill (c :: cs) rest
  | comment {body cs rest : List Char} (hbody : ∀ c ∈ body, Text.isLineEnd c = false)
      (hend : ∀ c, (cs ++ rest).head? = some c → Text.isLineEnd c = true)
      (h : Layout fill cs rest) : Layout fill ('#' :: (body ++ cs)) rest

/-- What starts a front of some characters starts all of them. -/
theorem head?_of_isPrefix {front cs : List Char} (h : front <+: cs) {c : Char}
    (hc : front.head? = some c) : cs.head? = some c := by
  obtain ⟨back, rfl⟩ := h
  rw [List.head?_append, hc]
  rfl

namespace Layout

variable {fill : Char → Bool} {cs ds rest : List Char}

theorem append (h : Layout fill cs (ds ++ rest)) (hds : Layout fill ds rest) :
    Layout fill (cs ++ ds) rest := by
  generalize hback : ds ++ rest = back at h
  induction h with
  | nil => exact hds
  | fill hc _ ih => exact .fill hc (ih hback)
  | comment hbody hend _ ih =>
    subst hback
    rw [List.cons_append, List.append_assoc]
    refine .comment hbody ?_ (ih rfl)
    rwa [List.append_assoc]

/-- Layout stays layout when less comes behind it. -/
theorem of_isPrefix {front : List Char} (h : Layout fill cs rest) (hfront : front <+: rest) :
    Layout fill cs front := by
  induction h with
  | nil => exact .nil front
  | fill hc _ ih => exact .fill hc (ih hfront)
  | comment hbody hend _ ih =>
    refine .comment hbody ?_ (ih hfront)
    intro c hc
    exact hend c (head?_of_isPrefix (List.prefix_append_right_inj _ |>.mpr hfront) hc)

theorem imp {fill' : Char → Bool} (hfill : ∀ c, fill c = true → fill' c = true)
    (h : Layout fill cs rest) : Layout fill' cs rest := by
  induction h with
  | nil => exact .nil _
  | fill hc _ ih => exact .fill (hfill _ hc) ih
  | comment hbody hend _ ih => exact .comment hbody hend ih

end Layout

/-! ## Parts of a text -/

section Parts

variable {α : Type} {fill : Char → Bool} {Part : α → List Char → List Char → Prop}

/-- The parts stand in the characters from byte `pos` on, one behind the other, with layout
    around them. `Part a part rest` says that the characters `part` are an `a` when `rest`
    comes behind them. -/
inductive Spaced (fill : Char → Bool) (Part : α → List Char → List Char → Prop) :
    Nat → List (Located α) → List Char → Prop where
  | done {pos : Nat} {cs : List Char} (h : Layout fill cs []) : Spaced fill Part pos [] cs
  | part {pos : Nat} {gap part rest : List Char} {x : Located α} {xs : List (Located α)}
      (hgap : Layout fill gap (part ++ rest)) (hne : part ≠ [])
      (hpart : Part x.value part rest)
      (hspan : x.span = ⟨pos + byteSize gap, pos + byteSize gap + byteSize part⟩)
      (h : Spaced fill Part x.span.stop xs rest) :
      Spaced fill Part pos (x :: xs) (gap ++ part ++ rest)

namespace Spaced

variable {pos : Nat} {x : Located α} {xs ys : List (Located α)} {gap cs : List Char}

/-- Layout in front is added to what stands there already. -/
theorem prepend (hgap : Layout fill gap cs) (h : Spaced fill Part (pos + byteSize gap) xs cs) :
    Spaced fill Part pos xs (gap ++ cs) := by
  cases h with
  | done hcs =>
    rw [← List.append_nil cs] at hgap
    exact .done (hgap.append hcs)
  | @part _ gap' part rest _ _ hgap' hne hpart hspan h =>
    rw [List.append_assoc] at hgap
    rw [Nat.add_assoc, ← byteSize_append] at hspan
    rw [← List.append_assoc, ← List.append_assoc]
    exact .part (hgap.append hgap') hne hpart hspan h

/-- A part with nothing in front of it. -/
theorem here {part rest : List Char} (hne : part ≠ []) (hpart : Part x.value part rest)
    (hspan : x.span = ⟨pos, pos + byteSize part⟩) (h : Spaced fill Part x.span.stop xs rest) :
    Spaced fill Part pos (x :: xs) (part ++ rest) := by
  change Spaced fill Part pos (x :: xs) ([] ++ part ++ rest)
  exact .part (.nil _) hne hpart hspan h

/-- The layout in front of the first part can be taken off. -/
theorem lead (h : Spaced fill Part pos (x :: xs) cs) :
    ∃ gap back, cs = gap ++ back ∧ Layout fill gap back ∧ x.span.start = pos + byteSize gap ∧
      Spaced fill Part (pos + byteSize gap) (x :: xs) back := by
  cases h with
  | @part _ gap part rest _ _ hgap hne hpart hspan h =>
    exact ⟨gap, part ++ rest, List.append_assoc .., hgap, by rw [hspan], .here hne hpart hspan h⟩

/-- Characters can be cut before and behind any part. -/
theorem split (h : Spaced fill Part pos (xs ++ x :: ys) cs)
    (hfront : ∀ {a part front rest}, front <+: rest → Part a part rest → Part a part front) :
    ∃ front part back, cs = front ++ part ++ back ∧
      x.span = ⟨pos + byteSize front, pos + byteSize (front ++ part)⟩ ∧
      Spaced fill Part pos xs front ∧ Spaced fill Part pos (xs ++ [x]) (front ++ part) ∧
      Spaced fill Part x.span.stop ys back := by
  induction xs generalizing pos cs with
  | nil =>
    cases h with
    | @part _ gap part rest _ _ hgap hne hpart hspan h =>
      have hnil : Part x.value part [] := hfront List.nil_prefix hpart
      have hgap' : Layout fill gap (part ++ []) := by
        rw [List.append_nil]
        exact hgap.of_isPrefix (List.prefix_append part rest)
      have hone : Spaced fill Part pos [x] (gap ++ part ++ []) :=
        .part hgap' hne hnil hspan (.done (.nil []))
      rw [List.append_nil] at hone
      refine ⟨gap, part, rest, rfl, ?_, .done (hgap.of_isPrefix List.nil_prefix), hone, h⟩
      rw [hspan, byteSize_append, Nat.add_assoc]
  | cons y xs ih =>
    cases h with
    | @part _ gap first rest _ _ hgap hne hpart hspan h =>
      obtain ⟨front, part, back, rfl, hx, hxs, hall, hback⟩ := ih h
      have hstop : y.span.stop = pos + byteSize (gap ++ first) := by
        rw [hspan, byteSize_append, Nat.add_assoc]
      -- What is cut off is behind the first part, so the layout before that sees the same.
      have hkeep {less : List Char} {zs : List (Located α)} (hless : less <+: front ++ part ++ back)
          (h : Spaced fill Part y.span.stop zs less) :
          Spaced fill Part pos (y :: zs) (gap ++ first ++ less) :=
        .part (hgap.of_isPrefix ((List.prefix_append_right_inj first).mpr hless)) hne
          (hfront hless hpart) hspan h
      have hxs' := hkeep ⟨part ++ back, by simp⟩ hxs
      have hall' := hkeep ⟨back, rfl⟩ hall
      refine ⟨gap ++ first ++ front, part, back, by simp, ?_, hxs', ?_, hback⟩
      · rw [hx, hstop]
        simp only [byteSize_append, Nat.add_assoc]
      · rwa [List.append_assoc (gap ++ first)]

/-- Every part is found where its span says. -/
theorem exists_of_mem (h : Spaced fill Part pos xs cs) (hx : x ∈ xs) :
    ∃ front part back, cs = front ++ part ++ back ∧ part ≠ [] ∧ Part x.value part back ∧
      x.span = ⟨pos + byteSize front, pos + byteSize (front ++ part)⟩ := by
  induction h with
  | done => cases hx
  | @part pos gap part rest y xs hgap hne hpart hspan h ih =>
    cases hx with
    | head =>
      refine ⟨gap, part, rest, rfl, hne, hpart, ?_⟩
      rw [hspan, byteSize_append, Nat.add_assoc]
    | tail _ hx =>
      obtain ⟨front, part', back, rfl, hne', hpart', hx⟩ := ih hx
      refine ⟨gap ++ part ++ front, part', back, by simp, hne', hpart', ?_⟩
      rw [hx, hspan]
      simp only [byteSize_append, Nat.add_assoc]

/-- Parts stand one behind the other. -/
theorem pairwise (h : Spaced fill Part pos xs cs) :
    xs.Pairwise fun x y => x.span.stop ≤ y.span.start := by
  induction h with
  | done => exact .nil
  | part hgap hne hpart hspan h ih =>
    refine .cons ?_ ih
    intro y hy
    obtain ⟨front, part, back, -, -, -, hy⟩ := h.exists_of_mem hy
    rw [hy]
    exact Nat.le_add_right _ _

end Spaced

end Parts

/-! ## Bounds of character classes -/

theorem Text.not_isBlank {c : Char} (hlow : 33 ≤ c.toNat) (hhigh : c.toNat < 133) :
    Text.isBlank c = false := by
  have hranges : ∀ r ∈ blankRanges, r.2 < 33 ∨ 133 ≤ r.1 := by decide
  rw [Bool.eq_false_iff, ne_eq, isBlank_iff]
  rintro ⟨r, hr, hfirst, hlast⟩
  have hr := hranges r hr
  omega

theorem toNat_of_isAlpha {c : Char} (h : c.isAlpha = true) : 65 ≤ c.toNat ∧ c.toNat ≤ 122 := by
  rcases Bool.or_eq_true_iff.mp h with hupper | hlower
  · obtain ⟨hlow, hhigh⟩ := of_decide_eq_true hupper
    have hlow : 65 ≤ c.toNat := UInt32.le_iff_toNat_le.mp hlow
    have hhigh : c.toNat ≤ 90 := UInt32.le_iff_toNat_le.mp hhigh
    omega
  · obtain ⟨hlow, hhigh⟩ := Bool.and_eq_true_iff.mp hlower
    have hlow : 97 ≤ c.toNat := UInt32.le_iff_toNat_le.mp (of_decide_eq_true hlow)
    have hhigh : c.toNat ≤ 122 := UInt32.le_iff_toNat_le.mp (of_decide_eq_true hhigh)
    omega

theorem toNat_of_isPart {c : Char} (h : Numeral.isPart c = true) : 46 ≤ c.toNat ∧ c.toNat ≤ 57 := by
  simp only [Numeral.isPart, Bool.or_eq_true, beq_iff_eq, Char.isDigit_iff_toNat] at h
  rcases h with h | rfl
  · simp only [Char.reduceToNat] at h
    omega
  · decide

namespace Lexer

/-! ## Spelling tokens -/

/-- A character that is a token of its own. -/
structure IsMark (c : Char) : Prop where
  blank   : Text.isBlank c = false
  comment : c ≠ '#'
  letter  : c.isAlpha = false
  numeral : Numeral.isPart c = false

instance (c : Char) : Decidable (IsMark c) :=
  decidable_of_iff (Text.isBlank c = false ∧ c ≠ '#' ∧ c.isAlpha = false ∧
      Numeral.isPart c = false)
    ⟨fun ⟨hblank, hcomment, hletter, hpart⟩ => ⟨hblank, hcomment, hletter, hpart⟩,
      fun h => ⟨h.blank, h.comment, h.letter, h.numeral⟩⟩

/-- The next character, if there is one, is not in the class `p`. -/
def Ends (p : Char → Bool) (rest : List Char) : Prop :=
  ∀ c, rest.head? = some c → p c = false

/-- The characters spell a token, when the characters `rest` come behind them. -/
inductive Spelled : Token → List Char → List Char → Prop where
  | word {c : Char} {cs rest : List Char} (hc : c.isAlpha = true)
      (hcs : ∀ d ∈ cs, d.isAlphanum = true) (hrest : Ends Char.isAlphanum rest) :
      Spelled (.ofWord (String.ofList (c :: cs))) (c :: cs) rest
  | numeral {c : Char} {cs rest : List Char} (hc : Numeral.isPart c = true)
      (hcs : ∀ d ∈ cs, Numeral.isPart d = true) (hrest : Ends Numeral.isPart rest) :
      Spelled (.number (Numeral.value (c :: cs))) (c :: cs) rest
  | mark {c : Char} (hc : IsMark c) (rest : List Char) : Spelled (.char c) [c] rest

theorem Ends.of_isPrefix {p : Char → Bool} {front rest : List Char} (h : Ends p rest)
    (hfront : front <+: rest) : Ends p front :=
  fun c hc => h c (head?_of_isPrefix hfront hc)

/-- A token that ends where others follow ends there without them. -/
theorem Spelled.of_isPrefix {t : Token} {cs front rest : List Char} (hfront : front <+: rest)
    (h : Spelled t cs rest) : Spelled t cs front := by
  cases h with
  | word hc hcs hrest => exact .word hc hcs (hrest.of_isPrefix hfront)
  | numeral hc hcs hrest => exact .numeral hc hcs (hrest.of_isPrefix hfront)
  | mark hc => exact .mark hc front

theorem Spelled.ne_nil {t : Token} {cs rest : List Char} (h : Spelled t cs rest) : cs ≠ [] := by
  cases h <;> exact List.cons_ne_nil _ _

/-! ## Lexing -/

theorem enter_letter {c : Char} (h : c.isAlpha = true) (pos : Nat) :
    enter pos c = (.word pos [c], []) := by
  have hbounds := toNat_of_isAlpha h
  have hblank : Text.isBlank c = false := Text.not_isBlank (by omega) (by omega)
  have hcomment : c ≠ '#' := by
    rintro rfl
    cases h
  simp [enter, hblank, hcomment, h]

theorem enter_part {c : Char} (h : Numeral.isPart c = true) (pos : Nat) :
    enter pos c = (.numeral pos [c], []) := by
  have hbounds := toNat_of_isPart h
  have hblank : Text.isBlank c = false := Text.not_isBlank (by omega) (by omega)
  have hcomment : c ≠ '#' := by
    rintro rfl
    cases h
  have hletter : c.isAlpha = false := by
    rw [Bool.eq_false_iff]
    intro hletter
    have := toNat_of_isAlpha hletter
    omega
  simp [enter, hblank, hcomment, hletter, h]

theorem enter_mark {c : Char} (h : IsMark c) (pos : Nat) :
    enter pos c = (.between, [⟨.char c, ⟨pos, pos + c.utf8Size⟩⟩]) := by
  simp [enter, h.blank, h.comment, h.letter, h.numeral]

theorem enter_blank {c : Char} (h : Text.isBlank c = true) (pos : Nat) :
    enter pos c = (.between, []) := by
  simp [enter, h]

theorem enter_lineEnd {c : Char} (h : Text.isLineEnd c = true) (pos : Nat) :
    enter pos c = (.between, []) := by
  simp only [Text.isLineEnd, decide_eq_true_eq] at h
  rcases h with rfl | rfl <;> rfl

/-- A mode goes on over the characters of its class and ends at the first other one, which
    then starts something else. -/
theorem scan_run (mode : List Char → Mode) {p : Char → Bool}
    (hstep : ∀ pos text c, p c = true → step pos (mode text) c = (mode (c :: text), []))
    (hclose : ∀ pos text c, p c = false →
      step pos (mode text) c = ((enter pos c).1, (mode text).close pos ++ (enter pos c).2))
    {cs rest : List Char} (hcs : ∀ c ∈ cs, p c = true) (hrest : Ends p rest)
    (pos : Nat) (text : List Char) :
    scan pos (mode text) (cs ++ rest) =
      (mode (cs.reverse ++ text)).close (pos + byteSize cs) ++
        scan (pos + byteSize cs) .between rest := by
  induction cs generalizing pos text with
  | nil =>
    cases rest with
    | nil => exact (List.append_nil _).symm
    | cons c rest =>
      rw [List.nil_append, scan, hclose _ _ _ (hrest c rfl), scan, List.append_assoc]
      rfl
  | cons c cs ih =>
    obtain ⟨hc, hcs⟩ := List.forall_mem_cons.mp hcs
    rw [List.cons_append, scan, hstep _ _ _ hc, List.nil_append, ih hcs, byteSize, Nat.add_assoc,
      List.reverse_cons, List.append_assoc, List.singleton_append]

theorem scan_spelled {t : Token} {cs rest : List Char} (h : Spelled t cs rest) (pos : Nat) :
    scan pos .between (cs ++ rest) =
      ⟨t, ⟨pos, pos + byteSize cs⟩⟩ :: scan (pos + byteSize cs) .between rest := by
  cases h with
  | @word c cs _ hc hcs hrest =>
    have hrun := scan_run (Mode.word pos) (fun _ _ _ hc => if_pos hc)
      (fun _ _ _ hc => if_neg (Bool.eq_false_iff.mp hc)) hcs hrest (pos + c.utf8Size) [c]
    rw [List.cons_append, scan, step, enter_letter hc, List.nil_append, hrun, byteSize,
      ← Nat.add_assoc, Mode.close]
    simp
  | @numeral c cs _ hc hcs hrest =>
    have hrun := scan_run (Mode.numeral pos) (fun _ _ _ hc => if_pos hc)
      (fun _ _ _ hc => if_neg (Bool.eq_false_iff.mp hc)) hcs hrest (pos + c.utf8Size) [c]
    rw [List.cons_append, scan, step, enter_part hc, List.nil_append, hrun, byteSize,
      ← Nat.add_assoc, Mode.close]
    simp
  | @mark c hc rest =>
    rw [List.singleton_append, scan, step, enter_mark hc]
    rfl

/-- A comment is skipped up to the line end. -/
theorem scan_comment {body rest : List Char} (hbody : ∀ c ∈ body, Text.isLineEnd c = false)
    (hend : ∀ c, rest.head? = some c → Text.isLineEnd c = true) (pos : Nat) :
    scan pos .between ('#' :: (body ++ rest)) =
      scan (pos + byteSize ('#' :: body)) .between rest := by
  have hstep (pos : Nat) (text : List Char) (c : Char) (hc : (!Text.isLineEnd c) = true) :
      step pos .comment c = (.comment, []) := by
    simp only [Text.isLineEnd, Bool.not_eq_true', decide_eq_false_iff_not] at hc
    exact if_neg hc
  have hclose (pos : Nat) (text : List Char) (c : Char) (hc : (!Text.isLineEnd c) = false) :
      step pos .comment c =
        ((enter pos c).1, Mode.close pos .comment ++ (enter pos c).2) := by
    rw [Bool.not_eq_false'] at hc
    rw [enter_lineEnd hc]
    simp only [Text.isLineEnd, decide_eq_true_eq] at hc
    exact if_pos hc
  have hends : Ends (!Text.isLineEnd ·) rest := by simpa [Ends] using hend
  have hrun := scan_run (fun _ => .comment) hstep hclose (by simpa using hbody) hends
    (pos + '#'.utf8Size) []
  rw [byteSize, ← Nat.add_assoc]
  exact hrun

theorem scan_layout {cs rest : List Char} (h : Layout Text.isBlank cs rest) (pos : Nat) :
    scan pos .between (cs ++ rest) = scan (pos + byteSize cs) .between rest := by
  induction h generalizing pos with
  | nil => rfl
  | fill hc _ ih =>
    rw [List.cons_append, scan, step, enter_blank hc, List.nil_append, ih, byteSize, Nat.add_assoc]
  | @comment body cs rest hbody hend _ ih =>
    rw [List.cons_append, List.append_assoc, scan_comment hbody hend, ih, ← List.cons_append,
      byteSize_append, Nat.add_assoc]

/-- The lexemes that stand in characters are found there, -/
theorem scan_of_spaced {pos : Nat} {ls : List Lexeme} {cs : List Char}
    (h : Spaced Text.isBlank Spelled pos ls cs) : scan pos .between cs = ls := by
  induction h with
  | @done pos cs hcs =>
    have hscan := scan_layout hcs pos
    rwa [List.append_nil] at hscan
  | @part pos gap part rest l ls hgap _ hpart hspan _ ih =>
    have hl : l = ⟨l.value, ⟨pos + byteSize gap, pos + byteSize gap + byteSize part⟩⟩ := by
      rw [← hspan]
    rw [List.append_assoc, scan_layout hgap, scan_spelled hpart, ← hl]
    rw [hspan] at ih
    rw [ih]

/-- Characters start with layout or with a token. -/
theorem starts (c : Char) (cs : List Char) :
    (∃ gap rest, c :: cs = gap ++ rest ∧ gap ≠ [] ∧ Layout Text.isBlank gap rest) ∨
    (∃ t part rest, c :: cs = part ++ rest ∧ Spelled t part rest) := by
  have hall (p : Char → Bool) : ∀ d ∈ cs.takeWhile p, p d = true :=
    List.all_eq_true.mp List.all_takeWhile
  have hends (p : Char → Bool) : Ends p (cs.dropWhile p) := by
    intro d hd
    have hnot := List.head?_dropWhile_not p cs
    rwa [hd] at hnot
  have hcut (p : Char → Bool) : c :: cs = (c :: cs.takeWhile p) ++ cs.dropWhile p := by simp
  by_cases hblank : Text.isBlank c = true
  · exact .inl ⟨[c], cs, rfl, by simp, .fill hblank (.nil cs)⟩
  by_cases hcomment : c = '#'
  · subst hcomment
    refine .inl ⟨_, _, hcut (!Text.isLineEnd ·), by simp, ?_⟩
    rw [← List.append_nil (List.takeWhile _ _)]
    refine .comment ?_ ?_ (.nil _)
    · intro d hd
      simpa using hall _ d hd
    · intro d hd
      simpa using hends _ d hd
  by_cases hletter : c.isAlpha = true
  · exact .inr ⟨_, _, _, hcut Char.isAlphanum, .word hletter (hall _) (hends _)⟩
  by_cases hpart : Numeral.isPart c = true
  · exact .inr ⟨_, _, _, hcut Numeral.isPart, .numeral hpart (hall _) (hends _)⟩
  · have hmark : IsMark c := by
      constructor <;> simp_all
    exact .inr ⟨_, [c], cs, rfl, .mark hmark cs⟩

/-- and all that are found stand there. -/
theorem spaced_scan (pos : Nat) (cs : List Char) :
    Spaced Text.isBlank Spelled pos (scan pos .between cs) cs := by
  -- Each step takes off some layout or one token.
  generalize hn : cs.length = n
  induction n using Nat.strongRecOn generalizing pos cs with
  | ind n ih =>
    cases cs with
    | nil => exact .done (.nil [])
    | cons c cs =>
      cases starts c cs with
      | inl h =>
        obtain ⟨gap, rest, hcs, hne, hgap⟩ := h
        have hlength : rest.length < n := by
          have := List.length_pos_iff.mpr hne
          rw [← hn, hcs, List.length_append]
          omega
        rw [hcs, scan_layout hgap]
        exact (ih _ hlength _ rest rfl).prepend hgap
      | inr h =>
        obtain ⟨t, part, rest, hcs, hpart⟩ := h
        have hlength : rest.length < n := by
          have := List.length_pos_iff.mpr hpart.ne_nil
          rw [← hn, hcs, List.length_append]
          omega
        rw [hcs, scan_spelled hpart]
        exact .here hpart.ne_nil hpart rfl (ih _ hlength _ rest rfl)

theorem scan_eq_iff {pos : Nat} {ls : List Lexeme} {cs : List Char} :
    scan pos .between cs = ls ↔ Spaced Text.isBlank Spelled pos ls cs := by
  constructor
  · intro h
    rw [← h]
    exact spaced_scan pos cs
  · exact scan_of_spaced

end Lexer

/-- A text can be cut before and behind any lexeme, and is lexed up to there as before. -/
theorem lexemes_split {text : String} {ls ms : List Lexeme} {l : Lexeme}
    (h : lexemes text = ls ++ l :: ms) :
    ∃ before part after, text = before ++ part ++ after ∧
      l.span = ⟨before.utf8ByteSize, (before ++ part).utf8ByteSize⟩ ∧
      lexemes before = ls ∧ lexemes (before ++ part) = ls ++ [l] := by
  obtain ⟨front, part, back, htext, hspan, hfront, hpart, -⟩ :=
    (Lexer.scan_eq_iff.mp h).split Lexer.Spelled.of_isPrefix
  refine ⟨String.ofList front, String.ofList part, String.ofList back, ?_, ?_, ?_, ?_⟩
  · rw [← String.ofList_append, ← String.ofList_append, ← htext, String.ofList_toList]
  · rw [← String.ofList_append, utf8ByteSize_ofList, utf8ByteSize_ofList, hspan, Nat.zero_add,
      Nat.zero_add]
  · rw [lexemes, String.toList_ofList]
    exact Lexer.scan_of_spaced hfront
  · rw [← String.ofList_append, lexemes, String.toList_ofList]
    exact Lexer.scan_of_spaced hpart

end Abacus
