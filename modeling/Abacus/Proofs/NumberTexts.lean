-- SUMMARY: In every style, finite numbers with one text are one number.
import Abacus.Proofs.ReadBack

/-!
# Texts of numbers

A style decides where the point stands and whether there is an exponent, but not which
decimal is written: behind the sign, every text denotes the shortest digits of the number.
A decimal is reached by one double only, so no two finite numbers share a text, zeros of
either sign included.
-/

namespace Abacus

/-! ## Numbers with the same fields -/

namespace Binary64

variable {x y : Float} {m : Nat} {q : Int}

theorem isNegative_iff (x : Float) : isNegative x = true ↔ 2 ^ 63 ≤ x.toBits.toNat := by
  have hlt := x.toBits.toNat_lt
  have hpow : Nat.pow 2 63 = 2 ^ 63 := rfl
  rw [isNegative, hpow, beq_iff_eq]
  omega

theorem eq_of_fields (hsign : isNegative x = isNegative y) (hfraction : fraction x = fraction y)
    (hexponent : biasedExponent x = biasedExponent y) : x = y := by
  have hx := x.toBits.toNat_lt
  have hy := y.toBits.toNat_lt
  have hsign : 2 ^ 63 ≤ x.toBits.toNat ↔ 2 ^ 63 ≤ y.toBits.toNat := by
    rw [← isNegative_iff, ← isNegative_iff, hsign]
  have hpow (n : Nat) : Nat.pow 2 n = 2 ^ n := rfl
  simp only [fraction, biasedExponent, hpow] at hfraction hexponent
  apply Float.toBits_inj.mp
  apply UInt64.toNat_inj.mp
  omega

/-- The fields that a finite magnitude is made of. -/
theorem fields_of_magnitude (h : magnitude x = .finite m q) :
    biasedExponent x = 0 ∧ m = fraction x ∧ q = leastExponent ∨
      0 < biasedExponent x ∧ m = 2 ^ 52 + fraction x ∧
        q = biasedExponent x - 1 + leastExponent := by
  unfold magnitude at h
  split at h
  · split at h <;> cases h
  · split at h
    case isTrue hzero =>
      cases h
      exact .inl ⟨hzero, rfl, rfl⟩
    case isFalse hzero =>
      cases h
      exact .inr ⟨Nat.pos_of_ne_zero hzero, rfl, rfl⟩

theorem fraction_lt (x : Float) : fraction x < 2 ^ 52 :=
  Nat.mod_lt _ (by decide)

/-- A finite magnitude is zero or that of a positive double. -/
theorem canonical_of_magnitude (h : magnitude x = .finite m q) :
    m = 0 ∧ q = leastExponent ∨ Canonical m q := by
  have hlt := fraction_lt x
  rcases fields_of_magnitude h with ⟨-, rfl, rfl⟩ | ⟨hexponent, rfl, rfl⟩
  · rcases Nat.eq_zero_or_pos (fraction x) with hzero | hpos
    · exact .inl ⟨hzero, rfl⟩
    · exact .inr ⟨hpos, by omega, le_rfl, .inl rfl⟩
  · refine .inr ⟨by omega, by omega, ?_, .inr (by omega)⟩
    simp only [leastExponent]
    omega

/-- A finite number is determined by its sign and its magnitude. -/
theorem eq_of_magnitude (hsign : isNegative x = isNegative y) (hx : magnitude x = .finite m q)
    (hy : magnitude y = .finite m q) : x = y := by
  have hltx := fraction_lt x
  have hlty := fraction_lt y
  have hfields : fraction x = fraction y ∧ biasedExponent x = biasedExponent y := by
    have := fields_of_magnitude hx
    have := fields_of_magnitude hy
    omega
  exact eq_of_fields hsign hfields.1 hfields.2

end Binary64

/-! ## Decimals with an exponent -/

namespace Decimal

open Binary64

/-- An exponent as scientific texts have it. -/
def exponentText (order : Int) : List Char :=
  'e' :: (if order < 0 then '-' else '+') :: Nat.toDigits 10 order.natAbs

/-- The text denotes the value: a numeral, with an exponent or without. -/
inductive Denotes : List Char → ℚ → Prop where
  | plain {n j : Nat} {run : List Char} (h : Numeral.Spells n j run) : Denotes run (n / 10 ^ j)
  | scaled {n j : Nat} {run : List Char} (h : Numeral.Spells n j run) (order : Int) :
      Denotes (run ++ exponentText order) (n / 10 ^ j * 10 ^ order)

/-- The exponent behind a numeral. -/
def exponentOf : List Char → Int
  | 'e' :: '-' :: ds => -(Nat.ofDigitChars 10 ds 0 : Int)
  | 'e' :: '+' :: ds => Nat.ofDigitChars 10 ds 0
  | _ => 0

/-- The value that a text denotes, if it denotes one. -/
def denoted (cs : List Char) : ℚ :=
  let run := cs.takeWhile Numeral.isPart
  Nat.ofDigitChars 10 (Numeral.whole run ++ Numeral.places run) 0 /
    10 ^ (Numeral.places run).length * 10 ^ exponentOf (cs.dropWhile Numeral.isPart)

variable {cs : List Char} {v v' : ℚ}

theorem exponentOf_exponentText (order : Int) : exponentOf (exponentText order) = order := by
  unfold exponentText
  split
  case isTrue h =>
    simp only [exponentOf, Nat.ofDigitChars_ten_toDigits]
    omega
  case isFalse h =>
    simp only [exponentOf, Nat.ofDigitChars_ten_toDigits]
    omega

/-- Numeral and exponent are told apart by the first character that is not part of a
    numeral. -/
theorem denoted_append {n j : Nat} {run : List Char} (h : Numeral.Spells n j run)
    (back : List Char) (hback : back.takeWhile Numeral.isPart = []) :
    denoted (run ++ back) = n / 10 ^ j * 10 ^ exponentOf back := by
  obtain ⟨-, hn, hj⟩ := h.digits
  have hdrop : back.dropWhile Numeral.isPart = back := by
    have := List.takeWhile_append_dropWhile (p := Numeral.isPart) (l := back)
    rwa [hback, List.nil_append] at this
  rw [denoted, List.takeWhile_append_of_pos h.isPart, List.dropWhile_append_of_pos h.isPart,
    hback, hdrop, List.append_nil]
  simp only [hn, hj]

theorem Denotes.denoted_eq (h : Denotes cs v) : denoted cs = v := by
  cases h with
  | plain h =>
    have hplain := denoted_append h [] rfl
    have hnone : exponentOf [] = 0 := rfl
    rw [List.append_nil] at hplain
    rw [hplain, hnone, zpow_zero, mul_one]
  | scaled h order =>
    rw [denoted_append h (exponentText order) rfl, exponentOf_exponentText]

/-- A text denotes one value. -/
theorem Denotes.unique (h : Denotes cs v) (h' : Denotes cs v') : v = v' :=
  h.denoted_eq.symm.trans h'.denoted_eq

/-- The characters of texts that denote a value. -/
def isNumberChar (c : Char) : Bool :=
  Numeral.isPart c || c == 'e' || c == '+' || c == '-'

theorem isNumberChar_of_isPart {c : Char} (h : Numeral.isPart c = true) :
    isNumberChar c = true := by
  simp [isNumberChar, h]

theorem isNumberChar_exponentText (order : Int) :
    ∀ c ∈ exponentText order, isNumberChar c = true := by
  intro c hc
  rcases List.mem_cons.mp hc with rfl | hc
  · rfl
  · rcases List.mem_cons.mp hc with rfl | hc
    · split <;> rfl
    · have hdigit : c.isDigit = true := Nat.isDigit_of_mem_toDigits (by decide) (by decide) hc
      exact isNumberChar_of_isPart (Numeral.isPart_of_isDigit hdigit)

theorem Denotes.isNumberChar (h : Denotes cs v) : ∀ c ∈ cs, isNumberChar c = true := by
  intro c hc
  cases h with
  | plain h => exact isNumberChar_of_isPart (h.isPart c hc)
  | scaled h order =>
    rcases List.mem_append.mp hc with hc | hc
    · exact isNumberChar_of_isPart (h.isPart c hc)
    · exact isNumberChar_exponentText order c hc

/-- What denotes a value has no sign in front. -/
theorem Denotes.head_ne_minus (h : Denotes cs v) : ∀ rest, cs ≠ '-' :: rest := by
  have hrun : ∀ {n j : Nat} {run : List Char}, Numeral.Spells n j run →
      ∀ back rest, run ++ back ≠ '-' :: rest := by
    intro n j run hspells back rest heq
    cases run with
    | nil => exact hspells.ne_nil rfl
    | cons c run =>
      cases heq
      exact absurd (hspells.isPart '-' List.mem_cons_self) (by decide)
  intro rest
  cases h with
  | plain h =>
    have hplain := hrun h [] rest
    rwa [List.append_nil] at hplain
  | scaled h order => exact hrun h _ rest

/-! ## Styles -/

/-- One digit before the point, and the rest of the order in the exponent. -/
theorem denotes_scientificText (d : Nat) (k : Int) :
    Denotes (scientificText (Nat.toDigits 10 d) (k + (Nat.toDigits 10 d).length - 1))
      (d * 10 ^ k) := by
  have hdigits : ∀ c ∈ Nat.toDigits 10 d, c.isDigit = true := fun c hc =>
    Nat.isDigit_of_mem_toDigits (by decide) (by decide) hc
  have hread : Nat.ofDigitChars 10 (Nat.toDigits 10 d) 0 = d := Nat.ofDigitChars_ten_toDigits
  have hne : Nat.toDigits 10 d ≠ [] := Nat.toDigits_ne_nil
  generalize Nat.toDigits 10 d = ds at hdigits hread hne
  match ds with
  | [] => exact absurd rfl hne
  | [c] =>
    have hspells : Numeral.Spells d 0 [c] := .integer hdigits hne hread rfl
    have hdenotes := Denotes.scaled hspells k
    rw [pow_zero, div_one] at hdenotes
    have horder : k + ([c].length : Int) - 1 = k := by simp
    rw [horder]
    exact hdenotes
  | c :: e :: es =>
    obtain ⟨hc, hes⟩ := List.forall_mem_cons.mp hdigits
    have hspells : Numeral.Spells d (e :: es).length ([c] ++ '.' :: e :: es) :=
      .pointed (List.forall_mem_singleton.mpr hc) hes (List.cons_ne_nil _ _) hread rfl
    have horder : k + ((c :: e :: es).length : Int) - 1 = k + ((e :: es).length : Int) := by
      rw [List.length_cons, Nat.cast_add, Nat.cast_one]
      omega
    have hvalue : (d / 10 ^ (e :: es).length * 10 ^ (k + ((e :: es).length : Int)) : ℚ) =
        d * 10 ^ k := by
      rw [zpow_add₀ (by norm_num), zpow_natCast]
      field_simp
    rw [horder, ← hvalue]
    exact .scaled hspells _

theorem denotes_positionalText (keepsPoint : Bool) (d : Nat) (k : Int) :
    Denotes (positionalText keepsPoint (Nat.toDigits 10 d) k) (d * 10 ^ k) := by
  obtain ⟨n, j, hvalue, hspells⟩ := spells_positionalText keepsPoint d k
  rw [← hvalue]
  exact .plain hspells

variable (style : Style) {m m' : Nat} {q q' : Int}

theorem denotes_zero (q : Int) : Denotes (style.magnitudeText 0 q) 0 := by
  have hzero := denotes_positionalText style.keepsPoint 0 0
  rw [Nat.cast_zero, zero_mul] at hzero
  exact hzero

/-- The text of a magnitude denotes a decimal that the magnitude reaches. -/
theorem denotes_magnitudeText (hm : Canonical m q) :
    ∃ v, Denotes (style.magnitudeText m q) v ∧ Reaches m q v := by
  have hnarrow : (m == leastNormalMantissa && q != leastExponent) = true ↔
      m = 2 ^ 52 ∧ q ≠ -1074 := by
    simp [leastNormalMantissa, leastExponent]
  refine ⟨_, ?_, reaches_shortest style.tie hm hnarrow⟩
  rw [Style.magnitudeText, if_neg hm.pos.ne']
  dsimp only
  split
  · exact denotes_positionalText _ _ _
  · exact denotes_scientificText _ _

/-- Magnitudes with one text are one magnitude. -/
theorem magnitudeText_inj (hm : m = 0 ∧ q = leastExponent ∨ Canonical m q)
    (hm' : m' = 0 ∧ q' = leastExponent ∨ Canonical m' q')
    (h : style.magnitudeText m q = style.magnitudeText m' q') : m = m' ∧ q = q' := by
  have hpos {n : Nat} {e r : Int} (hn : Canonical n e) :
      style.magnitudeText 0 r ≠ style.magnitudeText n e := by
    intro heq
    obtain ⟨v, hdenotes, hreaches⟩ := denotes_magnitudeText style hn
    rw [← heq] at hdenotes
    exact (hreaches.pos hn).ne ((denotes_zero style r).unique hdenotes)
  rcases hm with ⟨rfl, rfl⟩ | hm <;> rcases hm' with ⟨rfl, rfl⟩ | hm'
  · exact ⟨rfl, rfl⟩
  · exact absurd h (hpos hm')
  · exact absurd h.symm (hpos hm)
  · obtain ⟨v, hdenotes, hreaches⟩ := denotes_magnitudeText style hm
    obtain ⟨v', hdenotes', hreaches'⟩ := denotes_magnitudeText style hm'
    rw [h] at hdenotes
    rw [← hdenotes.unique hdenotes'] at hreaches'
    exact hreaches.unique hm hreaches' hm'

/-- The text of a finite number is a decimal, with a sign in front where there is one. -/
theorem text_of_magnitude {x : Float} (h : magnitude x = .finite m q) :
    (∃ v, Denotes (style.magnitudeText m q) v) ∧
      (style.text x).toList =
        if isNegative x then '-' :: style.magnitudeText m q else style.magnitudeText m q := by
  refine ⟨?_, by simp [Style.text, h]⟩
  rcases canonical_of_magnitude h with ⟨rfl, -⟩ | hm
  · exact ⟨0, denotes_zero style q⟩
  · obtain ⟨v, hdenotes, -⟩ := denotes_magnitudeText style hm
    exact ⟨v, hdenotes⟩

theorem isNumberChar_text {x : Float} (h : magnitude x = .finite m q) :
    ∀ c ∈ (style.text x).toList, isNumberChar c = true := by
  obtain ⟨⟨v, hdenotes⟩, htext⟩ := text_of_magnitude style h
  intro c hc
  rw [htext] at hc
  split at hc
  · rcases List.mem_cons.mp hc with rfl | hc
    · rfl
    · exact hdenotes.isNumberChar c hc
  · exact hdenotes.isNumberChar c hc

/-- Finite numbers with one text are one number. -/
theorem text_inj {x y : Float} (hx : x.isFinite = true) (hy : y.isFinite = true)
    (h : style.text x = style.text y) : x = y := by
  obtain ⟨m, q, hmx, -⟩ := unpack_of_isFinite hx
  obtain ⟨m', q', hmy, -⟩ := unpack_of_isFinite hy
  obtain ⟨⟨v, hdx⟩, htx⟩ := text_of_magnitude style hmx
  obtain ⟨⟨v', hdy⟩, hty⟩ := text_of_magnitude style hmy
  have hchars : (style.text x).toList = (style.text y).toList := by rw [h]
  rw [htx, hty] at hchars
  have hboth : isNegative x = isNegative y ∧
      style.magnitudeText m q = style.magnitudeText m' q' := by
    cases hnx : isNegative x <;> cases hny : isNegative y <;> simp only [hnx, hny, if_true] at hchars
    · exact ⟨rfl, hchars⟩
    · exact absurd hchars (hdx.head_ne_minus _)
    · exact absurd hchars.symm (hdy.head_ne_minus _)
    · exact ⟨rfl, (List.cons_eq_cons.mp hchars).2⟩
  obtain ⟨rfl, rfl⟩ := magnitudeText_inj style (canonical_of_magnitude hmx)
    (canonical_of_magnitude hmy) hboth.2
  exact eq_of_magnitude hboth.1 hmx hmy

end Decimal

end Abacus
