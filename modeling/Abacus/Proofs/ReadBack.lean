-- SUMMARY: The text of a number is read back as that number.
import Abacus.Decimal.Style
import Abacus.Proofs.ShortestDigits
import Abacus.Token.Numeral

/-!
# Reading numbers back

The text of a finite number without sign is a numeral: digits, with a point inside at
most once. It says the shortest digits of the number, wherever the point stands, so the
number is what it is read as.
-/

namespace Abacus

/-! ## Fields of a double -/

namespace Binary64

open Float.Model Float.Model.UnpackedFloat

variable {x : Float}

theorem toNat_unpackMantissa (x : Float) :
    (@unpackMantissa Format.binary64 x.toModel.toBits.toBitVec).toNat = fraction x := by
  rw [unpackMantissa_def, BitVec.extractLsb'_toNat]
  rfl

theorem toNat_unpackExponent (x : Float) :
    (@unpackExponent Format.binary64 x.toModel.toBits.toBitVec).toNat = biasedExponent x := by
  rw [unpackExponent_def, BitVec.extractLsb'_toNat, Nat.shiftRight_eq_div_pow]
  rfl

/-- The sign of a double, as its fields have it. -/
def sign (x : Float) : Sign :=
  .ofBitVec (@unpackSign Format.binary64 x.toModel.toBits.toBitVec)

theorem sign_of_not_isNegative (h : isNegative x = false) : sign x = .positive := by
  have hzero : x.toBits.toNat / Nat.pow 2 63 = 0 := by
    have hlt : x.toBits.toNat / Nat.pow 2 63 < 2 := Nat.div_lt_of_lt_mul x.toBits.toNat_lt
    have hne : x.toBits.toNat / Nat.pow 2 63 ≠ 1 := beq_eq_false_iff_ne.mp h
    generalize x.toBits.toNat / Nat.pow 2 63 = sign at hlt hne
    omega
  have hnat : (@unpackSign Format.binary64 x.toModel.toBits.toBitVec).toNat = 0 := by
    rw [unpackSign_def, BitVec.extractLsb'_toNat, Nat.shiftRight_eq_div_pow]
    exact congrArg (· % 2) hzero
  exact if_pos (BitVec.eq_of_toNat_eq hnat)

/-- A double is what its fields are packed to. -/
theorem ofModel_pack_unpack (x : Float) : Float.ofModel (.pack x.toModel.unpack) = x := by
  apply Float.toBits_inj.mp
  apply UInt64.toBitVec_inj.mp
  exact pack_unpack_of_valid x.toModel.valid

/-- The fields of a finite double. -/
theorem unpack_of_isFinite (hfinite : x.isFinite = true) :
    ∃ m q, magnitude x = .finite m q ∧
      (m = 0 ∧ x.toModel.unpack = .zero (sign x) ∨
        ∃ hm : Canonical m q, x.toModel.unpack = .finite (sign x) m q hm.pos) := by
  have hfinite : (UnpackedFloat.unpack Format.binary64 x.toModel.toBits.toBitVec).isFinite = true :=
    hfinite
  have hfraction := toNat_unpackMantissa x
  have hexponent := toNat_unpackExponent x
  have hlt : fraction x < 2 ^ 52 := Nat.mod_lt _ (by decide)
  rw [Float.Model.unpack]
  revert hfinite
  fun_cases UnpackedFloat.unpack Format.binary64 x.toModel.toBits.toBitVec with
  | case1 =>
    intro hfinite
    cases hfinite
  | case2 =>
    intro hfinite
    cases hfinite
  | case3 mantissa exponent sign s hgreatest hzero hm =>
    intro _
    have hbiased : biasedExponent x = 0 := by
      rw [← hexponent]
      exact congrArg BitVec.toNat hzero
    have hnone : fraction x = 0 := by
      rw [← hfraction]
      exact congrArg BitVec.toNat hm
    refine ⟨0, -1074, ?_, .inl ⟨rfl, rfl⟩⟩
    simp [magnitude, hbiased, hnone, leastExponent]
  | case4 mantissa exponent e sign s hgreatest hzero hm =>
    intro _
    have hbiased : biasedExponent x = 0 := by
      rw [← hexponent]
      exact congrArg BitVec.toNat hzero
    have hsome : 0 < fraction x := by
      rw [← hfraction]
      exact Nat.pos_of_ne_zero fun h => hm (BitVec.eq_of_toNat_eq h)
    refine ⟨fraction x, -1074, ?_, .inr ⟨⟨hsome, by omega, le_rfl, .inl rfl⟩, ?_⟩⟩
    · simp [magnitude, hbiased, leastExponent]
    · have he : e + 1 = -1074 := by
        change (exponent.toNat : Int) - (1023 + 52) + 1 = -1074
        rw [hexponent, hbiased]
        rfl
      rw [UnpackedFloat.finite.injEq]
      exact ⟨rfl, hfraction, he⟩
  | case5 mantissa exponent e sign s hgreatest hzero =>
    intro _
    have hbiased : biasedExponent x ≠ 2047 := by
      rw [← hexponent]
      exact fun h => hgreatest (BitVec.eq_of_toNat_eq h)
    have hnormal : biasedExponent x ≠ 0 := by
      rw [← hexponent]
      exact fun h => hzero (BitVec.eq_of_toNat_eq h)
    refine ⟨2 ^ 52 + fraction x, biasedExponent x - 1 + leastExponent, ?_,
      .inr ⟨⟨by omega, by omega, ?_, .inr (by omega)⟩, ?_⟩⟩
    · simp [magnitude, hbiased, hnormal, leastNormalMantissa]
    · simp only [leastExponent]
      omega
    · have he : e = biasedExponent x - 1 + leastExponent := by
        change (exponent.toNat : Int) - (1023 + 52) = _
        rw [hexponent]
        simp only [leastExponent]
        omega
      have hm : (1#1 ++ mantissa).toNat = 2 ^ 52 + fraction x := by
        rw [BitVec.toNat_append, ← Nat.shiftLeft_add_eq_or_of_lt mantissa.isLt, hfraction]
        rfl
      rw [UnpackedFloat.finite.injEq]
      exact ⟨rfl, hm, he⟩

end Binary64

/-! ## Numerals -/

namespace Numeral

theorem value_of_ne_nil {run : List Char} (h : whole run ++ places run ≠ []) :
    value run =
      Float.ofScientific (Nat.ofDigitChars 10 (whole run ++ places run) 0) true
        (places run).length := by
  unfold value
  split
  case h_1 hnil => exact absurd hnil h
  case h_2 => rfl

section Digits

variable {ws : List Char} (hws : ∀ c ∈ ws, c.isDigit = true)
include hws

theorem whole_digits : whole ws = ws :=
  List.takeWhile_eq_self_iff.mpr hws

theorem places_digits : places ws = [] := by
  rw [places, List.dropWhile_eq_nil_iff.mpr hws]
  rfl

theorem whole_pointed (rest : List Char) : whole (ws ++ '.' :: rest) = ws := by
  rw [whole, List.takeWhile_append_of_pos hws]
  exact List.append_nil ws

theorem places_pointed (rest : List Char) :
    places (ws ++ '.' :: rest) = rest.takeWhile Char.isDigit := by
  rw [places, List.dropWhile_append_of_pos hws]
  rfl

end Digits

/-- The run spells `n / 10 ^ j`: digits, with at most one point among them. -/
inductive Spells (n j : Nat) : List Char → Prop where
  | integer {ws : List Char} (hws : ∀ c ∈ ws, c.isDigit = true) (hne : ws ≠ [])
      (hn : Nat.ofDigitChars 10 ws 0 = n) (hj : j = 0) : Spells n j ws
  | pointed {ws ps : List Char} (hws : ∀ c ∈ ws, c.isDigit = true)
      (hps : ∀ c ∈ ps, c.isDigit = true) (hne : ws ≠ [])
      (hn : Nat.ofDigitChars 10 (ws ++ ps) 0 = n) (hj : j = ps.length) :
      Spells n j (ws ++ '.' :: ps)

variable {n j : Nat} {run : List Char}

theorem isPart_of_isDigit {c : Char} (h : c.isDigit = true) : isPart c = true := by
  simp [isPart, h]

theorem Spells.ne_nil (h : Spells n j run) : run ≠ [] := by
  cases h with
  | integer hws hne hn hj => exact hne
  | pointed hws hps hne hn hj => simp

theorem Spells.isPart (h : Spells n j run) : ∀ c ∈ run, isPart c = true := by
  intro c hc
  cases h with
  | integer hws hne hn hj => exact isPart_of_isDigit (hws c hc)
  | pointed hws hps hne hn hj =>
    simp only [List.mem_append, List.mem_cons] at hc
    rcases hc with hc | rfl | hc
    · exact isPart_of_isDigit (hws c hc)
    · rfl
    · exact isPart_of_isDigit (hps c hc)

/-- What a run spells can be read off its digits. -/
theorem Spells.digits (h : Spells n j run) : whole run ++ places run ≠ [] ∧
    Nat.ofDigitChars 10 (whole run ++ places run) 0 = n ∧ (places run).length = j := by
  cases h with
  | integer hws hne hn hj =>
    rw [whole_digits hws, places_digits hws, List.append_nil]
    exact ⟨hne, hn, hj.symm⟩
  | @pointed ws ps hws hps hne hn hj =>
    rw [whole_pointed hws, places_pointed hws, List.takeWhile_eq_self_iff.mpr hps]
    exact ⟨List.append_ne_nil_of_left_ne_nil hne ps, hn, hj.symm⟩

/-- A run is worth what it spells. -/
theorem Spells.value_eq (h : Spells n j run) : value run = Float.ofScientific n true j := by
  obtain ⟨hne, hn, hj⟩ := h.digits
  rw [value_of_ne_nil hne, hn, hj]

end Numeral

namespace Decimal

open Binary64

theorem isDigit_of_mem_replicate {n : Nat} {c : Char} (h : c ∈ List.replicate n '0') :
    c.isDigit = true := by
  rw [List.eq_of_mem_replicate h]
  rfl

/-- Digits with a power of ten are spelled in full. -/
theorem spells_positionalText (keepsPoint : Bool) (d : Nat) (k : Int) :
    ∃ n j : Nat, (n / 10 ^ j : ℚ) = d * 10 ^ k ∧
      Numeral.Spells n j (positionalText keepsPoint (Nat.toDigits 10 d) k) := by
  have hdigits : ∀ c ∈ Nat.toDigits 10 d, c.isDigit = true := fun c hc =>
    Nat.isDigit_of_mem_toDigits (by decide) (by decide) hc
  have hread : Nat.ofDigitChars 10 (Nat.toDigits 10 d) 0 = d := Nat.ofDigitChars_ten_toDigits
  have hne : Nat.toDigits 10 d ≠ [] := Nat.toDigits_ne_nil
  generalize Nat.toDigits 10 d = ds at hdigits hread hne
  have hzero : ∀ c ∈ ['0'], c.isDigit = true := List.forall_mem_singleton.mpr rfl
  unfold positionalText
  split
  case isTrue hk =>
    have hall : ∀ c ∈ ds ++ List.replicate k.toNat '0', c.isDigit = true := by
      intro c hc
      rcases List.mem_append.mp hc with hc | hc
      · exact hdigits c hc
      · exact isDigit_of_mem_replicate hc
    have hwhole : Nat.ofDigitChars 10 (ds ++ List.replicate k.toNat '0') 0 = d * 10 ^ k.toNat := by
      rw [Nat.ofDigitChars_append, hread, Nat.ofDigitChars_replicate_zero, Nat.mul_comm]
    have hpow : (d : ℚ) * 10 ^ k = (d * 10 ^ k.toNat : Nat) := by
      push_cast
      rw [← zpow_natCast, Int.toNat_of_nonneg hk]
    have hne : ds ++ List.replicate k.toNat '0' ≠ [] := List.append_ne_nil_of_left_ne_nil hne _
    cases keepsPoint with
    | false =>
      refine ⟨d * 10 ^ k.toNat, 0, by rw [hpow, pow_zero, div_one], ?_⟩
      rw [if_neg Bool.false_ne_true, List.append_nil]
      exact .integer hall hne hwhole rfl
    | true =>
      refine ⟨d * 10 ^ k.toNat * 10, 1, ?_, .pointed hall hzero hne ?_ rfl⟩
      · rw [hpow, pow_one, Nat.cast_mul, Nat.cast_ofNat, mul_div_cancel_right₀ _ (by norm_num)]
      · rw [Nat.ofDigitChars_append, hwhole]
        exact Nat.mul_comm ..
  case isFalse hk =>
    refine ⟨d, (-k).toNat, ?_, ?_⟩
    · have hnone : k.toNat = 0 := by omega
      rw [Interval.ten_zpow_eq, hnone, pow_zero, mul_one_div]
    · have hpos : 0 < (-k).toNat := by omega
      dsimp only
      generalize (-k).toNat = places at hpos
      split
      case isTrue hlt =>
        refine .pointed (fun c hc => hdigits c (List.mem_of_mem_take hc))
          (fun c hc => hdigits c (List.mem_of_mem_drop hc)) ?_ ?_ ?_
        · simp [hne]
          omega
        · rw [List.take_append_drop, hread]
        · simp
          omega
      case isFalse hlt =>
        have hzeros : Nat.ofDigitChars 10 (List.replicate (places - ds.length) '0' ++ ds) 0 = d := by
          rw [Nat.ofDigitChars_append, Nat.ofDigitChars_replicate_zero, Nat.mul_zero, hread]
        refine .pointed hzero (fun c hc => ?_) (List.cons_ne_nil _ _) ?_ ?_
        · rcases List.mem_append.mp hc with hc | hc
          · exact isDigit_of_mem_replicate hc
          · exact hdigits c hc
        · rw [Nat.ofDigitChars_append]
          exact hzeros
        · simp
          omega

/-- The text of a finite number without sign is a numeral, and it is read as that number. -/
theorem value_valueText {x : Float} (hfinite : x.isFinite = true)
    (hsign : isNegative x = false) :
    ∃ n j, Numeral.Spells n j (valueText x).toList ∧ Numeral.value (valueText x).toList = x := by
  obtain ⟨m, q, hmagnitude, hfields⟩ := unpack_of_isFinite hfinite
  rw [sign_of_not_isNegative hsign] at hfields
  have hx := ofModel_pack_unpack x
  have htext : (valueText x).toList = valueStyle.magnitudeText m q := by
    simp [valueText, Style.text, hmagnitude, hsign]
  rw [htext]
  rcases hfields with ⟨rfl, hzero⟩ | ⟨hm, hunpack⟩
  · rw [hzero] at hx
    have hdigit : valueStyle.magnitudeText 0 q = ['0'] := rfl
    rw [hdigit]
    refine ⟨0, 0, .integer (List.forall_mem_singleton.mpr rfl) (List.cons_ne_nil _ _) rfl rfl, ?_⟩
    rw [← hx]
    rfl
  · rw [hunpack] at hx
    have hnarrow : (m == leastNormalMantissa && q != leastExponent) = true ↔
        m = 2 ^ 52 ∧ q ≠ -1074 := by
      simp [leastNormalMantissa, leastExponent]
    have hreaches := reaches_shortest .up hm hnarrow
    have hpositional : valueStyle.magnitudeText m q = positionalText false (Nat.toDigits 10
        (shortest .up m q (m == leastNormalMantissa && q != leastExponent)).digits)
        (shortest .up m q (m == leastNormalMantissa && q != leastExponent)).exponent := by
      rw [Style.magnitudeText, if_neg hm.pos.ne']
      rfl
    obtain ⟨n, j, hvalue, hspells⟩ := spells_positionalText false _ _
    rw [← hvalue] at hreaches
    have hn : 0 < n := by
      refine Nat.pos_of_ne_zero fun hzero => (hreaches.pos hm).ne' ?_
      rw [hzero, Nat.cast_zero, zero_div]
    rw [hpositional]
    refine ⟨n, j, hspells, ?_⟩
    rw [hspells.value_eq, hreaches.ofScientific hn hm]
    exact hx

end Decimal

end Abacus
