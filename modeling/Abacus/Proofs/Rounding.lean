-- SUMMARY: The reals that round to a double.
import Mathlib

/-!
# Rounding

A positive double is `m * 2 ^ q` with a mantissa of at most fifty-three bits, all of them
used unless the exponent is the least one. It is the nearest double for the reals that
it reaches: those up to half a unit of its last place away, the ends included where the
mantissa is even. Below the doubles at which the spacing changes the reach is half as
far.

Quotients are computed to more places than a double has, with two bits that tell what
was cut off, and then rounded. What is rounded comes out as the double that reaches it.
-/

namespace Abacus.Binary64

open Float.Model Float.Model.UnpackedFloat

/-! ## Truncated mantissas -/

/-- What a mantissa, cut off at the unit, and the two bits behind it say of a value. -/
def Locates (em : ExtendedMantissa) (v : ℚ) : Prop :=
  match em.roundBit, em.stickyBit with
  | false, false => v = em.mantissa
  | false, true  => em.mantissa < v ∧ v < em.mantissa + 1 / 2
  | true,  false => v = em.mantissa + 1 / 2
  | true,  true  => em.mantissa + 1 / 2 < v ∧ v < em.mantissa + 1

/-- The integer nearest to a value; halfway between two it is the even one. -/
structure Nearest (m : Nat) (v : ℚ) : Prop where
  low  : m - 1 / 2 ≤ v
  high : v ≤ m + 1 / 2
  odd  : m % 2 = 1 → m - 1 / 2 < v ∧ v < m + 1 / 2

variable {em : ExtendedMantissa} {v : ℚ}

theorem Locates.floor (h : Locates em v) : em.mantissa ≤ v ∧ v < em.mantissa + 1 := by
  obtain ⟨m, round, sticky⟩ := em
  cases round <;> cases sticky <;> simp only [Locates] at h ⊢ <;> constructor <;> linarith

theorem Locates.shiftRightOne (h : Locates em v) : Locates em.shiftRightOne (v / 2) := by
  obtain ⟨m, round, sticky⟩ := em
  have hsplit : ((m % 2 : Nat) : ℚ) + 2 * ((m / 2 : Nat) : ℚ) = m := by
    exact_mod_cast Nat.mod_add_div m 2
  rcases Nat.mod_two_eq_zero_or_one m with hm | hm <;> rw [hm] at hsplit <;>
    cases round <;> cases sticky <;>
    simp [Locates, ExtendedMantissa.shiftRightOne, hm] at h ⊢ <;>
    norm_num at hsplit h ⊢ <;>
    first | linarith | constructor <;> linarith

/-- Shifting keeps what is known of the value. -/
theorem Locates.shiftRight (h : Locates em v) (n : Nat) :
    Locates (em >>> n) (v / 2 ^ n) := by
  change Locates (n.repeat ExtendedMantissa.shiftRightOne em) _
  induction n with
  | zero => simpa [Nat.repeat] using h
  | succ n ih =>
    rw [pow_succ, ← div_div]
    exact ih.shiftRightOne

theorem locates_exact (m : Nat) :
    Locates (.ofMantissaAndAccuracy m .exact) m := rfl

theorem locates_quotient (num : Nat) {den : Nat} (hden : 0 < den) :
    Locates (.ofMantissaAndAccuracy (num / den) (accuracyOfFraction (num % den) den))
      (num / den : ℚ) := by
  have hden' : (0 : ℚ) < den := by exact_mod_cast hden
  have hsplit : (num : ℚ) = ((num % den : Nat) : ℚ) + den * ((num / den : Nat) : ℚ) := by
    exact_mod_cast (Nat.mod_add_div num den).symm
  have hlt : ((num % den : Nat) : ℚ) < den := by exact_mod_cast Nat.mod_lt num hden
  have hv : (num / den : ℚ) = ((num / den : Nat) : ℚ) + ((num % den : Nat) : ℚ) / den := by
    rw [eq_comm, ← sub_eq_zero, hsplit]
    field_simp
    ring
  rw [hv]
  generalize num / den = k, num % den = r at hlt ⊢
  unfold accuracyOfFraction
  split
  case isTrue hr =>
    subst hr
    simp [Locates, ExtendedMantissa.ofMantissaAndAccuracy]
  case isFalse hr =>
    have hpos : (0 : ℚ) < r / den := by
      have : (0 : ℚ) < r := by exact_mod_cast Nat.pos_of_ne_zero hr
      positivity
    have hone : (r : ℚ) / den < 1 := (div_lt_one hden').mpr hlt
    cases hcompare : compare (2 * r) den with
    | lt =>
      have hlt : (2 * r : ℚ) < den := by exact_mod_cast Nat.compare_eq_lt.mp hcompare
      have hhalf : (r : ℚ) / den < 1 / 2 := by
        rw [div_lt_div_iff₀ hden' two_pos]
        linarith
      simp only [Locates, ExtendedMantissa.ofMantissaAndAccuracy]
      constructor <;> linarith
    | eq =>
      have heq : (2 * r : ℚ) = den := by exact_mod_cast Nat.compare_eq_eq.mp hcompare
      have hhalf : (r : ℚ) / den = 1 / 2 := by
        rw [div_eq_div_iff hden'.ne' two_ne_zero]
        linarith
      simp only [Locates, ExtendedMantissa.ofMantissaAndAccuracy]
      linarith
    | gt =>
      have hgt : (den : ℚ) < 2 * r := by exact_mod_cast Nat.compare_eq_gt.mp hcompare
      have hhalf : 1 / 2 < (r : ℚ) / den := by
        rw [div_lt_div_iff₀ two_pos hden']
        linarith
      simp only [Locates, ExtendedMantissa.ofMantissaAndAccuracy]
      constructor <;> linarith

/-- The mantissa is rounded to the nearest integer. -/
theorem Locates.roundedMantissa {m : Nat} (h : Locates em v) (hm : Nearest m v) :
    em.roundedMantissa = m := by
  obtain ⟨k, round, sticky⟩ := em
  have hlow := hm.low
  have hhigh := hm.high
  cases round <;> cases sticky <;>
    simp only [Locates, ExtendedMantissa.roundedMantissa, ExtendedMantissa.accuracy,
      Accuracy.roundToNearestEven] at h ⊢
  · have h₁ : (2 * m : ℚ) ≤ 2 * k + 1 := by linarith
    have h₂ : (2 * k : ℚ) ≤ 2 * m + 1 := by linarith
    norm_cast at h₁ h₂
    omega
  · have h₁ : (m : ℚ) < k + 1 := by linarith
    have h₂ : (2 * k : ℚ) < 2 * m + 1 := by linarith
    norm_cast at h₁ h₂
    omega
  · have h₁ : (m : ℚ) ≤ k + 1 := by linarith
    have h₂ : (k : ℚ) ≤ m := by linarith
    norm_cast at h₁ h₂
    rcases Nat.mod_two_eq_zero_or_one m with heven | hodd
    · omega
    · obtain ⟨h₃, h₄⟩ := hm.odd hodd
      have h₃ : (m : ℚ) < k + 1 := by linarith
      have h₄ : (k : ℚ) < m := by linarith
      norm_cast at h₃ h₄
      omega
  · have h₁ : (2 * m : ℚ) < 2 * k + 3 := by linarith
    have h₂ : (k : ℚ) < m := by linarith
    norm_cast at h₁ h₂
    omega

/-! ## Reach -/

/-- The fields of a positive double, except that the exponent may be too large. -/
structure Canonical (m : Nat) (q : Int) : Prop where
  pos    : 0 < m
  lt     : m < 2 ^ 53
  least  : -1074 ≤ q
  normal : q = -1074 ∨ 2 ^ 52 ≤ m

/-- The value is nearer to `m * 2 ^ q` than to other doubles. -/
structure Reaches (m : Nat) (q : Int) (v : ℚ) : Prop where
  nearest : Nearest m (v / 2 ^ q)
  narrow  : m = 2 ^ 52 → q ≠ -1074 → m - 1 / 4 ≤ v / 2 ^ q

variable {m n : Nat} {q e t : Int} {w : ℚ} {acc : Accuracy}

theorem two_zpow_pos (q : Int) : (0 : ℚ) < 2 ^ q :=
  zpow_pos two_pos q

theorem two_zpow_toNat (h : 0 ≤ t) : (2 : ℚ) ^ t.toNat = 2 ^ t := by
  rw [← zpow_natCast, Int.toNat_of_nonneg h]

/-- A value that a double reaches is below the next power of two. -/
theorem Reaches.lt_zpow (h : Reaches m q v) (hm : Canonical m q) : v < 2 ^ (q + 53) := by
  have hlt : (m : ℚ) + 1 ≤ 2 ^ 53 := by exact_mod_cast hm.lt
  have hhigh := h.nearest.high
  rw [div_le_iff₀ (two_zpow_pos q)] at hhigh
  rw [zpow_add₀ two_ne_zero, mul_comm]
  refine lt_of_le_of_lt hhigh (mul_lt_mul_of_pos_right ?_ (two_zpow_pos q))
  norm_num at hlt ⊢
  linarith

theorem Reaches.pos (h : Reaches m q v) (hm : Canonical m q) : 0 < v := by
  have hlow := h.nearest.low
  have hone : (1 : ℚ) ≤ m := by exact_mod_cast hm.pos
  have hscaled : 0 < v / 2 ^ q := by linarith
  exact (div_pos_iff_of_pos_right (two_zpow_pos q)).mp hscaled

section Round

variable (h : Locates (.ofMantissaAndAccuracy n acc) w)
include h

theorem floor_ofMantissa : (n : ℚ) ≤ w ∧ w < n + 1 := by
  have hfloor := h.floor
  have hn : (ExtendedMantissa.ofMantissaAndAccuracy n acc).mantissa = n := by
    cases acc with
    | exact => rfl
    | inexact order => cases order <;> rfl
  rwa [hn] at hfloor

/-- The leading bit of the mantissa is that of the value, -/
theorem le_log2 (hte : e ≤ t) (ht : 2 ^ t ≤ w * 2 ^ e) : t - e ≤ n.log2 := by
  have hpow : (2 : ℚ) ^ (t - e).toNat ≤ w := by
    rw [two_zpow_toNat (by omega), zpow_sub₀ two_ne_zero, div_le_iff₀ (two_zpow_pos e)]
    exact ht
  have hlt : (2 : ℚ) ^ (t - e).toNat < n + 1 := lt_of_le_of_lt hpow (floor_ofMantissa h).2
  have hle : 2 ^ (t - e).toNat ≤ n := by
    have : 2 ^ (t - e).toNat < n + 1 := by exact_mod_cast hlt
    omega
  have hn : n ≠ 0 := by
    have := Nat.two_pow_pos (t - e).toNat
    omega
  have hlog := (Nat.le_log2 hn).mpr hle
  omega

/-- and so is the place behind it. -/
theorem log2_lt (hte : e < t) (ht : w * 2 ^ e < 2 ^ t) : n.log2 < t - e := by
  rcases Nat.eq_zero_or_pos n with rfl | hn
  · simp
    omega
  · have hpow : w < (2 : ℚ) ^ (t - e).toNat := by
      rw [two_zpow_toNat (by omega), zpow_sub₀ two_ne_zero, lt_div_iff₀ (two_zpow_pos e)]
      exact ht
    have hlt : n < 2 ^ (t - e).toNat := by
      exact_mod_cast lt_of_le_of_lt (floor_ofMantissa h).1 hpow
    have hlog := (Nat.log2_lt hn.ne').mpr hlt
    omega

end Round

theorem targetExponent_eq (m : Nat) (e : Int) :
    Format.binary64.targetExponent (totalExponent m e) = max (m.log2 + e - 52) (-1074) := by
  simp only [Format.targetExponent, totalExponent, Format.mantissaBits, Format.minExponent]
  norm_num
  omega

/-- Cutting off at an exponent not below the one there was. -/
theorem shiftToTargetExponent_eq (ht : Format.binary64.targetExponent (totalExponent n e) = t)
    (hte : e ≤ t) :
    shiftToTargetExponent Format.binary64 n e acc =
      (ExtendedMantissa.ofMantissaAndAccuracy n acc >>> (t - e).toNat, t) := by
  rw [shiftToTargetExponent, ht, shiftToExponent, Int.toNat_of_nonneg (by omega)]
  simp

/-- What was rounded stays, unless it came out one bit too long. -/
theorem roundWithAccuracy_eq {m' : Nat} {t' : Int} (sign : Sign)
    (ht : Format.binary64.targetExponent (totalExponent n e) = t) (hte : e ≤ t)
    (hround : (ExtendedMantissa.ofMantissaAndAccuracy n acc >>> (t - e).toNat).roundedMantissa = m')
    (ht' : Format.binary64.targetExponent (totalExponent m' t) = t') (hle : t ≤ t')
    (hm : (ExtendedMantissa.ofMantissaAndAccuracy m' .exact >>> (t' - t).toNat).mantissa = m)
    (hpos : 0 < m) :
    roundWithAccuracy Format.binary64 sign n e acc = .finite sign m t' hpos := by
  rw [roundWithAccuracy, shiftToTargetExponent_eq ht hte]
  dsimp only
  rw [hround, shiftToTargetExponent_eq ht' hle]
  dsimp only
  simp only [hm, hpos.ne', ↓reduceDIte]

theorem Canonical.targetExponent_eq (hm : Canonical m q) :
    Format.binary64.targetExponent (totalExponent m q) = q := by
  have hlt := (Nat.log2_lt hm.pos.ne').mpr hm.lt
  have hleast := hm.least
  rw [Binary64.targetExponent_eq]
  rcases hm.normal with hq | hnormal
  · omega
  · have hle := (Nat.le_log2 hm.pos.ne').mpr hnormal
    omega

theorem div_two_pow_eq (hte : e ≤ t) (w : ℚ) : w / 2 ^ (t - e).toNat = w * 2 ^ e / 2 ^ t := by
  rw [two_zpow_toNat (by omega), zpow_sub₀ two_ne_zero, div_div_eq_mul_div]

/-- A value in the binade of the double that reaches it, or in the lowest one. -/
theorem Reaches.round_same (hv : Reaches m q (w * 2 ^ e)) (hm : Canonical m q)
    (h : Locates (.ofMantissaAndAccuracy n acc) w) (heq : e ≤ q)
    (hlow : q = -1074 ∨ 2 ^ (q + 52) ≤ w * 2 ^ e) (sign : Sign) :
    roundWithAccuracy Format.binary64 sign n e acc = .finite sign m q hm.pos := by
  have hleast := hm.least
  have hupper := log2_lt h (by omega) (hv.lt_zpow hm)
  have htarget : Format.binary64.targetExponent (totalExponent n e) = q := by
    rw [targetExponent_eq]
    rcases hlow with hq | hlow
    · omega
    · have hlower := le_log2 h (by omega) hlow
      omega
  have hlocates := h.shiftRight (q - e).toNat
  rw [div_two_pow_eq heq] at hlocates
  refine roundWithAccuracy_eq sign htarget heq (hlocates.roundedMantissa hv.nearest)
    hm.targetExponent_eq le_rfl ?_ hm.pos
  rw [Int.sub_self]
  rfl

/-- A value just below a double at which the spacing changes. Its mantissa comes out as
    the next power of two. -/
theorem Reaches.round_below (hv : Reaches (2 ^ 52) q (w * 2 ^ e)) (hq : -1074 < q)
    (h : Locates (.ofMantissaAndAccuracy n acc) w) (heq : e < q)
    (hlow : w * 2 ^ e < 2 ^ (q + 52)) (sign : Sign) :
    roundWithAccuracy Format.binary64 sign n e acc = .finite sign (2 ^ 52) q (by decide) := by
  have hpos := two_zpow_pos q
  have hnarrow : (2 ^ 52 - 1 / 4) * 2 ^ q ≤ w * 2 ^ e := by
    have hle := hv.narrow rfl hq.ne'
    rw [le_div_iff₀ hpos] at hle
    exact_mod_cast hle
  have hbelow : w * 2 ^ e < 2 ^ 52 * 2 ^ q := by
    rw [zpow_add₀ two_ne_zero, mul_comm (2 ^ q)] at hlow
    exact_mod_cast hlow
  have hbinade : 2 ^ (q + 51) ≤ w * 2 ^ e := by
    refine le_trans ?_ hnarrow
    rw [zpow_add₀ two_ne_zero, mul_comm]
    exact mul_le_mul_of_nonneg_right (by norm_num) hpos.le
  have htarget : Format.binary64.targetExponent (totalExponent n e) = q - 1 := by
    have hupper := log2_lt h (by omega) hlow
    have hlower := le_log2 h (by omega) hbinade
    rw [targetExponent_eq]
    omega
  have hnearest : Nearest (2 ^ 53) (w * 2 ^ e / 2 ^ (q - 1)) := by
    have hhalf : (2 : ℚ) ^ q = 2 ^ (q - 1) * 2 := by
      rw [← zpow_add_one₀ two_ne_zero, Int.sub_add_cancel]
    rw [hhalf] at hnarrow hbelow
    have hpos' := two_zpow_pos (q - 1)
    refine ⟨?_, ?_, fun hodd => absurd hodd (by decide)⟩
    · rw [le_div_iff₀ hpos']
      push_cast
      linarith
    · rw [div_le_iff₀ hpos']
      push_cast
      linarith
  have hlocates := h.shiftRight (q - 1 - e).toNat
  rw [div_two_pow_eq (by omega)] at hlocates
  have hcarry : Format.binary64.targetExponent (totalExponent (2 ^ 53) (q - 1)) = q := by
    rw [targetExponent_eq, Nat.log2_two_pow]
    omega
  refine roundWithAccuracy_eq sign htarget (by omega) (hlocates.roundedMantissa hnearest) hcarry
    (by omega) ?_ (by decide)
  rw [Int.sub_sub_self]
  rfl

/-- A value is rounded to the double that reaches it, if it was given to enough places. -/
theorem Reaches.round (hv : Reaches m q (w * 2 ^ e)) (hm : Canonical m q)
    (h : Locates (.ofMantissaAndAccuracy n acc) w) (hfine : e ≤ -1074 ∨ 2 ^ 52 ≤ n) (sign : Sign) :
    roundWithAccuracy Format.binary64 sign n e acc = .finite sign m q hm.pos := by
  have hleast := hm.least
  -- Enough places: the last one is not above the last place of the result.
  have hplaces : ∀ s, w * 2 ^ e < 2 ^ (s + 52) → e ≤ -1074 ∨ e < s := by
    intro s hs
    refine hfine.imp_right fun hn => ?_
    have hw : (2 : ℚ) ^ 52 ≤ w := le_trans (by exact_mod_cast hn) (floor_ofMantissa h).1
    have hlt : (2 : ℚ) ^ (e + 52) < 2 ^ (s + 52) := by
      refine lt_of_le_of_lt ?_ hs
      rw [zpow_add₀ two_ne_zero, mul_comm]
      exact mul_le_mul_of_nonneg_right hw (two_zpow_pos e).le
    have := (zpow_lt_zpow_iff_right₀ one_lt_two).mp hlt
    omega
  by_cases hlow : q = -1074 ∨ 2 ^ (q + 52) ≤ w * 2 ^ e
  · have heq : e ≤ q := by
      have := hplaces (q + 1) (by rw [show q + 1 + 52 = q + 53 by omega]; exact hv.lt_zpow hm)
      omega
    exact hv.round_same hm h heq hlow sign
  · obtain ⟨hq, hlow⟩ := not_or.mp hlow
    have hnormal := hm.normal.resolve_left hq
    have hm52 : m = 2 ^ 52 := by
      by_contra hne
      have hgt : (2 ^ 52 + 1 : ℚ) ≤ m := by
        have : 2 ^ 52 + 1 ≤ m := by omega
        exact_mod_cast this
      have hle := hv.nearest.low
      rw [le_div_iff₀ (two_zpow_pos q)] at hle
      apply hlow
      rw [zpow_add₀ two_ne_zero, mul_comm]
      refine le_trans (mul_le_mul_of_nonneg_right ?_ (two_zpow_pos q).le) hle
      rw [show (2 : ℚ) ^ (52 : Int) = 2 ^ 52 from rfl]
      linarith
    subst hm52
    exact hv.round_below (by omega) h (by have := hplaces q (lt_of_not_ge hlow); omega)
      (lt_of_not_ge hlow) sign

/-- A value is reached by one double only, the one that it is rounded to. -/
theorem Reaches.unique {m' : Nat} {q' : Int} (h : Reaches m q v) (hm : Canonical m q)
    (h' : Reaches m' q' v) (hm' : Canonical m' q') : m = m' ∧ q = q' := by
  -- The value as a fraction of the least unit of the last place.
  obtain ⟨p, hp⟩ : ∃ p : Nat, p = 1074 := ⟨1074, rfl⟩
  have hvalue : ((v.num.toNat * 2 ^ p : Nat) / v.den : ℚ) * 2 ^ (-p : Int) = v := by
    have hnum : (v.num.toNat : ℚ) = v.num := by
      exact_mod_cast Int.toNat_of_nonneg (Rat.num_nonneg.mpr (h.pos hm).le)
    push_cast
    rw [hnum, mul_div_right_comm, Rat.num_div_den, mul_assoc, zpow_neg, zpow_natCast,
      mul_inv_cancel₀ (by positivity), mul_one]
  have hlocates := locates_quotient (v.num.toNat * 2 ^ p) v.den_pos
  rw [← hvalue] at h h'
  have hround := h.round hm hlocates (.inl (by omega)) .positive
  have hround' := h'.round hm' hlocates (.inl (by omega)) .positive
  rw [hround, UnpackedFloat.finite.injEq] at hround'
  exact hround'.2

/-! ## Quotients and products -/

section Operations

variable {m₁ m₂ : Nat} {e₁ e₂ : Int} {h₁ : 0 < m₁} {h₂ : 0 < m₂}

theorem Reaches.div (hv : Reaches m q (m₁ * 2 ^ e₁ / (m₂ * 2 ^ e₂))) (hm : Canonical m q) :
    UnpackedFloat.div Format.binary64 (.finite .positive m₁ e₁ h₁) (.finite .positive m₂ e₂ h₂) =
      .finite .positive m q hm.pos := by
  -- The exponent of the quotient, as it is computed.
  generalize ht : min (e₁ - e₂)
    (Format.binary64.targetExponent (totalExponent m₁ e₁ - totalExponent m₂ e₂)) = t
  have hte : t ≤ e₁ - e₂ := ht ▸ min_le_left _ _
  have hcore : divCore Format.binary64 m₁ e₁ m₂ e₂ =
      (m₁ * 2 ^ (e₁ - e₂ - t).toNat / m₂, t,
        accuracyOfFraction (m₁ * 2 ^ (e₁ - e₂ - t).toNat % m₂) m₂) := by
    simp only [divCore, ht, Nat.shiftLeft_eq]
  have hvalue : (m₁ * 2 ^ e₁ / (m₂ * 2 ^ e₂) : ℚ) =
      ((m₁ * 2 ^ (e₁ - e₂ - t).toNat : Nat) / m₂ : ℚ) * 2 ^ t := by
    push_cast
    rw [two_zpow_toNat (by omega), zpow_sub₀ two_ne_zero, zpow_sub₀ two_ne_zero]
    have := (two_zpow_pos t).ne'
    have := (two_zpow_pos e₂).ne'
    have : (m₂ : ℚ) ≠ 0 := by exact_mod_cast h₂.ne'
    field_simp
  rw [hvalue] at hv
  rw [UnpackedFloat.div, hcore]
  refine hv.round hm (locates_quotient _ h₂) (or_iff_not_imp_left.mpr fun hleast => ?_) .positive
  have hplaces : m₂.log2 + 53 ≤ m₁.log2 + (e₁ - e₂ - t).toNat := by
    simp only [Format.targetExponent, totalExponent, Format.mantissaBits, Format.minExponent] at ht
    norm_num at ht
    omega
  rw [Nat.le_div_iff_mul_le h₂]
  calc 2 ^ 52 * m₂
      ≤ 2 ^ 52 * 2 ^ (m₂.log2 + 1) := Nat.mul_le_mul_left _ Nat.lt_log2_self.le
    _ = 2 ^ (m₂.log2 + 53) := by rw [← Nat.pow_add]; congr 1; omega
    _ ≤ 2 ^ (m₁.log2 + (e₁ - e₂ - t).toNat) := Nat.pow_le_pow_right two_pos hplaces
    _ = 2 ^ m₁.log2 * 2 ^ (e₁ - e₂ - t).toNat := Nat.pow_add _ _ _
    _ ≤ m₁ * 2 ^ (e₁ - e₂ - t).toNat := Nat.mul_le_mul_right _ (Nat.log2_self_le h₁.ne')

theorem Reaches.mul (hv : Reaches m q (m₁ * 2 ^ e₁ * (m₂ * 2 ^ e₂))) (hm : Canonical m q)
    (hfine : 2 ^ 52 ≤ m₁ * m₂) :
    UnpackedFloat.mul Format.binary64 (.finite .positive m₁ e₁ h₁) (.finite .positive m₂ e₂ h₂) =
      .finite .positive m q hm.pos := by
  have hvalue : (m₁ * 2 ^ e₁ * (m₂ * 2 ^ e₂) : ℚ) = ((m₁ * m₂ : Nat) : ℚ) * 2 ^ (e₁ + e₂) := by
    rw [zpow_add₀ two_ne_zero]
    push_cast
    ring
  rw [hvalue] at hv
  exact hv.round hm (locates_exact _) (.inr hfine) .positive

end Operations

/-! ## Decimals -/

theorem reaches_self (m : Nat) (q : Int) : Reaches m q (m * 2 ^ q) := by
  have hself : (m * 2 ^ q / 2 ^ q : ℚ) = m := mul_div_cancel_right₀ _ (two_zpow_pos q).ne'
  refine ⟨⟨?_, ?_, fun _ => ⟨?_, ?_⟩⟩, fun _ _ => ?_⟩ <;> rw [hself] <;> linarith

section Whole

variable (hn : 0 < n) (hlt : n < 2 ^ 53)
include hn hlt

/-- A whole number below `2 ^ 53` is a double. -/
theorem canonical_whole : Canonical (n * 2 ^ (52 - n.log2)) (n.log2 - 52) := by
  have hlog : n.log2 < 53 := (Nat.log2_lt hn.ne').mpr hlt
  refine ⟨by positivity, ?_, by omega, .inr ?_⟩
  · calc n * 2 ^ (52 - n.log2)
        < 2 ^ (n.log2 + 1) * 2 ^ (52 - n.log2) :=
          Nat.mul_lt_mul_of_pos_right Nat.lt_log2_self (Nat.two_pow_pos _)
      _ = 2 ^ 53 := by rw [← Nat.pow_add]; congr 1; omega
  · calc 2 ^ 52 = 2 ^ n.log2 * 2 ^ (52 - n.log2) := by rw [← Nat.pow_add]; congr 1; omega
      _ ≤ n * 2 ^ (52 - n.log2) := Nat.mul_le_mul_right _ (Nat.log2_self_le hn.ne')

omit hn in
theorem whole_value : ((n * 2 ^ (52 - n.log2) : Nat) : ℚ) * 2 ^ ((n.log2 : Int) - 52) = n := by
  have hlog : n.log2 ≤ 52 := by
    rcases Nat.eq_zero_or_pos n with rfl | hn
    · decide
    · have := (Nat.log2_lt hn.ne').mpr hlt
      omega
  push_cast
  rw [← zpow_natCast, Nat.cast_sub hlog, mul_assoc, ← zpow_add₀ two_ne_zero]
  simp

theorem ofNat_whole : UnpackedFloat.ofNat Format.binary64 n =
    .finite .positive (n * 2 ^ (52 - n.log2)) (n.log2 - 52) (canonical_whole hn hlt).pos := by
  have hm := canonical_whole hn hlt
  have hlog : n.log2 < 53 := (Nat.log2_lt hn.ne').mpr hlt
  have hcompare : compare (n : Int) 0 = .gt := by
    rw [compare_gt_iff_gt]
    omega
  have hshift : ((0 : Int) - max ((n.log2 : Int) + 0 - 52) (-1074)).toNat = 52 - n.log2 := by omega
  have hexponent : (0 : Int) - ((52 - n.log2 : Nat) : Int) = n.log2 - 52 := by omega
  rw [UnpackedFloat.ofNat, UnpackedFloat.ofInt, UnpackedFloat.normalize, hcompare]
  simp only [UnpackedFloat.round, decreaseExponent, targetExponent_eq, Int.toNat_natCast, hshift,
    Nat.shiftLeft_eq, hexponent]
  exact (reaches_self _ _).round hm (locates_exact _) (.inr (hm.normal.resolve_left (by omega))) _

end Whole

/-- A double that uses all places of its mantissa is unpacked as it was packed. -/
theorem unpack_pack (hm : Canonical m q) (hnormal : 2 ^ 52 ≤ m) (hq : q ≤ 971) :
    (Float.Model.pack (.finite .positive m q hm.pos)).unpack = .finite .positive m q hm.pos := by
  have hleast := hm.least
  have hlt := hm.lt
  have hlog : m.log2 = 52 := by
    have hlow := (Nat.le_log2 hm.pos.ne').mpr hnormal
    have hhigh := (Nat.log2_lt hm.pos.ne').mpr hlt
    omega
  -- The exponent field, which is neither the least nor the greatest.
  obtain ⟨b, hb⟩ : ∃ b : Nat, q = b - 1075 := ⟨(q + 1075).toNat, by omega⟩
  have hbiased : (q + (Format.binary64.exponentBias : Int) + (52 : Nat)).toNat = b := by
    simp only [Format.exponentBias]
    norm_num
    omega
  have hexponent : ((BitVec.ofNat 11 b).toNat : Int) -
      ((Format.binary64.exponentBias : Int) + (52 : Nat)) = q := by
    simp [Format.exponentBias]
    omega
  have hgreatest : BitVec.ofNat 11 b ≠ -1#11 := by
    intro h
    have hnat := congrArg BitVec.toNat h
    simp at hnat
    omega
  have hzero : BitVec.ofNat 11 b ≠ 0#11 := by
    intro h
    have hnat := congrArg BitVec.toNat h
    simp at hnat
    omega
  have hmantissa : (1#1 ++ BitVec.ofNat 52 m).toNat = m := by
    rw [BitVec.toNat_append, ← Nat.shiftLeft_add_eq_or_of_lt (BitVec.isLt _)]
    simp [Nat.shiftLeft_eq]
    omega
  have hpacked : UnpackedFloat.pack Format.binary64 (.finite .positive m q hm.pos) =
      packComponents Format.binary64 .positive (BitVec.ofNat _ b) (BitVec.ofNat _ m) := by
    simp only [UnpackedFloat.pack, hlog, hbiased, Format.mantissaBits]
    rw [if_neg (by omega), if_pos trivial]
  rw [Float.Model.unpack, Float.Model.pack, UInt64.toBitVec_ofBitVec, hpacked]
  simp only [UnpackedFloat.unpack, unpackExponent_packComponents, unpackMantissa_packComponents,
    unpackSign_packComponents, Sign.ofBitVec_toBitVec, hgreatest, hzero, hmantissa, hexponent,
    ↓reduceIte]

theorem unpack_whole (hn : 0 < n) (hlt : n < 2 ^ 53) :
    (Float.Model.ofUInt64 n.toUInt64).unpack =
      .finite .positive (n * 2 ^ (52 - n.log2)) (n.log2 - 52) (canonical_whole hn hlt).pos := by
  have hlog : n.log2 < 53 := (Nat.log2_lt hn.ne').mpr hlt
  have hm := canonical_whole hn hlt
  have hnat : n.toUInt64.toNat = n := UInt64.toNat_ofNat_of_lt' (by norm_num at hlt ⊢; omega)
  rw [Float.Model.ofUInt64, UnpackedFloat.ofUInt64, hnat, ofNat_whole hn hlt]
  exact unpack_pack hm (hm.normal.resolve_left (by omega)) (by omega)

theorem zpow_eq_div {b : ℚ} (hb : b ≠ 0) (e : Int) : b ^ e = b ^ e.toNat / b ^ (-e).toNat := by
  rw [← zpow_natCast, ← zpow_natCast, ← zpow_sub₀ hb, Int.toNat_sub_toNat_neg]

/-- The powers of ten that are doubles. -/
theorem unpack_powerOfTen (k : Fin 23) :
    ∃ p e h, (Float.exactlyRepresentablePowersOfTen[k]).toModel.unpack = .finite .positive p e h ∧
      (p * 2 ^ e : ℚ) = 10 ^ (k : Nat) := by
  have hcheck : ∀ k : Fin 23, (match (Float.exactlyRepresentablePowersOfTen[k]).toModel.unpack with
    | .finite .positive p e _ => p * 2 ^ e.toNat == 10 ^ (k : Nat) * 2 ^ (-e).toNat
    | _ => false) = true := by
    decide
  have h := hcheck k
  split at h
  case h_1 p e hp hunpack =>
    refine ⟨p, e, hp, hunpack, ?_⟩
    rw [zpow_eq_div two_ne_zero, ← mul_div_assoc, div_eq_iff (by positivity)]
    exact_mod_cast beq_iff_eq.mp h
  · cases h

theorem three_mul_lt_log2 {k c : Nat} (h : (10 : ℚ) ^ k ≤ n * 2 ^ c) :
    3 * k < n.log2 + 1 + c := by
  have hten : 10 ^ k ≤ n * 2 ^ c := by exact_mod_cast h
  have hpow : 2 ^ (3 * k) < 2 ^ (n.log2 + 1 + c) := by
    calc 2 ^ (3 * k) = 8 ^ k := Nat.pow_mul 2 3 k
      _ ≤ 10 ^ k := Nat.pow_le_pow_left (by norm_num) k
      _ ≤ n * 2 ^ c := hten
      _ < 2 ^ (n.log2 + 1) * 2 ^ c :=
          Nat.mul_lt_mul_of_pos_right Nat.lt_log2_self (Nat.two_pow_pos c)
      _ = 2 ^ (n.log2 + 1 + c) := (Nat.pow_add 2 _ c).symm
  exact (Nat.pow_lt_pow_iff_right one_lt_two).mp hpow

/-- A decimal that a double reaches does not have too many places. -/
theorem Reaches.places_lt {k : Nat} (hv : Reaches m q (n / 10 ^ k)) (hm : Canonical m q) :
    3 * k < n.log2 + 1076 := by
  have hlow : (2 : ℚ) ^ (-1075 : Int) ≤ n / 10 ^ k := by
    have hle := hv.nearest.low
    have hm1 : (1 : ℚ) ≤ m := by exact_mod_cast hm.pos
    have hq : (2 : ℚ) ^ (-1074 : Int) ≤ 2 ^ q := (zpow_le_zpow_iff_right₀ one_lt_two).mpr hm.least
    rw [le_div_iff₀ (two_zpow_pos q)] at hle
    refine le_trans ?_ hle
    rw [show (-1075 : Int) = -1074 - 1 by norm_num, zpow_sub_one₀ two_ne_zero, mul_comm]
    exact mul_le_mul (by linarith) hq (two_zpow_pos _).le (by linarith)
  rw [le_div_iff₀ (by positivity), zpow_neg, inv_mul_le_iff₀ (two_zpow_pos _), mul_comm] at hlow
  have hlt := three_mul_lt_log2 (c := 1075) (by exact_mod_cast hlow)
  omega

/-- A decimal is read as the double that reaches it. -/
theorem Reaches.ofScientific {k : Nat} (hn : 0 < n) (hv : Reaches m q (n / 10 ^ k))
    (hm : Canonical m q) :
    Float.ofScientific n true k = .ofModel (.pack (.finite .positive m q hm.pos)) := by
  unfold Float.ofScientific
  split
  case isTrue h =>
    -- Both the digits and the power of ten are doubles, and their quotient is rounded.
    obtain ⟨p, e, hp, hunpack, hten⟩ := unpack_powerOfTen ⟨k, by omega⟩
    have hvalue : (n / 10 ^ k : ℚ) =
        ((n * 2 ^ (52 - n.log2) : Nat) : ℚ) * 2 ^ ((n.log2 : Int) - 52) / (p * 2 ^ e) := by
      rw [hten, whole_value h.1]
    rw [hvalue] at hv
    have hdiv : UnpackedFloat.div Format.binary64
        (.finite .positive (n * 2 ^ (52 - n.log2)) (n.log2 - 52) (canonical_whole hn h.1).pos)
        (.finite .positive p e hp) = .finite .positive m q hm.pos := hv.div hm
    rw [← unpack_whole hn h.1, ← hunpack] at hdiv
    exact congrArg (fun u => Float.ofModel (.pack u)) hdiv
  case isFalse h =>
    have hplaces := hv.places_lt hm
    simp only [if_true, Int.negOfNat_eq, Int.ofNat_eq_natCast]
    rw [Float.Model.ofScientific, UnpackedFloat.ofScientific, dif_neg hn.ne', if_neg, if_neg]
    · congr 2
      split
      case isTrue hk =>
        obtain rfl : k = 0 := by omega
        refine Reaches.mul ?_ hm ?_
        · have hshift : ((n <<< Format.binary64.mantissaBits : Nat) : ℚ) *
              2 ^ (-(Format.binary64.mantissaBits : Int)) = n := by
            rw [Nat.shiftLeft_eq, Nat.cast_mul, Nat.cast_pow, zpow_neg, zpow_natCast]
            exact mul_inv_cancel_right₀ (pow_ne_zero _ two_ne_zero) _
          rw [hshift]
          simpa using hv
        · rw [Nat.shiftLeft_eq, show Format.binary64.mantissaBits = 53 from rfl]
          simp
          omega
      case isFalse hk =>
        refine Reaches.div ?_ hm
        simpa using hv
    · norm_num
      omega
    · norm_num

end Abacus.Binary64
