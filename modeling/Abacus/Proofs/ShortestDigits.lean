-- SUMMARY: The shortest digits of a double are reached by it.
import Abacus.Decimal.Shortest
import Abacus.Proofs.Rounding

/-!
# Shortest digits

The interval of a double holds the reals that it reaches, written with integers. If a
multiple of a power of ten lies in it, then so does one of the two next to the value.
At seventeen digits the multiples are closer together than the interval is wide, so one
is always found.
-/

namespace Abacus.Decimal

open Binary64

/-! ## Membership -/

namespace Interval

variable {i : Interval} {a d : Nat} {k : Int}

theorem ten_zpow_eq (k : Int) : (10 : ℚ) ^ k = 10 ^ k.toNat / 10 ^ (-k).toNat :=
  zpow_eq_div (by norm_num) k

section Compare

variable (hunit : 0 < i.unit)
include hunit

/-- Comparing with an end of the interval is comparing integers. -/
theorem le_decimal_iff : (a / i.unit : ℚ) ≤ d * 10 ^ k ↔
    a * Nat.pow 10 (-k).toNat ≤ d * Nat.pow 10 k.toNat * i.unit := by
  have hunit : (0 : ℚ) < i.unit := by exact_mod_cast hunit
  rw [ten_zpow_eq, ← mul_div_assoc, div_le_div_iff₀ hunit (by positivity)]
  norm_cast

theorem decimal_le_iff : (d * 10 ^ k : ℚ) ≤ a / i.unit ↔
    d * Nat.pow 10 k.toNat * i.unit ≤ a * Nat.pow 10 (-k).toNat := by
  have hunit : (0 : ℚ) < i.unit := by exact_mod_cast hunit
  rw [ten_zpow_eq, ← mul_div_assoc, div_le_div_iff₀ (by positivity) hunit]
  norm_cast

theorem contains_iff : i.contains d k = true ↔
    (i.low / i.unit : ℚ) ≤ d * 10 ^ k ∧ (d * 10 ^ k : ℚ) ≤ i.high / i.unit ∧
      (i.closed = false → (i.low / i.unit : ℚ) < d * 10 ^ k ∧ (d * 10 ^ k : ℚ) < i.high / i.unit) := by
  rw [← not_le, ← not_le, le_decimal_iff hunit, decimal_le_iff hunit, le_decimal_iff hunit,
    decimal_le_iff hunit, contains]
  cases i.closed with
  | true => simp
  | false =>
    simp
    omega

/-- What lies inside belongs to the interval, closed or not. -/
theorem contains_of_lt (hlow : (i.low / i.unit : ℚ) < d * 10 ^ k)
    (hhigh : (d * 10 ^ k : ℚ) < i.high / i.unit) : i.contains d k = true :=
  (contains_iff hunit).mpr ⟨hlow.le, hhigh.le, fun _ => ⟨hlow, hhigh⟩⟩

/-- The value is between the multiple below it and the next one. -/
theorem floor_le : (i.floor k * 10 ^ k : ℚ) ≤ i.value / i.unit := by
  rw [decimal_le_iff hunit, Interval.floor, mul_assoc, Nat.mul_comm (Nat.pow 10 _) i.unit]
  exact Nat.div_mul_le_self _ _

theorem lt_floor : (i.value / i.unit : ℚ) < (i.floor k + 1 : Nat) * 10 ^ k := by
  rw [← not_le, decimal_le_iff hunit, not_le, Interval.floor, mul_assoc,
    Nat.mul_comm (Nat.pow 10 _) i.unit, Nat.mul_comm (_ + 1)]
  have hten : 0 < Nat.pow 10 k.toNat := Nat.pow_pos (by decide)
  exact Nat.lt_mul_div_succ _ (Nat.mul_pos hunit hten)

end Compare

/-! ## Candidates -/

theorem nearer_eq (i : Interval) (tie : Tie) (d : Nat) (k : Int) :
    i.nearer tie d k = d ∨ i.nearer tie d k = d + 1 := by
  unfold nearer
  grind

/-- A candidate lies in the interval. -/
theorem contains_of_candidate? {tie : Tie} (h : i.candidate? tie k = some d) :
    i.contains d k = true := by
  unfold candidate? at h
  dsimp only at h
  split at h
  case h_1 hlow hhigh =>
    cases h
    rcases i.nearer_eq tie (i.floor k) k with hd | hd <;> rw [hd]
    · exact hlow
    · exact hhigh
  case h_2 hlow _ =>
    cases h
    exact hlow
  case h_3 _ hhigh =>
    cases h
    exact hhigh
  case h_4 => cases h

theorem candidate?_of_contains (tie : Tie)
    (h : i.contains (i.floor k) k = true ∨ i.contains (i.floor k + 1) k = true) :
    ∃ d, i.candidate? tie k = some d := by
  unfold candidate?
  dsimp only
  cases hlow : i.contains (i.floor k) k <;> cases hhigh : i.contains (i.floor k + 1) k
  · simp [hlow, hhigh] at h
  · exact ⟨_, rfl⟩
  · exact ⟨_, rfl⟩
  · exact ⟨_, rfl⟩

/-- On a grid that is finer than the interval is wide there is a candidate. -/
theorem exists_candidate? (hunit : 0 < i.unit) (tie : Tie)
    (hlow : (i.low / i.unit : ℚ) < i.value / i.unit)
    (hhigh : (i.value / i.unit : ℚ) < i.high / i.unit)
    (hfine : (10 ^ k : ℚ) < i.high / i.unit - i.low / i.unit) :
    ∃ d, i.candidate? tie k = some d := by
  have hbelow := floor_le hunit (k := k)
  have habove := lt_floor hunit (k := k)
  apply candidate?_of_contains
  by_cases hle : (i.low / i.unit : ℚ) < i.floor k * 10 ^ k
  · exact .inl (contains_of_lt hunit hle (lt_of_le_of_lt hbelow hhigh))
  · refine .inr (contains_of_lt hunit (lt_trans hlow habove) ?_)
    push_cast
    linarith

end Interval

/-! ## Order of magnitude -/

theorem lt_pow_digitCount (n : Nat) : n < 10 ^ digitCount n := by
  unfold digitCount
  split
  case isTrue hn => simp [hn]
  case isFalse => exact (Nat.length_toDigits_le_iff (by decide) Nat.length_toDigits_pos).mp le_rfl

theorem pow_digitCount_le {n : Nat} (hn : n ≠ 0) : 10 ^ (digitCount n - 1) ≤ n := by
  rw [digitCount, if_neg hn]
  by_contra hlt
  rcases Nat.eq_zero_or_pos ((Nat.toDigits 10 n).length - 1) with hzero | hpos
  · rw [hzero] at hlt
    omega
  · have hle := (Nat.length_toDigits_le_iff (by decide) hpos).mpr (not_le.mp hlt)
    omega

theorem Interval.ten_zpow_order_le {i : Interval} (hunit : 0 < i.unit) (hvalue : 0 < i.value) :
    (10 : ℚ) ^ i.order ≤ i.value / i.unit := by
  have hunit' : (0 : ℚ) < i.unit := by exact_mod_cast hunit
  unfold Interval.order
  split
  case isTrue h =>
    have hne : i.value / i.unit ≠ 0 := (Nat.div_pos h hunit).ne'
    have hcount : 0 < digitCount (i.value / i.unit) := by
      rw [digitCount, if_neg hne]
      exact Nat.length_toDigits_pos
    have hle : (10 ^ (digitCount (i.value / i.unit) - 1) : ℚ) ≤ ((i.value / i.unit : Nat) : ℚ) := by
      exact_mod_cast pow_digitCount_le hne
    rw [← Nat.cast_one, ← Nat.cast_sub hcount, zpow_natCast]
    exact le_trans hle Nat.cast_div_le
  case isFalse h =>
    have hlt := lt_pow_digitCount ((i.unit + i.value - 1) / i.value - 1)
    generalize digitCount ((i.unit + i.value - 1) / i.value - 1) = c at hlt ⊢
    -- One over the value, rounded up, is at most the next power of ten.
    have hceil : i.unit ≤ i.value * ((i.unit + i.value - 1) / i.value) := by
      have hdiv := Nat.lt_mul_div_succ (i.unit + i.value - 1) hvalue
      rw [Nat.mul_add] at hdiv
      omega
    have hle : i.unit ≤ i.value * 10 ^ c :=
      le_trans hceil (Nat.mul_le_mul_left _ (by omega))
    rw [zpow_neg, zpow_natCast, inv_le_iff_one_le_mul₀ (by positivity), div_mul_eq_mul_div,
      one_le_div hunit']
    exact_mod_cast hle

/-! ## The search -/

section Shortest

variable {m : Nat} {q : Int} {narrow : Bool}

theorem unit_around_pos (m : Nat) (q : Int) (narrow : Bool) :
    0 < (Interval.around m q narrow).unit := by
  have htwo : 0 < Nat.pow 2 (-q).toNat := Nat.pow_pos (by decide)
  exact Nat.mul_pos (by decide) htwo

theorem quarters_eq (a : Nat) (q : Int) :
    ((a * Nat.pow 2 q.toNat : Nat) / (4 * Nat.pow 2 (-q).toNat : Nat) : ℚ) = a / 4 * 2 ^ q := by
  rw [zpow_eq_div two_ne_zero]
  push_cast
  rw [mul_div_mul_comm]
  norm_cast

theorem value_around (m : Nat) (q : Int) (narrow : Bool) :
    ((Interval.around m q narrow).value / (Interval.around m q narrow).unit : ℚ) = m * 2 ^ q := by
  have h := quarters_eq (4 * m) q
  rw [Interval.around, h]
  push_cast
  ring

theorem high_around (m : Nat) (q : Int) (narrow : Bool) :
    ((Interval.around m q narrow).high / (Interval.around m q narrow).unit : ℚ) =
      (m + 1 / 2) * 2 ^ q := by
  have h := quarters_eq (4 * m + 2) q
  rw [Interval.around, h]
  push_cast
  ring

theorem low_around (hm : 0 < m) (q : Int) (narrow : Bool) :
    ((Interval.around m q narrow).low / (Interval.around m q narrow).unit : ℚ) =
      (m - if narrow then 1 / 4 else 1 / 2) * 2 ^ q := by
  have h := quarters_eq (4 * m - if narrow then 1 else 2) q
  rw [Interval.around, h, Nat.cast_sub (by split <;> omega)]
  congr 1
  cases narrow <;> simp <;> ring

/-- A decimal in the interval of a double is one that the double reaches. -/
theorem reaches_of_contains (hm : 0 < m) (hnarrow : m = 2 ^ 52 → q ≠ -1074 → narrow = true)
    {d : Nat} {k : Int} (h : (Interval.around m q narrow).contains d k = true) :
    Reaches m q (d * 10 ^ k) := by
  obtain ⟨hlow, hhigh, hopen⟩ := (Interval.contains_iff (unit_around_pos m q narrow)).mp h
  rw [low_around hm, ← le_div_iff₀ (two_zpow_pos q)] at hlow
  rw [high_around, ← div_le_iff₀ (two_zpow_pos q)] at hhigh
  rw [low_around hm, high_around, ← lt_div_iff₀ (two_zpow_pos q),
    ← div_lt_iff₀ (two_zpow_pos q)] at hopen
  have hquarter : (m - 1 / 2 : ℚ) ≤ m - if narrow then 1 / 4 else 1 / 2 := by
    split <;> linarith
  refine ⟨⟨by linarith, hhigh, fun hodd => ?_⟩, fun h52 hq => ?_⟩
  · obtain ⟨hlt, hgt⟩ := hopen (by simp [Interval.around, hodd])
    exact ⟨by linarith, hgt⟩
  · rw [hnarrow h52 hq] at hlow
    exact hlow

/-- The grid of seventeen digits is finer than the interval is wide. -/
theorem exists_seventeen (tie : Tie) (hm : 0 < m) (hlt : m < 2 ^ 53)
    (hnarrow : narrow = true → m = 2 ^ 52) :
    ∃ d, (Interval.around m q narrow).candidate? tie
      ((Interval.around m q narrow).order + 1 - maxDigits) = some d := by
  have hunit := unit_around_pos m q narrow
  have hpos := two_zpow_pos q
  have hvalue : 0 < (Interval.around m q narrow).value := by
    have htwo : 0 < Nat.pow 2 q.toNat := Nat.pow_pos (by decide)
    exact Nat.mul_pos (by omega) htwo
  have horder := Interval.ten_zpow_order_le hunit hvalue
  rw [value_around] at horder
  have hgrid : (10 : ℚ) ^ ((Interval.around m q narrow).order + 1 - maxDigits) * 10 ^ 16 ≤
      m * 2 ^ q := by
    refine le_trans (le_of_eq ?_) horder
    rw [← zpow_natCast (10 : ℚ) 16, ← zpow_add₀ (by norm_num)]
    congr 1
    simp only [maxDigits]
    omega
  apply Interval.exists_candidate? hunit
  · rw [low_around hm, value_around]
    refine mul_lt_mul_of_pos_right ?_ hpos
    split <;> linarith
  · rw [value_around, high_around]
    exact mul_lt_mul_of_pos_right (by linarith) hpos
  · rw [low_around hm, high_around]
    split
    case isTrue h =>
      obtain rfl := hnarrow h
      push_cast at hgrid
      linarith
    case isFalse =>
      have hle : (m : ℚ) + 1 ≤ 2 ^ 53 := by exact_mod_cast hlt
      nlinarith

/-- The shortest digits of a double lie in its interval. -/
theorem contains_shortest (tie : Tie) (hm : 0 < m) (hlt : m < 2 ^ 53)
    (hnarrow : narrow = true → m = 2 ^ 52) :
    (Interval.around m q narrow).contains (shortest tie m q narrow).digits
      (shortest tie m q narrow).exponent = true := by
  obtain ⟨d, hd⟩ := exists_seventeen (q := q) tie hm hlt hnarrow
  unfold shortest
  dsimp only
  generalize hfound : List.findSome? _ _ = found
  cases found with
  | none =>
    have hlast := List.findSome?_eq_none_iff.mp hfound maxDigits (by simp)
    rw [hd] at hlast
    cases hlast
  | some short =>
    obtain ⟨n, -, hn⟩ := List.exists_of_findSome?_eq_some hfound
    obtain ⟨d, hd, rfl⟩ := Option.map_eq_some_iff.mp hn
    exact Interval.contains_of_candidate? hd

/-- The shortest digits of a double are reached by it. -/
theorem reaches_shortest (tie : Tie) (hm : Canonical m q)
    (hnarrow : narrow = true ↔ m = 2 ^ 52 ∧ q ≠ -1074) :
    Reaches m q ((shortest tie m q narrow).digits * 10 ^ (shortest tie m q narrow).exponent) := by
  have hcontains := contains_shortest (q := q) tie hm.pos hm.lt fun h => (hnarrow.mp h).1
  exact reaches_of_contains hm.pos (fun h52 hq => hnarrow.mpr ⟨h52, hq⟩) hcontains

end Shortest

end Abacus.Decimal
