-- SUMMARY: Sets of characters as ranges of code points.

/-!
# Ranges of characters

A property of characters that no formula gives is kept as a table: the first and
last code points of the ranges that have it, in increasing order.
-/

namespace Abacus.Text

/-- First and last code points of ranges, in increasing order. -/
abbrev Ranges := List (Nat × Nat)

namespace Ranges

/-- Whether a range has the character. The search ends at the first range that
    starts behind it. -/
def covers : Ranges → Char → Bool
  | [], _ => false
  | (first, last) :: rest, c =>
    if c.toNat < first then false else c.toNat ≤ last || covers rest c

/-- No range is empty, and each ends before the next starts. -/
def isIncreasing : Ranges → Bool
  | [] => true
  | [r] => r.1 ≤ r.2
  | r :: s :: rest => r.1 ≤ r.2 && r.2 < s.1 && isIncreasing (s :: rest)

/-- In increasing order, all ranges start behind the end of the first. -/
theorem lt_of_isIncreasing {r : Nat × Nat} {ranges : Ranges} (h : isIncreasing (r :: ranges)) :
    ∀ s ∈ ranges, r.2 < s.1 := by
  induction ranges generalizing r with
  | nil => simp
  | cons s rest ih =>
    simp only [isIncreasing, Bool.and_eq_true, decide_eq_true_eq] at h
    obtain ⟨⟨-, hrs⟩, hs⟩ := h
    have hle : s.1 ≤ s.2 := by
      cases rest <;> simp_all [isIncreasing]
    intro t ht
    rcases List.mem_cons.1 ht with rfl | ht
    · exact hrs
    · have := ih hs t ht
      omega

theorem isIncreasing_tail {r : Nat × Nat} {ranges : Ranges} (h : isIncreasing (r :: ranges)) :
    isIncreasing ranges := by
  cases ranges with
  | nil => rfl
  | cons s rest => simp_all [isIncreasing]

/-- In a table in increasing order no range is missed. -/
theorem covers_iff {ranges : Ranges} (h : ranges.isIncreasing) (c : Char) :
    ranges.covers c ↔ ∃ r ∈ ranges, r.1 ≤ c.toNat ∧ c.toNat ≤ r.2 := by
  induction ranges with
  | nil => simp [covers]
  | cons r rest ih =>
    have hlt := lt_of_isIncreasing h
    have hle : r.1 ≤ r.2 := by
      cases rest <;> simp_all [isIncreasing]
    by_cases hc : c.toNat < r.1
    · simp only [covers, hc, if_true, Bool.false_eq_true, false_iff]
      rintro ⟨s, hs, hsc⟩
      rcases List.mem_cons.1 hs with rfl | hs
      · omega
      · have := hlt s hs
        omega
    · simp only [covers, hc, if_false, Bool.or_eq_true, decide_eq_true_eq,
        ih (isIncreasing_tail h), List.mem_cons]
      grind

end Ranges

end Abacus.Text
