-- SUMMARY: A numeral is worth its longest front that is a number, the part before its second point.
import Abacus.Proofs.Cursor
import Abacus.Proofs.RoundTrip

/-!
# Fronts of numerals

The value of a run of digits and points can be searched for. Its fronts are tried from the
whole run down, the first one that reads as a number counts, and if there is none, the value
is zero.

A front that goes beyond the second point has two points, so it is no number. The front
before it has one at most, so it is a number as soon as it has a digit; without a digit no
shorter front has one either. So the search never gets further down than that front, and
finds what reading the digits around the first point gives.
-/

namespace Abacus

namespace Numeral

/-! ## Digits and points -/

/-- The part of a run before its second point; all of the run if there is no second point. -/
def BeforeSecondPoint (front run : List Char) : Prop :=
  front = run ∧ run.count '.' ≤ 1 ∨ ∃ rest, run = front ++ '.' :: rest ∧ front.count '.' = 1

variable {run front ws ps rest : List Char}

theorem count_point_of_digits (h : ∀ c ∈ ws, c.isDigit = true) : ws.count '.' = 0 :=
  List.count_eq_zero.mpr fun hmem => absurd (h '.' hmem) (by decide)

/-- A run is made of digits up to its first point. -/
theorem exists_digits (h : ∀ c ∈ run, isPart c = true) :
    ∃ ws, (∀ c ∈ ws, c.isDigit = true) ∧ (run = ws ∨ ∃ rest, run = ws ++ '.' :: rest) := by
  induction run with
  | nil => exact ⟨[], nofun, .inl rfl⟩
  | cons c run ih =>
    obtain ⟨hc, hrun⟩ := List.forall_mem_cons.mp h
    rcases Bool.or_eq_true_iff.mp hc with hdigit | hpoint
    · obtain ⟨ws, hws, hshape⟩ := ih hrun
      refine ⟨c :: ws, List.forall_mem_cons.mpr ⟨hdigit, hws⟩, ?_⟩
      rcases hshape with rfl | ⟨rest, rfl⟩
      · exact .inl rfl
      · exact .inr ⟨rest, rfl⟩
    · rw [beq_iff_eq.mp hpoint]
      exact ⟨[], nofun, .inr ⟨run, rfl⟩⟩

/-- The front of a run before its second point, with the digits that both are made of. -/
inductive Cut : List Char → List Char → Prop where
  | none {ws : List Char} (hws : ∀ c ∈ ws, c.isDigit = true) : Cut ws ws
  | one {ws ps : List Char} (hws : ∀ c ∈ ws, c.isDigit = true)
      (hps : ∀ c ∈ ps, c.isDigit = true) : Cut (ws ++ '.' :: ps) (ws ++ '.' :: ps)
  | more {ws ps : List Char} (hws : ∀ c ∈ ws, c.isDigit = true)
      (hps : ∀ c ∈ ps, c.isDigit = true) (rest : List Char) :
      Cut (ws ++ '.' :: ps) (ws ++ '.' :: (ps ++ '.' :: rest))

theorem exists_cut (h : ∀ c ∈ run, isPart c = true) : ∃ front, Cut front run := by
  obtain ⟨ws, hws, rfl | ⟨rest, rfl⟩⟩ := exists_digits h
  · exact ⟨_, .none hws⟩
  · have hrest : ∀ c ∈ rest, isPart c = true :=
      fun c hc => h c (List.mem_append_right _ (List.mem_cons_of_mem _ hc))
    obtain ⟨ps, hps, rfl | ⟨rest, rfl⟩⟩ := exists_digits hrest
    · exact ⟨_, .one hws hps⟩
    · exact ⟨_, .more hws hps rest⟩

theorem count_point_pointed (hws : ∀ c ∈ ws, c.isDigit = true)
    (hps : ∀ c ∈ ps, c.isDigit = true) : (ws ++ '.' :: ps).count '.' = 1 := by
  rw [List.count_append, List.count_cons_self, count_point_of_digits hws,
    count_point_of_digits hps]

theorem Cut.beforeSecondPoint (h : Cut front run) : BeforeSecondPoint front run := by
  cases h with
  | none hws => exact .inl ⟨rfl, by rw [count_point_of_digits hws]; exact Nat.zero_le 1⟩
  | one hws hps => exact .inl ⟨rfl, Nat.le_of_eq (count_point_pointed hws hps)⟩
  | more hws hps rest => exact .inr ⟨rest, by simp, count_point_pointed hws hps⟩

theorem BeforeSecondPoint.isPrefix (h : BeforeSecondPoint front run) : front <+: run := by
  rcases h with ⟨rfl, -⟩ | ⟨rest, rfl, -⟩
  · exact List.prefix_rfl
  · exact List.prefix_append _ _

theorem BeforeSecondPoint.count_le (h : BeforeSecondPoint front run) : front.count '.' ≤ 1 := by
  rcases h with ⟨rfl, hcount⟩ | ⟨rest, rfl, hcount⟩
  · exact hcount
  · exact Nat.le_of_eq hcount

/-- A longer front has the second point. -/
theorem BeforeSecondPoint.lt_count (h : BeforeSecondPoint front run) {longer : List Char}
    (hlonger : longer <+: run) (hlt : front.length < longer.length) : 1 < longer.count '.' := by
  rcases h with ⟨rfl, -⟩ | ⟨rest, rfl, hcount⟩
  · exact absurd hlonger.length_le (Nat.not_le_of_lt hlt)
  · have hpoint : front ++ ['.'] <+: front ++ '.' :: rest := ⟨rest, by simp⟩
    have hle : (front ++ ['.']).length ≤ longer.length := by simpa using hlt
    have hshorter := List.prefix_of_prefix_length_le hpoint hlonger hle
    have hcounts := hshorter.sublist.count_le '.'
    rw [List.count_append, hcount, List.count_singleton_self] at hcounts
    exact hcounts

/-- The front stays where it is when a run with two points goes on. -/
theorem BeforeSecondPoint.append (h : BeforeSecondPoint front run) (hcount : 2 ≤ run.count '.')
    (more : List Char) : BeforeSecondPoint front (run ++ more) := by
  rcases h with ⟨rfl, hle⟩ | ⟨rest, rfl, hone⟩
  · omega
  · exact .inr ⟨rest ++ more, by simp, hone⟩

/-! ## Reading a decimal -/

/-- The number with the given digits before the point and behind it, if there are any. -/
def ofDigits? (ws ps : List Char) : Option Float :=
  if ws ++ ps = [] then none
  else some (Float.ofScientific (Nat.ofDigitChars 10 (ws ++ ps) 0) true ps.length)

/-- Reads all of a text as a decimal without sign: digits, with at most one point among
    them. -/
def decimal? (text : String) : Option Float :=
  match text.toList.dropWhile Char.isDigit with
  | [] => ofDigits? text.toList []
  | '.' :: ps =>
    if ps.all Char.isDigit then ofDigits? (text.toList.takeWhile Char.isDigit) ps else none
  | _ => none

/-- The runs that are read as numbers are those with a digit and at most one point. -/
def ReadsDecimals (parse? : String → Option Float) : Prop :=
  ∀ run : String, (∀ c ∈ run.toList, isPart c = true) →
    ((parse? run).isSome = true ↔
      (∃ c ∈ run.toList, c.isDigit = true) ∧ run.toList.count '.' ≤ 1)

theorem isSome_ofDigits? : (ofDigits? ws ps).isSome = true ↔ ws ++ ps ≠ [] := by
  unfold ofDigits?
  split <;> simp_all

theorem value_eq_ofDigits? (run : List Char) :
    value run = (ofDigits? (whole run) (places run)).getD 0 := by
  unfold value ofDigits?
  split
  case h_1 hnil => rw [if_pos hnil]; rfl
  case h_2 hne => rw [if_neg hne]; rfl

theorem decimal?_digits (hws : ∀ c ∈ ws, c.isDigit = true) :
    decimal? (String.ofList ws) = ofDigits? ws [] := by
  rw [decimal?, String.toList_ofList, List.dropWhile_eq_nil_iff.mpr hws]

theorem decimal?_pointed (hws : ∀ c ∈ ws, c.isDigit = true) (rest : List Char) :
    decimal? (String.ofList (ws ++ '.' :: rest)) =
      if rest.all Char.isDigit then ofDigits? ws rest else none := by
  have hwhole : (ws ++ '.' :: rest).takeWhile Char.isDigit = ws := whole_pointed hws rest
  have hdrop : (ws ++ '.' :: rest).dropWhile Char.isDigit = '.' :: rest := by
    rw [List.dropWhile_append_of_pos hws]
    rfl
  rw [decimal?, String.toList_ofList, hwhole, hdrop]
  rfl

theorem exists_digit_digits (hws : ∀ c ∈ ws, c.isDigit = true) :
    (∃ c ∈ ws, c.isDigit = true) ↔ ws ≠ [] := by
  constructor
  · rintro ⟨c, hc, -⟩
    exact List.ne_nil_of_mem hc
  · intro hne
    obtain ⟨c, hc⟩ := List.exists_mem_of_ne_nil ws hne
    exact ⟨c, hc, hws c hc⟩

theorem exists_digit_pointed (hws : ∀ c ∈ ws, c.isDigit = true)
    (hps : ∀ c ∈ ps, c.isDigit = true) :
    (∃ c ∈ ws ++ '.' :: ps, c.isDigit = true) ↔ ws ++ ps ≠ [] := by
  rw [← exists_digit_digits (List.forall_mem_append.mpr ⟨hws, hps⟩)]
  constructor
  · rintro ⟨c, hc, hdigit⟩
    rcases List.mem_append.mp hc with hc | hc
    · exact ⟨c, List.mem_append_left _ hc, hdigit⟩
    · rcases List.mem_cons.mp hc with rfl | hc
      · cases hdigit
      · exact ⟨c, List.mem_append_right _ hc, hdigit⟩
  · rintro ⟨c, hc, hdigit⟩
    rcases List.mem_append.mp hc with hc | hc
    · exact ⟨c, List.mem_append_left _ hc, hdigit⟩
    · exact ⟨c, List.mem_append_right _ (List.mem_cons_of_mem _ hc), hdigit⟩

theorem readsDecimals_decimal? : ReadsDecimals decimal? := by
  intro text htext
  obtain ⟨front, hcut⟩ := exists_cut htext
  rw [← String.ofList_toList (s := text)]
  generalize text.toList = run at hcut
  rw [String.toList_ofList]
  cases hcut with
  | none hws =>
    rw [decimal?_digits hws, isSome_ofDigits?, exists_digit_digits hws, count_point_of_digits hws,
      List.append_nil]
    simp
  | one hws hps =>
    rw [decimal?_pointed hws, if_pos (List.all_eq_true.mpr hps), isSome_ofDigits?,
      exists_digit_pointed hws hps, count_point_pointed hws hps]
    simp
  | @more ws ps hws hps rest =>
    have hpoint : (ps ++ '.' :: rest).all Char.isDigit = false := by
      simp [show Char.isDigit '.' = false from rfl]
    have hcount : 1 < (ws ++ '.' :: (ps ++ '.' :: rest)).count '.' := by
      simp only [List.count_append, List.count_cons_self]
      omega
    rw [decimal?_pointed hws, hpoint]
    exact ⟨nofun, fun h => absurd h.2 (Nat.not_le_of_lt hcount)⟩

/-- What stands before the second point is all that counts. -/
theorem Cut.value_eq (h : Cut front run) :
    value run = (decimal? (String.ofList front)).getD 0 := by
  rw [value_eq_ofDigits?]
  cases h with
  | none hws => rw [decimal?_digits hws, whole_digits hws, places_digits hws]
  | one hws hps =>
    rw [decimal?_pointed hws, if_pos (List.all_eq_true.mpr hps), whole_pointed hws,
      places_pointed hws, List.takeWhile_eq_self_iff.mpr hps]
  | @more ws ps hws hps rest =>
    have hplaces : (ps ++ '.' :: rest).takeWhile Char.isDigit = ps := whole_pointed hps rest
    rw [decimal?_pointed hws, if_pos (List.all_eq_true.mpr hps), whole_pointed hws,
      places_pointed hws, hplaces]

end Numeral

/-! ## The search -/

namespace Cursor

/-- Tries the fronts with at most `n` bytes, the longest first. What comes out is zero if no
    front can be read, and nothing if one cannot be cut out. -/
def longestFront? (parse? : String → Option Float) (text : String) : Nat → Option Float
  | 0 => some 0
  | n + 1 => do
    let front ← Text.slice? text ⟨0, n + 1⟩
    match parse? front with
    | some x => return x
    | none => longestFront? parse? text n

/-- The value of the longest front that can be read. -/
def numericFront? (parse? : String → Option Float) (text : String) : Option Float :=
  longestFront? parse? text text.utf8ByteSize

open Numeral

variable {parse? : String → Option Float} {run front : List Char} {n k : Nat} {x : Float}

section Search

variable (hrun : ∀ c ∈ run, isPart c = true)
include hrun

/-- One step of the search. -/
theorem longestFront?_succ (hn : n < run.length) :
    longestFront? parse? (String.ofList run) (n + 1) =
      (parse? (String.ofList (run.take (n + 1)))).or
        (longestFront? parse? (String.ofList run) n) := by
  rw [longestFront?, slice?_front hrun hn]
  simp only [Option.bind_eq_bind, Option.bind_some]
  cases parse? (String.ofList (run.take (n + 1))) <;> rfl

/-- Fronts that cannot be read are passed over. -/
theorem longestFront?_of_none (hkn : k ≤ n) (hn : n ≤ run.length)
    (hnone : ∀ m, k < m → m ≤ n → parse? (String.ofList (run.take m)) = none) :
    longestFront? parse? (String.ofList run) n = longestFront? parse? (String.ofList run) k := by
  induction n, hkn using Nat.le_induction with
  | base => rfl
  | succ n hkn ih =>
    rw [longestFront?_succ hrun hn, hnone (n + 1) (by omega) le_rfl, Option.none_or]
    exact ih (by omega) fun m hkm hmn => hnone m hkm (by omega)

end Search

variable (hparse : ReadsDecimals parse?) (hrun : ∀ c ∈ run, isPart c = true)
include hparse hrun

theorem isSome_front_iff {shorter : List Char} (hshorter : shorter <+: run) :
    (parse? (String.ofList shorter)).isSome = true ↔
      (∃ c ∈ shorter, c.isDigit = true) ∧ shorter.count '.' ≤ 1 := by
  have hparts : ∀ c ∈ (String.ofList shorter).toList, isPart c = true := by
    rw [String.toList_ofList]
    exact fun c hc => hrun c (hshorter.subset hc)
  have hiff := hparse _ hparts
  rwa [String.toList_ofList] at hiff

variable (hfront : BeforeSecondPoint front run)
include hfront

/-- Beyond the second point nothing can be read. -/
theorem parse?_longer {longer : List Char} (hlonger : longer <+: run)
    (hlt : front.length < longer.length) : parse? (String.ofList longer) = none := by
  rw [← Option.not_isSome_iff_eq_none, isSome_front_iff hparse hrun hlonger]
  exact fun h => Nat.not_le_of_lt (hfront.lt_count hlonger hlt) h.2

theorem isSome_front : (parse? (String.ofList front)).isSome = true ↔
    ∃ c ∈ front, c.isDigit = true := by
  rw [isSome_front_iff hparse hrun hfront.isPrefix]
  exact and_iff_left hfront.count_le

/-- Where the front before the second point cannot be read, no shorter one can. -/
theorem parse?_shorter (hnone : parse? (String.ofList front) = none) {shorter : List Char}
    (hshorter : shorter <+: front) : parse? (String.ofList shorter) = none := by
  rw [← Option.not_isSome_iff_eq_none] at hnone ⊢
  rw [isSome_front hparse hrun hfront] at hnone
  rw [isSome_front_iff hparse hrun (hshorter.trans hfront.isPrefix)]
  rintro ⟨⟨c, hc, hdigit⟩, -⟩
  exact hnone ⟨c, hshorter.subset hc, hdigit⟩

/-- The search comes down to the front before the second point, and goes no further. -/
theorem numericFront?_eq :
    numericFront? parse? (String.ofList run) = some ((parse? (String.ofList front)).getD 0) := by
  have hlength : front.length ≤ run.length := hfront.isPrefix.length_le
  have htake : run.take front.length = front := (List.prefix_iff_eq_take.mp hfront.isPrefix).symm
  have hskip : numericFront? parse? (String.ofList run) =
      longestFront? parse? (String.ofList run) front.length := by
    rw [numericFront?, utf8ByteSize_ofList, Text.byteSize_of_isAscii Text.isAscii_part hrun]
    refine longestFront?_of_none hrun hlength le_rfl fun m hlt hle => ?_
    refine parse?_longer hparse hrun hfront (List.take_prefix m run) ?_
    rwa [List.length_take_of_le hle]
  rw [hskip]
  cases hread : parse? (String.ofList front) with
  | none =>
    refine longestFront?_of_none hrun (Nat.zero_le _) hlength fun m _ hle => ?_
    refine parse?_shorter hparse hrun hfront hread ?_
    rw [← htake]
    exact List.take_prefix_take_left hle
  | some x =>
    obtain ⟨c, hc, -⟩ := (isSome_front hparse hrun hfront).mp (by rw [hread]; rfl)
    obtain ⟨k, hk⟩ := Nat.exists_eq_add_one_of_ne_zero (List.length_pos_of_mem hc).ne'
    rw [hk, longestFront?_succ hrun (by omega), ← hk, htake, hread]
    rfl

theorem numericFront?_of_digit (hdigit : ∃ c ∈ front, c.isDigit = true) :
    ∃ x, parse? (String.ofList front) = some x ∧
      numericFront? parse? (String.ofList run) = some x := by
  obtain ⟨x, hx⟩ := Option.isSome_iff_exists.mp ((isSome_front hparse hrun hfront).mpr hdigit)
  refine ⟨x, hx, ?_⟩
  rw [numericFront?_eq hparse hrun hfront, hx]
  rfl

theorem numericFront?_of_not_digit (hnone : ∀ c ∈ front, c.isDigit = false) :
    numericFront? parse? (String.ofList run) = some 0 := by
  have hread : parse? (String.ofList front) = none := by
    rw [← Option.not_isSome_iff_eq_none, isSome_front hparse hrun hfront]
    rintro ⟨c, hc, hdigit⟩
    rw [hnone c hc] at hdigit
    cases hdigit
  rw [numericFront?_eq hparse hrun hfront, hread]
  rfl

/-- What comes behind a second point does not matter. -/
theorem numericFront?_append (hcount : 2 ≤ run.count '.') {more : List Char}
    (hmore : ∀ c ∈ more, isPart c = true) :
    numericFront? parse? (String.ofList (run ++ more)) =
      numericFront? parse? (String.ofList run) := by
  have hall : ∀ c ∈ run ++ more, isPart c = true := List.forall_mem_append.mpr ⟨hrun, hmore⟩
  rw [numericFront?_eq hparse hall (hfront.append hcount more), numericFront?_eq hparse hrun hfront]

end Cursor

/-- A run of digits and points has one front that ends before its second point, or is all of
    it. Whatever reads the runs with a digit and at most one point, and no others, the search
    gives what this front is read as, or zero if there is no digit in it. No longer front can
    be read, and what comes behind a second point does not matter. The value of a numeral is
    what this search gives with decimals, and so is that of the token it is lexed to. -/
theorem Numeral.value_of_longest_front (text : String)
    (htext : ∀ c ∈ text.toList, isPart c = true) :
    ∃ front : String, BeforeSecondPoint front.toList text.toList ∧
      (∀ parse? : String → Option Float, ReadsDecimals parse? →
        ((∃ c ∈ front.toList, c.isDigit = true) →
          ∃ x, parse? front = some x ∧ Cursor.numericFront? parse? text = some x) ∧
        ((∀ c ∈ front.toList, c.isDigit = false) → Cursor.numericFront? parse? text = some 0) ∧
        (∀ longer : String, longer.toList <+: text.toList →
          front.toList.length < longer.toList.length → parse? longer = none) ∧
        (∀ more : String, 2 ≤ text.toList.count '.' → (∀ c ∈ more.toList, isPart c = true) →
          Cursor.numericFront? parse? (text ++ more) = Cursor.numericFront? parse? text)) ∧
      ReadsDecimals decimal? ∧ value text.toList = (decimal? front).getD 0 ∧
      Cursor.numericFront? decimal? text = some (value text.toList) ∧
      Cursor.number? text = (Cursor.numericFront? decimal? text).map .number ∧
      (text ≠ "" → tokens (lexemes text) = [.number (value text.toList)]) := by
  obtain ⟨run, rfl⟩ : ∃ run, text = String.ofList run := ⟨_, String.ofList_toList.symm⟩
  rw [String.toList_ofList] at htext ⊢
  obtain ⟨front, hcut⟩ := exists_cut htext
  have hfront := hcut.beforeSecondPoint
  have hvalue : Cursor.numericFront? decimal? (String.ofList run) = some (value run) := by
    rw [hcut.value_eq]
    exact Cursor.numericFront?_eq readsDecimals_decimal? htext hfront
  refine ⟨String.ofList front, ?_⟩
  rw [String.toList_ofList]
  refine ⟨hfront, fun parse? hparse => ⟨?_, ?_, ?_, ?_⟩, readsDecimals_decimal?, hcut.value_eq,
    hvalue, ?_, ?_⟩
  · exact Cursor.numericFront?_of_digit hparse htext hfront
  · exact Cursor.numericFront?_of_not_digit hparse htext hfront
  · intro longer hlonger hlt
    rw [← String.ofList_toList (s := longer)]
    exact Cursor.parse?_longer hparse htext hfront hlonger hlt
  · intro more hcount hmore
    rw [← String.ofList_toList (s := more), ← String.ofList_append]
    exact Cursor.numericFront?_append hparse htext hfront hcount hmore
  · rw [hvalue, Cursor.number?_eq htext]
    rfl
  · intro hne
    have hrun : run ≠ [] := by
      rintro rfl
      exact hne rfl
    rw [lexemes, String.toList_ofList]
    exact (Lexer.spells_numeral hrun htext).eq

/-- A point in front, two next to each other, and digits behind them. -/
theorem Numeral.value_of_longest_front_at_adjacent_points :
    value ".5..7".toList = 0.5 ∧
    Cursor.numericFront? decimal? ".5..7" = some (value ".5..7".toList) ∧
    Cursor.numericFront? decimal? (".5..7" ++ "1.") = Cursor.numericFront? decimal? ".5..7" := by
  have htext : ∀ c ∈ ".5..7".toList, isPart c = true := List.all_eq_true.mp rfl
  have hmore : ∀ c ∈ "1.".toList, isPart c = true := List.all_eq_true.mp rfl
  obtain ⟨front, -, hsearch, hdecimal, -, hvalue, -⟩ := value_of_longest_front ".5..7" htext
  exact ⟨by decide, hvalue, (hsearch decimal? hdecimal).2.2.2 "1." (by decide) hmore⟩

end Abacus
