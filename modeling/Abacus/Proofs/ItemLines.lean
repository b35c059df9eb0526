-- SUMMARY: The lines printed for a program are its items in order, and determine them.
import Abacus.CommandLine
import Abacus.Proofs.JsonTexts
import Abacus.Proofs.Layout

/-!
# Lines of items

No JSON text has a control character in it, so the text of an item takes one line. A
program is shown as the texts of its items, each with a line end. Cut at the line ends,
what is printed gives these texts back, and each of them determines its item.
-/

namespace Abacus

/-! ## Lines -/

namespace Text

section Lines

variable {α : Type} [DecidableEq α] {lf cr : α}

theorem linesFrom_append {cs : List α} (h : lf ∉ cs) (line rest : List α) :
    linesFrom lf cr line (cs ++ rest) = linesFrom lf cr (cs.reverse ++ line) rest := by
  induction cs generalizing line with
  | nil => rfl
  | cons c cs ih =>
    obtain ⟨hc, hcs⟩ := List.ne_and_not_mem_of_not_mem_cons h
    rw [List.cons_append, linesFrom, if_neg hc.symm, ih hcs, List.reverse_cons, List.append_assoc,
      List.singleton_append]

theorem endLine_reverse {cs : List α} (h : cr ∉ cs) : endLine cr cs.reverse = cs := by
  cases hrev : cs.reverse with
  | nil => exact (List.reverse_eq_nil_iff.mp hrev).symm
  | cons c rest =>
    have hmem : c ∈ cs := by
      rw [← List.mem_reverse, hrev]
      exact List.mem_cons_self
    have hne : c ≠ cr := fun heq => h (by rwa [← heq])
    rw [endLine, if_neg hne, ← hrev, List.reverse_reverse]

/-- A line that has no line end in it comes first, and the others behind it. -/
theorem linesFrom_line {cs : List α} (hlf : lf ∉ cs) (hcr : cr ∉ cs) (rest : List α) :
    linesFrom lf cr [] (cs ++ lf :: rest) = cs :: linesFrom lf cr [] rest := by
  rw [linesFrom_append hlf, List.append_nil, linesFrom, if_pos rfl, endLine_reverse hcr]

end Lines

/-- Texts on lines of their own are the lines of the whole. -/
theorem lines_join {texts : List String}
    (h : ∀ text ∈ texts, '\n' ∉ text.toList ∧ '\r' ∉ text.toList) :
    lines (String.join (texts.map (· ++ "\n"))) = texts := by
  rw [lines]
  induction texts with
  | nil => rfl
  | cons text texts ih =>
    obtain ⟨⟨hlf, hcr⟩, htexts⟩ := List.forall_mem_cons.mp h
    have hchars : (String.join ((text :: texts).map (· ++ "\n"))).toList =
        text.toList ++ '\n' :: (String.join (texts.map (· ++ "\n"))).toList := by
      simp [String.toList_join]
    rw [hchars, linesFrom_line hlf hcr, List.map_cons, ih htexts, String.ofList_toList]

end Text

/-! ## Characters of JSON texts -/

namespace Json

/-- No character of the text is a control character below the space. -/
def Printable (text : String) : Prop :=
  ∀ c ∈ text.toList, 0x20 ≤ c.toNat

variable {s t : String} {texts : List String}

theorem Printable.append (hs : Printable s) (ht : Printable t) : Printable (s ++ t) := by
  intro c hc
  rw [String.toList_append] at hc
  rcases List.mem_append.mp hc with hc | hc
  · exact hs c hc
  · exact ht c hc

theorem Printable.notMem (h : Printable s) {c : Char} (hc : c.toNat < 0x20) : c ∉ s.toList := by
  intro hmem
  have := h c hmem
  omega

theorem toNat_hexDigit (n : Nat) : 0x20 ≤ (hexDigit n).toNat := by
  have hdigits : ∀ k < 16, 0x20 ≤ (Nat.digitChar k).toNat := by decide
  exact hdigits (n % 16) (Nat.mod_lt n (by decide))

theorem toNat_of_mem_escape {c d : Char} (h : d ∈ escape c) : 0x20 ≤ d.toNat := by
  unfold escape at h
  split_ifs at h with hquote hbackslash hb ht hn hf hr hcontrol
  on_goal 9 =>
    rw [List.mem_singleton.mp h]
    exact Nat.le_of_not_lt hcontrol
  on_goal 8 =>
    simp only [List.mem_cons, List.not_mem_nil, or_false] at h
    rcases h with rfl | rfl | rfl | rfl | rfl | rfl
    · decide
    · decide
    · decide
    · decide
    · exact toNat_hexDigit _
    · exact toNat_hexDigit _
  -- The others are a backslash and a letter.
  all_goals fin_cases h <;> decide

theorem printable_string (text : String) : Printable (string text) := by
  intro c hc
  rw [toList_string] at hc
  rcases List.mem_cons.mp hc with rfl | hc
  · decide
  · rcases List.mem_append.mp hc with hc | hc
    · obtain ⟨d, -, hd⟩ := List.mem_flatMap.mp hc
      exact toNat_of_mem_escape hd
    · rw [List.mem_singleton.mp hc]
      decide

theorem toNat_of_isNumberChar {c : Char} (h : Decimal.isNumberChar c = true) :
    0x20 ≤ c.toNat := by
  simp only [Decimal.isNumberChar, Bool.or_eq_true, beq_iff_eq] at h
  rcases h with ((h | rfl) | rfl) | rfl
  · have := toNat_of_isPart h
    omega
  · decide
  · decide
  · decide

theorem printable_number (x : Float) : Printable (number x) := by
  have hnull : Printable "null" := by
    intro c hc
    have hc : c ∈ ['n', 'u', 'l', 'l'] := hc
    fin_cases hc <;> decide
  cases h : Binary64.magnitude x with
  | notANumber =>
    have htext : number x = "null" := by simp [number, Decimal.Style.text, h, numberStyle]
    rwa [htext]
  | infinite =>
    have htext : number x = "null" := by simp [number, Decimal.Style.text, h, numberStyle]
    rwa [htext]
  | finite m q =>
    intro c hc
    exact toNat_of_isNumberChar (Decimal.isNumberChar_text numberStyle h c hc)

theorem printable_natural (n : Nat) : Printable (toString n) := by
  intro c hc
  rw [Nat.toString_eq_ofList_toDigits, String.toList_ofList] at hc
  have hpart := Numeral.isPart_of_isDigit (Symbol.isDigit_of_mem_toDigits hc)
  exact toNat_of_isNumberChar (Decimal.isNumberChar_of_isPart hpart)

theorem printable_singleton {c : Char} (h : 0x20 ≤ c.toNat) : Printable (String.singleton c) := by
  intro d hd
  rw [String.toList_singleton, List.mem_singleton] at hd
  rwa [hd]

theorem printable_comma : Printable "," :=
  printable_singleton (c := ',') (by decide)

theorem printable_commas (h : ∀ text ∈ texts, Printable text) : Printable (commas texts) := by
  induction texts with
  | nil => exact fun c hc => nomatch hc
  | cons text texts ih =>
    obtain ⟨htext, htexts⟩ := List.forall_mem_cons.mp h
    cases texts with
    | nil => rwa [commas, String.intercalate_singleton]
    | cons next texts =>
      rw [commas, String.intercalate_cons_cons]
      exact (htext.append printable_comma).append (ih htexts)

theorem printable_array (h : ∀ text ∈ texts, Printable text) : Printable (array texts) :=
  ((printable_singleton (c := '[') (by decide)).append (printable_commas h)).append
    (printable_singleton (c := ']') (by decide))

theorem printable_object (h : ∀ text ∈ texts, Printable text) : Printable (object texts) :=
  ((printable_singleton (c := '\x7b') (by decide)).append (printable_commas h)).append
    (printable_singleton (c := '\x7d') (by decide))

theorem printable_field (name : String) {text : String} (h : Printable text) :
    Printable (field name text) :=
  ((printable_string name).append (printable_singleton (c := ':') (by decide))).append h

/-- An alternative under its tag. -/
theorem printable_tagged (tag : String) {content : String} (h : Printable content) :
    Printable (object [field tag content]) :=
  printable_object (List.forall_mem_singleton.mpr (printable_field tag h))

end Json

/-! ## Items take one line -/

section Items

open Json

theorem Expr.printable (e : Expr) : Printable e.json := by
  induction e with
  | number x => rw [Expr.json]; exact printable_tagged _ (printable_number x)
  | var name => rw [Expr.json]; exact printable_tagged _ (printable_string name)
  | binary op lhs rhs ihl ihr =>
    rw [Expr.json]
    refine printable_tagged _ (printable_object ?_)
    simp [printable_field, printable_string, ihl, ihr]
  | call callee args ih =>
    have hargs : Printable (array (Expr.jsons args)) := by
      refine printable_array fun text htext => ?_
      rw [Expr.jsons_eq] at htext
      obtain ⟨arg, harg, rfl⟩ := List.mem_map.mp htext
      exact ih arg harg
    rw [Expr.json]
    refine printable_tagged _ (printable_object ?_)
    simp [printable_field, printable_string, hargs]

theorem Prototype.printable (proto : Prototype) : Printable proto.json := by
  have hparams : Printable (array (proto.params.map string)) := by
    refine printable_array fun text htext => ?_
    obtain ⟨name, -, rfl⟩ := List.mem_map.mp htext
    exact printable_string name
  refine printable_object ?_
  simp [printable_field, printable_string, hparams]

theorem Function.printable (f : Function) : Printable f.json := by
  refine printable_object ?_
  simp [printable_field, f.proto.printable, f.body.printable]

theorem Item.printable (item : Item) : Printable item.json := by
  cases item with
  | definition f => exact printable_tagged _ f.printable
  | external proto => exact printable_tagged _ proto.printable
  | expression f => exact printable_tagged _ f.printable

theorem Span.printable (span : Span) : Printable span.json := by
  refine printable_object ?_
  simp only [List.forall_mem_cons]
  exact ⟨printable_field _ (printable_natural _), printable_field _ (printable_natural _), nofun⟩

theorem Located.printable (i : Located Item) : Printable i.json := by
  refine printable_object ?_
  simp [printable_field, i.value.printable, i.span.printable]

end Items

/-! ## Printed programs -/

namespace CommandLine

/-- What is printed for the items of a text. -/
theorem showItems_of_parse {text : String} {items : List (Located Item)}
    (h : Program.parse text = .ok items) :
    showItems text = success (String.join (items.map fun i => i.json ++ "\n")) := by
  rw [showItems, h]

/-- The lines printed for items are their texts. -/
theorem lines_printed (items : List (Located Item)) :
    Text.lines (String.join (items.map fun i => i.json ++ "\n")) = items.map Located.json := by
  have hlines : ∀ text ∈ items.map Located.json, '\n' ∉ text.toList ∧ '\r' ∉ text.toList := by
    intro text htext
    obtain ⟨i, -, rfl⟩ := List.mem_map.mp htext
    exact ⟨i.printable.notMem (by decide), i.printable.notMem (by decide)⟩
  have hjoin := Text.lines_join hlines
  rwa [List.map_map] at hjoin

theorem success_inj {out out' : String}
    (h : (success out).transcript.out = (success out').transcript.out) : out = out' := by
  have hread := congrArg Text.ofUtf8? h
  simpa [success, Text.ofUtf8?_utf8] using hread

/-- Items with finite numbers have one JSON text only if they are the same item at the same
    place, and no text has a line feed in it. So the lines printed for a text that can be
    parsed are the JSON of its items in order, and if the numbers in it are finite, whatever
    else is printed like it has the same items. -/
theorem printed_lines_determine_items :
    (∀ i j : Located Item, i.value.IsFinite → j.value.IsFinite → i.json = j.json → i = j) ∧
    (∀ i : Located Item, '\n' ∉ i.json.toList) ∧
    (∀ text items, Program.parse text = .ok items →
      ∃ printed, showItems text = success printed ∧
        Text.lines printed = items.map Located.json) ∧
    (∀ text text' items items', Program.parse text = .ok items →
      Program.parse text' = .ok items' → (∀ i ∈ items, i.value.IsFinite) →
      (∀ i ∈ items', i.value.IsFinite) →
      (showItems text).transcript.out = (showItems text').transcript.out → items = items') := by
  refine ⟨fun i j hi hj h => (Located.separates hi hj).eq h,
    fun i => i.printable.notMem (by decide),
    fun text items h => ⟨_, showItems_of_parse h, lines_printed items⟩, ?_⟩
  intro text text' items items' h h' hfinite hfinite' hout
  rw [showItems_of_parse h, showItems_of_parse h'] at hout
  have hlines := congrArg Text.lines (success_inj hout)
  rw [lines_printed, lines_printed] at hlines
  exact Located.map_json_inj hfinite hfinite' hlines

/-- A quote and a comma inside a name do not pass for the end of a name. What separates items
    is not printed. -/
theorem printed_lines_determine_items_at_quote :
    (Located.mk (Item.external ⟨"f\",\"x", []⟩) ⟨0, 1⟩).json ≠
      (Located.mk (Item.external ⟨"f", ["x"]⟩) ⟨0, 1⟩).json ∧
    ∃ items items', Program.parse "x;2.5" = .ok items ∧ Program.parse "x 2.5" = .ok items' ∧
      (∀ i ∈ items, i.value.IsFinite) ∧ (∀ i ∈ items', i.value.IsFinite) ∧
      (∃ printed, showItems "x;2.5" = success printed ∧
        Text.lines printed = items.map Located.json) ∧
      (showItems "x;2.5").transcript.out = (showItems "x 2.5").transcript.out ∧
      items = items' := by
  obtain ⟨hinj, -, hlines, hprinted⟩ := printed_lines_determine_items
  refine ⟨fun h => ?_, ?_⟩
  · have heq := hinj _ _ (fun _ hx => absurd hx List.not_mem_nil)
      (fun _ hx => absurd hx List.not_mem_nil) h
    simp at heq
  · have hparse : Program.parse "x;2.5" = .ok [⟨.expression (.ofExpr (.var "x")), ⟨0, 1⟩⟩,
        ⟨.expression (.ofExpr (.number 2.5)), ⟨2, 5⟩⟩] := by with_unfolding_all rfl
    have hparse' : Program.parse "x 2.5" = .ok [⟨.expression (.ofExpr (.var "x")), ⟨0, 1⟩⟩,
        ⟨.expression (.ofExpr (.number 2.5)), ⟨2, 5⟩⟩] := by with_unfolding_all rfl
    have hfinite : ∀ i ∈ [(⟨.expression (.ofExpr (.var "x")), ⟨0, 1⟩⟩ : Located Item),
        ⟨.expression (.ofExpr (.number 2.5)), ⟨2, 5⟩⟩], i.value.IsFinite := by
      unfold Item.IsFinite
      decide
    have hout : (showItems "x;2.5").transcript.out = (showItems "x 2.5").transcript.out := by
      rw [showItems_of_parse hparse, showItems_of_parse hparse']
    exact ⟨_, _, hparse, hparse', hfinite, hfinite, hlines _ _ hparse, hout,
      hprinted _ _ _ _ hparse hparse' hfinite hfinite hout⟩

end CommandLine

end Abacus
