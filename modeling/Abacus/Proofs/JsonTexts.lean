-- SUMMARY: The JSON text of an item determines the item.
import Abacus.Expr.Json
import Abacus.Proofs.Checking
import Abacus.Proofs.NumberTexts
import Abacus.Proofs.Spelling

/-!
# JSON texts

JSON can be read from the left in one way only. A string ends at the first quote that is not
escaped, a number where its last character is followed by a comma or a brace, and the tag of
an alternative tells which fields are to come. So two texts that start with the JSON of two
values start with the same value, and what follows it is the same (`Separates`); with
nothing behind them this says that no two items share a text.
-/

namespace Abacus

namespace Json

variable {α : Type} {c : Char} {cs ds rest rest' : List Char}

/-! ## Strings -/

/-- The value of a hexadecimal digit in lower case. -/
def hexValue (c : Char) : Nat :=
  if c.isDigit then c.toNat - 48 else c.toNat - 87

/-- The character that a letter behind a backslash stands for. -/
def unescapeLetter? : Char → Option Char
  | '"' => some '"'
  | '\\' => some '\\'
  | 'b' => some '\x08'
  | 't' => some '\t'
  | 'n' => some '\n'
  | 'f' => some '\x0c'
  | 'r' => some '\r'
  | _ => none

/-- Reads one character of a string; none at its end. -/
def unescape? : List Char → Option (Char × List Char)
  | [] => none
  | '"' :: _ => none
  | '\\' :: 'u' :: _ :: _ :: high :: low :: rest =>
    some (Char.ofNat (16 * hexValue high + hexValue low), rest)
  | '\\' :: c :: rest => (unescapeLetter? c).map fun c => (c, rest)
  | c :: rest => some (c, rest)

theorem hexValue_hexDigit {n : Nat} (h : n < 32) :
    16 * hexValue (hexDigit (n / 16)) + hexValue (hexDigit n) = n := by
  revert n
  decide

theorem unescape?_escape (c : Char) (rest : List Char) :
    unescape? (escape c ++ rest) = some (c, rest) := by
  unfold escape
  split_ifs with hquote hbackslash hb ht hn hf hr hcontrol
  · subst hquote; rfl
  · subst hbackslash; rfl
  · subst hb; rfl
  · subst ht; rfl
  · subst hn; rfl
  · subst hf; rfl
  · subst hr; rfl
  · have hvalue : unescape? ('\\' :: 'u' :: '0' :: '0' :: hexDigit (c.toNat / 16) ::
        hexDigit c.toNat :: rest) =
          some (Char.ofNat (16 * hexValue (hexDigit (c.toNat / 16)) + hexValue (hexDigit c.toNat)),
            rest) := rfl
    rw [hexValue_hexDigit hcontrol, Char.ofNat_toNat] at hvalue
    exact hvalue
  · simp [unescape?, hbackslash]

/-- Escaped texts are told apart up to the quote that ends them. -/
theorem flatMap_escape_inj
    (h : cs.flatMap escape ++ '"' :: rest = ds.flatMap escape ++ '"' :: rest') :
    cs = ds ∧ rest = rest' := by
  induction cs generalizing ds with
  | nil =>
    cases ds with
    | nil => exact ⟨rfl, (List.cons_eq_cons.mp h).2⟩
    | cons d ds =>
      have hread := congrArg unescape? h
      rw [List.flatMap_cons, List.append_assoc, unescape?_escape] at hread
      cases hread
  | cons c cs ih =>
    have hread := congrArg unescape? h
    rw [List.flatMap_cons, List.append_assoc, unescape?_escape] at hread
    cases ds with
    | nil => cases hread
    | cons d ds =>
      rw [List.flatMap_cons, List.append_assoc, unescape?_escape, Option.some.injEq,
        Prod.mk.injEq] at hread
      obtain ⟨rfl, hrest⟩ := ih hread.2
      exact ⟨by rw [hread.1], hrest⟩

/-! ## Texts that stand for values -/

/-- Two texts that start with what stands for `x` and for `y` start with the same value, and
    what follows is the same. -/
def Separates (code : α → String) (x y : α) : Prop :=
  ∀ rest rest' : List Char, (code x).toList ++ rest = (code y).toList ++ rest' →
    x = y ∧ rest = rest'

theorem Separates.eq {code : α → String} {x y : α} (h : Separates code x y)
    (heq : code x = code y) : x = y :=
  (h [] [] (by rw [heq])).1

theorem toList_string (text : String) :
    (string text).toList = '"' :: (text.toList.flatMap escape ++ ['"']) := by
  simp [string]

theorem separates_string (s t : String) : Separates string s t := by
  intro rest rest' h
  rw [toList_string, toList_string] at h
  simp only [List.cons_append, List.append_assoc, List.cons.injEq, true_and] at h
  obtain ⟨hchars, hrest⟩ := flatMap_escape_inj h
  exact ⟨String.toList_inj.mp hchars, hrest⟩

/-- What follows the first of some texts, up to the bracket behind the last. -/
def following (close : Char) : List String → List Char
  | [] => [close]
  | text :: texts => ',' :: (text.toList ++ following close texts)

theorem toList_commas (close : Char) (text : String) (texts : List String) :
    (commas (text :: texts)).toList ++ [close] = text.toList ++ following close texts := by
  induction texts generalizing text with
  | nil => simp [commas, following]
  | cons next texts ih =>
    have hcommas : commas (text :: next :: texts) = text ++ "," ++ commas (next :: texts) :=
      String.intercalate_cons_cons
    rw [hcommas, String.toList_append, List.append_assoc, ih]
    simp [following]

theorem toList_array_cons (text : String) (texts : List String) :
    (array (text :: texts)).toList = '[' :: (text.toList ++ following ']' texts) := by
  rw [← toList_commas]
  simp [array]

theorem toList_object_cons (text : String) (texts : List String) :
    (object (text :: texts)).toList = '\x7b' :: (text.toList ++ following '\x7d' texts) := by
  rw [← toList_commas]
  simp [object]

theorem following_inj {code : α → String} {close : Char} (hclose : close ≠ ',') {xs ys : List α}
    (h : ∀ x ∈ xs, ∀ y ∈ ys, Separates code x y)
    (heq : following close (xs.map code) ++ rest = following close (ys.map code) ++ rest') :
    xs = ys ∧ rest = rest' := by
  induction xs generalizing ys with
  | nil =>
    cases ys with
    | nil => exact ⟨rfl, (List.cons_eq_cons.mp heq).2⟩
    | cons y ys => exact absurd (List.cons_eq_cons.mp heq).1 hclose
  | cons x xs ih =>
    cases ys with
    | nil => exact absurd (List.cons_eq_cons.mp heq).1.symm hclose
    | cons y ys =>
      simp only [List.map_cons, following, List.cons_append, List.append_assoc, List.cons.injEq,
        true_and] at heq
      obtain ⟨rfl, htail⟩ := h x List.mem_cons_self y List.mem_cons_self _ _ heq
      obtain ⟨rfl, hrest⟩ := ih (fun x hx y hy =>
        h x (List.mem_cons_of_mem _ hx) y (List.mem_cons_of_mem _ hy)) htail
      exact ⟨rfl, hrest⟩

/-- Arrays are told apart if their elements are. An element starts with a character of its
    own, so the bracket of an empty array is not taken for one. -/
theorem separates_array {code : α → String} {first : Char} (hfirst : first ≠ ']')
    (hcode : ∀ x, ∃ cs, (code x).toList = first :: cs) {xs ys : List α}
    (h : ∀ x ∈ xs, ∀ y ∈ ys, Separates code x y) :
    Separates (fun zs => array (zs.map code)) xs ys := by
  have hempty : (array []).toList = ['[', ']'] := rfl
  intro rest rest' heq
  cases xs with
  | nil =>
    cases ys with
    | nil => exact ⟨rfl, List.append_cancel_left heq⟩
    | cons y ys =>
      obtain ⟨cs, hcs⟩ := hcode y
      simp only [List.map_nil, List.map_cons, hempty, toList_array_cons, hcs] at heq
      injection heq with _ heq
      injection heq with hbracket _
      exact absurd hbracket.symm hfirst
  | cons x xs =>
    cases ys with
    | nil =>
      obtain ⟨cs, hcs⟩ := hcode x
      simp only [List.map_nil, List.map_cons, hempty, toList_array_cons, hcs] at heq
      injection heq with _ heq
      injection heq with hbracket _
      exact absurd hbracket hfirst
    | cons y ys =>
      simp only [List.map_cons, toList_array_cons, List.cons_append, List.append_assoc,
        List.cons.injEq, true_and] at heq
      obtain ⟨rfl, htail⟩ := h x List.mem_cons_self y List.mem_cons_self _ _ heq
      obtain ⟨rfl, hrest⟩ := following_inj (by decide) (fun x hx y hy =>
        h x (List.mem_cons_of_mem _ hx) y (List.mem_cons_of_mem _ hy)) htail
      exact ⟨rfl, hrest⟩

/-! ## Fields -/

variable {name name' text text' : String} {fields fields' : List String}

theorem field_inj (h : (field name text).toList ++ rest = (field name' text').toList ++ rest') :
    name = name' ∧ text.toList ++ rest = text'.toList ++ rest' := by
  simp only [field, String.toList_append, List.append_assoc] at h
  obtain ⟨hname, hrest⟩ := separates_string name name' _ _ h
  exact ⟨hname, (List.cons_eq_cons.mp hrest).2⟩

/-- The first field of an object, and what follows its value. -/
theorem object_inj (h : (object (field name text :: fields)).toList ++ rest =
    (object (field name' text' :: fields')).toList ++ rest') :
    name = name' ∧ text.toList ++ (following '\x7d' fields ++ rest) =
      text'.toList ++ (following '\x7d' fields' ++ rest') := by
  rw [toList_object_cons, toList_object_cons, List.cons_append, List.cons_append,
    List.append_assoc, List.append_assoc] at h
  exact field_inj (List.cons_eq_cons.mp h).2

/-- The next field of an object, and what follows its value. -/
theorem following_field_inj
    (h : following '\x7d' (field name text :: fields) ++ rest =
      following '\x7d' (field name' text' :: fields') ++ rest') :
    name = name' ∧ text.toList ++ (following '\x7d' fields ++ rest) =
      text'.toList ++ (following '\x7d' fields' ++ rest') := by
  rw [following, following, List.cons_append, List.cons_append, List.append_assoc,
    List.append_assoc] at h
  exact field_inj (List.cons_eq_cons.mp h).2

/-! ## Numbers -/

variable {mark : Char}

theorem number_inj {x y : Float} (hx : x.isFinite = true) (hy : y.isFinite = true)
    (hmark : Decimal.isNumberChar mark = false)
    (h : (number x).toList ++ mark :: rest = (number y).toList ++ mark :: rest') :
    x = y ∧ rest = rest' := by
  have hnotMem {z : Float} (hz : z.isFinite = true) : mark ∉ (number z).toList := by
    intro hmem
    obtain ⟨m, q, hmagnitude, -⟩ := Binary64.unpack_of_isFinite hz
    rw [Decimal.isNumberChar_text numberStyle hmagnitude mark hmem] at hmark
    cases hmark
  obtain ⟨htext, hrest⟩ := Text.split_at_mark (hnotMem hx) (hnotMem hy) h
  exact ⟨Decimal.text_inj numberStyle hx hy (String.toList_inj.mp htext), hrest⟩

theorem natural_inj {m n : Nat} (hmark : mark.isDigit = false)
    (h : (toString m).toList ++ mark :: rest = (toString n).toList ++ mark :: rest') :
    m = n ∧ rest = rest' := by
  have hnotMem (k : Nat) : mark ∉ Nat.toDigits 10 k := by
    intro hmem
    rw [Symbol.isDigit_of_mem_toDigits hmem] at hmark
    cases hmark
  rw [Nat.toString_eq_ofList_toDigits, Nat.toString_eq_ofList_toDigits, String.toList_ofList,
    String.toList_ofList] at h
  obtain ⟨hdigits, hrest⟩ := Text.split_at_mark (hnotMem m) (hnotMem n) h
  exact ⟨Symbol.toDigits_injective hdigits, hrest⟩

end Json

/-! ## Expressions -/

namespace Expr

mutual

/-- The numbers in an expression. -/
def literals : Expr → List Float
  | .number x => [x]
  | .var _ => []
  | .binary _ lhs rhs => lhs.literals ++ rhs.literals
  | .call _ args => literalsAll args

def literalsAll : List Expr → List Float
  | [] => []
  | arg :: args => arg.literals ++ literalsAll args

end

theorem mem_literalsAll {args : List Expr} {arg : Expr} {x : Float} (harg : arg ∈ args)
    (hx : x ∈ arg.literals) : x ∈ literalsAll args := by
  induction args with
  | nil => cases harg
  | cons first args ih =>
    rw [literalsAll, List.mem_append]
    rcases List.mem_cons.mp harg with rfl | harg
    · exact .inl hx
    · exact .inr (ih harg)

/-- The name of the alternative that an expression is. -/
def tag : Expr → String
  | .number _ => "Number"
  | .var _ => "Variable"
  | .binary .. => "Binary"
  | .call .. => "Call"

/-- What the JSON of an expression has behind the tag. -/
def content : Expr → String
  | .number x => Json.number x
  | .var name => Json.string name
  | .binary op lhs rhs =>
    Json.object [Json.field "op" (Json.string op.toString), Json.field "lhs" lhs.json,
      Json.field "rhs" rhs.json]
  | .call callee args =>
    Json.object [Json.field "callee" (Json.string callee),
      Json.field "args" (Json.array (args.map json))]

theorem jsons_eq (args : List Expr) : jsons args = args.map json := by
  induction args with
  | nil => rfl
  | cons arg args ih => rw [jsons, ih, List.map_cons]

theorem json_eq (e : Expr) : e.json = Json.object [Json.field e.tag e.content] := by
  cases e with
  | number x => rw [json]; rfl
  | var name => rw [json]; rfl
  | binary op lhs rhs => rw [json]; rfl
  | call callee args => rw [json, jsons_eq]; rfl

theorem exists_toList_json (e : Expr) : ∃ cs, e.json.toList = '\x7b' :: cs := by
  rw [json_eq, Json.toList_object_cons]
  exact ⟨_, rfl⟩

open Json in
/-- Expressions with finite numbers are told apart by their JSON. -/
theorem separates {e e' : Expr} (h : ∀ x ∈ e.literals, x.isFinite = true)
    (h' : ∀ x ∈ e'.literals, x.isFinite = true) : Separates json e e' := by
  induction e generalizing e' with
  | number x =>
    intro rest rest' heq
    rw [json_eq, json_eq] at heq
    obtain ⟨htag, hcontent⟩ := object_inj heq
    cases e' with
    | number y =>
      obtain ⟨rfl, hrest⟩ :=
        number_inj (h x List.mem_cons_self) (h' y List.mem_cons_self) rfl hcontent
      exact ⟨rfl, hrest⟩
    | var _ | binary _ _ _ | call _ _ => simp [tag] at htag
  | var name =>
    intro rest rest' heq
    rw [json_eq, json_eq] at heq
    obtain ⟨htag, hcontent⟩ := object_inj heq
    cases e' with
    | var name' =>
      obtain ⟨rfl, hrest⟩ := separates_string name name' _ _ hcontent
      exact ⟨rfl, List.append_cancel_left hrest⟩
    | number _ | binary _ _ _ | call _ _ => simp [tag] at htag
  | binary op lhs rhs ihl ihr =>
    intro rest rest' heq
    rw [json_eq, json_eq] at heq
    obtain ⟨htag, hcontent⟩ := object_inj heq
    cases e' with
    | binary op' lhs' rhs' =>
      simp only [literals, List.forall_mem_append] at h h'
      obtain ⟨-, hop⟩ := object_inj hcontent
      obtain ⟨hop, htail⟩ := separates_string op.toString op'.toString _ _ hop
      obtain ⟨-, hlhs⟩ := following_field_inj htail
      obtain ⟨hlhs, htail⟩ := ihl h.1 h'.1 _ _ hlhs
      obtain ⟨-, hrhs⟩ := following_field_inj htail
      obtain ⟨hrhs, htail⟩ := ihr h.2 h'.2 _ _ hrhs
      have hop : op = op' := String.singleton_inj.mp hop
      rw [hop, hlhs, hrhs]
      exact ⟨rfl, List.append_cancel_left (List.append_cancel_left htail)⟩
    | number _ | var _ | call _ _ => simp [tag] at htag
  | call callee args ih =>
    intro rest rest' heq
    rw [json_eq, json_eq] at heq
    obtain ⟨htag, hcontent⟩ := object_inj heq
    cases e' with
    | call callee' args' =>
      obtain ⟨-, hcallee⟩ := object_inj hcontent
      obtain ⟨rfl, htail⟩ := separates_string callee callee' _ _ hcallee
      obtain ⟨-, hargs⟩ := following_field_inj htail
      have hseparates : Separates (fun es : List Expr => array (es.map json)) args args' :=
        separates_array (by decide) exists_toList_json fun arg harg arg' harg' =>
          ih arg harg (fun x hx => h x (mem_literalsAll harg hx))
            fun x hx => h' x (mem_literalsAll harg' hx)
      obtain ⟨rfl, htail⟩ := hseparates _ _ hargs
      exact ⟨rfl, List.append_cancel_left (List.append_cancel_left htail)⟩
    | number _ | var _ | binary _ _ _ => simp [tag] at htag

end Expr

/-! ## Items -/

section Items

open Json

theorem Prototype.separates (proto proto' : Prototype) :
    Separates Prototype.json proto proto' := by
  intro rest rest' h
  obtain ⟨-, hname⟩ := object_inj h
  obtain ⟨hname, htail⟩ := separates_string proto.name proto'.name _ _ hname
  obtain ⟨-, hparams⟩ := following_field_inj htail
  have hseparates : Separates (fun names : List String => array (names.map string))
      proto.params proto'.params :=
    separates_array (by decide) (fun name => ⟨_, toList_string name⟩)
      fun name _ name' _ => separates_string name name'
  obtain ⟨hparams, htail⟩ := hseparates _ _ hparams
  cases proto
  cases proto'
  cases hname
  cases hparams
  exact ⟨rfl, List.append_cancel_left htail⟩

theorem Function.separates {f f' : Function} (h : ∀ x ∈ f.body.literals, x.isFinite = true)
    (h' : ∀ x ∈ f'.body.literals, x.isFinite = true) : Separates Function.json f f' := by
  intro rest rest' heq
  obtain ⟨-, hproto⟩ := object_inj heq
  obtain ⟨hproto, htail⟩ := Prototype.separates f.proto f'.proto _ _ hproto
  obtain ⟨-, hbody⟩ := following_field_inj htail
  obtain ⟨hbody, htail⟩ := Expr.separates h h' _ _ hbody
  cases f
  cases f'
  cases hproto
  cases hbody
  exact ⟨rfl, List.append_cancel_left htail⟩

/-- The numbers in an item. -/
def Item.literals : Item → List Float
  | .definition f => f.body.literals
  | .external _ => []
  | .expression f => f.body.literals

/-- No number in an item is infinite or undefined. -/
def Item.IsFinite (item : Item) : Prop :=
  ∀ x ∈ item.literals, x.isFinite = true

theorem Item.separates {item item' : Item} (h : item.IsFinite) (h' : item'.IsFinite) :
    Separates Item.json item item' := by
  intro rest rest' heq
  cases item with
  | definition f =>
    cases item' with
    | definition f' =>
      obtain ⟨-, hcontent⟩ := object_inj heq
      obtain ⟨rfl, htail⟩ := Function.separates h h' _ _ hcontent
      exact ⟨rfl, List.append_cancel_left htail⟩
    | external _ | expression _ => exact absurd (object_inj heq).1 (by decide)
  | external proto =>
    cases item' with
    | external proto' =>
      obtain ⟨-, hcontent⟩ := object_inj heq
      obtain ⟨rfl, htail⟩ := Prototype.separates proto proto' _ _ hcontent
      exact ⟨rfl, List.append_cancel_left htail⟩
    | definition _ | expression _ => exact absurd (object_inj heq).1 (by decide)
  | expression f =>
    cases item' with
    | expression f' =>
      obtain ⟨-, hcontent⟩ := object_inj heq
      obtain ⟨rfl, htail⟩ := Function.separates h h' _ _ hcontent
      exact ⟨rfl, List.append_cancel_left htail⟩
    | definition _ | external _ => exact absurd (object_inj heq).1 (by decide)

theorem Span.separates (span span' : Span) : Separates Span.json span span' := by
  intro rest rest' h
  obtain ⟨-, hstart⟩ := object_inj h
  simp only [following, List.cons_append, List.append_assoc, List.nil_append] at hstart
  obtain ⟨hstart, htail⟩ := natural_inj (by decide) hstart
  obtain ⟨-, hstop⟩ := field_inj htail
  obtain ⟨hstop, hrest⟩ := natural_inj (by decide) hstop
  cases span
  cases span'
  cases hstart
  cases hstop
  exact ⟨rfl, hrest⟩

/-- Items with finite numbers are told apart by their JSON, and so are their places. -/
theorem Located.separates {i j : Located Item} (hi : i.value.IsFinite) (hj : j.value.IsFinite) :
    Separates Located.json i j := by
  intro rest rest' h
  obtain ⟨-, hvalue⟩ := object_inj h
  obtain ⟨hvalue, htail⟩ := Item.separates hi hj _ _ hvalue
  obtain ⟨-, hspan⟩ := following_field_inj htail
  obtain ⟨hspan, htail⟩ := Span.separates i.span j.span _ _ hspan
  cases i
  cases j
  cases hvalue
  cases hspan
  exact ⟨rfl, List.append_cancel_left htail⟩

/-- The JSON of a list of items, taken one by one, determines the list. -/
theorem Located.map_json_inj {is js : List (Located Item)} (his : ∀ i ∈ is, i.value.IsFinite)
    (hjs : ∀ j ∈ js, j.value.IsFinite) (h : is.map json = js.map json) : is = js := by
  induction is generalizing js with
  | nil => exact (List.map_eq_nil_iff.mp h.symm).symm
  | cons i is ih =>
    cases js with
    | nil => cases h
    | cons j js =>
      obtain ⟨hi, his⟩ := List.forall_mem_cons.mp his
      obtain ⟨hj, hjs⟩ := List.forall_mem_cons.mp hjs
      obtain ⟨hhead, htail⟩ := List.cons_eq_cons.mp h
      rw [(Located.separates hi hj).eq hhead, ih his hjs htail]

end Items

end Abacus
