-- SUMMARY: A lexer that moves over the bytes of a text finds the lexemes of its characters.
import Abacus.Proofs.Extents
import Abacus.Proofs.Faults
import Abacus.Text.Utf8
import Mathlib.Data.PFun

/-!
# Cursors

A cursor is a position in the bytes of a text. It is moved by single bytes inside words and
numerals and by whole characters elsewhere, and it looks at bytes as often as at characters.
Two things can go wrong in this way: a text may be cut in the middle of a character, and a
loop may go on for ever. Results are partial values here, and either leaves none.

Neither happens (`Follows.next`). Wherever it starts, the cursor stands behind whole
characters, and what it pulls off the text next is what a stream of lexemes shows next. The
classes that are tested on bytes have ASCII characters only, and the first byte of any other
character is in none of them.
-/

namespace Abacus

open Text (byteSize byteSize_append)

/-! ## Cutting at bytes -/

namespace Text

/-- The characters in the first `n` bytes and those behind them, unless the cut goes through
    a character or lies behind the end. -/
def cut? : Nat → List Char → Option (List Char × List Char)
  | n, [] => if n = 0 then some ([], []) else none
  | n, c :: cs =>
    if n = 0 then some ([], c :: cs)
    else if n < c.utf8Size then none
    else (cut? (n - c.utf8Size) cs).map fun (front, back) => (c :: front, back)

/-- The part of a text that a span covers, if there is one. -/
def slice? (text : String) (span : Span) : Option String :=
  if span.stop < span.start then none
  else do
    let (_, back) ← cut? span.start text.toList
    let (part, _) ← cut? (span.stop - span.start) back
    return String.ofList part

theorem cut?_append (front back : List Char) :
    cut? (byteSize front) (front ++ back) = some (front, back) := by
  induction front with
  | nil => cases back <;> rfl
  | cons c front ih =>
    have hpos := c.utf8Size_pos
    simp only [byteSize, List.cons_append, cut?, Nat.add_sub_cancel_left, ih]
    rw [if_neg (by omega), if_neg (by omega)]
    rfl

/-- Characters that stand in a text are covered by a span. -/
theorem covers_of_chars {text : String} {front part rest : List Char}
    (h : text.toList = front ++ (part ++ rest)) :
    Span.Covers ⟨byteSize front, byteSize (front ++ part)⟩ text (String.ofList part) := by
  refine ⟨String.ofList front, String.ofList rest, ?_, ?_⟩
  · rw [← String.ofList_append, ← String.ofList_append, List.append_assoc, ← h,
      String.ofList_toList]
  · rw [← String.ofList_append, utf8ByteSize_ofList, utf8ByteSize_ofList]

/-- A span that covers a part can be cut out. -/
theorem slice?_of_covers {text part : String} {span : Span} (h : span.Covers text part) :
    slice? text span = some part := by
  obtain ⟨before, after, rfl, rfl⟩ := h
  have hsize (s : String) : s.utf8ByteSize = byteSize s.toList := by
    rw [← utf8ByteSize_ofList, String.ofList_toList]
  have hle : ¬ byteSize before.toList + byteSize part.toList < byteSize before.toList :=
    Nat.not_lt_of_le (Nat.le_add_right _ _)
  simp only [slice?, hsize, String.toList_append, byteSize_append, List.append_assoc,
    Nat.add_sub_cancel_left, cut?_append, if_neg hle]
  simp [cut?_append]

/-! ## First bytes -/

/-- A class of ASCII characters. -/
def IsAscii (p : Char → Bool) : Prop :=
  ∀ c, p c = true → c.toNat < 128

theorem isAscii_alphanum : IsAscii Char.isAlphanum := by
  intro c hc
  rcases Bool.or_eq_true_iff.mp hc with halpha | hdigit
  · have := toNat_of_isAlpha halpha
    omega
  · have := toNat_of_isPart (c := c) (by rw [Numeral.isPart, hdigit]; rfl)
    omega

theorem isAscii_part : IsAscii Numeral.isPart := by
  intro c hc
  have := toNat_of_isPart hc
  omega

theorem utf8Size_of_isAscii {p : Char → Bool} (hp : IsAscii p) {c : Char} (hc : p c = true) :
    c.utf8Size = 1 := by
  rw [Char.utf8Size_eq_one_iff, UInt32.le_iff_toNat_le]
  exact Nat.le_of_lt_succ (hp c hc)

theorem byteSize_of_isAscii {p : Char → Bool} (hp : IsAscii p) {cs : List Char}
    (hcs : ∀ c ∈ cs, p c = true) : byteSize cs = cs.length := by
  induction cs with
  | nil => rfl
  | cons c cs ih =>
    obtain ⟨hc, hcs⟩ := List.forall_mem_cons.mp hcs
    rw [byteSize, utf8Size_of_isAscii hp hc, ih hcs, List.length_cons, Nat.add_comm]

theorem utf8_eq (text : String) : utf8 text = text.toList.flatMap String.utf8EncodeChar := by
  conv => lhs; rw [← String.ofList_toList (s := text)]
  rw [utf8, String.toUTF8_eq_toByteArray, String.toByteArray_ofList, List.utf8Encode,
    List.data_toByteArray]

theorem length_encode (cs : List Char) :
    (cs.flatMap String.utf8EncodeChar).length = byteSize cs := by
  induction cs with
  | nil => rfl
  | cons c cs ih =>
    rw [List.flatMap_cons, List.length_append, ih, String.length_utf8EncodeChar, byteSize]

/-- The first byte of a character is in the same ASCII classes as the character. -/
theorem exists_firstByte (c : Char) : ∃ b bs, String.utf8EncodeChar c = b :: bs ∧
    ∀ p, IsAscii p → p (Char.ofUInt8 b) = p c := by
  have hwide (b : UInt8) (hb : 128 ≤ b.toNat) (hc : 127 < c.toNat) (p : Char → Bool)
      (hp : IsAscii p) : p (Char.ofUInt8 b) = p c := by
    have hbyte : (Char.ofUInt8 b).toNat = b.toNat := UInt8.toNat_toUInt32 b
    have hfalse : ∀ d : Char, 127 < d.toNat → p d = false := by
      intro d hd
      rw [Bool.eq_false_iff]
      intro h
      have := hp d h
      omega
    rw [hfalse c hc, hfalse _ (by omega)]
  unfold String.utf8EncodeChar
  dsimp only
  split
  case isTrue h =>
    refine ⟨_, _, rfl, fun p _ => congrArg p ?_⟩
    have hsmall : c.val.toNat < 256 := Nat.lt_of_le_of_lt h (by decide)
    refine Char.ext (UInt32.toNat_inj.mp ?_)
    exact (UInt8.toNat_toUInt32 _).trans (UInt8.toNat_ofNat_of_lt hsmall)
  case isFalse h =>
    have hc : 127 < c.toNat := Nat.lt_of_not_le h
    split
    case isTrue => exact ⟨_, _, rfl, hwide _ (by simp; omega) hc⟩
    case isFalse =>
      split
      case isTrue => exact ⟨_, _, rfl, hwide _ (by simp; omega) hc⟩
      case isFalse => exact ⟨_, _, rfl, hwide _ (by simp; omega) hc⟩

end Text

/-! ## Moving the cursor -/

/-- The spans of tokens keep positions in 32 bits. -/
def Located.clip {α : Type} (l : Located α) : Located α :=
  ⟨l.value, ⟨l.span.start % UInt32.size, l.span.stop % UInt32.size⟩⟩

/-- The end of the text, as a stream shows it behind all tokens. -/
def Stream.ending (s : Stream) : Located (Option Token) :=
  ⟨none, ⟨s.stop, s.stop⟩⟩

namespace Cursor

section Moves

variable (text : String)

def peekByte (pos : Nat) : Option UInt8 :=
  (Text.utf8 text)[pos]?

/-- The character at a position, if it is not the end. -/
def peekChar (pos : Nat) : Part (Option Char) :=
  Part.ofOption ((Text.cut? pos text.toList).map fun (_, back) => back.head?)

def bumpChar (pos : Nat) : Part Nat := do
  match ← peekChar text pos with
  | some c => return pos + c.utf8Size
  | none => return pos

/-! A turn of a loop leaves it with `inl`, and goes on with `inr`. -/

def blanksTurn : Nat →. Nat ⊕ Nat := fun pos => do
  match ← peekChar text pos with
  | some c =>
    if Text.isBlank c then
      let pos ← bumpChar text pos
      return .inr pos
    else return .inl pos
  | none => return .inl pos

def skipBlanks : Nat →. Nat :=
  PFun.fix (blanksTurn text)

def commentTurn : Nat →. Nat ⊕ Nat := fun pos => do
  match peekByte text pos with
  | some b =>
    if Text.isLineEnd (Char.ofUInt8 b) then return .inl pos
    else
      let pos ← bumpChar text pos
      return .inr pos
  | none => return .inl pos

/-- Skips characters up to one whose first byte is a line end. -/
def skipComment : Nat →. Nat :=
  PFun.fix (commentTurn text)

def layoutTurn : Nat →. Nat ⊕ Nat := fun pos => do
  let pos ← skipBlanks text pos
  if (peekByte text pos).any (Char.ofUInt8 · == '#') then
    let pos ← skipComment text pos
    return .inr pos
  else return .inl pos

def skipLayout : Nat →. Nat :=
  PFun.fix (layoutTurn text)

def runTurn (p : Char → Bool) : Nat →. Nat ⊕ Nat := fun pos =>
  match peekByte text pos with
  | some b => if p (Char.ofUInt8 b) then return .inr (pos + 1) else return .inl pos
  | none => return .inl pos

/-- Skips bytes of a class. -/
def skipRun (p : Char → Bool) : Nat →. Nat :=
  PFun.fix (runTurn text p)

/-- The value of a numeral is looked for in its fronts, which all have to be cut out. -/
def number? (part : String) : Option Token := do
  guard ((List.range part.utf8ByteSize).all fun n => (Text.slice? part ⟨0, n + 1⟩).isSome)
  return .number (Numeral.value part.toList)

/-- The token that a run of bytes spells, and the position behind it. -/
def run (p : Char → Bool) (token? : String → Option Token) (start : Nat) :
    Part (Located (Option Token) × Nat) := do
  let stop ← skipRun text p start
  let part ← Part.ofOption (Text.slice? text ⟨start, stop⟩)
  let token ← Part.ofOption (token? part)
  return (Located.clip ⟨some token, ⟨start, stop⟩⟩, stop)

/-- The next token, or the end of the text, and the position behind it. -/
def next (pos : Nat) : Part (Located (Option Token) × Nat) := do
  let start ← skipLayout text pos
  match ← peekChar text start with
  | none => return (Located.clip ⟨none, ⟨start, start⟩⟩, start)
  | some c =>
    if c.isAlpha then run text Char.isAlphanum (some ∘ Token.ofWord) start
    else if Numeral.isPart c then run text Numeral.isPart number? start
    else
      let stop ← bumpChar text start
      return (Located.clip ⟨some (.char c), ⟨start, stop⟩⟩, stop)

/-- Pulls a token and puts it behind those already pulled. -/
def lexTurn : List (Located (Option Token)) × Nat →.
    List (Located (Option Token)) ⊕ List (Located (Option Token)) × Nat := fun (tokens, pos) => do
  let (token, pos) ← next text pos
  if token.value.isNone then return .inl (tokens ++ [token])
  else return .inr (tokens ++ [token], pos)

/-- All tokens of a text, and its end. -/
def lexAll : Part (List (Located (Option Token))) :=
  PFun.fix (lexTurn text) ([], 0)

/-- The first `n` tokens from a position on, the end again and again if there are fewer. -/
def pull : Nat → Nat → Part (List (Located (Option Token)))
  | 0, _ => return []
  | n + 1, pos => do
    let (token, pos) ← next text pos
    let tokens ← pull n pos
    return token :: tokens

end Moves

/-! ## Turns of a loop -/

section Turns

variable {σ α : Type} {turn : σ →. α ⊕ σ} {s s' : σ} {a : α}

theorem fix_of_inr (h : turn s = Part.some (.inr s')) : turn.fix s = turn.fix s' :=
  PFun.fix_fwd_eq (Part.eq_some_iff.mp h)

theorem fix_congr (h : turn s = turn s') : turn.fix s = turn.fix s' := by
  refine Part.ext fun a => ?_
  rw [PFun.mem_fix_iff, PFun.mem_fix_iff, h]

theorem fix_of_inl (h : turn s = Part.some (.inl a)) : turn.fix s = Part.some a :=
  Part.eq_some_iff.mpr (PFun.fix_stop (Part.eq_some_iff.mp h))

end Turns

/-! ## Behind whole characters -/

variable {text : String} {front gap part rest : List Char} {c : Char}

theorem peekByte_nil (h : text.toList = front) : peekByte text (byteSize front) = none := by
  rw [peekByte, Text.utf8_eq, h, ← Text.length_encode, List.getElem?_eq_none (Nat.le_refl _)]

theorem peekByte_cons (h : text.toList = front ++ c :: rest) :
    ∃ b, peekByte text (byteSize front) = some b ∧
      ∀ p, Text.IsAscii p → p (Char.ofUInt8 b) = p c := by
  obtain ⟨b, bs, hb, hclass⟩ := Text.exists_firstByte c
  refine ⟨b, ?_, hclass⟩
  rw [peekByte, Text.utf8_eq, h, List.flatMap_append, ← Text.length_encode,
    List.getElem?_append_right (Nat.le_refl _), Nat.sub_self, List.flatMap_cons, hb]
  rfl

theorem peekChar_eq (h : text.toList = front ++ rest) :
    peekChar text (byteSize front) = Part.some rest.head? := by
  rw [peekChar, h, Text.cut?_append]
  rfl

theorem bumpChar_eq (h : text.toList = front ++ c :: rest) :
    bumpChar text (byteSize front) = Part.some (byteSize (front ++ [c])) := by
  rw [bumpChar, peekChar_eq h, byteSize_append]
  exact Part.bind_some _ _

theorem append_cons_eq (h : text.toList = front ++ c :: rest) :
    text.toList = (front ++ [c]) ++ rest := by
  rw [h, List.append_assoc, List.singleton_append]

/-! ## Layout -/

theorem skipBlanks_cons (h : text.toList = front ++ c :: rest) (hc : Text.isBlank c = true) :
    skipBlanks text (byteSize front) = skipBlanks text (byteSize (front ++ [c])) := by
  refine fix_of_inr ?_
  simp [blanksTurn, peekChar_eq h, hc, bumpChar_eq h]

theorem skipBlanks_stop (h : text.toList = front ++ rest) (hrest : Lexer.Ends Text.isBlank rest) :
    skipBlanks text (byteSize front) = Part.some (byteSize front) := by
  refine fix_of_inl ?_
  cases rest with
  | nil => simp [blanksTurn, peekChar_eq h]
  | cons c rest => simp [blanksTurn, peekChar_eq h, hrest c rfl]

theorem isAscii_lineEnd : Text.IsAscii Text.isLineEnd := by
  intro c hc
  simp only [Text.isLineEnd, decide_eq_true_eq] at hc
  rcases hc with rfl | rfl <;> decide

theorem isAscii_hash : Text.IsAscii (· == '#') := by
  intro c hc
  rw [beq_iff_eq.mp hc]
  decide

/-- A comment is skipped up to its line end. -/
theorem skipComment_eq {body : List Char} (h : text.toList = front ++ (body ++ rest))
    (hbody : ∀ c ∈ body, Text.isLineEnd c = false)
    (hend : ∀ c, rest.head? = some c → Text.isLineEnd c = true) :
    skipComment text (byteSize front) = Part.some (byteSize (front ++ body)) := by
  induction body generalizing front with
  | nil =>
    rw [List.append_nil]
    refine fix_of_inl ?_
    cases rest with
    | nil => simp [commentTurn, peekByte_nil (by simpa using h)]
    | cons c rest =>
      obtain ⟨b, hb, hclass⟩ := peekByte_cons (c := c) (by simpa using h)
      simp [commentTurn, hb, hclass _ isAscii_lineEnd, hend c rfl]
  | cons c body ih =>
    obtain ⟨hc, hbody⟩ := List.forall_mem_cons.mp hbody
    obtain ⟨b, hb, hclass⟩ := peekByte_cons h
    have hturn : commentTurn text (byteSize front) =
        Part.some (.inr (byteSize (front ++ [c]))) := by
      simp [commentTurn, hb, hclass _ isAscii_lineEnd, hc, bumpChar_eq h]
    have hrest := ih (append_cons_eq h) hbody
    rw [List.append_assoc, List.singleton_append] at hrest
    exact (fix_of_inr hturn).trans hrest

/-- Nothing is skipped where no layout starts. -/
theorem skipLayout_stop (h : text.toList = front ++ rest) (hblank : Lexer.Ends Text.isBlank rest)
    (hcomment : rest.head? ≠ some '#') :
    skipLayout text (byteSize front) = Part.some (byteSize front) := by
  have hhash : (peekByte text (byteSize front)).any (Char.ofUInt8 · == '#') = false := by
    cases rest with
    | nil =>
      rw [peekByte_nil (by simpa using h)]
      rfl
    | cons c rest =>
      obtain ⟨b, hb, hclass⟩ := peekByte_cons h
      have hc : c ≠ '#' := fun hc => hcomment (congrArg some hc)
      rw [hb]
      exact (hclass _ isAscii_hash).trans (beq_false_of_ne hc)
  refine fix_of_inl ?_
  simp [layoutTurn, skipBlanks_stop h hblank, hhash]

theorem skipLayout_blank (h : text.toList = front ++ c :: rest) (hc : Text.isBlank c = true) :
    skipLayout text (byteSize front) = skipLayout text (byteSize (front ++ [c])) := by
  -- The turns at both positions are the same: blanks are skipped first.
  have hturn : layoutTurn text (byteSize front) = layoutTurn text (byteSize (front ++ [c])) := by
    rw [layoutTurn, skipBlanks_cons h hc, ← layoutTurn]
  exact fix_congr hturn

theorem skipLayout_comment {body : List Char} (h : text.toList = front ++ '#' :: (body ++ rest))
    (hbody : ∀ c ∈ body, Text.isLineEnd c = false)
    (hend : ∀ c, rest.head? = some c → Text.isLineEnd c = true) :
    skipLayout text (byteSize front) = skipLayout text (byteSize (front ++ '#' :: body)) := by
  have hblank : Lexer.Ends Text.isBlank ('#' :: (body ++ rest)) := by
    intro c hc
    cases hc
    rfl
  have hall : ∀ c ∈ '#' :: body, Text.isLineEnd c = false :=
    List.forall_mem_cons.mpr ⟨rfl, hbody⟩
  have hcomment :
      skipComment text (byteSize front) = Part.some (byteSize (front ++ '#' :: body)) :=
    skipComment_eq h hall hend
  have hhash : (peekByte text (byteSize front)).any (Char.ofUInt8 · == '#') = true := by
    obtain ⟨b, hb, hclass⟩ := peekByte_cons h
    rw [hb]
    exact hclass _ isAscii_hash
  refine fix_of_inr ?_
  simp [layoutTurn, skipBlanks_stop h hblank, hhash, hcomment]

/-- Layout is skipped as far as it goes. -/
theorem skipLayout_eq (h : text.toList = front ++ (gap ++ rest))
    (hgap : Layout Text.isBlank gap rest) (hblank : Lexer.Ends Text.isBlank rest)
    (hcomment : rest.head? ≠ some '#') :
    skipLayout text (byteSize front) = Part.some (byteSize (front ++ gap)) := by
  induction hgap generalizing front with
  | nil =>
    rw [List.append_nil]
    exact skipLayout_stop h hblank hcomment
  | @fill c gap rest hc _ ih =>
    rw [skipLayout_blank h hc, ih (append_cons_eq h) hblank hcomment, List.append_assoc,
      List.singleton_append]
  | @comment body gap rest hbody hend _ ih =>
    have hrest : text.toList = (front ++ '#' :: body) ++ (gap ++ rest) := by
      simpa using h
    have hskip := ih hrest hblank hcomment
    rw [skipLayout_comment (by simpa using h) hbody hend, hskip]
    simp

/-! ## Runs of bytes -/

/-- A run of ASCII characters goes as far as its bytes do. -/
theorem skipRun_eq {p : Char → Bool} (hp : Text.IsAscii p)
    (h : text.toList = front ++ (part ++ rest)) (hpart : ∀ c ∈ part, p c = true)
    (hrest : Lexer.Ends p rest) :
    skipRun text p (byteSize front) = Part.some (byteSize (front ++ part)) := by
  induction part generalizing front with
  | nil =>
    rw [List.append_nil]
    refine fix_of_inl ?_
    cases rest with
    | nil => simp [runTurn, peekByte_nil (by simpa using h)]
    | cons c rest =>
      obtain ⟨b, hb, hclass⟩ := peekByte_cons (c := c) (by simpa using h)
      simp [runTurn, hb, hclass p hp, hrest c rfl]
  | cons c part ih =>
    obtain ⟨hc, hpart⟩ := List.forall_mem_cons.mp hpart
    obtain ⟨b, hb, hclass⟩ := peekByte_cons h
    have hturn : runTurn text p (byteSize front) = Part.some (.inr (byteSize front + 1)) := by
      simp [runTurn, hb, hclass p hp, hc]
    have hsize : c.utf8Size = 1 := Text.utf8Size_of_isAscii hp hc
    have hskip := ih (append_cons_eq h) hpart
    rw [byteSize_append, byteSize, byteSize, hsize, List.append_assoc, List.singleton_append]
      at hskip
    exact (fix_of_inr hturn).trans hskip

/-- Every front of a numeral can be cut out. -/
theorem slice?_front (hpart : ∀ c ∈ part, Numeral.isPart c = true) {n : Nat}
    (hn : n ≤ part.length) :
    Text.slice? (String.ofList part) ⟨0, n⟩ = some (String.ofList (part.take n)) := by
  have htake : ∀ c ∈ part.take n, Numeral.isPart c = true :=
    fun c hc => hpart c (List.mem_of_mem_take hc)
  have hsize : byteSize (part.take n) = n := by
    rw [Text.byteSize_of_isAscii Text.isAscii_part htake, List.length_take_of_le hn]
  have hcut : (String.ofList part).toList = [] ++ (part.take n ++ part.drop n) := by
    rw [String.toList_ofList, List.nil_append, List.take_append_drop]
  have hcovers := Text.covers_of_chars hcut
  rw [List.nil_append, hsize] at hcovers
  exact Text.slice?_of_covers hcovers

theorem number?_eq (hpart : ∀ c ∈ part, Numeral.isPart c = true) :
    number? (String.ofList part) = some (.number (Numeral.value part)) := by
  have hall : ((List.range (String.ofList part).utf8ByteSize).all fun n =>
      (Text.slice? (String.ofList part) ⟨0, n + 1⟩).isSome) = true := by
    rw [utf8ByteSize_ofList, Text.byteSize_of_isAscii Text.isAscii_part hpart, List.all_eq_true]
    intro n hn
    rw [slice?_front hpart (List.mem_range.mp hn), Option.isSome_some]
  rw [number?, hall, String.toList_ofList]
  rfl

theorem run_eq {p : Char → Bool} (hp : Text.IsAscii p) {token? : String → Option Token}
    {t : Token} (h : text.toList = front ++ (part ++ rest)) (hpart : ∀ c ∈ part, p c = true)
    (hrest : Lexer.Ends p rest) (ht : token? (String.ofList part) = some t) :
    run text p token? (byteSize front) =
      Part.some (Located.clip ⟨some t, ⟨byteSize front, byteSize (front ++ part)⟩⟩,
        byteSize (front ++ part)) := by
  rw [run, skipRun_eq hp h hpart hrest]
  simp [Text.slice?_of_covers (Text.covers_of_chars h), ht]

/-! ## Tokens -/

/-- What spells a token starts with no layout. -/
theorem head_of_spelled {t : Token} (h : Lexer.Spelled t part rest) :
    ∃ c cs, part = c :: cs ∧ Text.isBlank c = false ∧ c ≠ '#' := by
  cases h with
  | @word c cs _ hc hcs hrest =>
    have hbounds := toNat_of_isAlpha hc
    refine ⟨c, cs, rfl, Text.not_isBlank (by omega) (by omega), ?_⟩
    rintro rfl
    cases hc
  | @numeral c cs _ hc hcs hrest =>
    have hbounds := toNat_of_isPart hc
    refine ⟨c, cs, rfl, Text.not_isBlank (by omega) (by omega), ?_⟩
    rintro rfl
    cases hc
  | @mark c hc => exact ⟨c, [], rfl, hc.blank, hc.comment⟩

/-- Where a token comes next, it is pulled, and the cursor is behind it. -/
theorem next_token {t : Token} (h : text.toList = front ++ (gap ++ (part ++ rest)))
    (hgap : Layout Text.isBlank gap (part ++ rest)) (ht : Lexer.Spelled t part rest) :
    next text (byteSize front) =
      Part.some
        (Located.clip ⟨some t, ⟨byteSize (front ++ gap), byteSize (front ++ gap ++ part)⟩⟩,
          byteSize (front ++ gap ++ part)) := by
  obtain ⟨c, cs, hpart, hblank, hcomment⟩ := head_of_spelled ht
  have hhead : (part ++ rest).head? = some c := by rw [hpart]; rfl
  have hskip : skipLayout text (byteSize front) = Part.some (byteSize (front ++ gap)) := by
    refine skipLayout_eq h hgap ?_ ?_
    · intro d hd
      rw [hhead] at hd
      cases hd
      exact hblank
    · rw [hhead]
      exact fun heq => hcomment (Option.some.inj heq)
  have hat : text.toList = (front ++ gap) ++ (part ++ rest) := by rw [h, List.append_assoc]
  rw [next, hskip]
  simp only [Part.bind_eq_bind, Part.bind_some, peekChar_eq hat, hhead]
  cases ht with
  | word hc hcs hrest =>
    cases hpart
    rw [if_pos hc]
    refine run_eq Text.isAscii_alphanum hat (List.forall_mem_cons.mpr ⟨?_, hcs⟩) hrest rfl
    rw [Char.isAlphanum, hc, Bool.true_or]
  | numeral hc hcs hrest =>
    cases hpart
    have hletter : ¬ c.isAlpha = true := by
      intro hletter
      have hlow := toNat_of_isAlpha hletter
      have hhigh := toNat_of_isPart hc
      omega
    have hall : ∀ d ∈ c :: cs, Numeral.isPart d = true := List.forall_mem_cons.mpr ⟨hc, hcs⟩
    rw [if_neg hletter, if_pos hc]
    exact run_eq Text.isAscii_part hat hall hrest (number?_eq hall)
  | mark hc =>
    cases hpart
    rw [if_neg (Bool.eq_false_iff.mp hc.letter), if_neg (Bool.eq_false_iff.mp hc.numeral),
      bumpChar_eq hat]
    exact Part.bind_some _ _

/-- Where only layout is left, the end is pulled. -/
theorem next_end (h : text.toList = front ++ gap) (hgap : Layout Text.isBlank gap []) :
    next text (byteSize front) =
      Part.some (Located.clip ⟨none, ⟨byteSize text.toList, byteSize text.toList⟩⟩,
        byteSize text.toList) := by
  have hat : text.toList = (front ++ gap) ++ [] := by rw [h, List.append_nil]
  have hskip : skipLayout text (byteSize front) = Part.some (byteSize (front ++ gap)) := by
    rw [List.append_assoc] at hat
    exact skipLayout_eq hat hgap (fun c hc => nomatch hc) nofun
  rw [next, hskip, h]
  simp [peekChar_eq hat]

/-! ## Following a stream -/

/-- The cursor stands behind whole characters, and before the lexemes left on the stream. -/
inductive Follows (text : String) (pos : Nat) (s : Stream) : Prop where
  | mk {front rest : List Char} (chars : text.toList = front ++ rest)
      (pos_eq : pos = byteSize front) (stop_eq : s.stop = byteSize text.toList)
      (spaced : Spaced Text.isBlank Lexer.Spelled pos s.pending rest)

theorem byteSize_toList (text : String) : byteSize text.toList = text.utf8ByteSize := by
  rw [← utf8ByteSize_ofList, String.ofList_toList]

theorem follows_start (text : String) : Follows text 0 (Stream.ofText text) :=
  .mk (List.nil_append _).symm rfl (byteSize_toList text).symm
    (Lexer.spaced_scan 0 text.toList)

/-- The cursor pulls what the stream shows, and then follows the stream behind it. -/
theorem Follows.next {pos : Nat} {s : Stream} (h : Follows text pos s) :
    ∃ pos', next text pos = Part.some (s.peek.clip, pos') ∧ Follows text pos' s.skip := by
  obtain @⟨front, rest, chars, rfl, stop_eq, spaced⟩ := h
  obtain ⟨pending, stop⟩ := s
  cases spaced with
  | done hrest =>
    subst stop_eq
    refine ⟨byteSize text.toList, next_end chars hrest, ?_⟩
    exact .mk (List.append_nil _).symm rfl rfl (.done (.nil []))
  | @part _ gap part rest l ls hgap hne hpart hspan hrest =>
    rw [List.append_assoc] at chars
    rw [← byteSize_append, ← byteSize_append] at hspan
    have hstop : l.span.stop = byteSize (front ++ gap ++ part) := by rw [hspan]
    have hnext := next_token chars hgap hpart
    rw [← hspan] at hnext
    rw [hstop] at hrest
    refine ⟨_, hnext, .mk ?_ rfl stop_eq hrest⟩
    rw [chars, List.append_assoc, List.append_assoc]

/-- Lexing puts all that the stream has to show behind what has been pulled. -/
theorem Follows.lex {pos : Nat} {s : Stream} (h : Follows text pos s)
    (pulled : List (Located (Option Token))) :
    PFun.fix (lexTurn text) (pulled, pos) = Part.some (pulled ++ s.sights.map Located.clip) := by
  obtain ⟨pending, stop⟩ := s
  induction pending generalizing pos pulled with
  | nil =>
    obtain ⟨pos', hnext, -⟩ := h.next
    refine fix_of_inl ?_
    simp only [lexTurn, hnext, Part.bind_eq_bind, Part.bind_some]
    rfl
  | cons l ls ih =>
    obtain ⟨pos', hnext, hskip⟩ := h.next
    have hturn : lexTurn text (pulled, pos) =
        Part.some (.inr (pulled ++ [Located.clip ⟨some l.value, l.span⟩], pos')) := by
      simp only [lexTurn, hnext, Part.bind_eq_bind, Part.bind_some]
      rfl
    refine (fix_of_inr hturn).trans ((ih _ hskip).trans ?_)
    rw [List.append_assoc]
    rfl

/-- Pulling again behind the end gives the end again. -/
theorem Follows.pull {pos : Nat} {s : Stream} (h : Follows text pos s) (n : Nat) :
    pull text n pos =
      Part.some (((s.sights ++ List.replicate n s.ending).take n).map Located.clip) := by
  induction n generalizing pos s with
  | zero => simp [Cursor.pull]
  | succ n ih =>
    obtain ⟨pos', hnext, hskip⟩ := h.next
    have hfirst : (s.sights ++ List.replicate (n + 1) s.ending).take (n + 1) =
        s.peek :: (s.skip.sights ++ List.replicate n s.ending).take n := by
      obtain ⟨pending, stop⟩ := s
      cases pending with
      | nil => rfl
      | cons l ls =>
        rw [List.replicate_succ', ← List.append_assoc]
        refine (List.take_append_of_le_length ?_).trans rfl
        rw [Stream.sights, List.length_append, List.length_append, List.length_replicate,
          List.length_singleton]
        omega
    rw [Cursor.pull, hnext, hfirst]
    simp only [Part.bind_eq_bind, Part.bind_some]
    rw [ih hskip]
    exact Part.bind_some _ _

end Cursor

end Abacus
