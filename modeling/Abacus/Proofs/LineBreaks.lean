-- SUMMARY: Lexing from another position, and across a line break.
import Abacus.Proofs.Grammar
import Abacus.Token.Lexer

/-!
# Line breaks

A line feed ends whatever the lexer is in the middle of, comments included. So
the lexemes of two texts with a line feed between them are those of the first,
and behind them those of the second, moved to where it stands.
-/

namespace Abacus

/-- The same value, `n` bytes further on. -/
def Located.shift {α : Type} (n : Nat) (l : Located α) : Located α :=
  ⟨l.value, ⟨l.span.start + n, l.span.stop + n⟩⟩

@[simp] theorem tokens_shift (n : Nat) (ls : List Lexeme) :
    tokens (ls.map (Located.shift n)) = tokens ls := by
  rw [tokens, List.map_map]
  rfl

namespace Lexer

/-! ## Positions -/

/-- The mode of a lexer that started `n` bytes further on. -/
def Mode.shift (n : Nat) : Mode → Mode
  | .between => .between
  | .comment => .comment
  | .word start text => .word (start + n) text
  | .numeral start text => .numeral (start + n) text

theorem Mode.close_shift (n pos : Nat) (mode : Mode) :
    (mode.shift n).close (pos + n) = (mode.close pos).map (Located.shift n) := by
  cases mode <;> rfl

theorem enter_shift (n pos : Nat) (c : Char) :
    enter (pos + n) c = ((enter pos c).1.shift n, (enter pos c).2.map (Located.shift n)) := by
  have hstop : pos + n + c.utf8Size = pos + c.utf8Size + n := Nat.add_right_comm ..
  unfold enter
  split
  · rfl
  · split
    · rfl
    · split
      · rfl
      · split
        · rfl
        · simp only [hstop, Mode.shift, List.map_cons, List.map_nil, Located.shift]

theorem step_shift (n pos : Nat) (mode : Mode) (c : Char) :
    step (pos + n) (mode.shift n) c =
      ((step pos mode c).1.shift n, (step pos mode c).2.map (Located.shift n)) := by
  have hclose := Mode.close_shift n pos mode
  cases mode with
  | between => exact enter_shift n pos c
  | comment =>
    simp only [step, Mode.shift]
    split <;> rfl
  | word start text =>
    simp only [step, Mode.shift]
    split
    · rfl
    · simp only [enter_shift, List.map_append, ← hclose, Mode.shift]
  | numeral start text =>
    simp only [step, Mode.shift]
    split
    · rfl
    · simp only [enter_shift, List.map_append, ← hclose, Mode.shift]

theorem scan_shift (n pos : Nat) (mode : Mode) (cs : List Char) :
    scan (pos + n) (mode.shift n) cs = (scan pos mode cs).map (Located.shift n) := by
  induction cs generalizing pos mode with
  | nil => exact Mode.close_shift n pos mode
  | cons c cs ih =>
    have hpos : pos + n + c.utf8Size = pos + c.utf8Size + n := Nat.add_right_comm ..
    simp only [scan, List.map_append, step_shift, hpos, ih]

/-! ## Breaks -/

/-- A line feed closes what was open and starts nothing. -/
theorem step_lineFeed (pos : Nat) (mode : Mode) :
    step pos mode '\n' = (.between, mode.close pos) := by
  have henter : enter pos '\n' = (.between, []) := rfl
  cases mode with
  | between => exact henter
  | comment => rfl
  | word start text =>
    have hc : '\n'.isAlphanum = false := rfl
    simp [step, henter, hc]
  | numeral start text =>
    have hc : Numeral.isPart '\n' = false := rfl
    simp [step, henter, hc]

/-- The lexer cannot look across a line feed. -/
theorem scan_append_lineFeed (pos : Nat) (mode : Mode) (cs ds : List Char) :
    scan pos mode (cs ++ '\n' :: ds) =
      scan pos mode cs ++ scan (pos + (String.ofList cs).utf8ByteSize + 1) .between ds := by
  induction cs generalizing pos mode with
  | nil => simp only [List.nil_append, scan, step_lineFeed]; rfl
  | cons c cs ih =>
    have hsize : (String.ofList (c :: cs)).utf8ByteSize =
        c.utf8Size + (String.ofList cs).utf8ByteSize := by
      simp [String.ofList_cons]
    simp only [List.cons_append, scan, ih, List.append_assoc, hsize, Nat.add_assoc]

end Lexer

/-- The lexemes of two texts with a line feed between them. -/
theorem lexemes_append_lineFeed (a b : String) :
    lexemes (a ++ "\n" ++ b) =
      lexemes a ++ (lexemes b).map (Located.shift (a.utf8ByteSize + 1)) := by
  have hchars : (a ++ "\n" ++ b).toList = a.toList ++ '\n' :: b.toList := by
    simp [String.toList_append]
  have hshift := Lexer.scan_shift (a.utf8ByteSize + 1) 0 .between b.toList
  rw [lexemes, hchars, Lexer.scan_append_lineFeed, String.ofList_toList, Nat.add_assoc]
  exact congrArg _ hshift

/-- The tokens of two texts with a line feed between them. -/
theorem tokens_append_lineFeed (a b : String) :
    tokens (lexemes (a ++ "\n" ++ b)) = tokens (lexemes a) ++ tokens (lexemes b) := by
  rw [lexemes_append_lineFeed, tokens_append, tokens_shift]

end Abacus
