-- SUMMARY: Constructs read one token at a time, with one token of lookahead.
import Abacus.Read.Error

/-!
# Readers

A reader describes a construct by a machine. It absorbs tokens as long as they
continue the construct. Faced with a token it cannot absorb, or with none, it
concludes: either what it has read is complete, or that token is at fault.

A reader sees tokens only. Where they stand matters to `Reader.advance`, which
keeps apart what was taken and what is left.
-/

namespace Abacus

structure Reader (σ α : Type) where
  start : σ
  absorb? : σ → Token → Option σ
  /-- The construct read so far, given the token that was not absorbed. -/
  conclude : σ → Option Token → Except Cause α

/-- Where a reader stops: the lexemes it took, its state after them, and the
    lexemes it left. -/
structure Progress (σ : Type) where
  taken : List Lexeme
  state : σ
  rest  : List Lexeme

namespace Reader

variable {σ α : Type}

/-- Absorbs lexemes as far as possible. -/
def advance (r : Reader σ α) (s : σ) : List Lexeme → Progress σ
  | [] => ⟨[], s, []⟩
  | l :: ls =>
    match r.absorb? s l.value with
    | none => ⟨[], s, l :: ls⟩
    | some s' =>
      let after := r.advance s' ls
      { after with taken := l :: after.taken }

/-- The construct has at least one token. -/
def Consuming (r : Reader σ α) : Prop :=
  ∀ lookahead value, r.conclude r.start lookahead ≠ .ok value

-- ---------------------------------------------------------------------------
-- Advancing
-- ---------------------------------------------------------------------------

@[simp] theorem advance_nil (r : Reader σ α) (s : σ) : r.advance s [] = ⟨[], s, []⟩ := rfl

/-- Nothing is lost: what was taken and what is left is the input. -/
theorem taken_append_rest (r : Reader σ α) (s : σ) (ls : List Lexeme) :
    (r.advance s ls).taken ++ (r.advance s ls).rest = ls := by
  induction ls generalizing s with
  | nil => rfl
  | cons l ls ih =>
    unfold advance
    split
    · rfl
    · simp [ih]

/-- A reader that took nothing is where it started. -/
theorem state_of_taken_nil {r : Reader σ α} {s : σ} {ls : List Lexeme}
    (h : (r.advance s ls).taken = []) : (r.advance s ls).state = s := by
  cases ls with
  | nil => rfl
  | cons l ls =>
    unfold advance at h ⊢
    split <;> simp_all

/-- A construct that needs a token has been taken from the input. -/
theorem rest_length_lt {r : Reader σ α} (hr : r.Consuming) {ls : List Lexeme}
    {lookahead : Option Token} {value : α}
    (h : r.conclude (r.advance r.start ls).state lookahead = .ok value) :
    (r.advance r.start ls).rest.length < ls.length := by
  have total := congrArg List.length (r.taken_append_rest r.start ls)
  rw [List.length_append] at total
  rcases Nat.eq_zero_or_pos (r.advance r.start ls).taken.length with hz | hp
  · rw [state_of_taken_nil (List.eq_nil_of_length_eq_zero hz)] at h
    exact absurd h (hr _ _)
  · omega

end Reader

end Abacus
