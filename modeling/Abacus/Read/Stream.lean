-- SUMMARY: Constructs pulled one by one off the lexemes of a text.
import Abacus.Read.Item
import Abacus.Token.Lexer

/-!
# Streams

A stream is what is left of a source text. The caller chooses what to read next.
After a construct the stream stands on the first token that is not part of it;
after an error it stands on the token at fault.
-/

namespace Abacus

structure Stream where
  pending : List Lexeme
  /-- The length of the text, where its end is reported. -/
  stop    : Nat
deriving Repr

namespace Stream

def ofText (text : String) : Stream :=
  ⟨lexemes text, text.utf8ByteSize⟩

/-- The next token, or the end of the text. -/
def peek (s : Stream) : Located (Option Token) :=
  match s.pending with
  | []     => ⟨none, ⟨s.stop, s.stop⟩⟩
  | l :: _ => ⟨some l.value, l.span⟩

def atEnd (s : Stream) : Bool :=
  s.pending.isEmpty

/-- Drops the next token, if there is one. -/
def skip (s : Stream) : Stream :=
  { s with pending := s.pending.tail }

/-- Whether a lexeme separates statements. -/
def isSeparator (l : Lexeme) : Bool :=
  l.value == .char ';'

/-- Drops the separators that come next. -/
def skipSeparators (s : Stream) : Stream :=
  { s with pending := s.pending.dropWhile isSeparator }

/-- An error at the next token. -/
def error (s : Stream) (cause : Cause) : ParseError :=
  ⟨cause, s.peek.span, s.atEnd⟩

variable {σ α : Type}

/-- What is left after a reader took what it could. -/
def after (r : Reader σ α) (s : Stream) : Stream :=
  { s with pending := (r.advance r.start s.pending).rest }

/-- The span of what a reader takes: from the next token to the last one taken. -/
def extent (r : Reader σ α) (s : Stream) : Span :=
  let start := s.peek.span.start
  ⟨start, ((r.advance r.start s.pending).taken.getLast?.map (·.span.stop)).getD start⟩

/-- Reads one construct off the stream. -/
def read (r : Reader σ α) (s : Stream) : Except ParseError α :=
  (r.conclude (r.advance r.start s.pending).state (s.after r).peek.value).mapError (s.after r).error

/-- Reads one item with its span. -/
def item (table : PrecedenceTable) (s : Stream) : Except ParseError (Located Item) :=
  (s.read (Item.reader table)).map (⟨·, s.extent (Item.reader table)⟩)

/-- An item that was read has been taken off the stream. -/
theorem after_length_lt {table : PrecedenceTable} {s : Stream} {i : Located Item}
    (h : s.item table = .ok i) :
    (s.after (Item.reader table)).pending.length < s.pending.length := by
  unfold item read at h
  cases hc : (Item.reader table).conclude
      ((Item.reader table).advance (Item.reader table).start s.pending).state
      (s.after (Item.reader table)).peek.value with
  | error cause => rw [hc] at h; cases h
  | ok value => exact Reader.rest_length_lt (Item.reader_consuming table) hc

end Stream

end Abacus
