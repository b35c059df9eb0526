-- SUMMARY: Tokens of the expression language.
import Abacus.Span

/-!
# Tokens

A source text is a sequence of tokens with layout between them. There is no
token for the end of the text: a reader that wants one more token than there
are sees none.
-/

namespace Abacus

inductive Keyword where
  | define
  | declare
deriving DecidableEq, Repr

/-- The spelling of a keyword. -/
def Keyword.text : Keyword → String
  | .define  => "def"
  | .declare => "extern"

inductive Token where
  | keyword (word : Keyword)
  | ident (name : String)
  | number (value : Float)
  /-- Any single character that starts none of the others. -/
  | char (c : Char)
deriving DecidableEq, Repr

/-- A word is a keyword if it spells one, and an identifier otherwise. -/
def Token.ofWord (word : String) : Token :=
  if word = Keyword.define.text then .keyword .define
  else if word = Keyword.declare.text then .keyword .declare
  else .ident word

/-- A token and where it stands. -/
abbrev Lexeme := Located Token

end Abacus
