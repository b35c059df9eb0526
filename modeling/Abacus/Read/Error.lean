-- SUMMARY: Why a text is refused, and where.
import Abacus.Span
import Abacus.Token.Basic

/-!
# Parse errors

A construct is refused for a `Cause`, at the first token that cannot continue
it. Where that is the end of the text, the construct is unfinished rather than
malformed.
-/

namespace Abacus

inductive Cause where
  | missingKeyword (word : Keyword)
  | missingFunctionName
  | missingParameterList
  | duplicateParameter (param function : String)
  | unclosedParameterList
  | missingExpression
  | unclosedGroup
  | unclosedArgumentList
deriving DecidableEq, Repr

/-- The name a keyword has in messages. -/
def Keyword.title : Keyword → String
  | .define  => "Def"
  | .declare => "Extern"

def Cause.message : Cause → String
  | .missingKeyword word => "Expected keyword " ++ word.title
  | .missingFunctionName => "Expected function name in prototype"
  | .missingParameterList => "Expected '(' in prototype"
  | .duplicateParameter param function =>
    "Duplicate parameter '" ++ param ++ "' in prototype '" ++ function ++ "'"
  | .unclosedParameterList => "Expected ')' in prototype"
  | .missingExpression => "Expected expression"
  | .unclosedGroup => "Expected ')'"
  | .unclosedArgumentList => "Expected ')' or ',' in argument list"

structure ParseError where
  cause : Cause
  /-- The span of the token at fault, empty at the end of the text. -/
  span  : Span
  atEnd : Bool
deriving DecidableEq, Repr

def ParseError.message (e : ParseError) : String :=
  e.cause.message

def ParseError.text (e : ParseError) : String :=
  e.message ++ " at " ++ toString e.span.start ++ ".." ++ toString e.span.stop

end Abacus
