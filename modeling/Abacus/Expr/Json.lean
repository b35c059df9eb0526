-- SUMMARY: Compact JSON text of expressions and items.
import Abacus.Decimal.Style
import Abacus.Expr.Basic
import Abacus.Span

/-!
# JSON text of items

One line of JSON for each item: objects with their fields in a fixed order, one
tagged field for each alternative, and no spaces. No text holds a line feed of
its own, because strings escape every control character.
-/

namespace Abacus.Json

/-- The lower-case hexadecimal digit of `n % 16`. -/
def hexDigit (n : Nat) : Char :=
  Nat.digitChar (n % 16)

/-- A character inside a JSON string. -/
def escape (c : Char) : List Char :=
  if c = '"' then ['\\', '"']
  else if c = '\\' then ['\\', '\\']
  else if c = '\x08' then ['\\', 'b']
  else if c = '\t' then ['\\', 't']
  else if c = '\n' then ['\\', 'n']
  else if c = '\x0c' then ['\\', 'f']
  else if c = '\r' then ['\\', 'r']
  else if c.toNat < 0x20 then ['\\', 'u', '0', '0', hexDigit (c.toNat / 16), hexDigit c.toNat]
  else [c]

def string (text : String) : String :=
  "\"" ++ String.ofList (text.toList.flatMap escape) ++ "\""

/-- Numbers show a fraction or an exponent; what is not finite is `null`, and a
    tie goes to the even digit. -/
def numberStyle : Decimal.Style where
  positional := fun order => -5 ≤ order && order ≤ 15
  keepsPoint := true
  tie        := .toEven
  notANumber := "null"
  infinite   := fun _ => "null"

def number (x : Float) : String :=
  numberStyle.text x

/-- Texts with a comma between them. -/
def commas (texts : List String) : String :=
  ",".intercalate texts

def array (texts : List String) : String :=
  "[" ++ commas texts ++ "]"

def field (name text : String) : String :=
  string name ++ ":" ++ text

def object (fields : List String) : String :=
  "\x7b" ++ commas fields ++ "\x7d"

end Abacus.Json

namespace Abacus

mutual

def Expr.json : Expr → String
  | .number x => Json.object [Json.field "Number" (Json.number x)]
  | .var name => Json.object [Json.field "Variable" (Json.string name)]
  | .binary op lhs rhs =>
    Json.object [Json.field "Binary" (Json.object
      [Json.field "op" (Json.string op.toString), Json.field "lhs" lhs.json,
       Json.field "rhs" rhs.json])]
  | .call callee args =>
    Json.object [Json.field "Call" (Json.object
      [Json.field "callee" (Json.string callee), Json.field "args" (Json.array (Expr.jsons args))])]

def Expr.jsons : List Expr → List String
  | [] => []
  | arg :: args => arg.json :: Expr.jsons args

end

def Prototype.json (proto : Prototype) : String :=
  Json.object [Json.field "name" (Json.string proto.name),
    Json.field "params" (Json.array (proto.params.map Json.string))]

def Function.json (function : Function) : String :=
  Json.object [Json.field "proto" function.proto.json, Json.field "body" function.body.json]

def Item.json : Item → String
  | .definition function => Json.object [Json.field "Definition" function.json]
  | .external proto      => Json.object [Json.field "Extern" proto.json]
  | .expression function => Json.object [Json.field "Expression" function.json]

def Span.json (span : Span) : String :=
  Json.object [Json.field "start" (toString span.start), Json.field "end" (toString span.stop)]

/-- An item with its span, as one line of JSON. -/
def Located.json (item : Located Item) : String :=
  Json.object [Json.field "node" item.value.json, Json.field "span" item.span.json]

end Abacus
