-- SUMMARY: Whole texts: all items, statements with recovery, and unfinished texts.
import Abacus.Read.Stream

/-!
# Programs

A text is cut into items in three ways.

* `Program.parse` pulls items off a stream and stops at the first error.
* `Program.statements` goes on after an error with the token after the one at
  fault, so that a session can run the rest of the text.
* `Program.isIncomplete` asks only whether the text stops in the middle of an
  item, for a reader that can ask for another line.

Between items any number of `;` may stand, and none has to.
-/

namespace Abacus.Program

-- ---------------------------------------------------------------------------
-- All items
-- ---------------------------------------------------------------------------

/-- The items left on a stream, or the first error. -/
def items (table : PrecedenceTable) (s : Stream) : Except ParseError (List (Located Item)) :=
  match _hp : s.pending with
  | [] => .ok []
  | l :: ls =>
    if Stream.isSeparator l then items table { s with pending := ls }
    else match _hi : s.item table with
      | .error e => .error e
      | .ok i => (items table (s.after (Item.reader table))).map (i :: ·)
termination_by s.pending.length
decreasing_by
  · simp [_hp]
  · exact Stream.after_length_lt _hi

/-- The items of a source text, or its first error. -/
def parse (text : String) : Except ParseError (List (Located Item)) :=
  items .standard (.ofText text)

-- ---------------------------------------------------------------------------
-- Statements
-- ---------------------------------------------------------------------------

/-- One turn of a session: an item to handle or an error to report. -/
inductive Statement where
  | item (item : Located Item)
  | fault (error : ParseError)
deriving Repr

/-- An item that is being read, and the span it has covered so far. -/
structure Draft where
  span  : Span
  state : ItemReader.State
deriving Repr

/-- The lexeme `l` between items: a separator, the start of an item, or an error
    that is dropped. -/
def enter (table : PrecedenceTable) (l : Lexeme) : Option Draft × List Statement :=
  if Stream.isSeparator l then (none, [])
  else match ItemReader.absorb? table .start l.value with
    | some state => (some ⟨l.span, state⟩, [])
    | none => (none, [.fault ⟨.missingExpression, l.span, false⟩])

/-- The draft after the lexeme `l`, and the statements it completes. -/
def step (table : PrecedenceTable) (draft : Option Draft) (l : Lexeme) :
    Option Draft × List Statement :=
  match draft with
  | none => enter table l
  | some d =>
    match ItemReader.absorb? table d.state l.value with
    | some state => (some ⟨⟨d.span.start, l.span.stop⟩, state⟩, [])
    | none =>
      match ItemReader.conclude d.state (some l.value) with
      | .ok item => ((enter table l).1, .item ⟨item, d.span⟩ :: (enter table l).2)
      | .error cause => (none, [.fault ⟨cause, l.span, false⟩])

/-- The statement that the end of the text completes. -/
def finish (stop : Nat) : Option Draft → List Statement
  | none => []
  | some d =>
    match ItemReader.conclude d.state none with
    | .ok item => [.item ⟨item, d.span⟩]
    | .error cause => [.fault ⟨cause, ⟨stop, stop⟩, true⟩]

/-- The statements of lexemes that follow a draft. -/
def statementsFrom (table : PrecedenceTable) (stop : Nat) (draft : Option Draft) :
    List Lexeme → List Statement
  | [] => finish stop draft
  | l :: ls => (step table draft l).2 ++ statementsFrom table stop (step table draft l).1 ls

/-- The statements of a source text, in order. -/
def statements (table : PrecedenceTable) (text : String) : List Statement :=
  statementsFrom table text.utf8ByteSize none (lexemes text)

-- ---------------------------------------------------------------------------
-- Unfinished texts
-- ---------------------------------------------------------------------------

/-- How a text stands after some of its tokens. -/
inductive Standing where
  | between
  | inside (state : ItemReader.State)
  | refused
deriving Repr

/-- The token `t` between items. -/
def Standing.enter (table : PrecedenceTable) (t : Token) : Standing :=
  if t = .char ';' then .between
  else match ItemReader.absorb? table .start t with
    | some state => .inside state
    | none => .refused

def Standing.step (table : PrecedenceTable) (t : Token) : Standing → Standing
  | .between => Standing.enter table t
  | .inside state =>
    match ItemReader.absorb? table state t with
    | some state => .inside state
    | none =>
      match ItemReader.conclude state (some t) with
      | .ok _ => Standing.enter table t
      | .error _ => .refused
  | .refused => .refused

/-- The text must go on. -/
def Standing.isUnfinished : Standing → Bool
  | .inside state => !(ItemReader.conclude state none).isOk
  | _ => false

/-- How a text stands after its tokens. -/
def standing (table : PrecedenceTable) (tokens : List Token) : Standing :=
  tokens.foldl (fun standing t => Standing.step table t standing) .between

/-- Whether a text stops in the middle of an item that more text could finish. -/
def isIncomplete (table : PrecedenceTable) (text : String) : Bool :=
  (standing table ((lexemes text).map (·.value))).isUnfinished

end Abacus.Program
