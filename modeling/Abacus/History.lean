-- SUMMARY: The entries an interactive reader remembers, and their file.
import Abacus.Text.Lines

/-!
# History

A history keeps the last hundred entries. Empty entries and repetitions of the
entry before are not kept. In its file each entry is a line, with backslashes and
line feeds escaped, after a line that names the format; entries of files without
that line are taken as they stand.
-/

namespace Abacus

structure History where
  /-- Entries, oldest first. -/
  entries : List String := []
  /-- Whether an entry was added since the file was read. -/
  changed : Bool := false
deriving DecidableEq, Repr

namespace History

def limit : Nat := 100

/-- Adds an entry, and forgets the oldest one when there are too many. -/
def add (history : History) (entry : String) : History :=
  if entry.isEmpty || history.entries.getLast? == some entry then history
  else
    let entries := if history.entries.length = limit then history.entries.tail else history.entries
    { entries := entries ++ [entry], changed := true }

/-- The line that names the format of the file. -/
def formatLine : String := "#V2"

def escape (c : Char) : List Char :=
  if c = '\\' then ['\\', '\\'] else if c = '\n' then ['\\', 'n'] else [c]

/-- Undoes `escape`. Nothing is undone where a backslash escapes anything else. -/
def unescape? : List Char → Option (List Char)
  | [] => some []
  | '\\' :: 'n' :: cs => (unescape? cs).map ('\n' :: ·)
  | '\\' :: '\\' :: cs => (unescape? cs).map ('\\' :: ·)
  | '\\' :: _ => none
  | c :: cs => (unescape? cs).map (c :: ·)

/-- The content of the file, with every entry on a line. -/
def fileText (history : History) : String :=
  formatLine ++ "\n"
    ++ String.join (history.entries.map fun e => String.ofList (e.toList.flatMap escape) ++ "\n")

/-- The entry on a line of the file. -/
def entryOf (line : String) : String :=
  match unescape? line.toList with
  | some cs => String.ofList cs
  | none => line

/-- The entries on the lines of a file. -/
def fileEntries : List String → List String
  | [] => []
  | first :: rest =>
    let rest := rest.filter fun line => !line.isEmpty
    if first = formatLine then rest.map entryOf else first :: rest

/-- The history in a file. -/
def ofFile (text : String) : History :=
  { (fileEntries (Text.lines text)).foldl add {} with changed := false }

/-- What to write to the file, if anything. -/
def toFile? (history : History) : Option String :=
  if history.changed then some history.fileText else none

end History

end Abacus
