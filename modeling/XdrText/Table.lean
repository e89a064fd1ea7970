import XdrText.NameMap
import XdrText.Text.Blank

/-!
# XdrText — the table of a document

A document is a list of lines, each with the name of a field before its first colon and its value
after it.  Blank lines are skipped and a line without a colon is a fault.  The table maps each name
to the last line that carries it.
-/

namespace XdrText
open Text

structure Row where
  line : Nat
  text : String
  deriving DecidableEq, Repr

abbrev Table := NameMap Row

namespace Document

/-- A line may end in a carriage return, which is no part of it. -/
def dropReturn (line : List Char) : List Char :=
  if line.getLast? = some '\r' then line.dropLast else line

/-- The lines of a document, counted from 1. -/
def numberedLines (doc : String) : List (List Char × Nat) :=
  ((doc.toList.splitOn '\n').map dropReturn).zipIdx 1

/-- The trimmed name and the value of a line with a colon. -/
def splitLine? (line : List Char) : Option (String × String) :=
  match line.dropWhile (· ≠ ':') with
  | [] => none
  | _ :: value => some (String.ofList (trim (line.takeWhile (· ≠ ':'))), String.ofList value)

/-- The lines that are not blank. -/
def writtenLines (doc : String) : List (List Char × Nat) :=
  (numberedLines doc).filter fun l => !l.1.all isBlank

/-- The rows of a document in the order of its lines. -/
def rows (doc : String) : List (String × Row) :=
  (writtenLines doc).filterMap fun l =>
    (splitLine? l.1).map fun (name, text) => (name, ⟨l.2, text⟩)

/-- The lines without a colon. -/
def strayLines (doc : String) : List Nat :=
  ((writtenLines doc).filter fun l => (splitLine? l.1).isNone).map Prod.snd

def table (doc : String) : Table :=
  (rows doc).foldl (fun t r => t.insert r.1 r.2) .empty

end Document

end XdrText
