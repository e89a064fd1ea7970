import XdrText.Reader.Fault
import XdrText.Table

/-!
# XdrText — steps of reading

Reading takes rows out of the table of a document.  A step of reading has a value, leaves the rows
that it did not take, and says which faults it found and for which names the document asked for
help.  Steps follow one another: the next one reads the rows that are left, and faults and requests
stand in the order in which they were found.
-/

namespace XdrText
open Text

/-- What a step of reading comes to. -/
@[ext] structure Outcome (α : Type) where
  value : α
  rest : Table
  faults : List LineFault
  asked : List String
  /-- The step gave up: new nodes were nested too deeply, or a type contains itself. -/
  overrun : Bool

/-- A step of reading. -/
def Reading (α : Type) : Type :=
  Table → Outcome α

namespace Reading
variable {α β : Type}

/-- A step that takes nothing. -/
protected def pure (a : α) : Reading α :=
  fun t => ⟨a, t, [], [], false⟩

protected def bind (x : Reading α) (f : α → Reading β) : Reading β :=
  fun t =>
    let a := x t
    let b := f a.value a.rest
    ⟨b.value, b.rest, a.faults ++ b.faults, a.asked ++ b.asked, a.overrun || b.overrun⟩

instance : Monad Reading where
  pure := Reading.pure
  bind := Reading.bind

instance : LawfulMonad Reading :=
  LawfulMonad.mk' Reading
    (fun x => by funext t; simp [Functor.map, Reading.bind, Reading.pure])
    (fun a f => by funext t; simp [bind, pure, Reading.bind, Reading.pure])
    (fun x f g => by
      funext t; simp [bind, Reading.bind, List.append_assoc, Bool.or_assoc])

/-- A fault of a line. -/
def report (line : Nat) (cause : Cause) : Reading Unit :=
  fun t => ⟨(), t, [⟨line, cause⟩], [], false⟩

/-- A request for help with a name. -/
def ask (name : String) : Reading Unit :=
  fun t => ⟨(), t, [], [name], false⟩

/-- A value that cannot be read asks for help, too. -/
def reject (name : String) (line : Nat) (fault : ParseFault) : Reading Unit := do
  ask name
  report line (.malformed fault)

/-- Gives up on a node and leaves it as it is. -/
def giveUp (a : α) : Reading α :=
  fun t => ⟨a, t, [], [], true⟩

/-- What the table says under a name. -/
def look (f : Table → α) : Reading α :=
  fun t => ⟨f t, t, [], [], false⟩

/-- Take the row of a name away without reading it. -/
def discard (name : String) : Reading Unit :=
  fun t => ⟨(), t.erase name, [], [], false⟩

end Reading

/-- What a document says under a name. -/
inductive Entry where
  | missing
  /-- The value is a `?` and nothing else. -/
  | help
  | text (line : Nat) (value : List Char)
  deriving DecidableEq, Repr

/-- The value of a row without blanks and one `?` at its end, and whether the `?` was there. -/
def Row.entry (r : Row) : Entry × Bool :=
  match r.text.toList.reverse.dropWhile isBlank with
  | '?' :: cs => if cs.all isBlank then (.help, true) else (.text r.line cs.reverse, true)
  | cs => (.text r.line cs.reverse, false)

namespace Reading
variable {α : Type}

/-- Take the row of a name; a `?` at its end asks for help. -/
def take (name : String) : Reading Entry :=
  fun t =>
    match t.get? name with
    | none => ⟨.missing, t, [], [], false⟩
    | some row => ⟨row.entry.1, t.erase name, [], if row.entry.2 then [name] else [], false⟩

/-- Take the row of a name and parse its value; nothing when there is no value or it cannot be
parsed. -/
def takeParsed (name : String) (parse : List Char → Except ParseFault α) :
    Reading (Option (Nat × α)) := do
  match ← take name with
  | .missing | .help => return none
  | .text line value =>
    match parse value with
    | .ok a => return some (line, a)
    | .error fault =>
      reject name line fault
      return none

/-- The line of the row of a name, and 0 when there is none. -/
def lineOf (name : String) : Reading Nat :=
  look fun t => ((t.get? name).map Row.line).getD 0

/-- Data cut down to `max` bytes. -/
def bounded (name : String) (line : Nat) (data : Bytes) (max : Nat) : Reading Bytes := do
  if max < data.length then
    report line (.tooLong name data.length max)
  return data.take max

end Reading

end XdrText
