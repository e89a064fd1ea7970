import XdrText.Form.Literal
import XdrText.Form.Octets
import XdrText.Key.Fault
import XdrText.Schema

/-!
# XdrText — what is wrong with a line

A fault belongs to a line of a document.  Lines without a colon and values without meaning are
faults of the text; a count beyond its bound and a value that is out of place are well-formed.
-/

namespace XdrText
open Text Form

/-- A value that cannot be read. -/
inductive ParseFault where
  | number (fault : Decimal.Fault)
  | bool (token : String)
  | enum (ty token : String)
  | octets (fault : Octets.Fault)
  | literal (fault : Literal.Fault)
  | code (fault : Code.Fault)
  | key (fault : Key.Fault)
  /-- Bytes that do not fill their block: lengths are checked first, so it never arises. -/
  | misfit
  deriving DecidableEq, Repr

def ParseFault.message : ParseFault → String
  | .number f => f.message
  | .bool token => "expected true or false, found " ++ Quoted.text token
  | .enum ty token => "unknown " ++ ty ++ " value " ++ Quoted.text token
  | .octets f => f.message
  | .literal f => f.message
  | .code f => f.message
  | .key f => f.message
  | .misfit => "bytes do not fill their block"

/-- A value that can be read and is not allowed where it stands. -/
inductive Misplacement where
  /-- The presence of an optional is neither true nor false. -/
  | presence (name token : String)
  /-- A tag for which the union has no arm. -/
  | noArm (ty tagName : String) (v : Int32)
  /-- A multiplexed account where a bare key is kept. -/
  | muxedSource
  /-- A new node whose type has no initial value. -/
  | noInitial (fault : SchemaFault)
  deriving DecidableEq, Repr

def Misplacement.message : Misplacement → String
  | .presence name token => name ++ " (" ++ token ++ ") must be true or false"
  | .noArm ty tagName v => ty ++ " has no arm for " ++ tagName ++ " " ++ Int.repr v.toInt
  | .muxedSource => "sourceAccount must be type Ed25519 for V0 transaction"
  | .noInitial f => f.message

/-- What is wrong with a line. -/
inductive Cause where
  | missingColon
  | malformed (fault : ParseFault)
  /-- A count beyond the bound; it was cut down to it. -/
  | tooLong (name : String) (size max : Nat)
  | misplaced (fault : Misplacement)
  deriving DecidableEq, Repr

def Cause.message : Cause → String
  | .missingColon => "syntax error"
  | .malformed f => f.message
  | .tooLong name size max =>
    name ++ " (" ++ Nat.repr size ++ ") exceeds maximum size " ++ Nat.repr max ++ "."
  | .misplaced f => f.message

/-- A fault of a line; lines are counted from 1, and 0 stands for no line. -/
structure LineFault where
  line : Nat
  cause : Cause
  deriving DecidableEq, Repr

namespace LineFault

def message (f : LineFault) : String :=
  Nat.repr f.line ++ ": " ++ f.cause.message

/-- A line for each fault, with the same text in front of all. -/
def report (front : String) (faults : List LineFault) : String :=
  String.join (faults.map fun f => front ++ f.message ++ "\n")

/-- The report on a document with a name: `name:line: message`. -/
def reportOn (source : String) (faults : List LineFault) : String :=
  report (source ++ ":") faults

/-- The first line of the document that has a fault. -/
def firstLine? (faults : List LineFault) : Option Nat :=
  (faults.map LineFault.line).min?

end LineFault

end XdrText
