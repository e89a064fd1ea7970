import XdrText.Annotator
import XdrText.Form.Literal
import XdrText.Form.Octets
import XdrText.Form.Scaled
import XdrText.Schema
import XdrText.Value.BareSource

/-!
# XdrText — writing a tree

A tree is written as lines `name: text`, in the order of its nodes.  A node that cannot be shown
is a fault and does not stop its neighbours: what is written of a node is the lines and the faults
of its parts, one after the other, and then its own fault.
-/

namespace XdrText
open Key Form Text

/-- Why a node cannot be shown as it is. -/
inductive WriteFault where
  | tooLong (length max : Nat)
  /-- A sequence with more elements than its type allows, by the name of its length. -/
  | tooMany (lengthName : String) (size max : Nat)
  | unknownEnum (ty : String)
  | invalidSymbol (v : Int32) (ty : String)
  | unknownUnion (ty : String)
  /-- The tag of a union is no integer. -/
  | strangeTag (ty : String)
  | invalidTag (v : Int32) (ty : String)
  | missingArm (ty field : String)
  | heldVoid (ty : String)
  /-- A source account that is kept as a bare key has another length. -/
  | notKey (length : Nat)
  deriving DecidableEq, Repr

def WriteFault.message : WriteFault → String
  | .tooLong n max => "length " ++ Nat.repr n ++ " exceeds maximum size " ++ Nat.repr max
  | .tooMany name n max =>
    name ++ " (" ++ Nat.repr n ++ ") exceeds maximum size " ++ Nat.repr max ++ "."
  | .unknownEnum ty => "unknown enum " ++ ty
  | .invalidSymbol v ty => "invalid value " ++ Int.repr v.toInt ++ " for " ++ ty
  | .unknownUnion ty => "unknown union " ++ ty
  | .strangeTag ty => ty ++ " has a non-integer discriminant"
  | .invalidTag v ty => "invalid discriminant " ++ Int.repr v.toInt ++ " for " ++ ty
  | .missingArm ty field => ty ++ " is missing arm " ++ field
  | .heldVoid ty => "void arm of " ++ ty ++ " carries a value"
  | .notKey n => "expected 32 bytes, found " ++ Nat.repr n

/-- A fault of the node with a name. -/
structure BadField where
  name : String
  fault : WriteFault
  deriving DecidableEq, Repr

def BadField.message (b : BadField) : String :=
  b.name ++ ": " ++ b.fault.message

/-- A name and the text behind it. -/
structure Line where
  name : String
  text : String
  deriving DecidableEq, Repr

/-- A line of a document, with its line feed. -/
def Line.render (l : Line) : String :=
  l.name ++ ": " ++ l.text ++ "\n"

/-- The lines and the faults of a part of a tree. -/
@[ext] structure Written where
  lines : List Line
  faults : List BadField
  deriving DecidableEq, Repr

namespace Written

def empty : Written := ⟨[], []⟩

instance : Append Written :=
  ⟨fun a b => ⟨a.lines ++ b.lines, a.faults ++ b.faults⟩⟩

/-- A single line. -/
def line (name text : String) : Written :=
  ⟨[⟨name, text⟩], []⟩

/-- A single fault. -/
def fault (name : String) (f : WriteFault) : Written :=
  ⟨[], [⟨name, f⟩]⟩

/-- A fault of a node, if it has one. -/
def faultOf (name : String) : Option WriteFault → Written
  | none => empty
  | some f => fault name f

/-- A line with a note in parentheses behind its text. -/
def noted (name text note : String) : Written :=
  line name (if note = "" then text else text ++ " (" ++ note ++ ")")

/-- The document that the lines make. -/
def text (w : Written) : String :=
  String.join (w.lines.map Line.render)

@[simp] theorem lines_empty : empty.lines = [] := rfl

@[simp] theorem faults_empty : empty.faults = [] := rfl

@[simp] theorem lines_append (a b : Written) : (a ++ b).lines = a.lines ++ b.lines := rfl

@[simp] theorem faults_append (a b : Written) : (a ++ b).faults = a.faults ++ b.faults := rfl

@[simp] theorem lines_line (name text : String) : (line name text).lines = [⟨name, text⟩] := rfl

@[simp] theorem faults_line (name text : String) : (line name text).faults = [] := rfl

@[simp] theorem faults_noted (name text note : String) : (noted name text note).faults = [] := rfl

@[simp] theorem lines_faultOf (name : String) (f : Option WriteFault) :
    (faultOf name f).lines = [] := by
  cases f <;> rfl

@[simp] theorem faults_faultOf_none (name : String) : (faultOf name none).faults = [] := rfl

end Written

/-- The fault of data that is longer than its type allows. -/
def lengthFault? (length max : Nat) : Option WriteFault :=
  if max < length then some (.tooLong length max) else none

/-- The fault of a sequence that has more elements than its type allows. -/
def countFault? (name : String) (size max : Nat) : Option WriteFault :=
  if max < size then some (.tooMany (Name.length name) size max) else none

/-- What stays the same while a tree is written. -/
structure Writer where
  schema : Schema
  annotator : Annotator
  /-- The whole tree. -/
  root : Value

namespace Writer

/-- An account with the note behind it. -/
def account (w : Writer) (name : String) (a : Account) : Written :=
  .noted name (String.ofList a.text) (w.annotator.account a)

/-- An enum is its symbol, with all symbols behind it where help was asked for. -/
def enum (w : Writer) (name ty : String) (v : Int32) : Written :=
  match w.schema.enum? ty with
  | none => .fault name (.unknownEnum ty)
  | some e =>
    match e.symbol? v with
    | none => .fault name (.invalidSymbol v ty)
    | some symbol =>
      .line name
        (if w.annotator.wantsHelp name then
          symbol ++ " (" ++ ", ".intercalate e.symbolsByValue ++ ")"
        else symbol)

/-- A leaf under its own name. -/
def plainLeaf (w : Writer) (name : String) : Leaf → Written
  | .bool b => .line name (if b then "true" else "false")
  | .int v => .line name (Int.repr v.toInt)
  | .uint v => .line name (Nat.repr v.toNat)
  | .hyper v => .line name (Int.repr v.toInt)
  | .uhyper v => .line name (Nat.repr v.toNat)
  | .string data max =>
    .line name (String.ofList (Literal.render data)) ++
      .faultOf name (lengthFault? data.length max.toNat)
  | .amount v =>
    .noted name (Int.repr v.toInt) (String.ofList (Scaled.render 7 v.toInt))
  | .time t => .line name (Nat.repr t.toNat ++ String.ofList (Date.comment t w.annotator.zone))
  | .enum ty v => w.enum name ty v
  | .fixed data => .line name (String.ofList (Hex.encode data))
  | .code data => .line name (String.ofList (Code.render data))
  | .bytes data max =>
    .line name (String.ofList (Octets.render data)) ++
      .faultOf name (lengthFault? data.length max.toNat)
  | .account a => w.account name a
  | .signer s => .noted name (String.ofList s.text) (w.annotator.signer s)
  | .asset .native => .line name w.annotator.native
  | .asset a => .line name (String.ofList a.text)

/-- A bare source key is written as an account under the short name. -/
def leaf (w : Writer) (name : String) (l : Leaf) : Written :=
  match l.bareSource? name with
  | none => w.plainLeaf name l
  | some (short, data) =>
    match Block.ofBytes? 32 data with
    | some key => w.account short (.ed25519 key)
    | none => .fault name (.notKey data.length)

/-- A signature has a line for its hint and one for its body. -/
def signature (w : Writer) (name : String) (s : Signature) : Written :=
  .noted (Name.child name "hint") (String.ofList (Hex.encode s.hint.bytes))
      (w.annotator.signature w.root s) ++
    .line (Name.child name "signature") (String.ofList (Octets.render s.body)) ++
    .faultOf name (lengthFault? s.body.length Signature.maximum)

mutual

/-- The lines of the node with a name; `outer` counts the optionals directly around it. -/
def node (w : Writer) (outer : Nat) (name : String) : Value → Written
  | .leaf l => w.leaf name l
  | .signature s => w.signature name s
  | .optional _ none => .line (Name.presence name (outer + 1)) "false"
  | .optional _ (some v) =>
    .line (Name.presence name (outer + 1)) "true" ++ w.node (outer + 1) name v
  | .array items => w.items name 0 items
  | .seq _ max items =>
    .line (Name.length name) (Nat.repr items.length) ++ w.items name 0 items ++
      .faultOf name
        (countFault? name items.length max.toNat)
  | .struct _ fields => w.fields name fields
  | .union ty tag arm =>
    match w.schema.union? ty with
    | none => .fault name (.unknownUnion ty)
    | some u =>
      match tag.discriminant? with
      | none => .fault name (.strangeTag ty)
      | some d =>
        match u.arm? d with
        | none => .fault name (.invalidTag d ty)
        | some field =>
          w.node 0 (Name.child name u.tag) tag ++
            match field, arm with
            | some f, some v => w.node 0 (u.armName name f) v
            | none, none => .empty
            | some f, none => .fault name (.missingArm ty f.name)
            | none, some _ => .fault name (.heldVoid ty)

/-- The elements of an array or a sequence, of which the first has index `i`. -/
def items (w : Writer) (name : String) (i : Nat) : List Value → Written
  | [] => .empty
  | v :: vs => w.node 0 (Name.index name i) v ++ w.items name (i + 1) vs

/-- The fields of a struct, one after another. -/
def fields (w : Writer) (name : String) : List (String × Value) → Written
  | [] => .empty
  | (field, v) :: fs => w.node 0 (Name.child name field) v ++ w.fields name fs

end

end Writer

/-- A tree under a name; the root of a document has the empty name. -/
def Schema.write (s : Schema) (a : Annotator) (name : String) (v : Value) : Written :=
  Writer.node ⟨s, a, v⟩ 0 name v

end XdrText
