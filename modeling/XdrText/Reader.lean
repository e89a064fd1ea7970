import XdrText.Reader.Leaf
import XdrText.Schema.Initial

/-!
# XdrText — reading a document into a tree

A document is read into a tree that is already there: the tree is walked as it would be written,
each node takes the rows of its names, and what the document does not mention stays as it is.  Every
fault is reported and the walk goes on.

The walk is by recursion on the tree (`Reader.nodeWith`).  On the way new nodes appear: an optional
that becomes present, elements of a sequence that grows, the arm of a union whose tag changes.  They
are read in their turn by the same walk, and `Reader.node` counts how deeply new nodes may be nested
in one another.  A new node takes a row away, or else is an optional that was implied by a row below
its name.  So the count `Schema.nestingLimit` is enough unless optionals follow one another at one
name without end.
-/

namespace XdrText
open Text

/-- Whether a row says something about the node with a name: it has that name or one below it. -/
def Table.mentions (t : Table) (name : String) : Bool :=
  t.contains name || t.hasStart (name ++ ".") || t.hasStart (name ++ "[")

namespace Reader

/-- Whether an optional is present.  Its own row says so; if there is none, any row that mentions
the node does. -/
def presence (name : String) (depth : Nat) : Reading Bool := do
  let selector := Name.presence name depth
  match ← Reading.take selector with
  | .missing | .help => Reading.look fun t => Table.mentions t name
  | .text line value =>
    let token := String.ofList (firstToken value)
    if token = "true" then return true
    else if token = "false" then return false
    else
      Reading.report line (.misplaced (.presence selector token))
      return true

/-- The line of the length of a sequence, and how many elements it is to have.  A sequence without
a row for its length is empty. -/
def length (name : String) (max current : Nat) : Reading (Nat × Nat) := do
  let lengthName := Name.length name
  match ← Reading.take lengthName with
  | .missing => return (0, 0)
  | .help => return (0, current)
  | .text line value =>
    match Decimal.readUInt64 (firstToken value) with
    | .error f =>
      Reading.reject lengthName line (.number f)
      return (line, current)
    | .ok n =>
      match BoundedSize.set ⟨current, max⟩ n.toNat with
      | (size, none) => return (line, size.value)
      | (size, some n) =>
        Reading.report line (.tooLong lengthName n max)
        return (line, size.value)

/-- The tag of a union after reading, and whether it changed.  A new tag for which there is no arm
is refused. -/
def settleTag (u : ResolvedUnion) (tagName : String) (line : Nat) (old new : Value) :
    Reading (Value × Bool) :=
  if new = old then return (old, false)
  else if (new.discriminant?.bind u.arm?).isSome then return (new, true)
  else do
    Reading.report line (.misplaced (.noArm u.name tagName (new.discriminant?.getD 0)))
    return (old, false)

/-- How a node is read: by the number of optionals directly around it, its name, and what it is. -/
abbrev NodeReader := Nat → String → Value → Reading Value

section
variable (r : Reader) (new : NodeReader)

/-- A new node, read by `new` and put in its place by `place`.  A type that contains itself has no
initial value and the walk would not end: it gives up, and `old` stays. -/
def create (outer : Nat) (name : String) (ty : Ty) (line : Nat) (place : Option Value → Value)
    (old : Value) : Reading Value :=
  match r.schema.initial ty with
  | .ok v => (fun v => place (some v)) <$> new outer name v
  | .error .endlessType => Reading.giveUp old
  | .error f => do
    Reading.report line (.misplaced (.noInitial f))
    return place none

/-- New elements of a sequence, of which the first has index `i`. -/
def newItems (name : String) : (i : Nat) → List Value → Reading (List Value)
  | _, [] => return []
  | i, v :: vs => do
    let v ← new 0 (Name.index name i) v
    return v :: (← newItems name (i + 1) vs)

/-- As many new elements as a sequence lacks. -/
def grow (elem : Ty) (line lacking : Nat) : Reading (List Value) := do
  if lacking = 0 then return []
  else
    match r.schema.initial elem with
    | .ok v => return List.replicate lacking v
    | .error .endlessType => Reading.giveUp []
    | .error f => do
      Reading.report line (.misplaced (.noInitial f))
      return []

mutual

/-- Reads a node that is there; nodes that appear on the way are read by `new`. -/
def nodeWith (outer : Nat) (name : String) : Value → Reading Value
  | .leaf l => Value.leaf <$> r.leaf name l
  | .signature s => Value.signature <$> signature name s
  | .optional inner held => do
    if ← presence name (outer + 1) then
      let line ← Reading.lineOf name
      heldWith (outer + 1) name (.optional inner)
        (r.create new (outer + 1) name inner line (.optional inner) (.optional inner none)) held
    else return .optional inner none
  | .array items => do
    let items ← itemsWith name 0 items.length items
    return .array items
  | .seq elem max items => do
    let (line, n) ← length name max.toNat items.length
    let more ← r.grow elem line (n - items.length)
    let kept ← itemsWith name 0 n items
    let more ← newItems new name items.length more
    return .seq elem max (kept ++ more)
  | .struct ty fields => do
    let fields ← fieldsWith name fields
    return .struct ty fields
  | .union ty tag arm => do
    match r.schema.union? ty with
    | none => return .union ty tag arm
    | some u =>
      let tagName := Name.child name u.tag
      let line ← Reading.lineOf tagName
      let read ← nodeWith 0 tagName tag
      let (settled, changed) ← settleTag u tagName line tag read
      match settled.discriminant?.bind u.arm? with
      | none => return .union ty settled arm
      | some none => return .union ty settled none
      | some (some field) =>
        let fresh := r.create new 0 (u.armName name field) field.ty line (.union ty settled)
          (.union ty tag arm)
        if changed then fresh
        else heldWith 0 (u.armName name field) (.union ty settled) fresh arm

/-- Reads what a node holds and puts it in its place, or else does what `otherwise` does. -/
def heldWith (outer : Nat) (name : String) (place : Option Value → Value)
    (otherwise : Reading Value) : Option Value → Reading Value
  | none => otherwise
  | some v => (fun v => place (some v)) <$> nodeWith outer name v

/-- Reads the first `n` elements of a list, of which the first has index `i`, and drops the
others. -/
def itemsWith (name : String) (i : Nat) : (n : Nat) → List Value → Reading (List Value)
  | 0, _ | _, [] => return []
  | n + 1, v :: vs => do
    let v ← nodeWith 0 (Name.index name i) v
    let vs ← itemsWith name (i + 1) n vs
    return v :: vs

def fieldsWith (name : String) : List (String × Value) → Reading (List (String × Value))
  | [] => return []
  | (field, v) :: fs => do
    let v ← nodeWith 0 (Name.child name field) v
    let fs ← fieldsWith name fs
    return (field, v) :: fs

end

end

/-- Reads a node, with new nodes nested in one another at most `limit` times. -/
def node (r : Reader) : (limit : Nat) → NodeReader
  | 0 => r.nodeWith fun _ _ v => Reading.giveUp v
  | limit + 1 => r.nodeWith (r.node limit)

end Reader

/-! ### How deeply new nodes can be nested -/

/-- The number of optionals that a type spells out. -/
def Ty.optionals : Ty → Nat
  | .optional inner => inner.optionals + 1
  | .array elem _ | .seq elem _ => elem.optionals
  | _ => 0

/-- The number of optionals that the types of a schema spell out. -/
def Schema.optionals (s : Schema) : Nat :=
  s.fields.foldr (fun f n => f.ty.optionals + n) 0

mutual

/-- The number of optionals in a tree and in the types that its nodes keep. -/
def Value.optionals : Value → Nat
  | .leaf _ | .signature _ => 0
  | .optional inner none => inner.optionals + 1
  | .optional inner (some v) => inner.optionals + 1 + v.optionals
  | .array items => Value.itemOptionals items
  | .seq elem _ items => elem.optionals + Value.itemOptionals items
  | .struct _ fields => Value.fieldOptionals fields
  | .union _ tag none => tag.optionals
  | .union _ tag (some v) => tag.optionals + v.optionals

def Value.itemOptionals : List Value → Nat
  | [] => 0
  | v :: vs => v.optionals + Value.itemOptionals vs

def Value.fieldOptionals : List (String × Value) → Nat
  | [] => 0
  | (_, v) :: fs => v.optionals + Value.fieldOptionals fs

end

/-- A bound for new nodes nested in one another.  Between two that take a row, each is an optional
implied by a row below its name, so its name is no longer than that of the row; and at one name the
optionals are different ones of the schema or the tree. -/
def Schema.nestingLimit (s : Schema) (t : Table) (v : Value) : Nat :=
  let longest := t.names.foldr (fun name n => max name.length n) 0
  (t.size + 1) * (longest + 2) * (s.optionals + v.optionals + 1)

/-! ### Documents -/

/-- What reading a document comes to. -/
structure Decoded where
  value : Value
  faults : List LineFault
  /-- The names for which the document asked for help, in the order of the walk. -/
  asked : List String
  /-- The walk came to an end. -/
  complete : Bool

/-- Read a document into a tree under a name, with new nodes nested in one another at most `limit`
times.  Lines without a colon are reported first. -/
def Schema.readWithin (s : Schema) (limit : Nat) (native name doc : String) (v : Value) : Decoded :=
  let out := Reader.node ⟨s, native⟩ limit 0 name v (Document.table doc)
  { value := out.value
    faults := (Document.strayLines doc).map (⟨·, .missingColon⟩) ++ out.faults
    asked := out.asked
    complete := !out.overrun }

/-- Read a document into a tree under a name; the root of a document has the empty name. -/
def Schema.read (s : Schema) (native name doc : String) (v : Value) : Decoded :=
  s.readWithin (s.nestingLimit (Document.table doc) v) native name doc v

/-- Read a document given as bytes. -/
def Schema.readBytes (s : Schema) (native name : String) (doc : Bytes) (v : Value) : Decoded :=
  s.read native name (String.ofList (Utf8.decodeLossy doc)) v

end XdrText
