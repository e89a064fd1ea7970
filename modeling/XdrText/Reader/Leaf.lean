import XdrText.Annotator
import XdrText.Reader.Reading
import XdrText.Value.BareSource

/-!
# XdrText — reading leaves

A leaf is read from the row of its name.  A row that is missing, that only asks for help or that
cannot be read leaves the leaf as it is.
-/

namespace XdrText
open Text Form Key

/-- What stays the same while a tree is read. -/
structure Reader where
  schema : Schema
  /-- The text of the native asset. -/
  native : String

namespace Reader

def parseBool (s : List Char) : Except ParseFault Bool :=
  let token := firstToken s
  if token = "true".toList then .ok true
  else if token = "false".toList then .ok false
  else .error (.bool (String.ofList token))

/-- A symbol of the enum, or else the number of one. -/
def parseEnum (e : EnumDecl) (s : List Char) : Except ParseFault Int32 :=
  let token := firstToken s
  match e.value? (String.ofList token), Decimal.readInt32 token with
  | some v, _ => .ok v
  | none, .ok v =>
    if (e.symbol? v).isSome then .ok v else .error (.enum e.name (String.ofList token))
  | none, .error _ => .error (.enum e.name (String.ofList token))

def parseAsset (native : String) (s : List Char) : Except ParseFault Asset :=
  let token := firstToken s
  if token = native.toList then .ok .native else (Asset.parse token).mapError .key

/-- The hint of a signature. -/
def parseHint (s : List Char) : Except ParseFault (Block 4) :=
  match Octets.scanFixed 4 s with
  | .error f => .error (.octets f)
  | .ok b =>
    match Block.ofBytes? 4 b with
    | some hint => .ok hint
    | none => .error .misfit

/-- A number in the first token. -/
def parseNumber {α : Type} (read : List Char → Except Decimal.Fault α) (s : List Char) :
    Except ParseFault α :=
  (read (firstToken s)).mapError .number

/-- How the value of a leaf is read; an enum that the schema does not declare is not. -/
def leafParser? (r : Reader) : Leaf → Option (List Char → Except ParseFault Leaf)
  | .bool _ => some fun s => .bool <$> parseBool s
  | .int _ => some fun s => .int <$> parseNumber Decimal.readInt32 s
  | .uint _ => some fun s => .uint <$> parseNumber Decimal.readUInt32 s
  | .hyper _ => some fun s => .hyper <$> parseNumber Decimal.readInt64 s
  | .uhyper _ => some fun s => .uhyper <$> parseNumber Decimal.readUInt64 s
  | .string _ max => some fun s => (.string · max) <$> (Literal.scan s).mapError .literal
  | .amount _ => some fun s => .amount <$> parseNumber Decimal.readInt64 s
  | .time _ => some fun s => .time <$> parseNumber Decimal.readUInt64 s
  | .enum ty _ => (r.schema.enum? ty).map fun e s => .enum ty <$> parseEnum e s
  | .fixed data => some fun s => .fixed <$> (Octets.scanFixed data.length s).mapError .octets
  | .code data => some fun s => .code <$> (Code.scan data.length s).mapError .code
  | .bytes _ max => some fun s => (.bytes · max) <$> (Octets.scan s).mapError .octets
  | .account _ => some fun s => .account <$> (Account.parse (firstToken s)).mapError .key
  | .signer _ => some fun s => .signer <$> (Signer.parse (firstToken s)).mapError .key
  | .asset _ => some fun s => .asset <$> parseAsset r.native s

/-- A leaf with its data cut down to what its type allows. -/
def boundedLeaf (name : String) (line : Nat) : Leaf → Reading Leaf
  | .string data max => (.string · max) <$> Reading.bounded name line data max.toNat
  | .bytes data max => (.bytes · max) <$> Reading.bounded name line data max.toNat
  | l => pure l

/-- A leaf from the row of its own name. -/
def plainLeaf (r : Reader) (name : String) (l : Leaf) : Reading Leaf :=
  match r.leafParser? l with
  | none => pure l
  | some parse => do
    match ← Reading.takeParsed name parse with
    | none => return l
    | some (line, l) => boundedLeaf name line l

/-- A bare source key from an account under the short name, if there is a row of that name; the row
of the long name is then not read. -/
def bareSource (r : Reader) (name short : String) (l : Leaf) : Reading Leaf := do
  match ← Reading.take short with
  | .missing => r.plainLeaf name l
  | .help =>
    Reading.discard name
    return l
  | .text line value =>
    match Account.parse (firstToken value) with
    | .ok (.ed25519 key) =>
      Reading.discard name
      return .fixed key.bytes
    | .ok (.muxed ..) =>
      Reading.report line (.misplaced .muxedSource)
      Reading.discard name
      return l
    | .error f =>
      Reading.reject short line (.key f)
      Reading.discard name
      return l

def leaf (r : Reader) (name : String) (l : Leaf) : Reading Leaf :=
  match l.bareSource? name with
  | none => r.plainLeaf name l
  | some (short, _) => r.bareSource name short l

/-- The hint and the body of a signature have a row each. -/
def signature (name : String) (s : Signature) : Reading Signature := do
  let hint ← Reading.takeParsed (Name.child name "hint") parseHint
  let bodyName := Name.child name "signature"
  match ← Reading.takeParsed bodyName fun s => (Octets.scan s).mapError .octets with
  | none => return ⟨(hint.map Prod.snd).getD s.hint, s.body⟩
  | some (line, body) =>
    return ⟨(hint.map Prod.snd).getD s.hint,
      ← Reading.bounded bodyName line body Signature.maximum⟩

end Reader

end XdrText
