import XdrText.Schema

/-!
# XdrText — initial values

Every type has an initial value: zero, empty or absent, the first symbol of an enum, and the first
arm of a union by the value of its tag.  The initial value of a type is put together from those of
the types inside it (`Schema.fill`); types that are entered by name are unfolded to a bounded depth,
which is enough for every type that does not contain itself.
-/

namespace XdrText

/-- The tag of a union with a value. -/
def TagType.leaf : TagType → Int32 → Leaf
  | .int, v => .int v
  | .enum name, v => .enum name v

namespace Schema

/-- The values of the symbols of a union's tag that have an arm. -/
def armedSymbols (s : Schema) (u : ResolvedUnion) : List Int32 :=
  match u.tagType with
  | .int => []
  | .enum name =>
    match s.enum? name with
    | none => []
    | some e => (e.symbols.map Prod.snd).filter u.hasArm

/-- The tag that a new union has: the least symbol of its enum that has an arm, or else the least
value listed by a case. -/
def initialTag (s : Schema) (u : ResolvedUnion) : Int32 :=
  ((s.armedSymbols u).min? <|> (u.caseArms.map Prod.fst).min?).getD 0

/-- A union with the given tag, and what `inside` gives for the type of its arm. -/
def fillUnion (inside : Ty → Except SchemaFault Value) (u : ResolvedUnion) (v : Int32) :
    Except SchemaFault Value :=
  let tag := .leaf (u.tagType.leaf v)
  match u.arm? v with
  | some (some field) => (fun arm => .union u.name tag (some arm)) <$> inside field.ty
  | _ => .ok (.union u.name tag none)

/-- The initial value of a type, in which fields and arms have what `inside` gives. -/
def fill (s : Schema) (inside : Ty → Except SchemaFault Value) : Ty → Except SchemaFault Value
  | .bool => .ok (.leaf (.bool false))
  | .int => .ok (.leaf (.int 0))
  | .uint => .ok (.leaf (.uint 0))
  | .hyper => .ok (.leaf (.hyper 0))
  | .uhyper => .ok (.leaf (.uhyper 0))
  | .string max => .ok (.leaf (.string [] max))
  | .amount => .ok (.leaf (.amount 0))
  | .time => .ok (.leaf (.time 0))
  | .enum name =>
    match s.enum? name with
    | none => .error (.unknownEnum name)
    | some e => .ok (.leaf (.enum name ((e.symbols.head?.map Prod.snd).getD 0)))
  | .fixed n => .ok (.leaf (.fixed (List.replicate n 0)))
  | .code n => .ok (.leaf (.code (List.replicate n 0)))
  | .bytes max => .ok (.leaf (.bytes [] max))
  | .optional inner => .ok (.optional inner none)
  | .array _ 0 => .ok (.array [])
  | .array elem (n + 1) => (fun v => .array (List.replicate (n + 1) v)) <$> s.fill inside elem
  | .seq elem max => .ok (.seq elem max [])
  | .struct name =>
    match s.struct? name with
    | none => .error (.unknownStruct name)
    | some d => Value.struct name <$> d.fields.mapM fun f => (f.name, ·) <$> inside f.ty
  | .union name =>
    match s.union? name with
    | none => .error (.unknownUnion name)
    | some u => fillUnion inside u (s.initialTag u)
  | .account => .ok (.leaf (.account .zero))
  | .signer => .ok (.leaf (.signer .zero))
  | .signature => .ok (.signature .zero)
  | .asset => .ok (.leaf (.asset .native))

/-- The initial value of a type, with types entered by name unfolded to the given depth. -/
def initialTo (s : Schema) : (depth : Nat) → Ty → Except SchemaFault Value
  | 0, _ => .error .endlessType
  | depth + 1, ty => s.fill (s.initialTo depth) ty

/-- One more than the number of types that can be entered one inside another without repeating. -/
def depth (s : Schema) : Nat :=
  s.structs.length + s.unions.length + 1

def initial (s : Schema) (ty : Ty) : Except SchemaFault Value :=
  s.initialTo s.depth ty

/-- The union of that name with the given tag and a new arm. -/
def unionWith (s : Schema) (name : String) (v : Int32) : Except SchemaFault Value :=
  match s.union? name with
  | none => .error (.unknownUnion name)
  | some u => fillUnion s.initial u v

end Schema

end XdrText
