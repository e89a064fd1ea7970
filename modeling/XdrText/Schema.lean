import XdrText.Name
import XdrText.Value

/-!
# XdrText — schemas

Definitions declare enums, structs and unions.  A schema is what definitions resolve to when they
are sound: the names of types are distinct, every type named is declared, and the cases of each
union stand for different values.  `Definitions.resolve` finds the first fault in the order of the
declarations: names first, then structs, then unions.
-/

namespace XdrText

/-- A member of a struct, or what an arm of a union holds. -/
structure Field where
  name : String
  ty : Ty
  deriving DecidableEq, Repr

/-- Symbols in the order of their declaration. -/
structure EnumDecl where
  name : String
  symbols : List (String × Int32)
  deriving DecidableEq, Repr

structure StructDecl where
  name : String
  fields : List Field
  deriving DecidableEq, Repr

/-- What the tag of a union is. -/
inductive TagType where
  | int
  | enum (name : String)
  deriving DecidableEq, Repr

/-- A case of a union arm: a symbol of the tag's enum, or a number. -/
inductive CaseLabel where
  | symbol (symbol : String)
  | value (v : Int32)
  deriving DecidableEq, Repr

/-- A void arm has no field. -/
structure Arm where
  cases : List CaseLabel
  field : Option Field
  deriving DecidableEq, Repr

/-- A union, its tag and its arms. -/
structure UnionDecl where
  name : String
  /-- The name of the tag. -/
  tag : String
  tagType : TagType
  arms : List Arm
  /-- The arm for values that no case lists, if there is one. -/
  otherwise : Option (Option Field)
  /-- The arm goes by the name of the union itself. -/
  inline : Bool
  deriving DecidableEq, Repr

/-- The fields that a union can hold. -/
def UnionDecl.fields (u : UnionDecl) : List Field :=
  u.arms.filterMap Arm.field ++ u.otherwise.join.toList

/-- All types that are declared. -/
structure Definitions where
  enums : List EnumDecl
  structs : List StructDecl
  unions : List UnionDecl

/-- Why definitions do not resolve, or a type has no value to begin with. -/
inductive SchemaFault where
  | duplicateType (name : String)
  | duplicateField (container field : String)
  | unknownEnum (name : String)
  | unknownStruct (name : String)
  | unknownUnion (name : String)
  | unknownCase (union symbol : String)
  | duplicateCase (union : String) (value : Int32)
  | emptyUnion (name : String)
  /-- A type that contains itself has no finite value to begin with. -/
  | endlessType
  deriving DecidableEq, Repr

def SchemaFault.message : SchemaFault → String
  | .duplicateType name => "Duplicate type name: " ++ name
  | .duplicateField container field => "Duplicate field " ++ field ++ " in " ++ container
  | .unknownEnum name => "Unknown enum: " ++ name
  | .unknownStruct name => "Unknown struct: " ++ name
  | .unknownUnion name => "Unknown union: " ++ name
  | .unknownCase union symbol => "Union " ++ union ++ ": unknown case symbol " ++ symbol
  | .duplicateCase union v => "Union " ++ union ++ ": duplicate case " ++ Int.repr v.toInt
  | .emptyUnion name => "Union " ++ name ++ " has no arm to default to"
  | .endlessType => "Type contains itself"

namespace EnumDecl

/-- The symbol of a value, the first if there are several. -/
def symbol? (e : EnumDecl) (v : Int32) : Option String :=
  (e.symbols.find? fun s => s.2 = v).map Prod.fst

/-- The value of a symbol. -/
def value? (e : EnumDecl) (symbol : String) : Option Int32 :=
  (e.symbols.find? fun s => s.1 = symbol).map Prod.snd

/-- The symbols in ascending order of their values. -/
def symbolsByValue (e : EnumDecl) : List String :=
  (e.symbols.mergeSort fun a b => a.2 ≤ b.2).map Prod.fst

end EnumDecl

/-- A union whose cases are resolved to values. -/
structure ResolvedUnion extends UnionDecl where
  /-- Each value listed by a case, with the index of its arm. -/
  caseArms : List (Int32 × Nat)

namespace ResolvedUnion

/-- The arm for a tag: nothing when the tag has no arm, and no field when the arm is void. -/
def arm? (u : ResolvedUnion) (v : Int32) : Option (Option Field) :=
  match u.caseArms.lookup v with
  | some i => u.arms[i]?.map Arm.field
  | none => u.otherwise

def hasArm (u : ResolvedUnion) (v : Int32) : Bool :=
  (u.arm? v).isSome

/-- The name of the node in an arm of the union named `name`. -/
def armName (u : ResolvedUnion) (name : String) (field : Field) : String :=
  if u.inline then name else Name.child name field.name

end ResolvedUnion

/-- Sound definitions, in which types are looked up by name. -/
structure Schema where
  enums : List EnumDecl
  structs : List StructDecl
  unions : List ResolvedUnion

namespace Schema

/-- The fields of all structs and all that unions can hold. -/
def fields (s : Schema) : List Field :=
  s.structs.flatMap StructDecl.fields ++ s.unions.flatMap fun u => u.toUnionDecl.fields

def enum? (s : Schema) (name : String) : Option EnumDecl :=
  s.enums.find? fun d => d.name = name

def struct? (s : Schema) (name : String) : Option StructDecl :=
  s.structs.find? fun d => d.name = name

def union? (s : Schema) (name : String) : Option ResolvedUnion :=
  s.unions.find? fun u => u.name = name

end Schema

namespace Definitions

/-- The first text that stands in a list a second time, or is one of `seen`. -/
def firstRepeated? (seen : List String) : List String → Option String
  | [] => none
  | x :: xs => if x ∈ seen then some x else firstRepeated? (x :: seen) xs

/-- The names of all types in the order of their declaration. -/
def typeNames (d : Definitions) : List String :=
  d.enums.map EnumDecl.name ++ d.structs.map StructDecl.name ++ d.unions.map UnionDecl.name

/-- The types that a type names are declared. -/
def checkTy (d : Definitions) : Ty → Except SchemaFault Unit
  | .enum name =>
    if name ∈ d.enums.map EnumDecl.name then .ok () else .error (.unknownEnum name)
  | .struct name =>
    if name ∈ d.structs.map StructDecl.name then .ok () else .error (.unknownStruct name)
  | .union name =>
    if name ∈ d.unions.map UnionDecl.name then .ok () else .error (.unknownUnion name)
  | .optional inner => d.checkTy inner
  | .array elem _ | .seq elem _ => d.checkTy elem
  | _ => .ok ()

/-- The fields of a struct have distinct names, none of `seen`, and declared types. -/
def checkFields (d : Definitions) (container : String) (seen : List String) :
    List Field → Except SchemaFault Unit
  | [] => .ok ()
  | f :: fs =>
    if f.name ∈ seen then .error (.duplicateField container f.name)
    else do
      d.checkTy f.ty
      d.checkFields container (f.name :: seen) fs

/-- A void arm needs no type. -/
def checkArm (d : Definitions) : Option Field → Except SchemaFault Unit
  | none => .ok ()
  | some f => d.checkTy f.ty

/-- The enum of a union's tag, if the tag is an enum. -/
def tagEnum (d : Definitions) : TagType → Except SchemaFault (Option EnumDecl)
  | .int => .ok none
  | .enum name =>
    match d.enums.find? fun e => e.name = name with
    | some e => .ok (some e)
    | none => .error (.unknownEnum name)

/-- The value that a case stands for. -/
def caseValue (union : String) (symbols : Option EnumDecl) : CaseLabel → Except SchemaFault Int32
  | .value v => .ok v
  | .symbol s =>
    match symbols.bind fun e => e.value? s with
    | some v => .ok v
    | none => .error (.unknownCase union s)

/-- Add the cases of the arm with index `i` to those `known`. -/
def addCases (union : String) (symbols : Option EnumDecl) (i : Nat) :
    (known : List (Int32 × Nat)) → List CaseLabel → Except SchemaFault (List (Int32 × Nat))
  | known, [] => .ok known
  | known, c :: cs => do
    let v ← caseValue union symbols c
    if v ∈ known.map Prod.fst then throw (.duplicateCase union v)
    else addCases union symbols i (known ++ [(v, i)]) cs

/-- Add the cases of arms, of which the first has index `i`, to those `known`. -/
def addArms (d : Definitions) (union : String) (symbols : Option EnumDecl) :
    (i : Nat) → (known : List (Int32 × Nat)) → List Arm → Except SchemaFault (List (Int32 × Nat))
  | _, known, [] => .ok known
  | i, known, a :: as => do
    d.checkArm a.field
    let known ← addCases union symbols i known a.cases
    d.addArms union symbols (i + 1) known as

/-- A union with its cases resolved, if its tag is known, its cases differ and it has an arm. -/
def resolveUnion (d : Definitions) (u : UnionDecl) : Except SchemaFault ResolvedUnion := do
  let symbols ← d.tagEnum u.tagType
  let caseArms ← d.addArms u.name symbols 0 [] u.arms
  d.checkArm u.otherwise.join
  if caseArms = [] ∧ u.otherwise = none then throw (.emptyUnion u.name)
  else return { u with caseArms }

/-- The schema of definitions, or their first fault. -/
def resolve (d : Definitions) : Except SchemaFault Schema :=
  match firstRepeated? [] d.typeNames with
  | some name => .error (.duplicateType name)
  | none => do
    d.structs.forM fun s => d.checkFields s.name [] s.fields
    let unions ← d.unions.mapM d.resolveUnion
    return { enums := d.enums, structs := d.structs, unions }

end Definitions

end XdrText
