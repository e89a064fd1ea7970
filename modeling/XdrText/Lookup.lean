import XdrText.Path
import XdrText.Schema
import XdrText.Value.BareSource

/-!
# XdrText — looking up a node by name

The tree is searched in the order in which it is written, for the first node with the name that is
wanted, or for a bare source key with that short name.  A node is entered only if its name can begin
the name wanted, and an optional stands before the node that it holds under the same name.
-/

namespace XdrText

/-- Whether a name wanted can be that of the node with a name or of one below it. -/
def Name.mayContain (name wanted : String) : Bool :=
  if name = "" then true
  else if Name.startsWith name wanted then
    match wanted.toList.drop name.toList.length with
    | [] => true
    | c :: _ => c = '.' || c = '['
  else false

/-- Whether a leaf is a bare source key with that short name. -/
def Leaf.hasShortName (name wanted : String) (l : Leaf) : Bool :=
  match l.bareSource? name with
  | some (short, _) => short = wanted
  | none => false

namespace Schema
variable (s : Schema) (wanted : String)

mutual

/-- The path from a node with a name to the first node with the name wanted. -/
def find? (name : String) (v : Value) : Option (List Step) :=
  if name = wanted then some []
  else
    match v with
    | .leaf l => if l.hasShortName name wanted then some [] else none
    | .signature _ | .optional _ none => none
    | .optional _ (some v) =>
      if Name.mayContain name wanted then (find? name v).map (.inner :: ·) else none
    | .array items | .seq _ _ items =>
      if Name.mayContain name wanted then findItem? name 0 items else none
    | .struct _ fields =>
      if Name.mayContain name wanted then findField? name 0 fields else none
    | .union ty tag arm =>
      if Name.mayContain name wanted then
        match s.union? ty with
        | none => none
        | some u =>
          (find? (Name.child name u.tag) tag).map (.tag :: ·) <|>
            match (tag.discriminant?.bind u.arm?).join, arm with
            | some f, some v => (find? (u.armName name f) v).map (.arm :: ·)
            | _, _ => none
      else none

/-- In elements of which the first has index `i`. -/
def findItem? (name : String) (i : Nat) : List Value → Option (List Step)
  | [] => none
  | v :: vs =>
    (find? (Name.index name i) v).map (.elem i :: ·) <|> findItem? name (i + 1) vs

/-- In fields of which the first has position `i`. -/
def findField? (name : String) (i : Nat) : List (String × Value) → Option (List Step)
  | [] => none
  | (field, v) :: fs =>
    (find? (Name.child name field) v).map (.field i :: ·) <|> findField? name (i + 1) fs

end

/-- The node of that name in a tree with the empty name. -/
def node? (root : Value) : Option Value :=
  (s.find? wanted "" root).bind root.follow?

end Schema

end XdrText
