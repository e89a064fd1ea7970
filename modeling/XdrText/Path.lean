import XdrText.Value

/-!
# XdrText — paths in a tree

A path is a list of steps from a node to one below it.  Following a path gives the node at its end;
replacing there gives the tree with another node in its place, and changes nothing beside the path.
-/

namespace XdrText

inductive Step where
  /-- Into a present optional. -/
  | inner
  /-- An element of an array or a sequence. -/
  | elem (i : Nat)
  /-- A field of a struct by its position. -/
  | field (i : Nat)
  | tag
  | arm
  deriving DecidableEq, Repr

namespace Value

/-- The node that a step leads to. -/
def child? : Value → Step → Option Value
  | .optional _ held, .inner => held
  | .array items, .elem i => items[i]?
  | .seq _ _ items, .elem i => items[i]?
  | .struct _ fields, .field i => fields[i]?.map Prod.snd
  | .union _ tag _, .tag => some tag
  | .union _ _ arm, .arm => arm
  | _, _ => none

/-- The node at the end of a path. -/
def follow? (v : Value) : List Step → Option Value
  | [] => some v
  | s :: path => (v.child? s).bind fun child => child.follow? path

/-- Another node in the place that a step leads to; the tree itself when the step leads nowhere. -/
def setChild (w : Value) : Value → Step → Value
  | .optional inner (some _), .inner => .optional inner (some w)
  | .array items, .elem i => .array (items.set i w)
  | .seq elem max items, .elem i => .seq elem max (items.set i w)
  | .struct ty fields, .field i => .struct ty (fields.modify i fun f => (f.1, w))
  | .union ty _ arm, .tag => .union ty w arm
  | .union ty tag (some _), .arm => .union ty tag (some w)
  | v, _ => v

/-- The tree with another node at the end of a path; the tree itself when the path leads nowhere. -/
def replace (w : Value) : Value → List Step → Value
  | _, [] => w
  | v, s :: path =>
    match v.child? s with
    | some child => setChild (replace w child path) v s
    | none => v

/-- The position of a member of a struct by its own name. -/
def memberStep? (v : Value) (field : String) : Option Step :=
  match v with
  | .struct _ fields => (fields.findIdx? fun f => f.1 = field).map Step.field
  | _ => none

end Value

end XdrText
