/-!
# XdrText — field names

A line of the text form carries the name of a node of the tree: the names of fields and arms from
the root, joined with dots, and `[i]` for the elements of arrays and sequences.  The root has the
empty name.  Structure shows under names of its own: the length of a sequence `n` under `n.len`,
and the presence of an optional under `n._present`, or `n._inner_present` for an optional directly
inside another.
-/

namespace XdrText.Name

/-- A field of the root has no dot before it. -/
def child (parent field : String) : String :=
  if parent = "" then field else parent ++ "." ++ field

def index (parent : String) (i : Nat) : String :=
  parent ++ "[" ++ Nat.repr i ++ "]"

def length (name : String) : String :=
  child name "len"

/-- The presence of an optional that is the `depth`-th of optionals directly inside each other. -/
def presence (name : String) (depth : Nat) : String :=
  child name (String.join (List.replicate (depth - 1) "_inner") ++ "_present")

/-- The name without `ending`, if it ends so. -/
def dropEnding? (ending name : String) : Option String :=
  if ending.toList.isSuffixOf name.toList then
    some (String.ofList (name.toList.take (name.toList.length - ending.toList.length)))
  else none

/-- The short name of a source account that is kept as a bare key: `…tx.sourceAccount` for
`…tx.sourceAccountEd25519`. -/
def sourceAlias? (name : String) : Option String :=
  (dropEnding? "tx.sourceAccountEd25519" name).map (· ++ "tx.sourceAccount")

/-- Whether `name` begins with `start`. -/
def startsWith (start name : String) : Bool :=
  start.toList.isPrefixOf name.toList

end XdrText.Name
