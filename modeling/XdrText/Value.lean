import XdrText.Key.Asset
import XdrText.Key.Signer
import XdrText.Ty

/-!
# XdrText — trees of values

A value is a tree.  Its leaves are the values written on one line; a signature takes two.  Optionals
and sequences keep the type of what they can hold, so that they can be filled; structs and unions
keep the name of their type, by which the schema describes them.

Equality of values is decided by `Value.same`, a comparison by structure.
-/

namespace XdrText
open Key

/-- A value written on one line. -/
inductive Leaf where
  | bool (b : Bool)
  | int (v : Int32)
  | uint (v : UInt32)
  | hyper (v : Int64)
  | uhyper (v : UInt64)
  | string (data : Bytes) (max : UInt32)
  | amount (v : Int64)
  | time (v : UInt64)
  | enum (ty : String) (v : Int32)
  | fixed (data : Bytes)
  | code (data : Bytes)
  | bytes (data : Bytes) (max : UInt32)
  | account (a : Account)
  | signer (s : Signer)
  | asset (a : Asset)
  deriving DecidableEq

/-- A node of a tree with all that is below it. -/
inductive Value where
  | leaf (l : Leaf)
  | signature (s : Signature)
  | optional (inner : Ty) (held : Option Value)
  | array (items : List Value)
  | seq (elem : Ty) (max : UInt32) (items : List Value)
  /-- The fields stand in the order of their declaration. -/
  | struct (ty : String) (fields : List (String × Value))
  /-- The tag selects the arm; a void arm holds nothing. -/
  | union (ty : String) (tag : Value) (arm : Option Value)

namespace Value

mutual

/-- Comparison by structure. -/
def same : Value → Value → Bool
  | .leaf a, .leaf b => a == b
  | .signature a, .signature b => a == b
  | .optional t a, .optional u b => t == u && sameHeld a b
  | .array a, .array b => sameItems a b
  | .seq t m a, .seq u n b => t == u && m == n && sameItems a b
  | .struct t a, .struct u b => t == u && sameFields a b
  | .union t x a, .union u y b => t == u && same x y && sameHeld a b
  | _, _ => false

/-- Comparison of what optionals or unions hold. -/
def sameHeld : Option Value → Option Value → Bool
  | none, none => true
  | some a, some b => same a b
  | _, _ => false

/-- Comparison of elements in their order. -/
def sameItems : List Value → List Value → Bool
  | [], [] => true
  | a :: as, b :: bs => same a b && sameItems as bs
  | _, _ => false

/-- Comparison of fields, their names included. -/
def sameFields : List (String × Value) → List (String × Value) → Bool
  | [], [] => true
  | (m, a) :: as, (n, b) :: bs => m == n && same a b && sameFields as bs
  | _, _ => false

end

mutual

/-- Values are the same if and only if they are equal. -/
theorem same_iff : ∀ (a : Value) {b : Value}, a.same b = true ↔ a = b
  | .leaf _, b | .signature _, b => by cases b <;> simp [same]
  | .optional _ a, b => by cases b <;> simp [same, sameHeld_iff a]
  | .array as, b | .seq _ _ as, b => by cases b <;> simp [same, sameItems_iff as, and_assoc]
  | .struct _ as, b => by cases b <;> simp [same, sameFields_iff as]
  | .union _ x a, b => by cases b <;> simp [same, sameHeld_iff a, same_iff x, and_assoc]

theorem sameHeld_iff : ∀ (a : Option Value) {b : Option Value}, sameHeld a b = true ↔ a = b
  | none, b => by cases b <;> simp [sameHeld]
  | some a, b => by cases b <;> simp [sameHeld, same_iff a]

theorem sameItems_iff : ∀ (as : List Value) {bs : List Value}, sameItems as bs = true ↔ as = bs
  | [], bs => by cases bs <;> simp [sameItems]
  | a :: as, bs => by cases bs <;> simp [sameItems, same_iff a, sameItems_iff as]

theorem sameFields_iff :
    ∀ (as : List (String × Value)) {bs : List (String × Value)}, sameFields as bs = true ↔ as = bs
  | [], bs => by cases bs <;> simp [sameFields]
  | (_, a) :: as, [] => by simp [sameFields]
  | (_, a) :: as, (_, _) :: _ => by simp [sameFields, same_iff a, sameFields_iff as]

end

instance : DecidableEq Value := fun _ _ => decidable_of_iff _ (same_iff _)

/-- The integer that a union tag stands for. -/
def discriminant? : Value → Option Int32
  | .leaf (.enum _ v) | .leaf (.int v) => some v
  | .leaf (.uint v) => if v.toNat < Int32.size / 2 then some (Int32.ofNat v.toNat) else none
  | _ => none

/-- The number of an unsigned scalar or of a time. -/
def unsigned? : Value → Option UInt64
  | .leaf (.uint v) => some v.toUInt64
  | .leaf (.uhyper v) | .leaf (.time v) => some v
  | _ => none

/-- The number of a scalar that fits in 64 bits with a sign, or of an amount. -/
def signed? : Value → Option Int64
  | .leaf (.int v) => some v.toInt64
  | .leaf (.uint v) => some (Int64.ofNat v.toNat)
  | .leaf (.hyper v) | .leaf (.amount v) => some v
  | _ => none

/-- The data of an opaque leaf. -/
def data? : Value → Option Bytes
  | .leaf (.fixed b) | .leaf (.code b) | .leaf (.bytes b _) => some b
  | _ => none

/-- The type name of a struct. -/
def structName? : Value → Option String
  | .struct ty _ => some ty
  | _ => none

/-- The type name of a union. -/
def unionName? : Value → Option String
  | .union ty .. => some ty
  | _ => none

/-- A member of a struct by its own name. -/
def member? (v : Value) (field : String) : Option Value :=
  match v with
  | .struct _ fields => (fields.find? fun f => f.1 = field).map Prod.snd
  | _ => none

end Value

/-- A count with an upper bound. -/
structure BoundedSize where
  value : Nat
  bound : Nat
  deriving DecidableEq, Repr

namespace BoundedSize

def zero (bound : Nat) : BoundedSize := ⟨0, bound⟩

/-- Set the count, cut down to the bound; a size beyond the bound is also given back. -/
def set (s : BoundedSize) (size : Nat) : BoundedSize × Option Nat :=
  if size ≤ s.bound then (⟨size, s.bound⟩, none) else (⟨s.bound, s.bound⟩, some size)

end BoundedSize

end XdrText
