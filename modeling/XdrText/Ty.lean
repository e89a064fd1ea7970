/-!
# XdrText — types

The shapes that a node of a tree can have: scalars, opaque data, optionals, arrays, sequences, the
enums, structs and unions of a schema by name, and the aggregates that have a text of their own.
-/

namespace XdrText

/-- What a node of a tree can be. -/
inductive Ty where
  | bool
  | int
  | uint
  | hyper
  | uhyper
  /-- At most `max` bytes, shown as a string literal. -/
  | string (max : UInt32)
  /-- A 64-bit integer shown with its value scaled by `10 ^ 7`. -/
  | amount
  /-- Seconds since the beginning of 1970. -/
  | time
  | enum (name : String)
  /-- `n` bytes, shown in hexadecimal. -/
  | fixed (n : Nat)
  /-- `n` bytes that hold a short identifier. -/
  | code (n : Nat)
  /-- At most `max` bytes, shown in hexadecimal. -/
  | bytes (max : UInt32)
  | optional (inner : Ty)
  /-- `n` elements; their number is not shown. -/
  | array (elem : Ty) (n : Nat)
  /-- At most `max` elements. -/
  | seq (elem : Ty) (max : UInt32)
  | struct (name : String)
  | union (name : String)
  | account
  | signer
  | signature
  | asset
  deriving DecidableEq, Repr

end XdrText
