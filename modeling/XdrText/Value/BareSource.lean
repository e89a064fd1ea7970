import XdrText.Name
import XdrText.Value

/-!
# XdrText — bare source keys

The source account of the oldest kind of transaction is a bare key in a field
`tx.sourceAccountEd25519`.  It is written and found under the short name `tx.sourceAccount`, like
the source account of any other transaction.
-/

namespace XdrText

/-- The short name and the data of a bare source key: opaque data of fixed length under the name
of such a field. -/
def Leaf.bareSource? (name : String) : Leaf → Option (String × Bytes)
  | .fixed data => (Name.sourceAlias? name).map (·, data)
  | _ => none

theorem Leaf.bareSource?_eq_some {name short : String} {l : Leaf} {data : Bytes}
    (h : l.bareSource? name = some (short, data)) :
    l = .fixed data ∧ Name.sourceAlias? name = some short := by
  cases l with
  | fixed b =>
      obtain ⟨n, hn, same⟩ := Option.map_eq_some_iff.mp h
      cases same
      exact ⟨rfl, hn⟩
  | _ => cases h

end XdrText
