import XdrText.Lookup
import XdrText.Main
import XdrText.Proofs.Address
import XdrText.Proofs.Again
import XdrText.Proofs.Burst
import XdrText.Proofs.ByteOrder
import XdrText.Proofs.Canonical
import XdrText.Proofs.Clamp
import XdrText.Proofs.Commentary
import XdrText.Proofs.Fixed
import XdrText.Proofs.Grammar
import XdrText.Proofs.InRange
import XdrText.Proofs.Locality
import XdrText.Proofs.Lookup
import XdrText.Proofs.Lossy
import XdrText.Proofs.Presence
import XdrText.Proofs.Refusal
import XdrText.Proofs.Relevant
import XdrText.Proofs.Replace
import XdrText.Proofs.Request
import XdrText.Proofs.Resolution
import XdrText.Proofs.Scaled
import XdrText.Proofs.Scribble
import XdrText.Proofs.Source
import XdrText.Proofs.Symbol
import XdrText.Proofs.Totality
import XdrText.Proofs.Trimmed
import XdrText.Proofs.Verdict
import XdrText.Reader.Leaf
import XdrText.Schema.Initial
