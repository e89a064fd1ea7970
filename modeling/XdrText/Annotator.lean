import XdrText.Form.Date
import XdrText.NameMap
import XdrText.Value

/-!
# XdrText — annotators

An annotator adds commentary to a document: notes behind accounts, signature hints and signer
keys, and the list of symbols behind an enum for which help was asked.  It also chooses the text of
the native asset, the one word of an annotator that is read back.  The dates behind times are those
of its zone.
-/

namespace XdrText
open Key Form

/-- What is added to a document, and how it shows the native asset and dates. -/
structure Annotator where
  /-- The note behind an account; the empty note is not shown. -/
  account : Account → String
  /-- The note behind the hint of a signature in the tree with the given root. -/
  signature : Value → Signature → String
  /-- The note behind a signer key. -/
  signer : Signer → String
  /-- Whether the enum of that name lists its symbols. -/
  wantsHelp : String → Bool
  /-- The text of the native asset. -/
  native : String
  /-- The zone of the machine. -/
  zone : Zone := .utc

namespace Annotator

/-- The text of the native asset unless an annotator chooses another. -/
def defaultNative : String := "native"

/-- No commentary but the dates. -/
def plain (zone : Zone := .utc) : Annotator where
  account _ := ""
  signature _ _ := ""
  signer _ := ""
  wantsHelp _ := false
  native := defaultNative
  zone := zone

end Annotator

/-- The names for which a document asked for help. -/
structure HelpRequests where
  asked : NameMap Unit
  native : String

namespace HelpRequests

def empty : HelpRequests :=
  ⟨.empty, Annotator.defaultNative⟩

def insert (h : HelpRequests) (name : String) : HelpRequests :=
  { h with asked := h.asked.insert name () }

def insertAll (h : HelpRequests) (names : List String) : HelpRequests :=
  names.foldl insert h

/-- Lists the symbols of the enums for which help was asked, and adds no notes. -/
def annotator (h : HelpRequests) (zone : Zone := .utc) : Annotator :=
  { Annotator.plain zone with wantsHelp := h.asked.contains, native := h.native }

end HelpRequests

end XdrText
