import XdrText.Envelope
import XdrText.Reader
import XdrText.Writer

/-!
# XdrText — checking documents

The command takes documents of transaction envelopes from files, or one from standard input, and
reports every fault in them.  With `--fmt` it also shows each document as it would be written, with
the symbols of the enums that ask for help.  It fails if a document has a fault, cannot be shown or
cannot be read.
-/

namespace XdrText.Check
open Form

/-- What the arguments ask for. -/
structure Options where
  format : Bool
  /-- The name of standard input in reports. -/
  source : String
  files : List String
  deriving DecidableEq, Repr

/-- Why the arguments cannot be understood. -/
inductive UsageFault where
  | missingSourceName
  deriving DecidableEq, Repr

def UsageFault.message : UsageFault → String
  | .missingSourceName => "--source requires a name"

/-- The list without its first element that satisfies `p`, split there; nothing if there is none. -/
def splitFirst? (p : String → Bool) (args : List String) : Option (List String × List String) :=
  match args.dropWhile fun a => !p a with
  | [] => none
  | _ :: rest => some (args.takeWhile fun a => !p a, rest)

/-- Each option counts once, at its first place; whatever else is there names a file. -/
def Options.parse (args : List String) : Except UsageFault Options :=
  let (format, args) :=
    match splitFirst? (fun a => a = "--fmt" || a = "-f") args with
    | some (before, rest) => (true, before ++ rest)
    | none => (false, args)
  match splitFirst? (fun a => a = "--source") args with
  | none => .ok ⟨format, "<stdin>", args⟩
  | some (_, []) => .error .missingSourceName
  | some (before, source :: rest) => .ok ⟨format, source, before ++ rest⟩

/-- Why a file cannot be read. -/
inductive FileFault where
  | missing
  | denied
  /-- Something on the way to the file is not a directory. -/
  | notDirectory
  | isDirectory
  | nameTooLong
  | linkLoop
  /-- Any other reason, in the words of the system. -/
  | other (words : String)
  deriving DecidableEq, Repr

def FileFault.message : FileFault → String
  | .missing => "No such file or directory (os error 2)"
  | .denied => "Permission denied (os error 13)"
  | .notDirectory => "Not a directory (os error 20)"
  | .isDirectory => "Is a directory (os error 21)"
  | .nameTooLong => "File name too long (os error 36)"
  | .linkLoop => "Too many levels of symbolic links (os error 40)"
  | .other words => words

/-- What the command prints, and whether it failed. -/
@[ext] structure Report where
  output : String
  errors : String
  failed : Bool
  deriving DecidableEq, Repr

namespace Report

def empty : Report := ⟨"", "", false⟩

instance : Append Report :=
  ⟨fun a b => ⟨a.output ++ b.output, a.errors ++ b.errors, a.failed || b.failed⟩⟩

/-- Reports one after another. -/
def join (reports : List Report) : Report :=
  reports.foldr (· ++ ·) empty

/-- The exit status of the command. -/
def exitCode (r : Report) : Nat :=
  if r.failed then 1 else 0

end Report

/-- The document of a new envelope after a document was read into it, with the fields that cannot
be shown on the side of the errors. -/
def formatted (source : String) (d : Decoded) (zone : Zone := .utc) : Report :=
  let help := HelpRequests.empty.insertAll d.asked
  let w := Envelope.schema.write (help.annotator zone) "" d.value
  { output := w.text
    errors := String.join (w.faults.map fun b => source ++ ": " ++ b.message ++ "\n")
    failed := !w.faults.isEmpty }

/-- A document is reported fault by fault, and shown behind that if it is to be. -/
def document (format : Bool) (source : String) (doc : Bytes) (zone : Zone := .utc) : Report :=
  let d := Envelope.schema.readBytes Annotator.defaultNative "" doc Envelope.initial
  let faults : Report := ⟨LineFault.reportOn source d.faults, "", !d.faults.isEmpty⟩
  if format then faults ++ formatted source d zone else faults

/-- A file that cannot be read is reported with the reason. -/
def file (format : Bool) (path : String) (content : Except FileFault Bytes)
    (zone : Zone := .utc) : Report :=
  match content with
  | .ok doc => document format path doc zone
  | .error f => ⟨"", path ++ ": " ++ f.message ++ "\n", true⟩

/-- Standard input counts only when no file is named.  The dates are those of the given zone. -/
def run (args : List String) (input : Bytes) (contents : String → Except FileFault Bytes)
    (zone : Zone := .utc) : Report :=
  match Options.parse args with
  | .error f => ⟨"", "Error: " ++ f.message ++ "\n", true⟩
  | .ok o =>
    match o.files with
    | [] => document o.format o.source input zone
    | paths => .join (paths.map fun path => file o.format path (contents path) zone)

end XdrText.Check
