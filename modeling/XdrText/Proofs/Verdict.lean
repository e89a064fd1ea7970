import XdrText.Check
import XdrText.Proofs.EnvelopeText
import XdrText.Proofs.Totality

/-!
# XdrText — the verdict of the command

The command takes its sources one after the other (`Check.run_eq`).  A document leaves an envelope,
with or without faults, and an envelope can always be shown; so showing it adds its lines to the
output and nothing to the errors (`Check.file_format`).

**Verdict** (`Check.run_format`).  With `-f` in front the command reports the same errors and ends
with the same exit code, and the document of each source stands behind its faults.  The command
succeeds if and only if every source can be read and is read without a fault.
-/

namespace XdrText.Check
open Form

/-! ### Arguments -/

section
variable {p : String → Bool} {args : List String}

theorem splitFirst?_of_none (h : ∀ a ∈ args, p a = false) : splitFirst? p args = none := by
  have all : (args.dropWhile fun a => !p a) = [] :=
    List.dropWhile_eq_nil_iff.mpr fun a ha => by rw [h a ha]; rfl
  rw [splitFirst?, all]

theorem splitFirst?_cons {a : String} (h : p a = true) :
    splitFirst? p (a :: args) = some ([], args) := by
  simp [splitFirst?, h]

/-- A list is split at the first element that satisfies `p`, wherever it stands. -/
theorem splitFirst?_append {before rest : List String} {a : String} (h : ∀ b ∈ before, p b = false)
    (ha : p a = true) : splitFirst? p (before ++ a :: rest) = some (before, rest) := by
  have passed : ∀ b ∈ before, (!p b) = true := fun b hb => by rw [h b hb]; rfl
  simp only [splitFirst?]
  rw [List.dropWhile_append_of_pos passed, List.takeWhile_append_of_pos passed]
  simp [ha]

/-- The list is split at the first element that satisfies `p`. -/
theorem splitFirst?_eq_some {before rest : List String}
    (h : splitFirst? p args = some (before, rest)) :
    ∃ a, p a = true ∧ args = before ++ a :: rest ∧ ∀ b ∈ before, p b = false := by
  have parts := List.takeWhile_append_dropWhile (p := fun a => !p a) (l := args)
  simp only [splitFirst?] at h
  split at h
  next => cases h
  next a rest' dropped =>
    cases h
    refine ⟨a, ?_, by rw [← dropped, parts], fun b hb => by simpa using List.mem_takeWhile_imp hb⟩
    have first := List.head?_dropWhile_not (fun a => !p a) args
    rw [dropped] at first
    simpa using first

end

namespace Options
variable {args : List String}

section
variable (short : "-f" ∉ args) (long : "--fmt" ∉ args)
include short long

theorem splitFirst?_format : splitFirst? (fun a => a = "--fmt" || a = "-f") args = none := by
  refine splitFirst?_of_none fun a ha => ?_
  simp only [Bool.or_eq_false_iff, decide_eq_false_iff_not]
  exact ⟨fun same => long (same ▸ ha), fun same => short (same ▸ ha)⟩

/-- Without an option that asks for it, documents are not shown. -/
theorem format_of_parse {o : Options} (h : parse args = .ok o) : o.format = false := by
  simp only [parse, splitFirst?_format short long] at h
  split at h <;> cases h <;> rfl

/-- The option in front changes nothing but that documents are shown. -/
theorem parse_format :
    parse ("-f" :: args) = (fun o => { o with format := true }) <$> parse args := by
  have asked : splitFirst? (fun a => a = "--fmt" || a = "-f") ("-f" :: args) = some ([], args) :=
    splitFirst?_cons (by decide)
  simp only [parse, splitFirst?_format short long, asked, List.nil_append]
  split <;> rfl

/-- The arguments are at fault only where they end before the name of standard input. -/
theorem parse_eq_ok_iff : (∃ o, parse args = .ok o) ↔
    ∀ before, args = before ++ ["--source"] → "--source" ∈ before := by
  have named : ∀ before rest, splitFirst? (fun a => a = "--source") args = some (before, rest) ↔
      args = before ++ "--source" :: rest ∧ "--source" ∉ before := by
    intro before rest
    constructor
    · intro h
      obtain ⟨a, ha, whole, passed⟩ := splitFirst?_eq_some h
      obtain rfl : a = "--source" := by simpa using ha
      exact ⟨whole, fun hm => by simpa using passed _ hm⟩
    · rintro ⟨rfl, fresh⟩
      have passed : ∀ b ∈ before, b ≠ "--source" := fun b hb same => fresh (same ▸ hb)
      exact splitFirst?_append (fun b hb => by simpa using passed b hb) (by simp)
  simp only [parse, splitFirst?_format short long]
  split
  next none =>
    refine ⟨fun _ before whole => ?_, fun _ => ⟨_, rfl⟩⟩
    by_contra fresh
    rw [(named before []).mpr ⟨whole, fresh⟩] at none
    cases none
  next before cut =>
    obtain ⟨whole, fresh⟩ := (named before []).mp cut
    exact ⟨nofun, fun all => absurd (all before whole) fresh⟩
  next before source rest cut =>
    refine ⟨fun _ before' whole => ?_, fun _ => ⟨_, rfl⟩⟩
    by_contra fresh
    rw [(named before' []).mpr ⟨whole, fresh⟩] at cut
    cases cut

end

/-- What the command reads, and the names under which it is reported. -/
def sources (o : Options) (input : Bytes) (contents : String → Except FileFault Bytes) :
    List (String × Except FileFault Bytes) :=
  match o.files with
  | [] => [(o.source, .ok input)]
  | paths => paths.map fun path => (path, contents path)

end Options

/-! ### Reports -/

namespace Report

@[simp] theorem output_append (a b : Report) : (a ++ b).output = a.output ++ b.output := rfl

@[simp] theorem errors_append (a b : Report) : (a ++ b).errors = a.errors ++ b.errors := rfl

@[simp] theorem failed_append (a b : Report) : (a ++ b).failed = (a.failed || b.failed) := rfl

theorem append_empty (r : Report) : r ++ empty = r :=
  Report.ext String.append_empty String.append_empty (Bool.or_false _)

theorem join_cons (r : Report) (rs : List Report) : join (r :: rs) = r ++ join rs := rfl

section
variable {α : Type} (report : α → Report) (xs : List α)

/-- Reports print one after another. -/
theorem output_join :
    (join (xs.map report)).output = String.join (xs.map fun x => (report x).output) := by
  induction xs with
  | nil => rfl
  | cons x xs ih =>
      rw [List.map_cons, join_cons, output_append, ih, List.map_cons, String.join_cons]

theorem errors_join :
    (join (xs.map report)).errors = String.join (xs.map fun x => (report x).errors) := by
  induction xs with
  | nil => rfl
  | cons x xs ih =>
      rw [List.map_cons, join_cons, errors_append, ih, List.map_cons, String.join_cons]

/-- Reports together fail if one of them does. -/
theorem failed_join : (join (xs.map report)).failed = xs.any fun x => (report x).failed := by
  induction xs with
  | nil => rfl
  | cons x xs ih => rw [List.map_cons, join_cons, failed_append, ih, List.any_cons]

end

/-- The command succeeds if and only if its report does not fail. -/
theorem exitCode_eq_zero {r : Report} : r.exitCode = 0 ↔ r.failed = false := by
  cases h : r.failed <;> simp [exitCode, h]

end Report

/-! ### Sources -/

/-- What a document leaves when it is read into a new envelope. -/
def checked (doc : Bytes) : Decoded :=
  Envelope.schema.readBytes Annotator.defaultNative "" doc Envelope.initial

/-- The fault lines of a source; one that cannot be read has none. -/
def faultLines (source : String) : Except FileFault Bytes → String
  | .ok doc => LineFault.reportOn source (checked doc).faults
  | .error _ => ""

/-- The document of the envelope that a source leaves, with the symbols of the enums for which it
asks for help. -/
def normalized (zone : Zone) : Except FileFault Bytes → String
  | .ok doc =>
    let help := HelpRequests.empty.insertAll (checked doc).asked
    (Envelope.schema.write (help.annotator zone) "" (checked doc).value).text
  | .error _ => ""

/-- The source can be read, to the end and without a fault. -/
def Clean (source : Except FileFault Bytes) : Prop :=
  ∃ doc, source = .ok doc ∧ (checked doc).complete = true ∧ (checked doc).faults = []

/-- Every document is read to the end. -/
theorem checked_complete (doc : Bytes) : (checked doc).complete = true := by
  rw [checked, Schema.readBytes]
  exact Envelope.read_complete Envelope.initial_hasType ..

/-- What a document leaves can be shown, whatever was wrong with the document. -/
theorem formatted_checked (zone : Zone) (source : String) (doc : Bytes) :
    formatted source (checked doc) zone = ⟨normalized zone (.ok doc), "", false⟩ := by
  have typed : Envelope.schema.HasType Envelope.ty (checked doc).value := by
    rw [checked, Schema.readBytes]
    exact Envelope.read_hasType Envelope.initial_hasType
  have shown (a : Annotator) : (Envelope.schema.write a "" (checked doc).value).faults = [] :=
    Schema.write_faults typed Envelope.bareSources
  simp only [formatted, normalized, shown]
  rfl

/-- A source that can be read and is not shown: its fault lines, and whether there are any. -/
theorem file_ok (zone : Zone) (source : String) (doc : Bytes) :
    file false source (.ok doc) zone =
      ⟨LineFault.reportOn source (checked doc).faults, "", !(checked doc).faults.isEmpty⟩ := by
  simp only [file, document, checked, Bool.false_eq_true, if_false]

/-- Without the option a source prints its fault lines. -/
theorem output_file (zone : Zone) (source : String) (content : Except FileFault Bytes) :
    (file false source content zone).output = faultLines source content := by
  cases content with
  | error f => rfl
  | ok doc => simp only [file_ok, faultLines]

/-- Showing the document of a source adds its lines and nothing else. -/
theorem file_format (zone : Zone) (source : String) (content : Except FileFault Bytes) :
    file true source content zone =
      ⟨faultLines source content ++ normalized zone content,
        (file false source content zone).errors, (file false source content zone).failed⟩ := by
  cases content with
  | error f => rfl
  | ok doc =>
      have parts : file true source (.ok doc) zone =
          file false source (.ok doc) zone ++ formatted source (checked doc) zone := by
        simp only [file, document, checked, Bool.false_eq_true, if_true, if_false]
      rw [parts, formatted_checked]
      refine Report.ext ?_ ?_ ?_
      · rw [Report.output_append, output_file]
      · rw [Report.errors_append, String.append_empty]
      · rw [Report.failed_append, Bool.or_false]

/-- A source passes if and only if it is clean. -/
theorem failed_file (zone : Zone) (source : String) (content : Except FileFault Bytes) :
    (file false source content zone).failed = false ↔ Clean content := by
  cases content with
  | error f => exact ⟨nofun, fun ⟨_, same, _⟩ => nomatch same⟩
  | ok doc =>
      simp only [file_ok, Bool.not_eq_false', List.isEmpty_iff]
      constructor
      · intro none
        exact ⟨doc, rfl, checked_complete doc, none⟩
      · rintro ⟨_, ⟨⟩, -, none⟩
        exact none

/-! ### The command -/

section
variable {args : List String} {o : Options} (input : Bytes)
variable (contents : String → Except FileFault Bytes) (zone : Zone)

/-- The report on the sources, one after the other. -/
theorem run_eq (h : Options.parse args = .ok o) :
    run args input contents zone =
      .join ((o.sources input contents).map fun s => file o.format s.1 s.2 zone) := by
  simp only [run, h, Options.sources]
  cases o.files with
  | nil => exact (Report.append_empty _).symm
  | cons path paths => rw [List.map_map]; rfl

end

/-- The option `-f` in front changes neither the errors nor the exit code, and shows the document of
each source behind its faults.  The arguments are at fault only where a name of standard input is
missing; then nothing is read.  Else the exit code is 0 if and only if all sources are clean. -/
theorem run_format {args : List String} (short : "-f" ∉ args) (long : "--fmt" ∉ args)
    (input : Bytes) (contents : String → Except FileFault Bytes) (zone : Zone) :
    (run ("-f" :: args) input contents zone).exitCode = (run args input contents zone).exitCode ∧
    (run ("-f" :: args) input contents zone).errors = (run args input contents zone).errors ∧
    ((∃ o, Options.parse args = .ok o) ↔
      ∀ before, args = before ++ ["--source"] → "--source" ∈ before) ∧
    (∀ o, Options.parse args = .ok o →
      (run args input contents zone).output =
        String.join ((o.sources input contents).map fun s => faultLines s.1 s.2) ∧
      (run ("-f" :: args) input contents zone).output =
        String.join ((o.sources input contents).map fun s =>
          faultLines s.1 s.2 ++ normalized zone s.2) ∧
      ((run args input contents zone).exitCode = 0 ↔
        ∀ s ∈ o.sources input contents, Clean s.2)) ∧
    (∀ f, Options.parse args = .error f →
      (run args input contents zone).output = "" ∧
      (run ("-f" :: args) input contents zone).output = "" ∧
      (run args input contents zone).exitCode = 1) := by
  have asked := Options.parse_format short long
  have valid := Options.parse_eq_ok_iff short long
  cases h : Options.parse args with
  | error f =>
      rw [h] at asked valid
      have plain : run args input contents zone = ⟨"", "Error: " ++ f.message ++ "\n", true⟩ := by
        simp only [run, h]
      have shown : run ("-f" :: args) input contents zone = run args input contents zone := by
        rw [plain]
        simp only [run, asked]
        rfl
      rw [shown]
      refine ⟨rfl, rfl, valid, nofun, fun _ _ => ?_⟩
      rw [plain]
      exact ⟨rfl, rfl, rfl⟩
  | ok o =>
      rw [h] at asked valid
      have off := Options.format_of_parse short long h
      have plain := run_eq input contents zone h
      have shown := run_eq input contents zone asked
      simp only [off] at plain
      simp only [file_format] at shown
      have errors : (run ("-f" :: args) input contents zone).errors =
          (run args input contents zone).errors := by
        rw [plain, shown, Report.errors_join, Report.errors_join]
        rfl
      have failed : (run ("-f" :: args) input contents zone).failed =
          (run args input contents zone).failed := by
        rw [plain, shown, Report.failed_join, Report.failed_join]
        rfl
      refine ⟨by rw [Report.exitCode, failed, Report.exitCode], errors, valid, ?_, nofun⟩
      rintro _ ⟨⟩
      refine ⟨?_, ?_, ?_⟩
      · simp only [plain, Report.output_join, output_file]
      · simp only [shown, Report.output_join]
        rfl
      · simp only [Report.exitCode_eq_zero, plain, Report.failed_join, List.any_eq_false,
          Bool.not_eq_true, failed_file]

/-- A file with an unknown memo that asks for help, and one that is not there. -/
def mixedFiles : String → Except FileFault Bytes
  | "memo" => .ok (Text.Utf8.encode "tx.memo.type: MEMO_NOTE?".toList)
  | _ => .error .missing

/-- Both files are reported in the same way, and the document of the first one is shown. -/
theorem run_format_mixed :
    "-f" ∉ ["memo", "--source", "name", "absent"] ∧
      "--fmt" ∉ ["memo", "--source", "name", "absent"] ∧
      (run ["-f", "memo", "--source", "name", "absent"] [] mixedFiles).exitCode =
        (run ["memo", "--source", "name", "absent"] [] mixedFiles).exitCode ∧
      (run ["-f", "memo", "--source", "name", "absent"] [] mixedFiles).errors =
        (run ["memo", "--source", "name", "absent"] [] mixedFiles).errors ∧
      (run ["-f", "memo", "--source", "name", "absent"] [] mixedFiles).output =
        String.join [faultLines "memo" (mixedFiles "memo") ++ normalized .utc (mixedFiles "memo"),
          faultLines "absent" (mixedFiles "absent") ++ normalized .utc (mixedFiles "absent")] := by
  have short : "-f" ∉ ["memo", "--source", "name", "absent"] := by decide
  have long : "--fmt" ∉ ["memo", "--source", "name", "absent"] := by decide
  obtain ⟨code, errors, -, valid, -⟩ := run_format short long [] mixedFiles .utc
  exact ⟨short, long, code, errors, (valid ⟨false, "name", ["memo", "absent"]⟩ (by decide)).2.1⟩

end XdrText.Check
