import XdrText.Proofs.Preservation

/-!
# XdrText — rows are judged one by one

A rule says what the text of a row makes of what is there, and the cause of a fault if something is
wrong with it (`Rule`).  Judging a name by a rule takes the row of that name, if there is one
(`Reading.judge?`); a row that only asks for help leaves what is there.  So the faults of a
judgement are all of its own row, and there is at most one.

Every step of the walk that looks at the text of a row is a judgement: the row of a leaf
(`Reader.plainLeaf_eq_judge`), the short name of a bare source key (`Reader.bareSource_eq_judge`),
the two rows of a signature (`Reader.signature_eq_judge`), the presence of an optional
(`Reader.presence_eq_judge`), the length of a sequence (`Reader.length_eq_judge`) and the tag of a
union (`Reader.settle_eq_judge`).  Their rules are fair: what is refused leaves what is there, and
the same text judged again changes nothing.
-/

namespace XdrText
open Text Form Key

/-! ### Rules -/

namespace Cause

/-- The row is not accepted, and what is there stays: the text cannot be read, there is no arm for
the tag, or an account is multiplexed where a bare key is kept. -/
def Refuses : Cause → Prop
  | .malformed _ | .misplaced (.noArm ..) | .misplaced .muxedSource => True
  | _ => False

/-- A row that cannot be read asks for help with its name. -/
def asks (name : String) : Option Cause → List String
  | some (.malformed _) => [name]
  | _ => []

/-- A count beyond its bound. -/
def excess? (name : String) (size max : Nat) : Option Cause :=
  if max < size then some (.tooLong name size max) else none

/-- An excess is accepted, within the bound. -/
theorem not_refuses_excess? {name : String} {size max : Nat} {c : Cause}
    (h : excess? name size max = some c) : ¬ c.Refuses := by
  rw [excess?] at h
  split at h
  · cases h
    exact id
  · cases h

end Cause

/-- What the text of a row makes of what is there, and what is wrong with it. -/
abbrev Rule (α : Type) : Type :=
  α → List Char → α × Option Cause

namespace Rule
variable {α β : Type}

/-- A rule that leaves the old value where it refuses a text, and that comes to the same when it
judges its own result by the same text again. -/
structure Fair (rule : Rule α) : Prop where
  refused : ∀ old s c, (rule old s).2 = some c → c.Refuses → (rule old s).1 = old
  again : ∀ old s, rule (rule old s).1 s = rule old s

/-- A text that cannot be parsed leaves what is there. -/
def parsed (parse : List Char → Except ParseFault β) (next : α → β → α × Option Cause) : Rule α :=
  fun old s =>
    match parse s with
    | .ok b => next old b
    | .error f => (old, some (.malformed f))

/-- A parsed text is judged fairly where what follows is. -/
theorem parsed_fair {parse : List Char → Except ParseFault β} {next : α → β → α × Option Cause}
    (refused : ∀ old b c, (next old b).2 = some c → c.Refuses → (next old b).1 = old)
    (again : ∀ old b, next (next old b).1 b = next old b) : (parsed parse next).Fair where
  refused old s c := by
    simp only [parsed]
    split
    next b _ => exact refused old b c
    next => exact fun _ _ => rfl
  again old s := by
    simp only [parsed]
    cases parse s with
    | ok b => exact again old b
    | error f => rfl

/-- The rule depends on what is there; without one the row counts for nothing. -/
def choose (rule? : α → Option (Rule α)) : Rule α := fun old s =>
  match rule? old with
  | none => (old, none)
  | some rule => rule old s

/-- A rule that is chosen by the old value is fair if all choices are, and if none changes the
choice. -/
theorem choose_fair {rule? : α → Option (Rule α)}
    (fair : ∀ old rule, rule? old = some rule → rule.Fair)
    (kept : ∀ old rule s, rule? old = some rule → rule? (rule old s).1 = some rule) :
    (choose rule?).Fair where
  refused old s c := by
    cases hr : rule? old with
    | none => simp [choose, hr]
    | some rule => simpa only [choose, hr] using (fair old rule hr).refused old s c
  again old s := by
    cases hr : rule? old with
    | none => simp only [choose, hr]
    | some rule => simp only [choose, hr, kept old rule s hr, (fair old rule hr).again]

end Rule

namespace Reading
variable {α β : Type}

/-- A value, and a fault of the line when there is a cause for one. -/
def conclude (name : String) (line : Nat) : α × Option Cause → Reading α
  | (a, none) => return a
  | (a, some (.malformed f)) => do
    reject name line f
    return a
  | (a, some cause) => do
    report line cause
    return a

/-- Takes the row of a name, if there is one, and judges its text by a rule. -/
def judge? (name : String) (rule : Rule α) (old : α) : Reading (Option α) := do
  match ← take name with
  | .missing => return none
  | .help => return some old
  | .text line s => some <$> conclude name line (rule old s)

/-- A name without a row leaves what is there, too. -/
def judge (name : String) (rule : Rule α) (old : α) : Reading α :=
  (fun o => o.getD old) <$> judge? name rule old

/-- What a row comes to: its value, the cause of a fault, and the names for which it asks for
help. -/
def verdict (name : String) (rule : Rule α) (old : α) (row : Row) :
    α × Option Cause × List String :=
  let asked := if row.entry.2 then [name] else []
  match row.entry.1 with
  | .text _ s => ((rule old s).1, (rule old s).2, asked ++ Cause.asks name (rule old s).2)
  | _ => (old, none, asked)

section
variable {name : String} {rule : Rule α} {old : α} {t : Table} {row : Row} {line : Nat}

/-- A conclusion is its value, with a fault if there is a cause for one. -/
theorem conclude_eq (p : α × Option Cause) (t : Table) :
    conclude name line p t =
      ⟨p.1, t, p.2.toList.map (⟨line, ·⟩), Cause.asks name p.2, false⟩ := by
  obtain ⟨a, cause⟩ := p
  cases cause with
  | none => rfl
  | some c => cases c <;> rfl

theorem map_conclude (f : α → β) (p : α × Option Cause) :
    f <$> conclude name line p = conclude name line (f p.1, p.2) := by
  funext t
  simp [Functor.map, Reading.bind, Reading.pure, conclude_eq]

/-- Cutting data down is a conclusion. -/
theorem bounded_eq (data : Bytes) (max : Nat) :
    bounded name line data max =
      conclude name line (data.take max, Cause.excess? name data.length max) := by
  by_cases h : max < data.length
  · simp [bounded, Cause.excess?, h, conclude]
  · simp [bounded, Cause.excess?, h, conclude]

/-- A row that is there is no missing one. -/
theorem entry_ne_missing (row : Row) : row.entry.1 ≠ .missing := by
  intro h
  simp only [Row.entry] at h
  split at h
  · split at h <;> cases h
  · cases h

theorem line_of_entry {s : List Char} (h : row.entry.1 = .text line s) : line = row.line := by
  simp only [Row.entry] at h
  split at h
  · split at h <;> cases h
    rfl
  · cases h
    rfl

/-- Without a row there is nothing to judge, and the table stays. -/
theorem judge?_of_none (h : t.get? name = none) :
    judge? name rule old t = ⟨none, t, [], [], false⟩ := by
  simp [judge?, bind, Reading.bind, take, h, pure, Reading.pure]

/-- A row is taken away, and what it comes to is its verdict. -/
theorem judge?_of_some (h : t.get? name = some row) :
    judge? name rule old t =
      ⟨some (verdict name rule old row).1, t.erase name,
        (verdict name rule old row).2.1.toList.map (⟨row.line, ·⟩),
        (verdict name rule old row).2.2, false⟩ := by
  cases he : row.entry.1 with
  | missing => exact absurd he (entry_ne_missing row)
  | help => simp [judge?, verdict, bind, Reading.bind, take, h, he, pure, Reading.pure]
  | text line s =>
      obtain rfl := line_of_entry he
      simp [judge?, verdict, bind, Reading.bind, take, h, he, map_conclude, conclude_eq]

/-- Without a row the old value stays. -/
theorem judge_of_none (h : t.get? name = none) :
    judge name rule old t = ⟨old, t, [], [], false⟩ := by
  simp [judge, Functor.map, Reading.bind, Reading.pure, judge?_of_none h]

/-- With a row the value is that of the verdict. -/
theorem judge_of_some (h : t.get? name = some row) :
    judge name rule old t =
      ⟨(verdict name rule old row).1, t.erase name,
        (verdict name rule old row).2.1.toList.map (⟨row.line, ·⟩),
        (verdict name rule old row).2.2, false⟩ := by
  simp [judge, Functor.map, Reading.bind, Reading.pure, judge?_of_some h]

/-- A refused row leaves what is there. -/
theorem verdict_of_refused (fair : rule.Fair) {c : Cause}
    (h : (verdict name rule old row).2.1 = some c) (refuses : c.Refuses) :
    (verdict name rule old row).1 = old := by
  simp only [verdict] at h ⊢
  split at h
  next s _ => exact fair.refused old s c h refuses
  next => rfl

/-- A row asks for help with its name by a `?` at its end or because it cannot be read. -/
theorem mem_asked_verdict {n : String} : n ∈ (verdict name rule old row).2.2 ↔
    n = name ∧
      (row.entry.2 = true ∨ ∃ p, (verdict name rule old row).2.1 = some (.malformed p)) := by
  have marked : n ∈ (if row.entry.2 then [name] else []) ↔ n = name ∧ row.entry.2 = true := by
    cases row.entry.2 <;> simp
  simp only [verdict]
  split
  next s _ =>
    have refused : n ∈ Cause.asks name (rule old s).2 ↔
        n = name ∧ ∃ p, (rule old s).2 = some (.malformed p) := by
      cases (rule old s).2 with
      | none => simp [Cause.asks]
      | some c => cases c <;> simp [Cause.asks]
    rw [List.mem_append, marked, refused, and_or_left]
  next => simpa using marked

/-- A row judged again comes to the same. -/
theorem verdict_again (fair : rule.Fair) :
    verdict name rule (verdict name rule old row).1 row = verdict name rule old row := by
  cases he : row.entry.1 with
  | text line s => simp only [verdict, he, fair.again]
  | missing | help => simp only [verdict, he]

/-- What holds of what is there and of all that the rule makes of it holds after the judgement. -/
theorem judge?_ensures {P : α → Prop} (hold : P old) (hrule : ∀ s, P (rule old s).1) :
    (judge? name rule old).Ensures fun o => ∀ a, o = some a → P a := by
  intro t a h
  cases hr : t.get? name with
  | none =>
      rw [judge?_of_none hr] at h
      cases h
  | some row =>
      rw [judge?_of_some hr] at h
      cases h
      simp only [verdict]
      split
      · exact hrule _
      · exact hold

/-- A judgement ensures what holds of the old value and of all that its rule comes to. -/
theorem judge_ensures {P : α → Prop} (hold : P old) (hrule : ∀ s, P (rule old s).1) :
    (judge name rule old).Ensures P := by
  refine .map ((judge?_ensures hold hrule).mono fun o ho => ?_)
  cases o with
  | none => exact hold
  | some a => exact ho a rfl

/-- Steps that take the row of one name and go on alike are the same. -/
theorem take_bind_congr {f g : Entry → Reading β} (missing : f .missing = g .missing)
    (help : f .help = g .help) (text : ∀ line s, f (.text line s) = g (.text line s)) :
    take name >>= f = take name >>= g := by
  congr 1
  funext e
  cases e with
  | missing => exact missing
  | help => exact help
  | text line s => exact text line s

/-- Looking for the line of a row leaves the table as it is. -/
theorem lineOf_bind (f : Nat → Reading β) (t : Table) :
    (lineOf name >>= f) t = f (((t.get? name).map Row.line).getD 0) t := by
  simp [bind, Reading.bind, lineOf, look]

/-- The line of a row that is looked up before the row is taken is that of the entry. -/
theorem lineOf_take_congr {f g : Nat → Entry → Reading β}
    (missing : ∀ line, f line .missing = g line .missing)
    (help : ∀ line, f line .help = g line .help)
    (text : ∀ line s, f line (.text line s) = g line (.text line s)) :
    (do let line ← lineOf name; take name >>= f line) =
      (do let line ← lineOf name; take name >>= g line) := by
  funext t
  rw [lineOf_bind, lineOf_bind]
  cases h : t.get? name with
  | none => simp [bind, Reading.bind, take, h, missing]
  | some row =>
      cases he : row.entry.1 with
      | missing => exact absurd he (entry_ne_missing row)
      | help => simp [bind, Reading.bind, take, h, he, help]
      | text line s =>
          obtain rfl := line_of_entry he
          simp [bind, Reading.bind, take, h, he, text]

end

end Reading

/-! ### Leaves -/

/-- A leaf cut down to what its type allows. -/
def Leaf.bounded (name : String) : Leaf → Leaf × Option Cause
  | .string data max => (.string (data.take max.toNat) max,
      Cause.excess? name data.length max.toNat)
  | .bytes data max => (.bytes (data.take max.toNat) max, Cause.excess? name data.length max.toNat)
  | l => (l, none)

namespace Reader
variable {r : Reader} {name : String}

/-- Cutting a leaf down is a conclusion. -/
theorem boundedLeaf_eq (line : Nat) (l : Leaf) :
    boundedLeaf name line l = Reading.conclude name line (l.bounded name) := by
  cases l with
  | string | bytes => rw [boundedLeaf, Reading.bounded_eq, Reading.map_conclude, Leaf.bounded]
  | _ => rfl

/-- The rule for the row of a leaf. -/
def leafRule (r : Reader) (name : String) : Rule Leaf :=
  Rule.choose fun old => (r.leafParser? old).map fun parse =>
    Rule.parsed parse fun _ l => l.bounded name

/-- The rule for the short name of a bare source key. -/
def sourceRule : Rule Leaf :=
  Rule.parsed (fun s => (Account.parse (firstToken s)).mapError .key) fun old a =>
    match a with
    | .ed25519 key => (.fixed key.bytes, none)
    | .muxed .. => (old, some (.misplaced .muxedSource))

/-- The rule for the hint of a signature. -/
def hintRule : Rule (Block 4) :=
  Rule.parsed parseHint fun _ b => (b, none)

/-- The rule for the body of a signature, which is cut down to its maximum. -/
def bodyRule (name : String) : Rule Bytes :=
  Rule.parsed (fun s => (Octets.scan s).mapError .octets) fun _ data =>
    (data.take Signature.maximum, Cause.excess? name data.length Signature.maximum)

/-- Reading a leaf is a judgement where its text can be parsed, and else leaves it. -/
theorem plainLeaf_eq_judge (l : Leaf) :
    r.plainLeaf name l =
      match r.leafParser? l with
      | none => pure l
      | some _ => Reading.judge name (r.leafRule name) l := by
  cases hp : r.leafParser? l with
  | none => simp [plainLeaf, hp]
  | some parse =>
      simp only [plainLeaf, hp, Reading.judge, Reading.judge?, Reading.takeParsed,
        map_bind, bind_assoc]
      refine Reading.take_bind_congr ?_ ?_ fun line s => ?_
      · simp
      · simp
      · simp only [leafRule, Rule.choose, hp, Option.map_some, Rule.parsed]
        cases parse s with
        | error f => simp [Reading.conclude]
        | ok l' => simp [boundedLeaf_eq]

/-- A bare source key is judged by its short name, and without a row of that name by its own. -/
theorem bareSource_eq_judge (short : String) (l : Leaf) :
    r.bareSource name short l = (do
      match ← Reading.judge? short sourceRule l with
      | none => r.plainLeaf name l
      | some l' =>
        Reading.discard name
        return l') := by
  simp only [bareSource, Reading.judge?, bind_assoc]
  refine Reading.take_bind_congr ?_ ?_ fun line s => ?_
  · simp
  · simp
  · simp only [sourceRule, Rule.parsed]
    cases Account.parse (firstToken s) with
    | error f => simp [Reading.conclude]
    | ok a => cases a <;> simp [Reading.conclude]

/-- Reading a hint is a judgement, whatever follows. -/
theorem judge_hint_bind {β : Type} (old : Block 4) (f : Block 4 → Reading β) :
    (Reading.takeParsed name parseHint >>= fun hint => f ((hint.map Prod.snd).getD old)) =
      Reading.judge name hintRule old >>= f := by
  simp only [Reading.judge, Reading.judge?, Reading.takeParsed, bind_assoc, bind_map_left]
  refine Reading.take_bind_congr ?_ ?_ fun line s => ?_
  · simp
  · simp
  · simp only [hintRule, Rule.parsed]
    cases parseHint s <;> simp [Reading.conclude]

/-- The hint and the body of a signature are judged one after the other. -/
theorem signature_eq_judge (g : Signature) :
    signature name g = (do
      let hint ← Reading.judge (Name.child name "hint") hintRule g.hint
      let body ← Reading.judge (Name.child name "signature")
        (bodyRule (Name.child name "signature")) g.body
      return ⟨hint, body⟩) := by
  rw [← judge_hint_bind]
  simp only [signature]
  congr 1
  funext hint
  simp only [Reading.judge, Reading.judge?, Reading.takeParsed, bind_assoc, bind_map_left]
  refine Reading.take_bind_congr ?_ ?_ fun line s => ?_
  · simp
  · simp
  · simp only [bodyRule, Rule.parsed]
    cases hs : (Octets.scan s).mapError ParseFault.octets with
    | error f => simp [Reading.conclude]
    | ok data => simp [Reading.bounded_eq]

/-! ### Structure -/

/-- The rule for the presence of an optional; at first nothing is said about it. -/
def presenceRule (selector : String) : Rule (Option Bool) := fun _ s =>
  let token := String.ofList (firstToken s)
  if token = "true" then (some true, none)
  else if token = "false" then (some false, none)
  else (some true, some (.misplaced (.presence selector token)))

/-- The rule for the length of a sequence. -/
def countRule (name : String) (max : Nat) : Rule Nat :=
  Rule.parsed (parseNumber Decimal.readUInt64) fun _ n =>
    (min n.toNat max, Cause.excess? name n.toNat max)

/-- How the tag of a union is parsed; an enum that the schema does not declare is not. -/
def tagParser? (r : Reader) : TagType → Option (List Char → Except ParseFault Int32)
  | .int => some (parseNumber Decimal.readInt32)
  | .enum ty => (r.schema.enum? ty).map parseEnum

/-- The rule for the tag of a union: a new tag must have an arm. -/
def tagRule (r : Reader) (u : ResolvedUnion) (name : String) : Rule Int32 :=
  Rule.choose fun _ => (r.tagParser? u.tagType).map fun parse =>
    Rule.parsed parse fun old new =>
      if new = old ∨ u.hasArm new then (new, none)
      else (old, some (.misplaced (.noArm u.name name new)))

/-- An optional is judged by its presence; where nothing is said, what the table mentions counts. -/
theorem presence_eq_judge (depth : Nat) :
    presence name depth = (do
      match ← Reading.judge (Name.presence name depth) (presenceRule (Name.presence name depth))
        none with
      | some present => return present
      | none => Reading.look fun t => Table.mentions t name) := by
  simp only [presence, Reading.judge, Reading.judge?, bind_assoc, bind_map_left]
  refine Reading.take_bind_congr ?_ ?_ fun line s => ?_
  · simp
  · simp
  · simp only [presenceRule]
    by_cases yes : String.ofList (firstToken s) = "true"
    · simp [yes, Reading.conclude]
    · by_cases no : String.ofList (firstToken s) = "false"
      · simp [no, Reading.conclude]
      · simp [yes, no, Reading.conclude]

theorem grow_zero (elem : Ty) (line : Nat) : r.grow elem line 0 = pure [] := by
  simp [grow]

/-- A sequence is judged by its length, and is empty without a row for it; the line is of use only
where elements are lacking. -/
theorem length_eq_judge {β : Type} (r : Reader) (name : String) (elem : Ty) (max current : Nat)
    (next : Nat → List Value → Reading β) :
    (do
      let (line, n) ← length name max current
      let more ← r.grow elem line (n - current)
      next n more) = (do
      let line ← Reading.lineOf (Name.length name)
      let n ← Reading.judge? (Name.length name) (countRule (Name.length name) max) current
      let more ← r.grow elem line (n.getD 0 - current)
      next (n.getD 0) more) := by
  have looked : ∀ x : Reading β, x = (do let _ ← Reading.lineOf (Name.length name); x) := by
    intro x
    funext t
    rw [Reading.lineOf_bind]
  simp only [length, Reading.judge?, bind_assoc]
  rw [looked (Reading.take _ >>= _)]
  refine Reading.lineOf_take_congr ?_ ?_ ?_
  · simp [grow_zero]
  · simp [grow_zero]
  · intro line s
    simp only [countRule, Rule.parsed, parseNumber]
    cases Decimal.readUInt64 (firstToken s) with
    | error f => simp [Reading.conclude, grow_zero]
    | ok n =>
        by_cases h : n.toNat ≤ max
        · simp [Reading.conclude, BoundedSize.set, Cause.excess?, h, Nat.not_lt.mpr h]
        · simp [Reading.conclude, BoundedSize.set, Cause.excess?, h,
            Nat.lt_of_not_le h, Nat.min_eq_right (Nat.le_of_not_le h)]

/-- The tag of a union as judged, and whether it changed. -/
def settle (r : Reader) (u : ResolvedUnion) (name : String) (old : Int32) : Reading Int32 :=
  match r.tagParser? u.tagType with
  | none => return old
  | some _ => Reading.judge name (r.tagRule u name) old

/-- A tag is parsed as the leaf that it is. -/
theorem leafParser?_tag (u : TagType) (d : Int32) :
    r.leafParser? (u.leaf d) = (r.tagParser? u).map fun parse s => u.leaf <$> parse s := by
  cases u with
  | int => rfl
  | «enum» ty =>
      simp only [leafParser?, tagParser?, TagType.leaf, Option.map_map]
      rfl

/-- A union is judged by its tag. -/
theorem settle_eq_judge {β : Type} (r : Reader) (name : String) (u : ResolvedUnion) (old : Int32)
    (next : Nat → Value → Bool → Reading β) :
    (do
      let line ← Reading.lineOf name
      let read ← Value.leaf <$> r.leaf name (u.tagType.leaf old)
      let (settled, changed) ← settleTag u name line (.leaf (u.tagType.leaf old)) read
      next line settled changed) = (do
      let line ← Reading.lineOf name
      let new ← r.settle u name old
      next line (.leaf (u.tagType.leaf new)) (decide (new ≠ old))) := by
  have plain : r.leaf name (u.tagType.leaf old) = r.plainLeaf name (u.tagType.leaf old) := by
    cases h : u.tagType <;> rfl
  rw [plain]
  cases hp : r.tagParser? u.tagType with
  | none =>
      have unread : r.plainLeaf name (u.tagType.leaf old) = pure (u.tagType.leaf old) := by
        simp [plainLeaf, leafParser?_tag, hp]
      simp [unread, settle, hp, settleTag]
  | some parse =>
      have read : r.leafParser? (u.tagType.leaf old) = some fun s =>
          u.tagType.leaf <$> parse s := by
        rw [leafParser?_tag, hp, Option.map_some]
      simp only [plainLeaf, read, settle, hp, Reading.judge, Reading.judge?, Reading.takeParsed,
        map_bind, bind_assoc, bind_map_left]
      refine Reading.lineOf_take_congr ?_ ?_ ?_
      · simp [settleTag]
      · simp [settleTag]
      · intro line s
        simp only [tagRule, Rule.choose, hp, Option.map_some, Rule.parsed]
        cases parse s with
        | error f =>
            have failed : u.tagType.leaf <$> (Except.error f : Except ParseFault Int32) =
                .error f := rfl
            simp [failed, settleTag, Reading.conclude]
        | ok new =>
            have made : u.tagType.leaf <$> (Except.ok new : Except ParseFault Int32) =
                .ok (u.tagType.leaf new) := rfl
            have kept : boundedLeaf name line (u.tagType.leaf new) = pure (u.tagType.leaf new) := by
              cases h : u.tagType <;> rfl
            have injective : u.tagType.leaf new = u.tagType.leaf old ↔ new = old :=
              ⟨TagType.leaf_injective, congrArg _⟩
            by_cases same : new = old
            · subst same
              simp [made, kept, settleTag, Reading.conclude]
            · by_cases armed : u.hasArm new
              · have some : (u.arm? new).isSome := armed
                simp [made, kept, injective, settleTag, same, armed, some, Reading.conclude]
              · have none : ¬ (u.arm? new).isSome := armed
                simp [made, kept, injective, settleTag, same, armed, none, Reading.conclude]

/-! ### The rules are fair -/

/-- A leaf that is cut down is of the same type. -/
theorem ty_bounded (l : Leaf) : (l.bounded name).1.ty = l.ty := by
  cases l <;> rfl

/-- What is parsed for a leaf has its type. -/
theorem parsed_ty {old : Leaf} {parse : List Char → Except ParseFault Leaf}
    (hp : r.leafParser? old = some parse) (s : List Char) :
    (Rule.parsed parse (fun _ l => Leaf.bounded name l) old s).1.ty = old.ty := by
  simp only [Rule.parsed]
  cases hs : parse s with
  | error f => rfl
  | ok l => exact (ty_bounded l).trans (leafParser?_ok hp hs).1

/-- The rule for a leaf keeps its type, so that it judges by the same parser again. -/
theorem leafRule_ty (old : Leaf) (s : List Char) : (r.leafRule name old s).1.ty = old.ty := by
  simp only [leafRule, Rule.choose]
  cases hp : r.leafParser? old with
  | none => rfl
  | some parse => exact parsed_ty hp s

/-- Leaves are judged fairly. -/
theorem leafRule_fair : (r.leafRule name).Fair := by
  refine Rule.choose_fair ?_ ?_
  · intro old rule h
    obtain ⟨parse, -, rfl⟩ := Option.map_eq_some_iff.mp h
    refine Rule.parsed_fair ?_ fun _ _ => rfl
    intro _ l c hc refuses
    cases l with
    | string | bytes => exact absurd refuses (Cause.not_refuses_excess? hc)
    | _ => cases hc
  · intro old rule s h
    obtain ⟨parse, hp, rfl⟩ := Option.map_eq_some_iff.mp h
    -- a leaf is parsed by its type
    rw [leafParser?_congr (parsed_ty hp s), hp, Option.map_some]

/-- Accounts under the short name of a source are judged fairly: a multiplexed one is refused, and
the old key stays. -/
theorem sourceRule_fair : sourceRule.Fair := by
  refine Rule.parsed_fair ?_ ?_
  · intro old a c h refuses
    cases a with
    | ed25519 key => cases h
    | muxed => rfl
  · intro old a
    cases a <;> rfl

theorem hintRule_fair : hintRule.Fair :=
  Rule.parsed_fair (fun _ _ _ h => by cases h) fun _ _ => rfl

theorem bodyRule_fair : (bodyRule name).Fair :=
  Rule.parsed_fair (fun _ _ _ h refuses => absurd refuses (Cause.not_refuses_excess? h))
    fun _ _ => rfl

theorem countRule_fair {max : Nat} : (countRule name max).Fair :=
  Rule.parsed_fair (fun _ _ _ h refuses => absurd refuses (Cause.not_refuses_excess? h))
    fun _ _ => rfl

theorem presenceRule_fair : (presenceRule name).Fair where
  refused old s c h refuses := by
    simp only [presenceRule] at h
    split at h
    · cases h
    · split at h <;> cases h
      cases refuses
  again _ _ := rfl

/-- Tags are judged fairly: one without an arm is refused, and the old tag stays. -/
theorem tagRule_fair {u : ResolvedUnion} : (r.tagRule u name).Fair := by
  refine Rule.choose_fair ?_ ?_
  · intro _ rule h
    obtain ⟨parse, -, rfl⟩ := Option.map_eq_some_iff.mp h
    refine Rule.parsed_fair ?_ ?_
    · intro old new c hc _
      by_cases ok : new = old ∨ u.hasArm new
      · simp [ok] at hc
      · simp [ok]
    · intro old new
      by_cases ok : new = old ∨ u.hasArm new
      · simp [ok]
      · simp [ok]
  · intro _ _ _ h
    exact h

end Reader
end XdrText
