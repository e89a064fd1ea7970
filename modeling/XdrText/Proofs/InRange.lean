import XdrText.Proofs.Access
import XdrText.Proofs.EnvelopeText
import XdrText.Proofs.Index
import XdrText.Proofs.Totality

/-!
# XdrText — every access is in range

Reading and writing are given once more with every access as one that can fail: those to the bytes
of codes and keys, the hint of a signature put into its block, a bare source key taken as a block,
and the arm that a union has for a case, by its index.  Nothing comes out once an access has failed.

**Accesses in range** (`Envelope.checked_eq`).  Any text is read into any tree of an envelope
without an access that fails, and so is the tree that comes out written, whatever the annotator:
what comes out is what reading and writing come to.
-/

namespace XdrText
open Text Form Key

/-! ### Reading -/

/-- A step of reading from which nothing comes out once an access has failed. -/
abbrev CheckedReading : Type → Type :=
  OptionT Reading

namespace CheckedReading
variable {α : Type}

/-- A step without an access. -/
abbrev lift (x : Reading α) : CheckedReading α :=
  liftM x

/-- What an access gives. -/
def access (o : Option α) : CheckedReading α :=
  OptionT.mk (pure o)

/-- An access that gives something is a step that comes to it. -/
@[simp] theorem access_some (a : α) : access (some a) = pure a :=
  rfl

/-- A step without an access always comes out. -/
theorem run_lift (x : Reading α) (t : Table) :
    (lift x).run t = { x t with value := some (x t).value } := by
  have run : (lift x).run = (some <$> x : Reading (Option α)) := by
    simp [lift, liftM, monadLift, MonadLift.monadLift]
  rw [run]
  simp [Functor.map, Reading.bind, Reading.pure]

/-- Takes the row of a name and parses its text. -/
def takeParsed (name : String) (parse : List Char → Option (Except ParseFault α)) :
    CheckedReading (Option (Nat × α)) := do
  match ← Reading.take name with
  | .missing | .help => return none
  | .text line value =>
    match ← access (parse value) with
    | .ok a => return some (line, a)
    | .error fault =>
      Reading.reject name line fault
      return none

/-- Where parsing never fails to access, taking and parsing a row does not either. -/
theorem takeParsed_eq {name : String} {parse : List Char → Except ParseFault α}
    {parseChecked : List Char → Option (Except ParseFault α)}
    (h : ∀ s, parseChecked s = some (parse s)) :
    takeParsed name parseChecked = liftM (Reading.takeParsed name parse) := by
  simp only [takeParsed, Reading.takeParsed, h, access_some, liftM_bind, pure_bind]
  congr 1
  funext entry
  cases entry with
  | missing | help => simp
  | text line value => cases hv : parse value <;> simp [hv]

end CheckedReading

namespace Reader

/-- The hint of a signature, put into its block. -/
def parseHintChecked (s : List Char) : Option (Except ParseFault (Block 4)) :=
  match Octets.scanFixed 4 s with
  | .error f => some (.error (.octets f))
  | .ok b => do return .ok (← Block.ofBytes? 4 b)

/-- The four bytes of a hint fill its block. -/
theorem parseHintChecked_eq (s : List Char) : parseHintChecked s = some (parseHint s) := by
  rw [parseHintChecked, parseHint]
  cases hs : Octets.scanFixed 4 s with
  | error f => rfl
  | ok b =>
      simp only [Block.ofBytes?_eq (Octets.length_scanFixed hs)]
      rfl

/-- An asset, or the word for a native one. -/
def parseAssetChecked (native : String) (s : List Char) : Option (Except ParseFault Asset) :=
  let token := firstToken s
  if token = native.toList then some (.ok .native)
  else do return (← Asset.parseChecked token).mapError .key

theorem parseAssetChecked_eq (native : String) (s : List Char) :
    parseAssetChecked native s = some (parseAsset native s) := by
  simp only [parseAssetChecked, parseAsset, Asset.parseChecked_eq]
  split <;> rfl

/-- How the text of a leaf is parsed, where `parse` is how that of other leaves is. -/
def parseLeafChecked (r : Reader) (parse : List Char → Except ParseFault Leaf) :
    Leaf → List Char → Option (Except ParseFault Leaf)
  | .code data, s => do return .code <$> (← Code.scanChecked data.length s).mapError .code
  | .account _, s => do return .account <$> (← Account.parseChecked (firstToken s)).mapError .key
  | .signer _, s => do return .signer <$> (← Signer.parseChecked (firstToken s)).mapError .key
  | .asset _, s => do return .asset <$> (← parseAssetChecked r.native s)
  | _, s => some (parse s)

variable {r : Reader}

theorem parseLeafChecked_eq {l : Leaf} {parse : List Char → Except ParseFault Leaf}
    (hp : r.leafParser? l = some parse) (s : List Char) :
    r.parseLeafChecked parse l s = some (parse s) := by
  cases l with
  | code | account | signer | asset =>
      cases hp
      simp only [parseLeafChecked, Code.scanChecked_eq, Account.parseChecked_eq,
        Signer.parseChecked_eq, parseAssetChecked_eq]
      rfl
  | _ => rfl

/-- A leaf with a row of its own, if its text can be parsed at all. -/
def plainLeafChecked (r : Reader) (name : String) (l : Leaf) : CheckedReading Leaf :=
  match r.leafParser? l with
  | none => pure l
  | some parse => do
    match ← CheckedReading.takeParsed name (r.parseLeafChecked parse l) with
    | none => return l
    | some (line, l) => boundedLeaf name line l

theorem plainLeafChecked_eq (name : String) (l : Leaf) :
    r.plainLeafChecked name l = liftM (r.plainLeaf name l) := by
  rw [plainLeafChecked, plainLeaf]
  cases hp : r.leafParser? l with
  | none => simp
  | some parse =>
      simp only [CheckedReading.takeParsed_eq (parseLeafChecked_eq hp), liftM_bind]
      congr 1
      funext found
      cases found <;> simp

/-- A bare source key from an account under the short name. -/
def bareSourceChecked (r : Reader) (name short : String) (l : Leaf) : CheckedReading Leaf := do
  match ← Reading.take short with
  | .missing => r.plainLeafChecked name l
  | .help =>
    Reading.discard name
    return l
  | .text line value =>
    match ← CheckedReading.access (Account.parseChecked (firstToken value)) with
    | .ok (.ed25519 key) =>
      Reading.discard name
      return .fixed key.bytes
    | .ok (.muxed ..) =>
      Reading.report line (.misplaced .muxedSource)
      Reading.discard name
      return l
    | .error f =>
      Reading.reject short line (.key f)
      Reading.discard name
      return l

/-- A leaf, with the short name of a bare source key first. -/
def leafChecked (r : Reader) (name : String) (l : Leaf) : CheckedReading Leaf :=
  match l.bareSource? name with
  | none => r.plainLeafChecked name l
  | some (short, _) => r.bareSourceChecked name short l

/-- The hint and the body of a signature, each from its own row. -/
def signatureChecked (name : String) (s : Signature) : CheckedReading Signature := do
  let hint ← CheckedReading.takeParsed (Name.child name "hint") parseHintChecked
  let bodyName := Name.child name "signature"
  match ← CheckedReading.lift
      (Reading.takeParsed bodyName fun s => (Octets.scan s).mapError .octets) with
  | none => return ⟨(hint.map Prod.snd).getD s.hint, s.body⟩
  | some (line, body) =>
    return ⟨(hint.map Prod.snd).getD s.hint,
      ← Reading.bounded bodyName line body Signature.maximum⟩

/-- The key of an account fills its block. -/
theorem bareSourceChecked_eq (name short : String) (l : Leaf) :
    r.bareSourceChecked name short l = liftM (r.bareSource name short l) := by
  simp only [bareSourceChecked, bareSource, Account.parseChecked_eq, CheckedReading.access_some,
    liftM_bind, pure_bind]
  congr 1
  funext entry
  cases entry with
  | missing => exact plainLeafChecked_eq name l
  | help => simp
  | text line value =>
      cases hv : Account.parse (firstToken value) with
      | error f => simp [hv]
      | ok a => cases a <;> simp [hv]

theorem leafChecked_eq (name : String) (l : Leaf) :
    r.leafChecked name l = liftM (r.leaf name l) := by
  rw [leafChecked, leaf]
  cases l.bareSource? name with
  | none => exact plainLeafChecked_eq name l
  | some p => exact bareSourceChecked_eq name p.1 l

theorem signatureChecked_eq (name : String) (g : Signature) :
    signatureChecked name g = liftM (signature name g) := by
  simp only [signatureChecked, signature,
    CheckedReading.takeParsed_eq parseHintChecked_eq, liftM_bind]
  congr 1
  funext hint
  congr 1
  funext found
  cases found <;> simp

/-! New nodes -/

/-- How a node is read with accesses that can fail. -/
abbrev CheckedNodeReader := Nat → String → Value → CheckedReading Value

section
variable (r : Reader) (new : CheckedNodeReader)

/-- The tag that a union settles on, which is the old one where the new one selects no arm. -/
def settleTagChecked (u : ResolvedUnion) (tagName : String) (line : Nat) (old new : Value) :
    CheckedReading (Value × Bool) := do
  if new = old then return (old, false)
  else if (← CheckedReading.access (u.selectChecked new)).isSome then return (new, true)
  else
    Reading.report line (.misplaced (.noArm u.name tagName (new.discriminant?.getD 0)))
    return (old, false)

/-- A value that appears, from the initial one of its type. -/
def createChecked (outer : Nat) (name : String) (ty : Ty) (line : Nat)
    (place : Option Value → Value) (old : Value) : CheckedReading Value := do
  match ← CheckedReading.access (r.schema.initialChecked ty) with
  | .ok v => (fun v => place (some v)) <$> new outer name v
  | .error .endlessType => CheckedReading.lift (Reading.giveUp old)
  | .error f =>
    Reading.report line (.misplaced (.noInitial f))
    return place none

/-- New elements, from index `i` on. -/
def newItemsChecked (name : String) : (i : Nat) → List Value → CheckedReading (List Value)
  | _, [] => return []
  | i, v :: vs => do
    let v ← new 0 (Name.index name i) v
    return v :: (← newItemsChecked name (i + 1) vs)

/-- The initial values of the elements that are lacking. -/
def growChecked (elem : Ty) (line lacking : Nat) : CheckedReading (List Value) := do
  if lacking = 0 then return []
  else
    match ← CheckedReading.access (r.schema.initialChecked elem) with
    | .ok v => return List.replicate lacking v
    | .error .endlessType => CheckedReading.lift (Reading.giveUp [])
    | .error f =>
      Reading.report line (.misplaced (.noInitial f))
      return []

mutual

/-- Reads a node that is there with accesses that can fail; nodes that appear are read by `new`. -/
def nodeWithChecked (outer : Nat) (name : String) : Value → CheckedReading Value
  | .leaf l => Value.leaf <$> r.leafChecked name l
  | .signature s => Value.signature <$> signatureChecked name s
  | .optional inner held => do
    if ← presence name (outer + 1) then
      let line ← Reading.lineOf name
      heldWithChecked (outer + 1) name (.optional inner)
        (createChecked r new (outer + 1) name inner line (.optional inner)
          (.optional inner none)) held
    else return .optional inner none
  | .array items => do
    let items ← itemsWithChecked name 0 items.length items
    return .array items
  | .seq elem max items => do
    let (line, n) ← length name max.toNat items.length
    let more ← growChecked r elem line (n - items.length)
    let kept ← itemsWithChecked name 0 n items
    let more ← newItemsChecked new name items.length more
    return .seq elem max (kept ++ more)
  | .struct ty fields => do
    let fields ← fieldsWithChecked name fields
    return .struct ty fields
  | .union ty tag arm => do
    match r.schema.union? ty with
    | none => return .union ty tag arm
    | some u =>
      let tagName := Name.child name u.tag
      let line ← Reading.lineOf tagName
      let read ← nodeWithChecked 0 tagName tag
      let (settled, changed) ← settleTagChecked u tagName line tag read
      match ← CheckedReading.access (u.selectChecked settled) with
      | none => return .union ty settled arm
      | some none => return .union ty settled none
      | some (some field) =>
        let fresh := createChecked r new 0 (u.armName name field) field.ty line (.union ty settled)
          (.union ty tag arm)
        if changed then fresh
        else heldWithChecked 0 (u.armName name field) (.union ty settled) fresh arm

/-- What a node holds, or else what is created for it. -/
def heldWithChecked (outer : Nat) (name : String) (place : Option Value → Value)
    (otherwise : CheckedReading Value) : Option Value → CheckedReading Value
  | none => otherwise
  | some v => (fun v => place (some v)) <$> nodeWithChecked outer name v

/-- The first `n` of the elements, from index `i` on. -/
def itemsWithChecked (name : String) (i : Nat) :
    (n : Nat) → List Value → CheckedReading (List Value)
  | 0, _ | _, [] => return []
  | n + 1, v :: vs => do
    let v ← nodeWithChecked 0 (Name.index name i) v
    let vs ← itemsWithChecked name (i + 1) n vs
    return v :: vs

/-- The fields of a struct, one after another. -/
def fieldsWithChecked (name : String) :
    List (String × Value) → CheckedReading (List (String × Value))
  | [] => return []
  | (field, v) :: fs => do
    let v ← nodeWithChecked 0 (Name.child name field) v
    let fs ← fieldsWithChecked name fs
    return (field, v) :: fs

end

end

/-- Reads a node with accesses that can fail, with new nodes nested at most `limit` times. -/
def nodeChecked (r : Reader) : (limit : Nat) → CheckedNodeReader
  | 0 => nodeWithChecked r fun _ _ v => CheckedReading.lift (Reading.giveUp v)
  | limit + 1 => nodeWithChecked r (r.nodeChecked limit)

section
variable {u : ResolvedUnion}

theorem settleTagChecked_eq (indexed : u.Indexed) (tagName : String)
    (line : Nat) (old new : Value) :
    settleTagChecked u tagName line old new = liftM (settleTag u tagName line old new) := by
  simp only [settleTagChecked, settleTag, ResolvedUnion.selectChecked_eq indexed,
    CheckedReading.access_some, pure_bind]
  by_cases same : new = old
  · simp [same]
  · by_cases armed : (new.discriminant?.bind u.arm?).isSome
    · simp [same, armed]
    · simp [same, armed]

/-- Each case of the schema has the index of an arm, and new nodes are read alike. -/
structure Alike (r : Reader) (new : NodeReader) (newChecked : CheckedNodeReader) : Prop where
  indexed : r.schema.Indexed
  read : ∀ outer name v, newChecked outer name v = liftM (new outer name v)

theorem growChecked_eq (indexed : r.schema.Indexed) (elem : Ty) (line lacking : Nat) :
    r.growChecked elem line lacking = liftM (r.grow elem line lacking) := by
  simp only [growChecked, grow, Schema.initialChecked_eq indexed,
    CheckedReading.access_some, pure_bind]
  by_cases none : lacking = 0
  · simp [none]
  · cases r.schema.initial elem with
    | ok v => simp [none]
    | error f => cases f <;> simp [none]

variable {new : NodeReader} {newChecked : CheckedNodeReader} (h : r.Alike new newChecked)
include h

theorem createChecked_eq (outer : Nat) (name : String) (ty : Ty) (line : Nat)
    (place : Option Value → Value) (old : Value) :
    r.createChecked newChecked outer name ty line place old =
      liftM (r.create new outer name ty line place old) := by
  simp only [createChecked, create, Schema.initialChecked_eq h.indexed, CheckedReading.access_some,
    pure_bind]
  cases r.schema.initial ty with
  | ok v => simp [h.read]
  | error f => cases f <;> simp

theorem newItemsChecked_eq (name : String) (i : Nat) (vs : List Value) :
    newItemsChecked newChecked name i vs = liftM (newItems new name i vs) := by
  induction vs generalizing i with
  | nil => simp [newItemsChecked, newItems]
  | cons v vs ih => simp [newItemsChecked, newItems, h.read, ih]

end

mutual

/-- The walk over a tree makes no access that fails, by recursion on the tree. -/
theorem nodeWithChecked_eq {new : NodeReader} {newChecked : CheckedNodeReader}
    (h : r.Alike new newChecked) (outer : Nat) (name : String) : ∀ v : Value,
      r.nodeWithChecked newChecked outer name v = liftM (r.nodeWith new outer name v)
  | .leaf l => by
      simp only [nodeWithChecked, nodeWith, leafChecked_eq, liftM_map]
  | .signature g => by
      simp only [nodeWithChecked, nodeWith, signatureChecked_eq, liftM_map]
  | .optional inner held => by
      simp only [nodeWithChecked, nodeWith, createChecked_eq h, liftM_bind]
      congr 1
      funext present
      cases present with
      | false => simp
      | true => simp [heldWithChecked_eq h _ _ _ _ held]
  | .array items => by
      simp [nodeWithChecked, nodeWith, itemsWithChecked_eq h _ _ _ items]
  | .seq elem max items => by
      simp [nodeWithChecked, nodeWith, growChecked_eq h.indexed, itemsWithChecked_eq h _ _ _ items,
        newItemsChecked_eq h]
  | .struct ty fields => by
      simp [nodeWithChecked, nodeWith, fieldsWithChecked_eq h _ fields]
  | .union ty tag arm => by
      simp only [nodeWithChecked, nodeWith]
      cases hu : r.schema.union? ty with
      | none => simp
      | some u =>
          have indexed := h.indexed.of_union? hu
          simp only [nodeWithChecked_eq h 0 _ tag, settleTagChecked_eq indexed,
            ResolvedUnion.selectChecked_eq indexed, createChecked_eq h, CheckedReading.access_some,
            liftM_bind, pure_bind]
          congr 1
          funext line
          congr 1
          funext read
          congr 1
          funext settled
          match settled.1.discriminant?.bind u.arm? with
          | none | some none => simp
          | some (some field) =>
              by_cases changed : settled.2
              · simp [changed]
              · simp [changed, heldWithChecked_eq h _ _ _ _ arm]

theorem heldWithChecked_eq {new : NodeReader} {newChecked : CheckedNodeReader}
    (h : r.Alike new newChecked) (outer : Nat) (name : String) (place : Option Value → Value)
    (otherwise : Reading Value) : ∀ held : Option Value,
      r.heldWithChecked newChecked outer name place (liftM otherwise) held =
        liftM (r.heldWith new outer name place otherwise held)
  | none => by
      simp [heldWithChecked, heldWith]
  | some v => by
      simp [heldWithChecked, heldWith, nodeWithChecked_eq h outer name v]

theorem itemsWithChecked_eq {new : NodeReader} {newChecked : CheckedNodeReader}
    (h : r.Alike new newChecked) (name : String) : ∀ (i n : Nat) (vs : List Value),
      r.itemsWithChecked newChecked name i n vs = liftM (r.itemsWith new name i n vs)
  | i, n, [] => by
      cases n <;> simp [itemsWithChecked, itemsWith]
  | i, 0, _ :: _ => by
      simp [itemsWithChecked, itemsWith]
  | i, n + 1, v :: vs => by
      simp [itemsWithChecked, itemsWith, nodeWithChecked_eq h 0 _ v,
        itemsWithChecked_eq h name (i + 1) n vs]

theorem fieldsWithChecked_eq {new : NodeReader} {newChecked : CheckedNodeReader}
    (h : r.Alike new newChecked) (name : String) : ∀ fs : List (String × Value),
      r.fieldsWithChecked newChecked name fs = liftM (r.fieldsWith new name fs)
  | [] => by
      simp [fieldsWithChecked, fieldsWith]
  | (field, v) :: fs => by
      simp [fieldsWithChecked, fieldsWith, nodeWithChecked_eq h 0 _ v,
        fieldsWithChecked_eq h name fs]

end

/-- With any number of nested new nodes, a node is read without an access out of range. -/
theorem nodeChecked_eq (indexed : r.schema.Indexed) (limit outer : Nat)
    (name : String) (v : Value) :
    r.nodeChecked limit outer name v = liftM (r.node limit outer name v) := by
  induction limit generalizing outer name v with
  | zero => exact nodeWithChecked_eq ⟨indexed, fun _ _ _ => rfl⟩ outer name v
  | succ limit ih => exact nodeWithChecked_eq ⟨indexed, ih⟩ outer name v

end Reader

namespace Schema

/-- Reads a document into a tree under a name, unless an access fails. -/
def readChecked (s : Schema) (native name doc : String) (v : Value) : Option Decoded :=
  let t := Document.table doc
  let out := (Reader.nodeChecked ⟨s, native⟩ (s.nestingLimit t v) 0 name v).run t
  out.value.map fun value =>
    { value
      faults := (Document.strayLines doc).map (⟨·, .missingColon⟩) ++ out.faults
      asked := out.asked
      complete := !out.overrun }

/-- Whatever the tree and the text are, reading makes no access that fails. -/
theorem readChecked_eq {s : Schema} (indexed : s.Indexed) (native name doc : String) (v : Value) :
    s.readChecked native name doc v = some (s.read native name doc v) := by
  simp only [readChecked, Reader.nodeChecked_eq (r := ⟨s, native⟩) indexed,
    CheckedReading.run_lift]
  rfl

end Schema

/-! ### Writing -/

namespace Writer

/-- The line of an account, whose text is put together in forty bytes. -/
def accountChecked (w : Writer) (name : String) (a : Account) : Option Written := do
  return .noted name (String.ofList (← a.textChecked)) (w.annotator.account a)

/-- The line of a leaf that is not a bare source key. -/
def plainLeafChecked (w : Writer) (name : String) : Leaf → Option Written
  | .code data => do return .line name (String.ofList (← Code.renderChecked data))
  | .account a => w.accountChecked name a
  | .asset .native => some (.line name w.annotator.native)
  | .asset a => do return .line name (String.ofList (← a.textChecked))
  | l => some (w.plainLeaf name l)

/-- A bare source key is taken as a block. -/
def leafChecked (w : Writer) (name : String) (l : Leaf) : Option Written :=
  match l.bareSource? name with
  | none => w.plainLeafChecked name l
  | some (short, data) => do w.accountChecked short (.ed25519 (← Block.ofBytes? 32 data))

mutual

/-- The lines of the node with a name, unless an access fails. -/
def nodeChecked (w : Writer) (outer : Nat) (name : String) : Value → Option Written
  | .leaf l => w.leafChecked name l
  | .signature s => some (w.signature name s)
  | .optional _ none => some (.line (Name.presence name (outer + 1)) "false")
  | .optional _ (some v) => do
    return .line (Name.presence name (outer + 1)) "true" ++ (← w.nodeChecked (outer + 1) name v)
  | .array items => w.itemsChecked name 0 items
  | .seq _ max items => do
    return .line (Name.length name) (Nat.repr items.length) ++ (← w.itemsChecked name 0 items) ++
      .faultOf name (countFault? name items.length max.toNat)
  | .struct _ fields => w.fieldsChecked name fields
  | .union ty tag arm =>
    match w.schema.union? ty with
    | none => some (.fault name (.unknownUnion ty))
    | some u =>
      match tag.discriminant? with
      | none => some (.fault name (.strangeTag ty))
      | some d => do
        match ← u.armChecked d with
        | none => return .fault name (.invalidTag d ty)
        | some field =>
          return (← w.nodeChecked 0 (Name.child name u.tag) tag) ++
            (← w.heldChecked u name ty field arm)

/-- The lines of the arm that a union of type `ty` holds where its tag selects `field`. -/
def heldChecked (w : Writer) (u : ResolvedUnion) (name ty : String) :
    Option Field → Option Value → Option Written
  | some f, some v => w.nodeChecked 0 (u.armName name f) v
  | none, none => some .empty
  | some f, none => some (.fault name (.missingArm ty f.name))
  | none, some _ => some (.fault name (.heldVoid ty))

/-- The lines of elements, from index `i` on. -/
def itemsChecked (w : Writer) (name : String) (i : Nat) : List Value → Option Written
  | [] => some .empty
  | v :: vs => do
    return (← w.nodeChecked 0 (Name.index name i) v) ++ (← w.itemsChecked name (i + 1) vs)

/-- The lines of fields, one after another. -/
def fieldsChecked (w : Writer) (name : String) : List (String × Value) → Option Written
  | [] => some .empty
  | (field, v) :: fs => do
    return (← w.nodeChecked 0 (Name.child name field) v) ++ (← w.fieldsChecked name fs)

end

variable {w : Writer}

theorem accountChecked_eq (name : String) (a : Account) :
    w.accountChecked name a = some (w.account name a) := by
  rw [accountChecked, Account.textChecked_eq]
  rfl

theorem plainLeafChecked_eq (name : String) (l : Leaf) :
    w.plainLeafChecked name l = some (w.plainLeaf name l) := by
  cases l with
  | code data =>
      rw [plainLeafChecked, Code.renderChecked_eq]
      rfl
  | account a => exact accountChecked_eq name a
  | asset a =>
      cases a with
      | native => rfl
      | alphaNum4 | alphaNum12 =>
          rw [plainLeafChecked, Asset.textChecked_eq]
          · rfl
          · nofun
  | _ => rfl

/-- A bare source key that is written without a fault is a block. -/
theorem leafChecked_eq {name : String} {l : Leaf} (h : (w.leaf name l).faults = []) :
    w.leafChecked name l = some (w.leaf name l) := by
  rw [leaf] at h ⊢
  rw [leafChecked]
  cases hb : l.bareSource? name with
  | none => exact plainLeafChecked_eq name l
  | some p =>
      simp only [hb] at h ⊢
      cases hk : Block.ofBytes? 32 p.2 with
      | none =>
          rw [hk] at h
          cases h
      | some key => exact accountChecked_eq p.1 (.ed25519 key)

mutual

/-- A tree that is written without a fault is written without an access that fails. -/
theorem nodeChecked_eq (indexed : w.schema.Indexed) (outer : Nat) (name : String) :
    ∀ v : Value, (w.node outer name v).faults = [] →
      w.nodeChecked outer name v = some (w.node outer name v)
  | .leaf l, h => by
      simp only [node] at h
      simp only [node, nodeChecked, leafChecked_eq h]
  | .signature g, _ => by
      simp only [node, nodeChecked]
  | .optional _ none, _ => by
      simp only [node, nodeChecked]
  | .optional _ (some v), h => by
      simp only [node, Written.faults_append, List.append_eq_nil_iff] at h
      simp only [node, nodeChecked, nodeChecked_eq indexed _ name v h.2]
      rfl
  | .array items, h => by
      simp only [node] at h
      simp only [node, nodeChecked, itemsChecked_eq indexed name 0 items h]
  | .seq _ max items, h => by
      simp only [node, Written.faults_append, List.append_eq_nil_iff] at h
      simp only [node, nodeChecked, itemsChecked_eq indexed name 0 items h.1.2]
      rfl
  | .struct _ fields, h => by
      simp only [node] at h
      simp only [node, nodeChecked, fieldsChecked_eq indexed name fields h]
  | .union ty tag arm, h => by
      simp only [node] at h
      simp only [node, nodeChecked]
      cases hu : w.schema.union? ty with
      | none => rfl
      | some u =>
          simp only [hu] at h ⊢
          cases hd : tag.discriminant? with
          | none => rfl
          | some d =>
              simp only [hd, ResolvedUnion.armChecked_eq (indexed.of_union? hu), bind,
                Option.bind_some] at h ⊢
              cases ha : u.arm? d with
              | none => rfl
              | some field =>
                  simp only [ha, Written.faults_append, List.append_eq_nil_iff] at h ⊢
                  simp only [nodeChecked_eq indexed 0 _ tag h.1, Option.bind_some]
                  match field, arm, h with
                  | none, none, _ | some _, none, _ | none, some _, _ =>
                      simp only [heldChecked]
                      rfl
                  | some f, some v, h =>
                      simp only [heldChecked, nodeChecked_eq indexed 0 _ v h.2]
                      rfl

theorem itemsChecked_eq (indexed : w.schema.Indexed) (name : String) :
    ∀ (i : Nat) (vs : List Value),
    (w.items name i vs).faults = [] → w.itemsChecked name i vs = some (w.items name i vs)
  | _, [], _ => by
      simp only [items, itemsChecked]
  | i, v :: vs, h => by
      simp only [items, Written.faults_append, List.append_eq_nil_iff] at h
      simp only [items, itemsChecked, nodeChecked_eq indexed 0 _ v h.1,
        itemsChecked_eq indexed name (i + 1) vs h.2]
      rfl

theorem fieldsChecked_eq (indexed : w.schema.Indexed) (name : String) :
    ∀ fs : List (String × Value), (w.fields name fs).faults = [] →
      w.fieldsChecked name fs = some (w.fields name fs)
  | [], _ => by
      simp only [fields, fieldsChecked]
  | (field, v) :: fs, h => by
      simp only [fields, Written.faults_append, List.append_eq_nil_iff] at h
      simp only [fields, fieldsChecked, nodeChecked_eq indexed 0 _ v h.1,
        fieldsChecked_eq indexed name fs h.2]
      rfl

end

end Writer

namespace Schema

/-- Writes a tree under a name, unless an access fails. -/
def writeChecked (s : Schema) (a : Annotator) (name : String) (v : Value) : Option Written :=
  Writer.nodeChecked ⟨s, a, v⟩ 0 name v

/-- Writing a tree of a type makes no access that fails. -/
theorem writeChecked_eq {s : Schema} (indexed : s.Indexed) (a : Annotator) {name : String} {ty : Ty}
    (sources : s.BareSources name ty) {v : Value} (h : s.HasType ty v) :
    s.writeChecked a name v = some (s.write a name v) :=
  Writer.nodeChecked_eq (w := ⟨s, a, v⟩) indexed 0 name v (write_faults h sources)

end Schema

namespace Envelope

/-- In the built-in schema each case has the index of an arm. -/
theorem indexed : schema.Indexed :=
  Definitions.resolve_indexed resolve_definitions

/-- Reading any text into an envelope makes no access that fails and comes to its end, and writing
what comes out makes none either.  The hint of an account is four bytes that are there. -/
theorem checked_eq {v : Value} (h : schema.HasType ty v) (native doc : String) (a : Annotator) :
    schema.readChecked native "" doc v = some (schema.read native "" doc v) ∧
      (schema.read native "" doc v).complete ∧
      schema.writeChecked a "" (schema.read native "" doc v).value =
        some (schema.write a "" (schema.read native "" doc v).value) ∧
      ∀ x : Key.Account, x.hintChecked = some x.hint :=
  ⟨Schema.readChecked_eq indexed native "" doc v, read_complete h native "" doc,
    Schema.writeChecked_eq indexed a bareSources (read_hasType h), Key.Account.hintChecked_eq⟩

/-- A document with keys that are too short and a hint of three bytes. -/
def shortened : String :=
  "type: ENVELOPE_TYPE_TX\ntx.sourceAccount: MAAA\n" ++
    "signatures.len: 1\nsignatures[0].hint: 000000\n"

/-- Bytes that are lacking are faults of their lines. -/
theorem checked_eq_shortened :
    schema.HasType ty initial ∧
      schema.readChecked "native" "" shortened initial =
        some (schema.read "native" "" shortened initial) ∧
      schema.writeChecked .plain "" (schema.read "native" "" shortened initial).value =
        some (schema.write .plain "" (schema.read "native" "" shortened initial).value) ∧
      (schema.read "native" "" shortened initial).faults =
        [⟨2, .malformed (.key (.strKey .invalidLength))⟩,
          ⟨4, .malformed (.octets (.wrongLength 4 3))⟩] := by
  have checked := checked_eq initial_hasType "native" shortened .plain
  exact ⟨initial_hasType, checked.1, checked.2.2.1, by decide +kernel⟩

end Envelope
end XdrText
