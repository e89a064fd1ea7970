import XdrText.Proofs.Lines
import XdrText.Proofs.Place

/-!
# XdrText — the lines of a tree have names of their own

Each line of a node has one of the names that the node has room for (`Name.Slot`), and no two nodes
side by side have room for one name if they go by different words.  A bare source key counts as the
short name that it is written under.

**Distinct names** (`Schema.write_names_nodup`).  No two lines of a tree have one name where the
parts of each struct and union go by different words (`Schema.Apart`).  A schema that resolves can
lack this: the tag of a union may be named like the field beside it (`Schema.write_twins`).
-/

namespace XdrText

namespace Name

/-! ### Words side by side -/

/-- The word that a field shows; the field of a bare source key is written under a short one. -/
def shown (field : String) : String :=
  if field = "sourceAccountEd25519" then "sourceAccount" else field

/-- The names that the lines of a field can have. -/
def Within (name field n : String) : Prop :=
  ∃ w, isIdentifier w ∧ shown w = shown field ∧ Below (child name w) n

/-- A line tells which word its field shows. -/
theorem Within.shown_eq {name f g n : String} (h : Within name f n) (h' : Within name g n) :
    shown f = shown g := by
  obtain ⟨w, hw, hf, below⟩ := h
  obtain ⟨x, hx, hg, below'⟩ := h'
  have same := below.child_injective (word_of_isIdentifier hw) (word_of_isIdentifier hx) below'
  rw [← hf, ← hg, same]

/-- What stands behind the last dot. -/
theorem reverse_takeWhile_dot {start f : List Char} (hf : '.' ∉ f)
    (dot : ∀ c, start.getLast? = some c → c = '.') :
    (start ++ f).reverse.takeWhile (· ≠ '.') = f.reverse := by
  rw [List.reverse_append]
  refine Text.takeWhile_append_of_head (fun c hc => ?_) fun c hc => ?_
  · simp only [decide_eq_true_eq]
    rintro rfl
    exact hf (List.mem_reverse.mp hc)
  · rw [List.head?_reverse] at hc
    simp [dot c hc]

/-- Behind the last dot stands the word. -/
theorem split_dot {a b f g : List Char} (hf : '.' ∉ f) (hg : '.' ∉ g)
    (h : a ++ '.' :: f = b ++ '.' :: g) : a = b ∧ f = g := by
  have back : ∀ {a f : List Char}, '.' ∉ f →
      (a ++ '.' :: f).reverse.takeWhile (· ≠ '.') = f.reverse := by
    intro a f hf
    have behind := @reverse_takeWhile_dot (a ++ ['.']) f hf (by simp)
    rwa [List.append_assoc, List.singleton_append] at behind
  have same : f = g := List.reverse_injective (by rw [← back hf, h, back hg])
  subst same
  exact ⟨List.append_cancel_right h, rfl⟩

/-- Only the field of a bare source key has a short name. -/
theorem sourceAlias?_child {name f n : String} (hf : Word f)
    (h : sourceAlias? (child name f) = some n) :
    f = "sourceAccountEd25519" ∧ n = child name "sourceAccount" := by
  obtain ⟨start, hlong, hshort⟩ := sourceAlias?_eq_some h
  have dotless : '.' ∉ f.toList := fun hc => absurd (hf.unjoint '.' hc) (by decide)
  have long : (child name f).toList =
      (start ++ ['t', 'x']) ++ '.' :: "sourceAccountEd25519".toList := by
    rw [hlong, List.append_assoc]
    rfl
  have short : n.toList = (start ++ ['t', 'x']) ++ '.' :: "sourceAccount".toList := by
    rw [hshort, List.append_assoc]
    rfl
  rw [toList_child] at long
  by_cases root : name = ""
  · -- the field would be the whole name, which has a dot
    refine absurd ?_ dotless
    rw [front, if_pos root, List.nil_append] at long
    rw [long]
    simp
  · rw [front, if_neg root, List.append_assoc, List.singleton_append] at long
    obtain ⟨hname, hf⟩ := split_dot dotless (by decide) long
    refine ⟨String.toList_injective hf, String.toList_injective ?_⟩
    rw [short, toList_child, front, if_neg root, hname]
    simp

/-- An element is no bare source key. -/
theorem sourceAlias?_index (name : String) (i : Nat) : sourceAlias? (index name i) = none := by
  cases h : sourceAlias? (index name i) with
  | none => rfl
  | some n =>
      obtain ⟨start, hlong, -⟩ := sourceAlias?_eq_some h
      rw [toList_index, ← List.cons_append, ← List.append_assoc] at hlong
      have last := congrArg List.getLast? hlong
      rw [List.getLast?_concat, List.getLast?_append] at last
      exact absurd last (by simp)

/-! ### Room for names -/

/-- The word for the presence of an optional is a word. -/
theorem word_selector (depth : Nat) : Word (selector depth) where
  ne_empty h := by
    have := congrArg String.toList h
    rw [toList_selector] at this
    simp at this
  unjoint _ hc := by
    have inside : ∀ c ∈ "_inner_present".toList, isJoint c = false := Text.forall_of_all (by decide)
    exact inside _ (mem_selector hc)

/-- It begins with an underscore, so no field goes by it. -/
theorem not_isIdentifier_selector (depth : Nat) : ¬ isIdentifier (selector depth) := by
  rw [isIdentifier, toList_selector]
  cases depth - 1 with
  | zero => decide
  | succ k => rw [List.replicate_succ, List.flatten_cons]; simp

/-- It tells how deep the optional is. -/
theorem selector_injective {d e : Nat} (h : selector (d + 1) = selector (e + 1)) : d = e := by
  have length : ∀ k, (selector (k + 1)).toList.length = k * 6 + 8 := by
    intro k
    simp [toList_selector]
  have same := length d
  rw [h, length e] at same
  omega

theorem length_lt_child {name f : String} (hf : f ≠ "") : name.length < (child name f).length := by
  have pos : 0 < f.toList.length := List.length_pos_iff.mpr fun h => hf (String.toList_injective h)
  rw [← String.length_toList, ← String.length_toList, toList_child, List.length_append, front]
  split
  next root => simpa [root] using pos
  next =>
    simp only [List.length_append, List.length_singleton]
    omega

/-- No name is below a field and below an element. -/
theorem Below.not_index {name f n : String} {i : Nat} (hf : Word f) (h : Below (child name f) n) :
    ¬ Below (index name i) n := by
  intro h'
  obtain ⟨tail, hn, -⟩ := h.exists_tail (child_ne_empty hf.ne_empty)
  obtain ⟨tail', hn', -⟩ := h'.exists_tail (index_ne_empty name i)
  rw [hn, toList_child, toList_index, front] at hn'
  split at hn'
  next root =>
    cases hw : f.toList with
    | nil => exact hf.ne_empty (String.toList_injective hw)
    | cons c cs =>
        rw [hw, root] at hn'
        have head : c = '[' := (List.cons.inj hn').1
        have := hf.unjoint c (hw ▸ List.mem_cons_self)
        rw [head] at this
        cases this
  next =>
    simp only [List.append_assoc] at hn'
    have := List.append_cancel_left hn'
    exact absurd (List.cons.inj this).1 (by decide)

/-- The names that a node has room for; `outer` counts the optionals directly around it. -/
inductive Slot (outer : Nat) (name : String) : String → Prop where
  | own : Slot outer name name
  | short {n : String} (h : sourceAlias? name = some n) : Slot outer name n
  | part {w n : String} (hw : isIdentifier w) (h : Below (child name w) n) : Slot outer name n
  | item {i : Nat} {n : String} (h : Below (index name i) n) : Slot outer name n
  | presence {d : Nat} (h : outer < d) : Slot outer name (presence name d)

namespace Slot
variable {outer : Nat} {name n : String}

/-- The more optionals are around a node, the fewer names it has room for. -/
theorem mono {inner : Nat} (h : Slot inner name n) (le : outer ≤ inner) : Slot outer name n := by
  cases h with
  | own => exact .own
  | short hs => exact .short hs
  | part hw h => exact .part hw h
  | item h => exact .item h
  | presence hd => exact .presence (Nat.lt_of_le_of_lt le hd)

/-- The names for which a field has room are those of its lines. -/
theorem within {f : String} (hf : isIdentifier f) (h : Slot outer (child name f) n) :
    Within name f n := by
  have inside : Below (child name f) n → Within name f n := fun below => ⟨f, hf, rfl, below⟩
  cases h with
  | own => exact inside (.refl _)
  | short hs =>
      obtain ⟨rfl, rfl⟩ := sourceAlias?_child (word_of_isIdentifier hf) hs
      exact ⟨"sourceAccount", by decide, by decide, .refl _⟩
  | part hw h => exact inside (h.of_child (ne_empty_of_isIdentifier hw))
  | item h => exact inside h.of_index
  | presence => exact inside (below_child _ _)

/-- The names for which an element has room are below it. -/
theorem below_index {i : Nat} (h : Slot outer (index name i) n) : Below (index name i) n := by
  cases h with
  | own => exact .refl _
  | short hs =>
      rw [sourceAlias?_index] at hs
      cases hs
  | part hw h => exact h.of_child (ne_empty_of_isIdentifier hw)
  | item h => exact h.of_index
  | presence => exact below_child _ _

/-- A node has no room for the name by which the optional around it is present. -/
theorem ne_presence (h : Slot (outer + 1) name n) : n ≠ Name.presence name (outer + 1) := by
  intro hn
  have longer : name.length < n.length := hn ▸ length_lt_child (word_selector _).ne_empty
  have below : Below (child name (selector (outer + 1))) n := hn ▸ .refl _
  cases h with
  | own => exact Nat.lt_irrefl _ longer
  | short hs => exact Nat.lt_asymm longer (length_lt_of_sourceAlias? hs)
  | part hw h =>
      have same := h.child_injective (word_of_isIdentifier hw) (word_selector _) below
      exact not_isIdentifier_selector _ (same ▸ hw)
  | item h => exact below.not_index (word_selector _) h
  | @presence d hd =>
      obtain ⟨d, rfl⟩ := Nat.exists_eq_add_one_of_ne_zero (show d ≠ 0 by omega)
      -- the depths of the two selectors differ
      have same := selector_injective (child_right_injective hn)
      omega

end Slot

/-- The names that a node has room for where its parts go by some words. -/
inductive Among (words : List String) (name : String) : String → Prop where
  | own : Among words name name
  | short {n : String} (h : sourceAlias? name = some n) : Among words name n
  | part {w n : String} (hw : w ∈ words) (h : Within name w n) : Among words name n
  | item {i : Nat} {n : String} (h : Below (index name i) n) : Among words name n

namespace Among
variable {words : List String} {name n : String}

/-- Names that go on by words are names for which there is room. -/
theorem slot (h : Among words name n) (outer : Nat) : Slot outer name n := by
  cases h with
  | own => exact .own
  | short hs => exact .short hs
  | part _ h =>
      obtain ⟨w, hw, -, below⟩ := h
      exact .part hw below
  | item h => exact .item h

/-- With more words there are more names. -/
theorem mono {more : List String} (h : Among words name n) (sub : words ⊆ more) :
    Among more name n := by
  cases h with
  | own => exact .own
  | short hs => exact .short hs
  | part hw h => exact .part (sub hw) h
  | item h => exact .item h

/-- There is no room for a part that goes by another word. -/
theorem not_child {w : String} (hw : isIdentifier w) (other : ∀ x ∈ words, shown x ≠ shown w) :
    ¬ Among words name (child name w) := by
  have below : Below (child name w) (child name w) := .refl _
  have longer : name.length < (child name w).length := length_lt_child (ne_empty_of_isIdentifier hw)
  generalize hn : child name w = n at below longer
  intro h
  cases h with
  | own => exact Nat.lt_irrefl _ longer
  | short hs => exact Nat.lt_asymm longer (length_lt_of_sourceAlias? hs)
  | part hx h => exact other _ hx (h.shown_eq ⟨w, hw, rfl, hn ▸ below⟩)
  | item h => exact Below.not_index (word_of_isIdentifier hw) (hn ▸ below) h

end Among

end Name

/-! ### Lines -/

/-- Names that are distinct, all of which are in a place. -/
structure Tidy (place : String → Prop) (names : List String) : Prop where
  nodup : names.Nodup
  mem : ∀ n ∈ names, place n

namespace Tidy
variable {p q : String → Prop} {name : String} {names more : List String}

theorem nil : Tidy p [] :=
  ⟨List.nodup_nil, by simp⟩

theorem mono (h : Tidy p names) (hq : ∀ n, p n → q n) : Tidy q names :=
  ⟨h.nodup, fun n hn => hq n (h.mem n hn)⟩

/-- One more name is tidy in front of others where it cannot be one of theirs. -/
theorem cons (hn : p name) (h : Tidy q names) (apart : ¬ q name) (hq : ∀ n, q n → p n) :
    Tidy p (name :: names) where
  nodup := List.nodup_cons.mpr ⟨fun hm => apart (h.mem name hm), h.nodup⟩
  mem := List.forall_mem_cons.mpr ⟨hn, (h.mono hq).mem⟩

/-- Tidy names of two places are tidy where the places have nothing in common. -/
theorem append (h : Tidy p names) (h' : Tidy q more) (apart : ∀ n, p n → ¬ q n) :
    Tidy (fun n => p n ∨ q n) (names ++ more) where
  nodup := List.nodup_append'.mpr
    ⟨h.nodup, h'.nodup, fun n hn hn' => apart n (h.mem n hn) (h'.mem n hn')⟩
  mem := List.forall_mem_append.mpr
    ⟨fun n hn => .inl (h.mem n hn), fun n hn => .inr (h'.mem n hn)⟩

theorem single (hn : p name) : Tidy p [name] :=
  ⟨List.nodup_singleton _, by simpa using hn⟩

end Tidy

namespace Schema
variable {s : Schema}

/-- The names of the fields and of the tags in a schema are identifiers. -/
structure Named (s : Schema) : Prop where
  field : ∀ f ∈ s.fields, Name.isIdentifier f.name
  tag : ∀ u ∈ s.unions, Name.isIdentifier u.tag

instance (s : Schema) : Decidable s.Named :=
  decidable_of_iff
    ((∀ f ∈ s.fields, Name.isIdentifier f.name) ∧ ∀ u ∈ s.unions, Name.isIdentifier u.tag)
    ⟨fun ⟨field, tag⟩ => ⟨field, tag⟩, fun h => ⟨h.field, h.tag⟩⟩

/-- The words by which a value of a type goes on from its name.  There are none to be told for an
optional, which can be directly inside another, nor for a union with an inline arm. -/
def words? (s : Schema) : Ty → Option (List String)
  | .optional _ => none
  | .seq .. => some ["len"]
  | .struct ty => (s.struct? ty).map fun d => d.fields.map Field.name
  | .union ty => (s.union? ty).bind fun u =>
      if u.inline then none else some (u.tag :: u.fields.map Field.name)
  | .signature => some ["hint", "signature"]
  | _ => some []

/-- The words that stand beside the tag of a union when it holds a value for a field: that of the
field, or for an inline arm those by which the value goes on. -/
def beside? (s : Schema) (u : ResolvedUnion) (f : Field) : Option (List String) :=
  if u.inline then s.words? f.ty else some [f.name]

/-- The fields of a struct go by different words, and the tag of a union by another than stand
beside it. -/
structure Apart (s : Schema) : Prop where
  fields : ∀ d ∈ s.structs, (d.fields.map fun f => Name.shown f.name).Nodup
  tag : ∀ u ∈ s.unions, ∀ f ∈ u.fields, (s.beside? u f).any fun words =>
    words.all fun w => Name.shown w ≠ Name.shown u.tag

instance (s : Schema) : Decidable s.Apart :=
  decidable_of_iff
    ((∀ d ∈ s.structs, (d.fields.map fun f => Name.shown f.name).Nodup) ∧
      ∀ u ∈ s.unions, ∀ f ∈ u.fields, (s.beside? u f).any fun words =>
        words.all fun w => Name.shown w ≠ Name.shown u.tag)
    ⟨fun ⟨fields, tag⟩ => ⟨fields, tag⟩, fun h => ⟨h.fields, h.tag⟩⟩

/-- The names that a value of a type has room for. -/
def Room (s : Schema) (outer : Nat) (name : String) (ty : Ty) (n : String) : Prop :=
  match s.words? ty with
  | some words => Name.Among words name n
  | none => Name.Slot outer name n

/-- There is room for no other names than those of the node. -/
theorem Room.slot {outer : Nat} {name n : String} {ty : Ty} (h : s.Room outer name ty n) :
    Name.Slot outer name n := by
  rw [Room] at h
  split at h
  · exact h.slot outer
  · exact h

/-- A value has room for names that go on by its words. -/
theorem Room.of_among {outer : Nat} {name n : String} {ty : Ty} {words : List String}
    (h : Name.Among words name n) (sub : ∀ all, s.words? ty = some all → words ⊆ all) :
    s.Room outer name ty n := by
  rw [Room]
  split
  next all hall => exact h.mono (sub all hall)
  next => exact h.slot outer

/-- Beside the tag of a union its field goes by another word than the tag. -/
theorem Apart.beside (apart : s.Apart) (u : ResolvedUnion) (hu : u ∈ s.unions) (f : Field)
    (hf : f ∈ u.fields) :
    ∃ words, s.beside? u f = some words ∧ ∀ w ∈ words, Name.shown w ≠ Name.shown u.tag := by
  simpa [Option.any_eq_true] using apart.tag u hu f hf

/-- The names of an arm are among those beside the tag. -/
theorem Room.beside {u : ResolvedUnion} {f : Field} {name n : String} {words : List String}
    (hf : Name.isIdentifier f.name) (hwords : s.beside? u f = some words)
    (h : s.Room 0 (u.armName name f) f.ty n) : Name.Among words name n := by
  rw [ResolvedUnion.armName] at h
  rw [beside?] at hwords
  split at hwords
  next inline =>
    rw [if_pos inline, Room, hwords] at h
    exact h
  next inline =>
    rw [if_neg inline] at h
    cases hwords
    exact .part (List.mem_singleton_self f.name) (h.slot.within hf)

section
variable {ty name n : String} {u : ResolvedUnion} {outer : Nat}

/-- A union has words to be told if its arms are not inline: the tag and the fields. -/
theorem words?_union (hu : s.union? ty = some u) {all : List String}
    (hall : s.words? (.union ty) = some all) :
    u.inline = false ∧ all = u.tag :: u.fields.map Field.name := by
  rw [words?, hu, Option.bind_some] at hall
  split at hall
  next => cases hall
  next inline => exact ⟨by simpa using inline, (Option.some.inj hall).symm⟩

/-- There is room for the tag. -/
theorem Room.tag (hu : s.union? ty = some u) (identifier : Name.isIdentifier u.tag) :
    s.Room outer name (.union ty) (Name.child name u.tag) := by
  have among : Name.Among [u.tag] name (Name.child name u.tag) :=
    .part List.mem_cons_self ⟨u.tag, identifier, rfl, .refl _⟩
  refine .of_among among fun all hall => ?_
  rw [(words?_union hu hall).2]
  exact List.cons_subset_cons _ (List.nil_subset _)

/-- What stands beside the tag of a union has room in the union. -/
theorem Room.of_beside (hu : s.union? ty = some u) {f : Field} (hf : f ∈ u.fields)
    {words : List String} (hwords : s.beside? u f = some words) (h : Name.Among words name n) :
    s.Room outer name (.union ty) n := by
  refine .of_among h fun all hall => ?_
  obtain ⟨inline, rfl⟩ := words?_union hu hall
  simp only [beside?, inline, Bool.false_eq_true, if_false, Option.some.injEq] at hwords
  rw [← hwords]
  exact List.cons_subset.mpr ⟨List.mem_cons_of_mem _ (List.mem_map_of_mem hf), List.nil_subset _⟩

end

end Schema

namespace Writer
variable {w : Writer}

/-- The line of a leaf has room. -/
theorem leaf_tidy (outer : Nat) (name : String) {x : Leaf} (h : x.Within w.schema.Knows) :
    Tidy (w.schema.Room outer name x.ty) ((w.leaf name x).lines.map Line.name) := by
  have room : ∀ {n}, Name.Among [] name n → w.schema.Room outer name x.ty n :=
    fun among => .of_among among fun _ _ => List.nil_subset _
  rcases leaf_names h name with empty | ⟨n, rfl | hs, names⟩
  · exact empty ▸ .nil
  · exact names ▸ .single (room .own)
  · exact names ▸ .single (room (.short hs))

/-- The tag of a union has its line. -/
theorem tag_names {name : String} {t : TagType} {d : Int32} (h : (t.leaf d).Within w.schema.Knows) :
    (w.leaf name (t.leaf d)).lines.map Line.name = [name] := by
  have plain : w.leaf name (t.leaf d) = w.plainLeaf name (t.leaf d) := by cases t <;> rfl
  rw [plain, plainLeaf_names h]

mutual

/-- The lines of a node have names of their own, for which there is room, by recursion on the
tree. -/
theorem node_tidy (named : w.schema.Named) (apart : w.schema.Apart) :
    ∀ (v : Value) (outer : Nat) (name : String) {ty : Ty}, w.schema.HasType ty v →
      Tidy (w.schema.Room outer name ty) ((w.node outer name v).lines.map Line.name)
  | .leaf l, outer, name, _, .leaf hl h => by
      subst hl
      simp only [node]
      exact leaf_tidy outer name h
  | .signature g, outer, name, _, .signature _ => by
      have part : ∀ {word}, word ∈ ["hint", "signature"] → Name.isIdentifier word →
          w.schema.Room outer name .signature (Name.child name word) := fun hm hw =>
        .part hm ⟨_, hw, rfl, .refl _⟩
      simp only [node, signature_names]
      refine .cons (q := (· = Name.child name "signature")) (part (by decide) (by decide))
        (.single rfl) (fun same => ?_) fun n hn => hn ▸ part (by decide) (by decide)
      exact absurd (Name.child_right_injective same) (by decide)
  | .optional inner none, outer, name, _, .absent => by
      simp only [node, Written.lines_line, List.map_singleton]
      exact .single (.presence (Nat.lt_succ_self outer))
  | .optional inner (some v), outer, name, _, .present h => by
      simp only [node, Written.lines_append, Written.lines_line,
        List.singleton_append, List.map_cons]
      refine .cons (.presence (Nat.lt_succ_self outer)) (node_tidy named apart v _ name h)
        (fun room => room.slot.ne_presence rfl) fun _ room => room.slot.mono (Nat.le_succ outer)
  | .array items, outer, name, .array elem n, .array _ h => by
      simp only [node]
      exact (items_tidy named apart items name 0 h).mono fun _ ⟨_, _, below⟩ => .item below
  | .seq elem max items, outer, name, _, .seq _ h => by
      simp only [node, Written.lines_append, Written.lines_line, Written.lines_faultOf,
        List.append_nil, List.singleton_append, List.map_cons]
      have word : Name.isIdentifier "len" := by decide
      refine .cons (.part List.mem_cons_self ⟨"len", word, rfl, .refl _⟩)
        (items_tidy named apart items name 0 h)
        (fun ⟨_, _, below⟩ => Name.Below.not_index (Name.word_of_isIdentifier word) (.refl _) below)
        fun _ ⟨_, _, below⟩ => .item below
  | .struct _ fields, outer, name, _, .struct hd h => by
      simp only [node]
      refine (fields_tidy named apart fields name h
        (fun f hf => named.field f (Schema.mem_fields_of_struct? hd hf))
        (apart.fields _ (Schema.mem_of_struct? hd))).mono fun _ ⟨f, hf, within⟩ => ?_
      refine .of_among (.part (List.mem_map_of_mem hf) within) fun all hall => ?_
      rw [Schema.words?, hd, Option.map_some] at hall
      exact (Option.some.inj hall) ▸ List.Subset.refl _
  | .union ty tag none, outer, name, _, h => by
      obtain ⟨rfl, u, d, hu, rfl, ht, harm⟩ := h.of_union
      rcases harm.void_or_value with ⟨ha, -⟩ | ⟨_, _, -, hv, -⟩
      · rw [node_void hu ha]
        simp only [Written.lines_append, Written.lines_empty, List.append_nil, tag_names ht]
        exact .single (.tag hu (named.tag u (Schema.mem_of_union? hu)))
      · cases hv
  | .union ty tag (some v), outer, name, _, h => by
      obtain ⟨rfl, u, d, hu, rfl, ht, harm⟩ := h.of_union
      rcases harm.void_or_value with ⟨-, hv⟩ | ⟨f, _, ha, hv, h⟩
      · cases hv
      · cases hv
        have hm := Schema.mem_of_union? hu
        have identifier := named.tag u hm
        have own := named.field f (Schema.mem_fields_of_union? hu ha)
        have hf := Schema.mem_fields_of_arm? ha
        obtain ⟨words, hwords, distinct⟩ := apart.beside u hm f hf
        -- no word beside the tag is that of the tag
        have arm : Tidy (Name.Among words name)
            ((w.node 0 (u.armName name f) v).lines.map Line.name) :=
          (node_tidy named apart v 0 _ h).mono fun _ room => room.beside own hwords
        rw [node_arm hu ha]
        simp only [Written.lines_append, List.map_append, tag_names ht, List.singleton_append]
        exact .cons (.tag hu identifier) arm (Name.Among.not_child identifier distinct)
          fun _ among => .of_beside hu hf hwords among

/-- The lines of elements are below their indices, which differ. -/
theorem items_tidy (named : w.schema.Named) (apart : w.schema.Apart) :
    ∀ (vs : List Value) (name : String) {elem : Ty} (i : Nat), (∀ v ∈ vs, w.schema.HasType elem v) →
      Tidy (fun n => ∃ j, i ≤ j ∧ Name.Below (Name.index name j) n)
        ((w.items name i vs).lines.map Line.name)
  | [], _, _, _, _ => by
      simp only [items, Written.lines_empty, List.map_nil]
      exact .nil
  | v :: vs, name, _, i, h => by
      have own := List.forall_mem_cons.mp h
      simp only [items, Written.lines_append, List.map_append]
      have first := (node_tidy named apart v 0 (Name.index name i) own.1).mono
        fun _ room => room.slot.below_index
      have rest := items_tidy named apart vs name (i + 1) own.2
      refine (first.append rest fun _ below ⟨j, hj, below'⟩ => ?_).mono ?_
      · have same := below.index_injective below'
        omega
      · rintro n (below | ⟨j, hj, below⟩)
        · exact ⟨i, Nat.le_refl i, below⟩
        · exact ⟨j, by omega, below⟩

/-- The lines of fields are told apart by the words that the fields show. -/
theorem fields_tidy (named : w.schema.Named) (apart : w.schema.Apart) :
    ∀ (vs : List (String × Value)) (name : String) {fs : List Field},
      w.schema.TypedFields w.schema.Knows fs vs → (∀ f ∈ fs, Name.isIdentifier f.name) →
      (fs.map fun f => Name.shown f.name).Nodup →
        Tidy (fun n => ∃ f ∈ fs, Name.Within name f.name n) ((w.fields name vs).lines.map Line.name)
  | [], _, _, .nil, _, _ => by
      simp only [fields, Written.lines_empty, List.map_nil]
      exact .nil
  | (_, v) :: vs, name, _, .cons h t, hf, distinct => by
      have identifiers := List.forall_mem_cons.mp hf
      rw [List.map_cons, List.nodup_cons] at distinct
      simp only [fields, Written.lines_append, List.map_append]
      have first := (node_tidy named apart v 0 (Name.child name _) h).mono
        fun _ room => room.slot.within identifiers.1
      have rest := fields_tidy named apart vs name t identifiers.2 distinct.2
      refine (first.append rest fun _ within ⟨g, hg, within'⟩ => ?_).mono ?_
      · exact distinct.1 (within.shown_eq within' ▸ List.mem_map_of_mem hg)
      · rintro n (within | ⟨g, hg, within⟩)
        · exact ⟨_, List.mem_cons_self, within⟩
        · exact ⟨g, List.mem_cons_of_mem _ hg, within⟩

end

end Writer

/-! ### Documents -/

namespace Schema
variable {s : Schema}

/-- Where the parts of structs and unions go by different words, the lines of a tree have names of
their own, whoever annotates it. -/
theorem write_names_nodup (named : s.Named) (apart : s.Apart) {ty : Ty} {v : Value}
    (h : s.HasType ty v) (a : Annotator) (name : String) :
    ((s.write a name v).lines.map Line.name).Nodup :=
  (Writer.node_tidy (w := ⟨s, a, v⟩) named apart v 0 name h).nodup

/-- A number behind a tag that is called a kind. -/
def twinDefinitions (field : String) : Definitions where
  enums := []
  structs := []
  unions := [⟨"Twins", "kind", .int, [⟨[.value 0], some ⟨field, .int⟩⟩], none, false⟩]

def twins (field : String) : Schema :=
  ⟨[], [], (twinDefinitions field).unions.map fun u => ⟨u, [(0, 0)]⟩⟩

def twin : Value :=
  .union "Twins" (.leaf (.int 0)) (some (.leaf (.int 7)))

theorem twin_hasType (field : String) : (twins field).HasType (.union "Twins") twin := by
  have hu : (twins field).union? "Twins" = some ⟨⟨"Twins", "kind", .int,
    [⟨[.value 0], some ⟨field, .int⟩⟩], none, false⟩, [(0, 0)]⟩ := rfl
  exact .union (d := 0) hu trivial (.value (f := ⟨field, .int⟩) (.leaf rfl trivial))

theorem write_names_nodup_twins :
    (twins "age").Named ∧ (twins "age").Apart ∧ (twins "age").HasType (.union "Twins") twin ∧
      (((twins "age").write .plain "" twin).lines.map Line.name).Nodup := by
  have named : (twins "age").Named := by decide +kernel
  have apart : (twins "age").Apart := by decide +kernel
  exact ⟨named, apart, twin_hasType "age", write_names_nodup named apart
    (twin_hasType "age") .plain ""⟩

/-- A field that is called a kind as well has its line under the name of the tag. -/
theorem write_twins :
    (twinDefinitions "kind").resolve = .ok (twins "kind") ∧ (twins "kind").Named ∧
      (twins "kind").HasType (.union "Twins") twin ∧
      ¬ (((twins "kind").write .plain "" twin).lines.map Line.name).Nodup :=
  ⟨rfl, by decide +kernel, twin_hasType "kind", by decide +kernel⟩

end Schema

end XdrText
