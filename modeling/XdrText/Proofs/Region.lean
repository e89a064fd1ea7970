import XdrText.Proofs.Distinct
import XdrText.Proofs.Table

/-!
# XdrText — whose a name is

Structure shows under names that no node has (`Name.Structural`).  The parts of a value go on from
its name by the words of its type, or as elements (`Schema.Region`).  A value owns this region of a
document when no lines but its own have names there (`Writer.Owns`).

In a schema that tells (`Schema.Telling`), what an optional holds has a line that mentions it
(`Writer.exists_mention`).
-/

namespace XdrText

namespace Name

/-- Names that end in different words are different. -/
theorem child_injective {m n f g : String} (hf : Word f) (hg : Word g) (h : child m f = child n g) :
    f = g := by
  -- the word is what stands behind the last dot
  have back : ∀ {m f : String}, Word f →
      (child m f).toList.reverse.takeWhile (· ≠ '.') = f.toList.reverse := by
    intro m f hf
    rw [toList_child]
    refine reverse_takeWhile_dot (fun dot => absurd (hf.unjoint '.' dot) (by decide)) fun c hc => ?_
    rw [front] at hc
    split at hc
    · cases hc
    · rw [List.getLast?_concat] at hc
      exact (Option.some.inj hc).symm
  refine String.toList_injective (List.reverse_injective ?_)
  rw [← back hf, h, back hg]

/-- A name under which an optional says whether it is there, or a sequence how long it is. -/
def Structural (n : String) : Prop :=
  (∃ m d, n = presence m d) ∨ ∃ m, n = length m

theorem not_structural_empty : ¬ Structural "" := by
  rintro (⟨m, d, h⟩ | ⟨m, h⟩)
  · exact child_ne_empty (word_selector d).ne_empty h.symm
  · exact child_ne_empty (by decide) h.symm

/-- A field is not structural unless it goes by the word for a length. -/
theorem not_structural_child {name f : String} (hf : isIdentifier f) (other : f ≠ "len") :
    ¬ Structural (child name f) := by
  have word := word_of_isIdentifier hf
  rintro (⟨m, d, h⟩ | ⟨m, h⟩)
  · exact not_isIdentifier_selector d (child_injective word (word_selector d) h ▸ hf)
  · exact other (child_injective word (word_of_isIdentifier (by decide)) h)

/-- An index ends in a bracket, which no structural name does. -/
theorem not_structural_index (name : String) (i : Nat) : ¬ Structural (index name i) := by
  -- an index ends in a bracket
  have last : (index name i).toList.getLast? = some ']' := by
    rw [toList_index, ← List.cons_append, ← List.append_assoc, List.getLast?_concat]
  rintro (⟨m, d, h⟩ | ⟨m, h⟩)
  · have same : index name i = child m (selector d) := h
    rw [same, toList_child, toList_selector] at last
    simp [List.getLast?_append] at last
  · rw [h, length, toList_child] at last
    simp [List.getLast?_append] at last

theorem not_structural_short {name short : String} (h : sourceAlias? name = some short) :
    ¬ Structural short := by
  obtain ⟨start, -, hshort⟩ := sourceAlias?_eq_some h
  have same : short = child (String.ofList (start ++ "tx".toList)) "sourceAccount" := by
    refine String.toList_injective ?_
    rw [hshort, toList_child, front, if_neg fun empty => ?_]
    · simp
    · have := congrArg String.toList empty
      simp at this
  exact same ▸ not_structural_child (by decide) (by decide)

end Name

/-! ### Schemas that tell -/

/-- Types whose values have one line, under their own name. -/
def Ty.oneLine : Ty → Bool
  | .fixed _ | .optional _ | .array .. | .seq .. | .struct _ | .union _ | .signature => false
  | _ => true

namespace Schema
variable {s : Schema}

/-- Values of the type have a line that says more than structure. -/
def shows (s : Schema) : Ty → Bool
  | .struct name => (s.struct? name).any fun d => d.fields.any fun f => f.ty.oneLine
  | ty => ty.oneLine

/-- What the optionals of the type hold shows. -/
def tells (s : Schema) : Ty → Bool
  | .optional inner => s.shows inner
  | .array elem _ | .seq elem _ => s.tells elem
  | _ => true

/-- What the optionals in a schema hold shows, and no field goes by the word for a length. -/
structure Telling (s : Schema) : Prop where
  tells : ∀ f ∈ s.fields, s.tells f.ty
  field : ∀ f ∈ s.fields, f.name ≠ "len"
  tag : ∀ u ∈ s.unions, u.tag ≠ "len"

instance (s : Schema) : Decidable s.Telling :=
  decidable_of_iff
    ((∀ f ∈ s.fields, s.tells f.ty) ∧ (∀ f ∈ s.fields, f.name ≠ "len") ∧
      ∀ u ∈ s.unions, u.tag ≠ "len")
    ⟨fun ⟨tells, field, tag⟩ => ⟨tells, field, tag⟩, fun h => ⟨h.tells, h.field, h.tag⟩⟩

/-! ### Whose a name is -/

theorem Named.words (named : s.Named) {ty : Ty} {words : List String}
    (h : s.words? ty = some words) :
    ∀ w ∈ words, Name.isIdentifier w := by
  cases ty with
  | seq | signature =>
      cases h
      decide
  | struct name =>
      obtain ⟨d, hd, rfl⟩ := Option.map_eq_some_iff.mp h
      refine List.forall_mem_map.mpr fun f hf => ?_
      exact named.field f (mem_fields_of_struct? hd hf)
  | union name =>
      obtain ⟨u, hu, -⟩ := Option.bind_eq_some_iff.mp h
      obtain ⟨-, rfl⟩ := words?_union hu h
      have hm := mem_of_union? hu
      refine List.forall_mem_cons.mpr ⟨named.tag u hm, List.forall_mem_map.mpr fun f hf => ?_⟩
      exact named.field f (List.mem_append_right _ (List.mem_flatMap_of_mem hm hf))
  | optional => cases h
  | _ =>
      cases h
      exact fun _ hw => absurd hw (List.not_mem_nil)

/-- The names by which the parts of a value go on from its name; where there are no words to be
told, all names below it. -/
def Region (s : Schema) (name : String) (ty : Ty) (n : String) : Prop :=
  match s.words? ty with
  | some words =>
    (∃ w ∈ words, Name.Below (Name.child name w) n) ∨ ∃ i, Name.Below (Name.index name i) n
  | none => Name.Below name n

section
variable {name n : String} {ty : Ty} {words : List String}

/-- A type that has words has a region for each of them and for each index. -/
theorem region_iff (h : s.words? ty = some words) : s.Region name ty n ↔
    (∃ w ∈ words, Name.Below (Name.child name w) n) ∨ ∃ i, Name.Below (Name.index name i) n := by
  rw [Region, h]

/-- The region of a value is below its name. -/
theorem Region.below (named : s.Named) (h : s.Region name ty n) : Name.Below name n := by
  rw [Region] at h
  split at h
  next words hwords =>
    rcases h with ⟨w, hw, h⟩ | ⟨i, h⟩
    · exact h.of_child (Name.ne_empty_of_isIdentifier (named.words hwords w hw))
    · exact h.of_index
  next => exact h

/-- A word that is none of a type's does not lead into its region. -/
theorem Region.ne_child (named : s.Named) (hwords : s.words? ty = some words) {w : String}
    (word : Name.Word w) (other : w ∉ words) (h : s.Region name ty n) : n ≠ Name.child name w := by
  rintro rfl
  rcases (region_iff hwords).mp h with ⟨x, hx, h⟩ | ⟨i, h⟩
  · have same := h.child_injective (Name.word_of_isIdentifier (named.words hwords x hx))
        word (.refl _)
    exact other (same ▸ hx)
  · exact Name.Below.not_index word (.refl _) h

theorem exists_words_of_shows (shows : s.shows ty) : ∃ words, s.words? ty = some words := by
  cases ty with
  | struct name =>
      obtain ⟨d, hd, -⟩ := (Option.any_eq_true _ _).mp shows
      exact ⟨_, by rw [words?, hd, Option.map_some]⟩
  | optional | union => cases shows
  | _ => exact ⟨_, rfl⟩

/-- The region of what an optional holds is in that of the optional, which itself says elsewhere
whether it is there. -/
theorem Region.inner (named : s.Named) (shows : s.shows ty) (h : s.Region name ty n) (depth : Nat) :
    s.Region name (.optional ty) n ∧ n ≠ Name.presence name depth := by
  obtain ⟨words, hwords⟩ := exists_words_of_shows shows
  refine ⟨h.below named, h.ne_child named hwords (Name.word_selector depth) fun hw => ?_⟩
  exact Name.not_isIdentifier_selector depth (named.words hwords _ hw)

/-- The region of an arm is in that of its union, apart from the tag. -/
theorem Region.arm (named : s.Named) (apart : s.Apart) {union : String} {u : ResolvedUnion}
    (hu : s.union? union = some u) {f : Field} (hf : f ∈ u.fields)
    (h : s.Region (u.armName name f) f.ty n) :
    s.Region name (.union union) n ∧ n ≠ Name.child name u.tag := by
  have hm := mem_of_union? hu
  have word := Name.word_of_isIdentifier (named.tag u hm)
  obtain ⟨words, hwords, distinct⟩ := apart.beside u hm f hf
  have other : u.tag ∉ words := fun hw => distinct u.tag hw rfl
  rw [beside?] at hwords
  rw [ResolvedUnion.armName] at h
  by_cases inline : u.inline = true
  · rw [if_pos inline] at hwords h
    have none : s.words? (.union union) = none := by
      rw [words?, hu, Option.bind_some, if_pos inline]
    refine ⟨?_, h.ne_child named hwords word other⟩
    rw [Region, none]
    exact h.below named
  · rw [if_neg inline] at hwords h
    cases hwords
    have all : s.words? (.union union) = some (u.tag :: u.fields.map Field.name) := by
      rw [words?, hu, Option.bind_some, if_neg inline]
    have below := h.below named
    have own := named.field f (List.mem_append_right _ (List.mem_flatMap_of_mem hm hf))
    refine ⟨(region_iff all).mpr (.inl ⟨f.name, ?_, below⟩), ?_⟩
    · exact List.mem_cons_of_mem _ (List.mem_map_of_mem hf)
    · rintro rfl
      have same := below.child_injective (Name.word_of_isIdentifier own) word (.refl _)
      exact other (same ▸ List.mem_singleton_self _)

end

end Schema

namespace Writer
variable {w : Writer}

/-- No name of a document is in a region but those of some lines. -/
def Owns (doc : List String) (region : String → Prop) (lines : List Line) : Prop :=
  ∀ n ∈ doc, region n → n ∈ lines.map Line.name

namespace Owns
variable {doc : List String} {p q : String → Prop} {lines more : List Line}

/-- The lines that come first own the region that the others stay out of. -/
theorem left (h : Owns doc p (lines ++ more)) (sub : ∀ n, q n → p n)
    (apart : ∀ n ∈ more.map Line.name, ¬ q n) : Owns doc q lines := by
  intro n hn hq
  have mem := h n hn (sub n hq)
  rw [List.map_append, List.mem_append] at mem
  exact mem.resolve_right fun hm => apart n hm hq

theorem right (h : Owns doc p (lines ++ more)) (sub : ∀ n, q n → p n)
    (apart : ∀ n ∈ lines.map Line.name, ¬ q n) : Owns doc q more := by
  intro n hn hq
  have mem := h n hn (sub n hq)
  rw [List.map_append, List.mem_append] at mem
  exact mem.resolve_left fun hm => apart n hm hq

/-- What stands behind a line with a name outside of the region. -/
theorem tail {l : Line} (h : Owns doc p (l :: lines)) (sub : ∀ n, q n → p n)
    (apart : ∀ n, q n → n ≠ l.name) : Owns doc q lines := by
  have first : Owns doc p ([l] ++ lines) := h
  exact first.right sub fun n hn hq => apart n hq (by simpa using hn)

end Owns

/-! ### Lines that show -/

/-- The lines of a leaf are not structural where its name is not. -/
theorem leaf_proper {name : String} {x : Leaf} (h : x.Within w.schema.Knows)
    (proper : ¬ Name.Structural name) :
    ∀ n ∈ (w.leaf name x).lines.map Line.name, ¬ Name.Structural n := by
  rcases leaf_names h name with empty | ⟨n, rfl | hs, names⟩
  · simp [empty]
  · simpa [names] using proper
  · simpa [names] using Name.not_structural_short hs

/-- A value of one line is written under its own name. -/
theorem node_names_of_oneLine {outer : Nat} {name : String} {ty : Ty} {v : Value}
    (h : w.schema.HasType ty v) (one : ty.oneLine) :
    (w.node outer name v).lines.map Line.name = [name] := by
  cases h with
  | @leaf _ x hl h =>
      subst hl
      have plain : x.bareSource? name = none := by
        cases x <;> first | rfl | cases one
      simp only [node, leaf, plain]
      exact plainLeaf_names h name
  | _ => cases one

theorem mem_names_of_oneLine {name : String} {f : Field} (one : f.ty.oneLine) :
    ∀ {fs : List Field} {vs : List (String × Value)}, w.schema.TypedFields w.schema.Knows fs vs →
      f ∈ fs → Name.child name f.name ∈ (w.fields name vs).lines.map Line.name
  | _, _, .cons h t, hf => by
      simp only [fields, Written.lines_append, List.map_append, List.mem_append]
      rcases List.mem_cons.mp hf with rfl | hf
      · left
        rw [node_names_of_oneLine h one]
        exact List.mem_singleton_self _
      · exact .inr (mem_names_of_oneLine one t hf)

/-- A value that shows has a line that mentions it and is not redundant. -/
theorem exists_mention (named : w.schema.Named) (telling : w.schema.Telling) (outer : Nat)
    {name : String} {ty : Ty} {v : Value} (h : w.schema.HasType ty v) (shows : w.schema.shows ty)
    (ne : name ≠ "") (proper : ¬ Name.Structural name) :
    ∃ n ∈ (w.node outer name v).lines.map Line.name, ¬ Name.Structural n ∧ Name.Extends name n := by
  cases ty with
  | struct ty =>
      obtain ⟨d, hd, some⟩ := (Option.any_eq_true _ _).mp shows
      obtain ⟨f, hf, one⟩ := List.any_eq_true.mp some
      obtain ⟨vs, rfl, t⟩ := h.exists_struct hd
      have hm := Schema.mem_fields_of_struct? hd hf
      simp only [node]
      exact ⟨_, mem_names_of_oneLine one t hf,
        Name.not_structural_child (named.field f hm) (telling.field f hm), .child ne f.name⟩
  | _ =>
      rw [node_names_of_oneLine h shows]
      exact ⟨name, List.mem_singleton_self _, proper, .inl rfl⟩

end Writer

end XdrText
