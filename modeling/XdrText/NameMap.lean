import XdrText.Name

/-!
# XdrText — maps from names

A map from names is a list in ascending order of its names, compared character by character by
code point (which is the order of their UTF-8 bytes).  The names that begin with a given text are
neighbours in it, and the first of them is the first name that is not below that text.
-/

namespace XdrText

/-- Entries in ascending order of their names, so that no name is there twice. -/
structure NameMap (α : Type) where
  entries : List (String × α)
  sorted : entries.Pairwise fun a b => a.1 < b.1

namespace NameMap
variable {α : Type}

def empty : NameMap α :=
  ⟨[], .nil⟩

/-- The entries with the one for `name` put at its place. -/
def insertEntry (name : String) (a : α) : List (String × α) → List (String × α)
  | [] => [(name, a)]
  | e :: es =>
    if name < e.1 then (name, a) :: e :: es
    else if name = e.1 then (name, a) :: es
    else e :: insertEntry name a es

/-- An entry of the list is the one put in or was there before. -/
theorem mem_insertEntry {name : String} {a : α} {x : String × α} :
    ∀ {es : List (String × α)}, x ∈ insertEntry name a es → x = (name, a) ∨ x ∈ es
  | [], h => by simpa [insertEntry] using h
  | e :: es, h => by
      simp only [insertEntry] at h
      split at h
      · simpa using h
      · split at h
        · rcases List.mem_cons.mp h with h | h
          · exact .inl h
          · exact .inr (List.mem_cons_of_mem _ h)
        · rcases List.mem_cons.mp h with h | h
          · exact .inr (h ▸ List.mem_cons_self)
          · exact (mem_insertEntry h).imp id (List.mem_cons_of_mem _)

/-- An entry is put in where the order of the names stays. -/
theorem pairwise_insertEntry {name : String} {a : α} :
    ∀ {es : List (String × α)}, es.Pairwise (fun a b => a.1 < b.1) →
      (insertEntry name a es).Pairwise fun a b => a.1 < b.1
  | [], _ => by simp [insertEntry]
  | e :: es, h => by
      have ⟨below, rest⟩ := List.pairwise_cons.mp h
      simp only [insertEntry]
      split
      next lt =>
        refine List.pairwise_cons.mpr ⟨fun x hx => ?_, h⟩
        rcases List.mem_cons.mp hx with rfl | hx
        · exact lt
        · exact String.lt_trans lt (below x hx)
      next nlt =>
        split
        next eq => exact List.pairwise_cons.mpr ⟨fun x hx => eq ▸ below x hx, rest⟩
        next ne =>
          refine List.pairwise_cons.mpr ⟨fun x hx => ?_, pairwise_insertEntry rest⟩
          rcases mem_insertEntry hx with rfl | hx
          · exact Std.lt_of_le_of_ne (Std.not_lt.mp nlt) (Ne.symm ne)
          · exact below x hx

/-- The last entry put under a name is the one that counts. -/
def insert (m : NameMap α) (name : String) (a : α) : NameMap α :=
  ⟨insertEntry name a m.entries, pairwise_insertEntry m.sorted⟩

/-- The map without a name. -/
def erase (m : NameMap α) (name : String) : NameMap α :=
  ⟨m.entries.filter fun e => e.1 ≠ name, m.sorted.filter _⟩

/-- The entry for a name. -/
def get? (m : NameMap α) (name : String) : Option α :=
  (m.entries.find? fun e => e.1 = name).map Prod.snd

def contains (m : NameMap α) (name : String) : Bool :=
  (m.get? name).isSome

/-- The names in ascending order. -/
def names (m : NameMap α) : List String :=
  m.entries.map Prod.fst

def size (m : NameMap α) : Nat :=
  m.entries.length

def isEmpty (m : NameMap α) : Bool :=
  m.entries.isEmpty

/-- Whether a name begins with `start`.  Only the first name that is not below `start` is looked
at. -/
def hasStart (m : NameMap α) (start : String) : Bool :=
  match m.entries.dropWhile fun e => e.1 < start with
  | [] => false
  | e :: _ => Name.startsWith start e.1

/-! ### Looking up after a change -/

/-- Among entries the one put in is found under its name, and every other as before. -/
theorem find?_insertEntry {name n : String} {a : α} :
    ∀ es : List (String × α), (insertEntry name a es).find? (fun e => e.1 = n) =
      if name = n then some (name, a) else es.find? fun e => e.1 = n
  | [] => by by_cases h : name = n <;> simp [insertEntry, h]
  | e :: es => by
      have ih := @find?_insertEntry name n a es
      simp only [insertEntry]
      split
      · by_cases h : name = n <;> simp [List.find?_cons, h]
      · split
        next eq => by_cases h : name = n <;> simp [h, ← eq]
        next ne =>
          by_cases h : e.1 = n
          · have : name ≠ n := fun h' => ne (h'.trans h.symm)
            simp [h, this]
          · simp [h, ih]

/-- The entry put in is found under its name, and every other as before. -/
theorem get?_insert (m : NameMap α) (name : String) (a : α) (n : String) :
    (m.insert name a).get? n = if name = n then some a else m.get? n := by
  simp only [get?, insert, find?_insertEntry]
  by_cases h : name = n <;> simp [h]

/-- A name that is taken away is not found, and every other is as before. -/
theorem get?_erase (m : NameMap α) (name n : String) :
    (m.erase name).get? n = if n = name then none else m.get? n := by
  simp only [get?, erase, List.find?_filter]
  by_cases h : n = name
  · subst h
    simp
  · rw [if_neg h]
    congr 2
    funext e
    by_cases he : e.1 = n <;> simp [he, h]

end NameMap

end XdrText
