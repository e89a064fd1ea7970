import XdrText.Proofs.Lines
import XdrText.Proofs.Preservation

/-!
# XdrText — steps that read what was written

A step of reading mirrors lines when, from any table that holds them, it comes to the value that was
written, without a fault or a request for help, if and only if what was written is legible
(`Reading.Mirrors`).  It takes the rows of these lines, may drop those of bare source keys below its
own name, and leaves all others.

Mirroring steps follow one another where the lines of the later ones are among the rows left
(`Reading.Mirrors.pair`); reading a leaf or a signature mirrors its lines
(`Writer.leaf_mirrors`, `Writer.signature_mirrors`).
-/

namespace XdrText
open Text Form Key

namespace Table

/-- The rows of other lines are still there when a row is taken. -/
theorem Holds.erase {t : Table} {lines : List Line} (h : t.Holds lines) {name : String}
    (apart : name ∉ lines.map Line.name) : Table.Holds (t.erase name) lines := by
  intro l hl
  obtain ⟨n, hn⟩ := h l hl
  refine ⟨n, ?_⟩
  have ne : l.name ≠ name := by
    rintro rfl
    exact apart (List.mem_map_of_mem hl)
  rw [NameMap.get?_erase, if_neg ne, hn]

end Table

namespace Reading
variable {α β γ : Type}

/-- A step that finds no fault and asks for nothing passes its value on. -/
theorem bind_of_eq {x : Reading α} {f : α → Reading β} {t t' : Table} {a : α}
    (h : x t = ⟨a, t', [], [], false⟩) : (x >>= f) t = f a t' := by
  simp [bind, Reading.bind, h]

/-- The step takes the row of a line and comes to a value without more ado; the number of the line
may show in the value. -/
def Takes (x : Reading α) (l : Line) (a : Nat → α) : Prop :=
  ∀ t n, t.get? l.name = some ⟨n, l.value⟩ → x t = ⟨a n, t.erase l.name, [], [], false⟩

/-- Steps behind one that takes a line come to a value where they need no row. -/
theorem Takes.bind {x : Reading α} {l : Line} {a : Nat → α} {f : α → Reading β} {b : Nat → β}
    (hx : x.Takes l a) (hf : ∀ n, f (a n) = Pure.pure (b n)) : (x >>= f).Takes l b := by
  intro t n hn
  rw [bind_of_eq (hx t n hn), hf]
  rfl

theorem Takes.map {x : Reading α} {l : Line} {a : Nat → α} (f : α → β) (hx : x.Takes l a) :
    (f <$> x).Takes l fun n => f (a n) :=
  hx.bind fun _ => rfl

/-- The row of a settled text is taken up to leading blanks. -/
theorem take_eq {l : Line} (settled : Settled l.text.toList) {t : Table} {n : Nat}
    (h : t.get? l.name = some ⟨n, l.value⟩) : ∃ v, trimLeft v = trimLeft l.text.toList ∧
      take l.name t = ⟨.text n v, t.erase l.name, [], [], false⟩ := by
  obtain ⟨v, hv, trimmed⟩ := settled.entry n
  have entry : Row.entry ⟨n, l.value⟩ = (.text n v, false) := hv
  exact ⟨v, trimmed, by simp [take, h, entry]⟩

/-- What taking and parsing a row comes to. -/
theorem takeParsed_eq {l : Line} (parse : List Char → Except ParseFault α)
    (settled : Settled l.text.toList) {t : Table} {n : Nat}
    (h : t.get? l.name = some ⟨n, l.value⟩) : ∃ v, trimLeft v = trimLeft l.text.toList ∧
      takeParsed l.name parse t =
        match parse v with
        | .ok a => ⟨some (n, a), t.erase l.name, [], [], false⟩
        | .error f => ⟨none, t.erase l.name, [⟨n, .malformed f⟩], [l.name], false⟩ := by
  obtain ⟨v, trimmed, ht⟩ := take_eq settled h
  refine ⟨v, trimmed, ?_⟩
  rw [takeParsed, bind_of_eq ht]
  dsimp only
  cases parse v <;> rfl

/-- The row of a settled text is taken and parsed, as its line says what the text is but for
blanks. -/
theorem takeParsed_takes {l : Line} {parse : List Char → Except ParseFault α} {a : α}
    (settled : Settled l.text.toList)
    (parsed : ∀ v, trimLeft v = trimLeft l.text.toList → parse v = .ok a) :
    (takeParsed l.name parse).Takes l fun n => some (n, a) := by
  intro t n hn
  obtain ⟨v, trimmed, ht⟩ := takeParsed_eq parse settled hn
  rw [ht, parsed v trimmed]

/-- Data within the bound is not cut down. -/
theorem bounded_of_le {name : String} {line : Nat} {data : Bytes} {max : Nat}
    (h : data.length ≤ max) : bounded name line data max = pure data := by
  funext t
  simp [bounded, Nat.not_lt.mpr h, List.take_of_length_le h]

/-! ### Mirroring -/

/-- What a step comes to from a table that holds lines. -/
structure Reflects (name : String) (lines : List Line) (legible : Prop) (v : α) (t : Table)
    (out : Outcome α) : Prop where
  exact : legible → out.value = v ∧ out.faults = [] ∧ out.asked = []
  only : out.value = v → out.faults = [] → legible
  ends : out.overrun = false
  frame : ∀ n, n ∉ lines.map Line.name → ¬ (Name.Below name n ∧ (Name.sourceAlias? n).isSome) →
    out.rest.get? n = t.get? n

namespace Reflects
variable {x : Reading α} {y : Reading β} {name m m' : String}
    {lines more : List Line} {P Q R : Prop}
  {a : α} {b : β} {t : Table} {out : Outcome α}

/-- What is legible can be said in other words. -/
theorem congr (hPQ : P ↔ Q) (h : Reflects name lines P a t out) : Reflects name lines Q a t out :=
  propext hPQ ▸ h

/-- What is reflected below a name is reflected below any name that this one is below. -/
theorem below (h : Reflects m lines P a t out) (hb : ∀ n, Name.Below m n → Name.Below name n) :
    Reflects name lines P a t out :=
  ⟨h.exact, h.only, h.ends, fun n hn hs => h.frame n hn fun ⟨hm, h'⟩ => hs ⟨hb n hm, h'⟩⟩

/-- What is made of the value reflects the same lines, if the value can be told from it. -/
protected theorem map (f : α → β) (h : Reflects name lines P a t (x t))
    (only : f (x t).value = f a → (x t).faults = [] → P) :
    Reflects name lines P (f a) t ((f <$> x) t) := by
  have mapped : (f <$> x) t = ⟨f (x t).value, (x t).rest, (x t).faults, (x t).asked,
      (x t).overrun⟩ := by
    simp [Functor.map, Reading.bind, Reading.pure]
  rw [mapped]
  exact ⟨fun hP => ⟨congrArg f (h.exact hP).1, (h.exact hP).2⟩, only, h.ends, h.frame⟩

/-- A step that takes the row of a line away, and what follows it. -/
theorem step {l : Line} {f : β → Reading α} (hy : y t = ⟨b, t.erase l.name, [], [], false⟩)
    (h : Reflects name lines P a (t.erase l.name) (f b (t.erase l.name))) :
    Reflects name (l :: lines) P a t ((y >>= f) t) := by
  rw [bind_of_eq hy]
  refine ⟨h.exact, h.only, h.ends, fun k hk hs => ?_⟩
  rw [List.map_cons, List.mem_cons, not_or] at hk
  rw [h.frame k hk.2 hs, NameMap.get?_erase, if_neg hk.1]

theorem lineOf {k : String} {f : Nat → Reading α} (h : ∀ n, Reflects name lines P a t (f n t)) :
    Reflects name lines P a t ((Reading.lineOf k >>= f) t) := by
  have looked : Reading.lineOf k t = ⟨((t.get? k).map Row.line).getD 0, t, [], [], false⟩ := rfl
  rw [bind_of_eq looked]
  exact h _

/-- The first of two steps leaves the rows of lines that are neither among its own nor under a name
that it may drop. -/
theorem leaves (h : Reflects m lines P a t out) {l : Line} (apart : l.name ∉ lines.map Line.name)
    (kept : (Name.sourceAlias? l.name).isSome → ¬ Name.Below m l.name) :
    out.rest.get? l.name = t.get? l.name :=
  h.frame l.name apart fun ⟨below, source⟩ => kept source below

/-- Two steps whose values are put together. -/
theorem pair (f : α → β → γ) (hx : Reflects m lines P a t (x t))
    (hy : Reflects m' more Q b (x t).rest (y (x t).rest))
    (hm : ∀ n, Name.Below m n → Name.Below name n) (hm' : ∀ n, Name.Below m' n → Name.Below name n)
    (only : f (x t).value (y (x t).rest).value = f a b → (x t).faults = [] →
      (y (x t).rest).faults = [] → P ∧ Q) :
    Reflects name (lines ++ more) (P ∧ Q) (f a b) t
      ((do let c ← x; let d ← y; return f c d : Reading γ) t) := by
  have joined : (do let c ← x; let d ← y; return f c d : Reading γ) t =
      ⟨f (x t).value (y (x t).rest).value, (y (x t).rest).rest,
        (x t).faults ++ (y (x t).rest).faults, (x t).asked ++ (y (x t).rest).asked,
        (x t).overrun || (y (x t).rest).overrun⟩ := by
    simp [bind, Reading.bind, pure, Reading.pure]
  rw [joined]
  refine ⟨fun ⟨hP, hQ⟩ => ?_, fun hv hf => ?_, by rw [hx.ends, hy.ends]; rfl, fun n hn hs => ?_⟩
  · obtain ⟨hv, hf, ha⟩ := hx.exact hP
    obtain ⟨hv', hf', ha'⟩ := hy.exact hQ
    exact ⟨congrArg₂ f hv hv', by rw [hf, hf']; rfl, by rw [ha, ha']; rfl⟩
  · obtain ⟨hf, hf'⟩ := List.append_eq_nil_iff.mp hf
    exact only hv hf hf'
  · rw [List.map_append, List.mem_append, not_or] at hn
    rw [hy.frame n hn.2 fun ⟨h, h'⟩ => hs ⟨hm' n h, h'⟩,
      hx.frame n hn.1 fun ⟨h, h'⟩ => hs ⟨hm n h, h'⟩]

end Reflects

/-- From any table that holds the lines, the step comes to the value that they were written for,
exactly when that is legible, and leaves the rows of other lines. -/
def Mirrors (x : Reading α) (name : String) (lines : List Line) (legible : Prop) (v : α) : Prop :=
  ∀ t : Table, t.Holds lines → Reflects name lines legible v t (x t)

namespace Mirrors
variable {x : Reading α} {y : Reading β} {name m m' : String} {lines more : List Line}
  {P Q : Prop} {a : α} {b : β}

protected theorem pure (hP : P) : (Pure.pure a : Reading α).Mirrors name [] P a :=
  fun _ _ => ⟨fun _ => ⟨rfl, rfl, rfl⟩, fun _ _ => hP, rfl, fun _ _ _ => rfl⟩

/-- What is made of the value mirrors the same lines, if no other value would have come to it. -/
protected theorem map {f : α → β} (inj : ∀ c, f c = f a → c = a) (h : x.Mirrors name lines P a) :
    (f <$> x).Mirrors name lines P (f a) :=
  fun t ht => (h t ht).map f fun hv => (h t ht).only (inj _ hv)

theorem below (h : x.Mirrors m lines P a) (hb : ∀ n, Name.Below m n → Name.Below name n) :
    x.Mirrors name lines P a :=
  fun t ht => (h t ht).below hb

theorem congr (hPQ : P ↔ Q) (h : x.Mirrors name lines P a) : x.Mirrors name lines Q a :=
  fun t ht => (h t ht).congr hPQ

/-- A step that takes a row, and what follows it. -/
theorem step {l : Line} {c : Nat → α} {f : α → Reading β} (hx : x.Takes l c)
    (hf : ∀ n, (f (c n)).Mirrors name lines P b) (apart : l.name ∉ lines.map Line.name) :
    (x >>= f).Mirrors name (l :: lines) P b := by
  intro t ht
  obtain ⟨n, hn⟩ := ht l List.mem_cons_self
  have rest : t.Holds lines := fun k hk => ht k (List.mem_cons_of_mem _ hk)
  exact .step (hx t n hn) (hf n _ (rest.erase apart))

/-- A step that takes one line mirrors it. -/
theorem of_takes {l : Line} (h : x.Takes l fun _ => a) (hP : P) : x.Mirrors name [l] P a := by
  intro t ht
  obtain ⟨n, hn⟩ := ht l List.mem_cons_self
  rw [h t n hn]
  refine ⟨fun _ => ⟨rfl, rfl, rfl⟩, fun _ _ => hP, rfl, fun k hk _ => ?_⟩
  rw [List.map_singleton, List.mem_singleton] at hk
  rw [NameMap.get?_erase, if_neg hk]

/-- Which line a row stands on does not matter. -/
theorem lineOf {k : String} {f : Nat → Reading α} (h : ∀ n, (f n).Mirrors name lines P a) :
    (Reading.lineOf k >>= f).Mirrors name lines P a :=
  fun t ht => .lineOf fun n => h n t ht

/-- Two steps whose values are put together: the lines of the second are neither among those of the
first nor under a name that the first may drop. -/
theorem pair {f : α → β → γ} (inj : ∀ c d, f c d = f a b → c = a ∧ d = b)
    (hx : x.Mirrors m lines P a) (hy : y.Mirrors m' more Q b)
    (hm : ∀ n, Name.Below m n → Name.Below name n) (hm' : ∀ n, Name.Below m' n → Name.Below name n)
    (apart : ∀ l ∈ more, l.name ∉ lines.map Line.name)
    (kept : ∀ l ∈ more, (Name.sourceAlias? l.name).isSome → ¬ Name.Below m l.name) :
    Mirrors (do let c ← x; let d ← y; return f c d) name (lines ++ more) (P ∧ Q) (f a b) := by
  intro t ht
  have first := hx t fun l hl => ht l (List.mem_append_left _ hl)
  -- the first step leaves the rows of the second
  have left : (x t).rest.Holds more := by
    intro l hl
    obtain ⟨n, hn⟩ := ht l (List.mem_append_right _ hl)
    exact ⟨n, by rw [first.leaves (apart l hl) (kept l hl), hn]⟩
  have second := hy _ left
  refine first.pair f second hm hm' fun hv hf hf' => ?_
  obtain ⟨hv, hv'⟩ := inj _ _ hv
  exact ⟨first.only hv hf, second.only hv' hf'⟩

end Mirrors

end Reading

/-! ### Leaves -/

namespace Reader
variable {r : Reader}

/-- A leaf within its maximum is not cut down. -/
theorem boundedLeaf_of_within {known : String → Int32 → Prop} {l : Leaf} (h : l.Within known)
    (name : String) (line : Nat) : boundedLeaf name line l = pure l := by
  cases l with
  | string data max | bytes data max =>
      rw [boundedLeaf, Reading.bounded_of_le (show data.length ≤ max.toNat from h), map_pure]
  | _ => rfl

/-- What reading a leaf from its row comes to. -/
theorem plainLeaf_eq {l : Leaf} {parse : List Char → Except ParseFault Leaf}
    (hp : r.leafParser? l = some parse) {name x : String} (settled : Settled x.toList) {t : Table}
    {n : Nat} (hn : t.get? name = some ⟨n, (Line.mk name x).value⟩) :
    ∃ v, trimLeft v = trimLeft x.toList ∧ r.plainLeaf name l t =
      match parse v with
      | .ok l' => boundedLeaf name n l' (t.erase name)
      | .error f => ⟨l, t.erase name, [⟨n, .malformed f⟩], [name], false⟩ := by
  obtain ⟨v, trimmed, taken⟩ := Reading.takeParsed_eq (l := ⟨name, x⟩) parse settled hn
  refine ⟨v, trimmed, ?_⟩
  simp only [plainLeaf, hp]
  cases hv : parse v with
  | ok l' =>
      simp only [hv] at taken
      rw [Reading.bind_of_eq taken]
  | error f =>
      simp only [hv] at taken
      simp [bind, Reading.bind, taken, pure, Reading.pure]

/-- The row of a legible leaf is taken and comes to the leaf, whatever leaf of the type was
there. -/
theorem plainLeaf_takes {known : String → Int32 → Prop} {l l' : Leaf} {name x : String}
    (hx : r.Recovers l x) (hl : l.Within known) (hty : l'.ty = l.ty) (legible : l.Legible) :
    (r.plainLeaf name l').Takes ⟨name, x⟩ fun _ => l := by
  intro t n hn
  obtain ⟨parse, hp, parsed⟩ := hx.parse
  obtain ⟨v, trimmed, out⟩ := plainLeaf_eq ((leafParser?_congr hty).trans hp) hx.settled hn
  rw [out, (parsed v trimmed).mpr legible]
  exact congrFun (boundedLeaf_of_within hl name n) _

/-- A leaf is read back when it is legible; else there is a fault, or it is another asset. -/
theorem plainLeaf_mirrors {known : String → Int32 → Prop} {l l' : Leaf} {name x : String}
    (hx : r.Recovers l x) (hl : l.Within known) (hty : l'.ty = l.ty) :
    (r.plainLeaf name l').Mirrors name [⟨name, x⟩] l.Legible l := by
  by_cases legible : l.Legible
  · exact .of_takes (plainLeaf_takes hx hl hty legible) legible
  · intro t ht
    obtain ⟨parse, hp, parsed⟩ := hx.parse
    obtain ⟨n, hn⟩ := ht _ List.mem_cons_self
    obtain ⟨v, trimmed, out⟩ := plainLeaf_eq ((leafParser?_congr hty).trans hp) hx.settled hn
    have frame : ∀ k, k ∉ [Line.mk name x].map Line.name →
        NameMap.get? (t.erase name) k = t.get? k := fun k hk => by
      rw [List.map_singleton, List.mem_singleton] at hk
      rw [NameMap.get?_erase, if_neg hk]
    rw [out]
    cases hv : parse v with
    | error f => exact ⟨fun h => absurd h legible, nofun, rfl, fun k hk _ => frame k hk⟩
    | ok b =>
        -- only assets can be illegible, and an asset is never cut down
        obtain ⟨a, rfl⟩ : ∃ a, l = .asset a := by
          cases l <;> first | exact ⟨_, rfl⟩ | exact absurd trivial legible
        obtain ⟨c, rfl⟩ : ∃ c, b = .asset c := by
          have hb := (leafParser?_ok hp hv).1
          cases b <;> first | exact ⟨_, rfl⟩ | cases hb
        refine ⟨fun h => absurd h legible, fun h _ => ?_, rfl, fun k hk _ => frame k hk⟩
        exact (parsed v trimmed).mp (hv.trans (congrArg Except.ok h))

end Reader

namespace Writer
open Reader
variable {w : Writer}

/-- A bare source key is read back from the account under its short name, and the row of its own
name is dropped. -/
theorem bareSource_mirrors (tame : w.annotator.Tame) {name short : String}
    (hs : Name.sourceAlias? name = some short) (key : Block 32) (data : Bytes) :
    (w.reader.bareSource name short (.fixed data)).Mirrors name
      (w.leaf name (.fixed key.bytes)).lines True (.fixed key.bytes) := by
  obtain ⟨x, hlines, shows⟩ := account_shows tame (.ed25519 key)
  rw [leaf_of_bareSource hs, hlines]
  intro t ht
  obtain ⟨n, hn⟩ := ht _ List.mem_cons_self
  obtain ⟨v, trimmed, taken⟩ := Reading.take_eq (l := ⟨short, x⟩) shows.settled hn
  have parsed : Account.parse (firstToken v) = .ok (.ed25519 key) := by
    rw [firstToken_congr trimmed, shows.first, Account.parse_text]
  -- the rows of both names are taken
  have out : w.reader.bareSource name short (.fixed data) t =
      ⟨.fixed key.bytes, (t.erase short).erase name, [], [], false⟩ := by
    rw [bareSource, Reading.bind_of_eq taken]
    simp only [parsed]
    rfl
  rw [out]
  refine ⟨fun _ => ⟨rfl, rfl, rfl⟩, fun _ _ => trivial, rfl, fun k hk dropped => ?_⟩
  rw [List.map_singleton, List.mem_singleton] at hk
  have ne : k ≠ name := by
    rintro rfl
    exact dropped ⟨.refl k, by rw [hs]; rfl⟩
  rw [NameMap.get?_erase, if_neg ne, NameMap.get?_erase, if_neg hk]

/-- A leaf mirrors its line, also a bare source key, under the short name. -/
theorem leaf_mirrors (identified : w.schema.Identified) (tame : w.annotator.Tame) {name : String}
    {l l' : Leaf} (hl : l.Within w.schema.Knows) (hty : l'.ty = l.ty)
    (hs : w.schema.BareSources name l.ty) :
    (w.reader.leaf name l').Mirrors name (w.leaf name l).lines l.Legible l := by
  -- a leaf that is no bare source key
  have plain : l.bareSource? name = none → l'.bareSource? name = none →
      (w.reader.leaf name l').Mirrors name (w.leaf name l).lines l.Legible l := by
    intro h h'
    obtain ⟨x, hlines, recovers⟩ := plainLeaf_recovers identified tame hl name
    simp only [leaf, Reader.leaf, h, h', hlines]
    exact plainLeaf_mirrors recovers hl hty
  cases l with
  | fixed data =>
      obtain ⟨data', rfl⟩ : ∃ data', l' = .fixed data' := by
        cases l' <;> first | exact ⟨_, rfl⟩ | cases hty
      cases hshort : Name.sourceAlias? name with
      | none =>
          exact plain (by simp [Leaf.bareSource?, hshort]) (by simp [Leaf.bareSource?, hshort])
      | some short =>
          have length : data.length = 32 := hs.length_fixed hshort
          simp only [Reader.leaf, Leaf.bareSource?, hshort, Option.map_some]
          exact bareSource_mirrors tame hshort ⟨data, length⟩ data'
  | _ =>
      refine plain rfl ?_
      cases l' <;> first | rfl | cases hty

/-- The tag of a union is taken from its line. -/
theorem tag_takes (identified : w.schema.Identified) (tame : w.annotator.Tame) (name : String)
    {u : TagType} {d : Int32} (hd : (u.leaf d).Within w.schema.Knows) :
    ∃ x, (w.leaf name (u.leaf d)).lines = [⟨name, x⟩] ∧
      ∀ e, (w.reader.leaf name (u.leaf e)).Takes ⟨name, x⟩ fun _ => u.leaf d := by
  obtain ⟨x, hlines, recovers⟩ := plainLeaf_recovers identified tame hd name
  have legible : (u.leaf d).Legible := by cases u <;> exact trivial
  have same : ∀ e, (u.leaf e).ty = (u.leaf d).ty := by intro e; cases u <;> rfl
  have plain : ∀ e, (u.leaf e).bareSource? name = none := by intro e; cases u <;> rfl
  refine ⟨x, by simp only [leaf, plain, hlines], fun e => ?_⟩
  simp only [Reader.leaf, plain]
  exact plainLeaf_takes recovers hd (same e) legible

/-- A signature mirrors its two lines. -/
theorem signature_mirrors (tame : w.annotator.Tame) {name : String} {g g' : Signature}
    (h : g.body.length ≤ Signature.maximum) :
    (Reader.signature name g').Mirrors name (w.signature name g).lines True g := by
  obtain ⟨x, shows, hlines⟩ := signature_shows tame g
  rw [hlines]
  -- the line of the hint
  have hint : (Reading.takeParsed (Name.child name "hint") parseHint).Takes
      ⟨Name.child name "hint", x⟩ fun n => some (n, g.hint) := by
    refine Reading.takeParsed_takes (l := ⟨Name.child name "hint", x⟩) shows.settled fun v hv => ?_
    have scanned := Octets.scanFixed_encode ((firstToken_congr hv).trans shows.first)
    rw [g.hint.length_bytes] at scanned
    simp only [parseHint, scanned, Block.ofBytes?_bytes]
  -- the line of the body
  have body : (Reading.takeParsed (Name.child name "signature")
      fun s => (Octets.scan s).mapError ParseFault.octets).Takes
        ⟨Name.child name "signature", String.ofList (Octets.render g.body)⟩
          fun n => some (n, g.body) := by
    refine Reading.takeParsed_takes (l := ⟨Name.child name "signature", _⟩)
      (by simpa using Octets.settled_render g.body) fun v hv => ?_
    rw [String.toList_ofList] at hv
    rw [Octets.scan_render (firstToken_congr hv)]
    rfl
  have apart : Name.child name "hint" ≠ Name.child name "signature" := fun same =>
    absurd (Name.child_right_injective same) (by decide)
  rw [Reader.signature]
  refine .step hint (fun n => .of_takes (body.bind fun m => ?_) trivial) (by simpa using apart)
  simp only [Reading.bounded_of_le h]
  rfl

/-! ### Structure -/

/-- What is said of the presence of an optional is read back. -/
theorem presence_takes (name : String) (depth : Nat) (present : Bool) :
    (Reader.presence name depth).Takes
      ⟨Name.presence name depth, if present then "true" else "false"⟩ fun _ => present := by
  have shows : Shows (if present then "true" else "false")
      (if present then "true" else "false").toList :=
    .self (by cases present <;> decide)
  intro t n hn
  obtain ⟨v, trimmed, taken⟩ := Reading.take_eq shows.settled hn
  have token : String.ofList (firstToken v) = if present then "true" else "false" := by
    rw [firstToken_congr trimmed, shows.first, String.ofList_toList]
  rw [Reader.presence, Reading.bind_of_eq taken]
  simp only [token]
  cases present <;> rfl

/-- The length of a sequence is read back if it is within the bound. -/
theorem length_takes (name : String) {n current : Nat} {max : UInt32} (h : n ≤ max.toNat) :
    (Reader.length name max.toNat current).Takes ⟨Name.length name, Nat.repr n⟩
      fun line => (line, n) := by
  intro t line hline
  have shows : Shows (Nat.repr n) (Nat.repr n).toList := .self (marks_repr n)
  obtain ⟨v, trimmed, taken⟩ :=
    Reading.take_eq (l := ⟨Name.length name, Nat.repr n⟩) shows.settled hline
  -- a count is read as a number of 64 bits, and no maximum exceeds these
  have small : n < UInt64.size := Nat.lt_of_le_of_lt h (Nat.lt_trans max.toNat_lt (by decide))
  have value : (UInt64.ofNat n).toNat = n := UInt64.toNat_ofNat_of_lt small
  have read : Decimal.readUInt64 (firstToken v) = .ok (UInt64.ofNat n) := by
    rw [firstToken_congr trimmed, shows.first, toList_natRepr]
    have back := Decimal.readUInt64_ofNat (UInt64.ofNat n)
    rwa [value] at back
  rw [Reader.length, Reading.bind_of_eq taken]
  simp only [read, value, BoundedSize.set, if_pos h]
  rfl

/-- A tag that has an arm is settled on. -/
theorem settleTag_eq {u : ResolvedUnion} {tagName : String} {line : Nat} {d e : Int32}
    (h : (u.arm? d).isSome) :
    settleTag u tagName line (.leaf (u.tagType.leaf e)) (.leaf (u.tagType.leaf d)) =
      pure (.leaf (u.tagType.leaf d), decide (d ≠ e)) := by
  simp only [settleTag, TagType.discriminant?_leaf, Option.bind_some, h, if_true]
  by_cases same : d = e
  · subst same
    simp
  · have other : Value.leaf (u.tagType.leaf d) ≠ .leaf (u.tagType.leaf e) := fun h =>
      same (TagType.leaf_injective (Value.leaf.inj h))
    simp [other, same]

end Writer

end XdrText
