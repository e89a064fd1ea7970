import XdrText.Envelope
import XdrText.Proofs.Initial

/-!
# XdrText — the schema of envelopes

The schema of transaction envelopes is sound, every enum and every tag in it has a symbol to begin
with, no type in it goes on without an end, and all opaque data in it is 32 bytes long.
-/

namespace XdrText

/-- The lengths of the opaque data that a type spells out. -/
def Ty.opaques : Ty → List Nat
  | .fixed n => [n]
  | .optional ty | .array ty _ | .seq ty _ => ty.opaques
  | _ => []

namespace Schema
variable {s : Schema}

/-- Opaque data reached from a type is spelt out by it or by a field of the schema. -/
theorem Reaches.mem_opaques {name m : String} {ty : Ty} {n : Nat}
    (h : s.Reaches name ty m (.fixed n)) :
    n ∈ ty.opaques ∨ ∃ f ∈ s.fields, n ∈ f.ty.opaques := by
  generalize hu : Ty.fixed n = u at h
  induction h with
  | here => exact .inl (by simp [← hu, Ty.opaques])
  | inner _ ih | elem _ _ ih | item _ _ ih => exact ih hu
  | field hd hf _ ih => exact .inr ((ih hu).elim (fun h => ⟨_, mem_fields_of_struct? hd hf, h⟩) id)
  | arm hd hf _ ih => exact .inr ((ih hu).elim (fun h => ⟨_, mem_fields_of_union? hd hf, h⟩) id)

/-- Where no other length of opaque data is spelt out, each source key that is reached has 32
bytes. -/
theorem bareSources_of_opaques {name : String} {ty : Ty} (ht : ∀ n ∈ ty.opaques, n = 32)
    (hf : ∀ f ∈ s.fields, ∀ n ∈ f.ty.opaques, n = 32) : s.BareSources name ty := by
  intro m n hr _
  rcases hr.mem_opaques with h | ⟨f, hm, h⟩
  · exact ht n h
  · exact hf f hm n h

end Schema

namespace Envelope

theorem sound : schema.Sound :=
  Definitions.resolve_sound resolve_definitions

/-- Each tag has a symbol whose arm there is, so that it has a value to begin with. -/
theorem symbolic : schema.Symbolic where
  symbols_ne_nil := by decide +kernel
  exists_armed u hu name e ht he := by
    have armed : ∀ u ∈ schema.unions, u.tagType = .int ∨ schema.armedSymbols u ≠ [] := by
      decide +kernel
    have hne := (armed u hu).resolve_left (by rw [ht]; nofun)
    obtain ⟨v, vs, hv⟩ := List.exists_cons_of_ne_nil hne
    have hm : v ∈ schema.armedSymbols u := hv ▸ List.mem_cons_self
    obtain ⟨⟨name', e', ht', he', hmem⟩, harm⟩ := Schema.mem_armedSymbols.mp hm
    obtain rfl : name = name' := by simpa [ht] using ht'
    obtain rfl : e = e' := by simpa [he] using he'
    obtain ⟨x, hx, rfl⟩ := List.mem_map.mp hmem
    exact ⟨x, hx, harm⟩

/-- All opaque data in the schema is 32 bytes long. -/
theorem bareSources : schema.BareSources "" ty :=
  Schema.bareSources_of_opaques (by decide) (by decide +kernel)

theorem not_endless : ∀ ty, ¬ schema.Endless ty :=
  Schema.not_endless_of_fields (by decide +kernel)

/-- A new envelope is an envelope. -/
theorem initial_hasType : schema.HasType ty initial :=
  Schema.initial_hasType sound symbolic initial_ty

end Envelope

end XdrText
