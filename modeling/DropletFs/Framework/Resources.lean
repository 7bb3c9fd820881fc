import Mathlib.Data.Set.Insert
import Mathlib.Order.BooleanAlgebra.Set

/-! Resources in use against resources on record: which moves keep the two in step. -/

namespace Resources

variable {α : Type*}

/-- `Moves inUse recorded kept inUse' recorded'`: what one operation does to the resources in use
and to those on record; `kept` says whether the record stays right. -/
inductive Moves (inUse recorded : Set α) : Prop → Set α → Set α → Prop
  | same : Moves inUse recorded True inUse recorded
  | gain {k : α} (hk : k ∉ inUse) : Moves inUse recorded True (insert k inUse) (insert k recorded)
  | drop {k : α} (hk : k ∈ recorded) : Moves inUse recorded True (inUse \ {k}) (recorded \ {k})
  | leak {k : α} (hk : k ∉ inUse) : Moves inUse recorded False (insert k inUse) recorded
  | swap {k old : α} (hk : k ∉ inUse) (ho : old ∈ recorded) :
      Moves inUse recorded False (insert k inUse) (insert k (recorded \ {old}))

/-- What is on record is in use, and what was in use before is not on record. -/
structure Sound (base inUse recorded : Set α) : Prop where
  base_inUse : base ⊆ inUse
  recorded_inUse : recorded ⊆ inUse
  foreign : ∀ k ∈ base, k ∉ recorded

/-- Everything in use beyond `base` is on record. -/
def Exact (base inUse recorded : Set α) : Prop := inUse \ base = recorded

variable {base inUse recorded inUse' recorded' : Set α} {kept : Prop}

theorem Sound.moves (h : Sound base inUse recorded)
    (hm : Moves inUse recorded kept inUse' recorded') : Sound base inUse' recorded' := by
  have hf := h.foreign
  cases hm with
  | same => exact h
  | gain hk =>
    refine ⟨h.base_inUse.trans (Set.subset_insert _ _), Set.insert_subset_insert h.recorded_inUse,
      ?_⟩
    rintro x hx (rfl | hr)
    · exact hk (h.base_inUse hx)
    · exact hf x hx hr
  | drop hk =>
    refine ⟨fun x hx => ⟨h.base_inUse hx, ?_⟩, Set.sdiff_subset_sdiff_left h.recorded_inUse, ?_⟩
    · rintro rfl
      exact hf x hx hk
    · exact fun x hx hr => hf x hx hr.1
  | leak hk =>
    exact ⟨h.base_inUse.trans (Set.subset_insert _ _), h.recorded_inUse.trans
      (Set.subset_insert _ _), h.foreign⟩
  | swap hk ho =>
    refine ⟨h.base_inUse.trans (Set.subset_insert _ _),
      Set.insert_subset_insert (Set.sdiff_subset.trans h.recorded_inUse), ?_⟩
    rintro x hx (rfl | hr)
    · exact hk (h.base_inUse hx)
    · exact hf x hx hr.1

/-- A record that is exact stays so under the moves that keep it, and under no other. -/
theorem Exact.moves_iff (hs : Sound base inUse recorded) (h : Exact base inUse recorded)
    (hm : Moves inUse recorded kept inUse' recorded') : Exact base inUse' recorded' ↔ kept := by
  unfold Exact at h ⊢
  cases hm with
  | same => exact iff_of_true h trivial
  | @gain k hk =>
    refine iff_of_true ?_ trivial
    have hb : k ∉ base := fun hx => hk (hs.base_inUse hx)
    rw [Set.insert_sdiff_of_notMem _ hb, h]
  | @drop k hk =>
    refine iff_of_true ?_ trivial
    rw [sdiff_right_comm, h]
  | @leak k hk =>
    refine iff_of_false (fun he => ?_) id
    have hb : k ∉ base := fun hx => hk (hs.base_inUse hx)
    have hmem : k ∈ recorded := he ▸ ⟨Set.mem_insert _ _, hb⟩
    exact hk (hs.recorded_inUse hmem)
  | @swap k old hk ho =>
    refine iff_of_false (fun he => ?_) id
    have hb : old ∉ base := fun hx => hs.foreign old hx ho
    have hne : old ≠ k := by
      rintro rfl
      exact hk (hs.recorded_inUse ho)
    have hmem : old ∈ insert k (recorded \ {old}) :=
      he ▸ ⟨Set.mem_insert_of_mem _ (hs.recorded_inUse ho), hb⟩
    rcases hmem with h1 | h1
    · exact hne h1
    · exact h1.2 rfl

end Resources
