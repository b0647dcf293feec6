import Mathlib

/-!
Weighted counting over finite sets: the overlap arithmetic that every quorum
argument rests on, for an arbitrary weight function.
-/

set_option autoImplicit false

namespace Weight

variable {α : Type*} [DecidableEq α] (w : α → ℕ)

theorem sum_add_sum_le_sum_inter_add {U A B : Finset α} (hA : A ⊆ U) (hB : B ⊆ U) :
    ∑ i ∈ A, w i + ∑ i ∈ B, w i ≤ ∑ i ∈ A ∩ B, w i + ∑ i ∈ U, w i := by
  have hunion : ∑ i ∈ A ∪ B, w i ≤ ∑ i ∈ U, w i :=
    Finset.sum_le_sum_of_subset (Finset.union_subset hA hB)
  rw [← Finset.sum_union_inter]
  omega

theorem exists_mem_not_mem_of_lt {E S : Finset α}
    (h : ∑ i ∈ E, w i < ∑ i ∈ S, w i) : ∃ i ∈ S, i ∉ E := by
  by_contra hall
  have hsub : S ⊆ E := fun i hi => by
    by_contra hni
    exact hall ⟨i, hi, hni⟩
  have hle : ∑ i ∈ S, w i ≤ ∑ i ∈ E, w i := Finset.sum_le_sum_of_subset hsub
  omega

theorem inter_nonempty_of_lt_add {U A B : Finset α} (hA : A ⊆ U) (hB : B ⊆ U)
    (h : ∑ i ∈ U, w i < ∑ i ∈ A, w i + ∑ i ∈ B, w i) : (A ∩ B).Nonempty := by
  have hle := sum_add_sum_le_sum_inter_add w hA hB
  have hpos : ∑ i ∈ A ∩ B, w i ≠ 0 := by omega
  exact Finset.nonempty_of_sum_ne_zero hpos

end Weight
