import Mathlib

/-!
Weighted medians of a list of entries, each with a key in a linear order and a weight in
the naturals. A key `t` of the list is a weighted median when the entries below `t` weigh
at most half of the total, rounded down, and the entries up to `t` more than that.

A median is hemmed in by every heavy part of the list: if the entries outside a part
weigh at most `f` and the whole list more than `2 * f`, the part has an entry at or below
the median and one at or above it.
-/

set_option autoImplicit false

namespace WeightedMedian

variable {α β γ : Type*} [LinearOrder α] (key : β → α) (weight : β → ℕ)

def totalWeight (l : List β) : ℕ := (l.map weight).sum

/-- The weight of the entries that satisfy `p`. -/
def weightWhere (p : β → Prop) [DecidablePred p] (l : List β) : ℕ :=
  ((l.filter p).map weight).sum

def weightBelow (t : α) (l : List β) : ℕ := weightWhere weight (fun b => key b < t) l

def weightUpTo (t : α) (l : List β) : ℕ := weightWhere weight (fun b => key b ≤ t) l

/-- `t` is a weighted median of `l`. -/
@[mk_iff] structure IsMedian (l : List β) (t : α) : Prop where
  mem : t ∈ l.map key
  weightBelow_le : weightBelow key weight t l ≤ totalWeight weight l / 2
  lt_weightUpTo : totalWeight weight l / 2 < weightUpTo key weight t l

variable {key weight}

section Weights

variable {p q : β → Prop} [DecidablePred p] [DecidablePred q]

@[simp] theorem totalWeight_nil : totalWeight weight [] = 0 := rfl

@[simp] theorem totalWeight_cons (b : β) (l : List β) :
    totalWeight weight (b :: l) = weight b + totalWeight weight l := by
  simp [totalWeight]

@[simp] theorem weightWhere_nil : weightWhere weight p [] = 0 := rfl

theorem weightWhere_cons (b : β) (l : List β) :
    weightWhere weight p (b :: l) = (if p b then weight b else 0) + weightWhere weight p l := by
  unfold weightWhere
  by_cases hb : p b <;> simp [hb]

theorem weightWhere_eq_zero {l : List β} (h : ∀ b ∈ l, ¬ p b) : weightWhere weight p l = 0 := by
  unfold weightWhere
  rw [List.filter_eq_nil_iff.2 (by simpa using h)]
  rfl

theorem weightWhere_add_not (l : List β) :
    weightWhere weight p l + weightWhere weight (fun b => ¬ p b) l = totalWeight weight l :=
  List.sum_map_filter_add_sum_map_filter_not p weight l

theorem weightWhere_le_of_imp {l : List β} (h : ∀ b ∈ l, p b → q b) :
    weightWhere weight p l ≤ weightWhere weight q l := by
  induction l with
  | nil => simp
  | cons b l ih =>
    rw [weightWhere_cons, weightWhere_cons]
    have hl := ih fun b' hb' => h b' (.tail _ hb')
    by_cases hp : p b
    · simp only [if_pos hp, if_pos (h b (.head _) hp)]
      omega
    · simp only [if_neg hp]
      split_ifs <;> omega

theorem weightWhere_le_totalWeight (l : List β) :
    weightWhere weight p l ≤ totalWeight weight l := by
  have : weightWhere weight p l + weightWhere weight (fun b => ¬ p b) l = totalWeight weight l :=
    weightWhere_add_not l
  omega

theorem weightWhere_perm {l l' : List β} (h : l.Perm l') :
    weightWhere weight p l = weightWhere weight p l' := by
  unfold weightWhere
  exact ((h.filter _).map weight).sum_eq

theorem totalWeight_perm {l l' : List β} (h : l.Perm l') :
    totalWeight weight l = totalWeight weight l' :=
  (h.map weight).sum_eq

theorem weightWhere_map (f : γ → β) (l : List γ) :
    weightWhere weight p (l.map f) = weightWhere (weight ∘ f) (fun c => p (f c)) l := by
  unfold weightWhere
  rw [List.filter_map, List.map_map]
  rfl

theorem totalWeight_map (f : γ → β) (l : List γ) :
    totalWeight weight (l.map f) = totalWeight (weight ∘ f) l := by
  simp [totalWeight]

end Weights

theorem IsMedian.perm {l l' : List β} {t : α} (h : IsMedian key weight l t) (hp : l.Perm l') :
    IsMedian key weight l' t where
  mem := (hp.map key).subset h.mem
  weightBelow_le := by
    unfold weightBelow
    rw [← weightWhere_perm hp, ← totalWeight_perm hp]
    exact h.weightBelow_le
  lt_weightUpTo := by
    unfold weightUpTo
    rw [← weightWhere_perm hp, ← totalWeight_perm hp]
    exact h.lt_weightUpTo

theorem isMedian_map_iff (f : γ → β) (l : List γ) (t : α) :
    IsMedian key weight (l.map f) t ↔ IsMedian (key ∘ f) (weight ∘ f) l t := by
  simp only [isMedian_iff, weightBelow, weightUpTo, weightWhere_map, totalWeight_map,
    List.map_map]
  rfl

section Between

variable {q : β → Prop} [DecidablePred q] {l : List β} {t : α}

/-- If the entries outside `q` weigh at most half, an entry of `q` lies at or below the
median: otherwise everything up to the median would be outside `q`. -/
theorem IsMedian.exists_le (h : IsMedian key weight l t)
    (hq : weightWhere weight (fun b => ¬ q b) l ≤ totalWeight weight l / 2) :
    ∃ b ∈ l, q b ∧ key b ≤ t := by
  by_contra hall
  simp only [not_exists, not_and, not_le] at hall
  have hle : weightUpTo key weight t l ≤ weightWhere weight (fun b => ¬ q b) l :=
    weightWhere_le_of_imp fun b hb hbt hqb => absurd hbt (not_le.2 (hall b hb hqb))
  have := h.lt_weightUpTo
  omega

/-- If the entries outside `q` weigh less than the upper half, an entry of `q` lies at or
above the median: otherwise all of `q` would be below it. -/
theorem IsMedian.exists_ge (h : IsMedian key weight l t)
    (hq : weightWhere weight (fun b => ¬ q b) l <
      totalWeight weight l - totalWeight weight l / 2) :
    ∃ b ∈ l, q b ∧ t ≤ key b := by
  by_contra hall
  simp only [not_exists, not_and, not_le] at hall
  have hle : weightWhere weight q l ≤ weightBelow key weight t l :=
    weightWhere_le_of_imp fun b hb hqb => hall b hb hqb
  have hsplit : weightWhere weight q l + weightWhere weight (fun b => ¬ q b) l =
      totalWeight weight l := weightWhere_add_not l
  have := h.weightBelow_le
  omega

theorem IsMedian.between (h : IsMedian key weight l t) {f : ℕ}
    (hq : weightWhere weight (fun b => ¬ q b) l ≤ f) (hf : 2 * f < totalWeight weight l) :
    (∃ b ∈ l, q b ∧ key b ≤ t) ∧ ∃ b ∈ l, q b ∧ t ≤ key b :=
  ⟨h.exists_le (by omega), h.exists_ge (by omega)⟩

end Between

end WeightedMedian
