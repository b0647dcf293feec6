import Mathlib

/-!
Two lists related element by element on their common prefix: the form in which two
runs of one procedure on different inputs are compared when one run goes further
than the other.
-/

set_option autoImplicit false

/-- The elements of two lists at every index below both lengths are related. -/
inductive Aligned {α β : Type*} (R : α → β → Prop) : List α → List β → Prop
  | nil_left (l : List β) : Aligned R [] l
  | nil_right (l : List α) : Aligned R l []
  | cons {a : α} {b : β} {l₁ : List α} {l₂ : List β} :
      R a b → Aligned R l₁ l₂ → Aligned R (a :: l₁) (b :: l₂)

namespace Aligned

variable {α β γ δ : Type*} {R : α → β → Prop}

theorem cons_inv {a : α} {b : β} {l₁ : List α} {l₂ : List β}
    (h : Aligned R (a :: l₁) (b :: l₂)) : R a b ∧ Aligned R l₁ l₂ := by
  cases h with
  | cons hab h => exact ⟨hab, h⟩

theorem getElem {l₁ : List α} {l₂ : List β} (h : Aligned R l₁ l₂) {i : Nat}
    (h₁ : i < l₁.length) (h₂ : i < l₂.length) : R l₁[i] l₂[i] := by
  induction h generalizing i with
  | nil_left => simp at h₁
  | nil_right => simp at h₂
  | cons hab _ ih =>
    cases i with
    | zero => exact hab
    | succ i => exact ih (by simpa using h₁) (by simpa using h₂)

/-- Filters that agree on related elements keep the lists aligned. -/
theorem filter (p : α → Bool) (q : β → Bool) (hpq : ∀ a b, R a b → p a = q b)
    {l₁ : List α} {l₂ : List β} (h : Aligned R l₁ l₂) :
    Aligned R (l₁.filter p) (l₂.filter q) := by
  induction h with
  | nil_left => exact .nil_left _
  | nil_right => simpa using .nil_right _
  | @cons a b _ _ hab _ ih =>
    rw [List.filter_cons, List.filter_cons, ← hpq a b hab]
    split
    · exact .cons hab ih
    · exact ih

theorem map {f : γ → α} {g : δ → β} {l₁ : List γ} {l₂ : List δ}
    (h : Aligned (fun x y => R (f x) (g y)) l₁ l₂) : Aligned R (l₁.map f) (l₂.map g) := by
  induction h with
  | nil_left => exact .nil_left _
  | nil_right => exact .nil_right _
  | cons hab _ ih => exact .cons hab ih

theorem symm {l₁ : List α} {l₂ : List β} (h : Aligned R l₁ l₂) :
    Aligned (fun b a => R a b) l₂ l₁ := by
  induction h with
  | nil_left => exact .nil_right _
  | nil_right => exact .nil_left _
  | cons hab _ ih => exact .cons hab ih

end Aligned
