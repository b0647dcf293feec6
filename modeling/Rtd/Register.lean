import Mathlib

/-!
Histories of a versioned register: each access sees a version, and an exclusive
access writes a newer one. A history is serial when every access sees the version
of the latest exclusive access before it, or the initial version, and every write
is newer than what its writer saw.
-/

set_option autoImplicit false

namespace Register

variable {α : Type*} [LinearOrder α]

/-- One access: the version it sees, whether it writes, and the version it leaves. -/
structure Access (α : Type*) where
  seen : α
  exclusive : Bool
  written : α
  deriving DecidableEq, Repr

/-- The version after a prefix of the history, starting from `v`. -/
def current (v : α) : List (Access α) → α
  | [] => v
  | e :: rest => current (if e.exclusive then e.written else v) rest

/-- A serial history from the version `v`. -/
def Serial (v : α) : List (Access α) → Prop
  | [] => True
  | e :: rest => e.seen = v ∧ (e.exclusive = true → e.seen < e.written) ∧
      Serial (if e.exclusive then e.written else v) rest

@[simp] theorem serial_nil (v : α) : Serial v [] := trivial

@[simp] theorem serial_cons (v : α) (e : Access α) (rest : List (Access α)) :
    Serial v (e :: rest) ↔ e.seen = v ∧ (e.exclusive = true → e.seen < e.written) ∧
      Serial (if e.exclusive then e.written else v) rest := Iff.rfl

omit [LinearOrder α] in
theorem current_append (v : α) (pre post : List (Access α)) :
    current v (pre ++ post) = current (current v pre) post := by
  induction pre generalizing v with
  | nil => rfl
  | cons e pre ih => exact ih _

theorem Serial.append {v : α} {pre post : List (Access α)} (h : Serial v (pre ++ post)) :
    Serial v pre ∧ Serial (current v pre) post := by
  induction pre generalizing v with
  | nil => exact ⟨trivial, h⟩
  | cons e pre ih =>
    obtain ⟨hseen, hwrite, hrest⟩ := h
    exact ⟨⟨hseen, hwrite, (ih hrest).1⟩, (ih hrest).2⟩

/-- Every access sees the version of the latest exclusive access before it, or the
initial version when there is none. -/
theorem Serial.seen_eq_current {v : α} {pre post : List (Access α)} {e : Access α}
    (h : Serial v (pre ++ e :: post)) : e.seen = current v pre :=
  h.append.2.1

theorem Serial.le_current {v : α} {l : List (Access α)} (h : Serial v l) : v ≤ current v l := by
  induction l generalizing v with
  | nil => exact le_rfl
  | cons e rest ih =>
    obtain ⟨hseen, hwrite, hrest⟩ := h
    refine le_trans ?_ (ih hrest)
    cases hx : e.exclusive
    · simp
    · simpa [hx, hseen] using (hwrite hx).le

/-- An exclusive access sees an older version than every later access: the writers
of a serial history see strictly increasing, pairwise distinct versions. -/
theorem Serial.pairwise {v : α} {l : List (Access α)} (h : Serial v l) :
    l.Pairwise (fun e₁ e₂ => e₁.seen ≤ e₂.seen ∧ (e₁.exclusive = true → e₁.seen < e₂.seen)) := by
  induction l generalizing v with
  | nil => exact .nil
  | cons e rest ih =>
    obtain ⟨hseen, hwrite, hrest⟩ := h
    refine .cons (fun e' he' => ?_) (ih hrest)
    obtain ⟨pre, post, rfl⟩ := List.append_of_mem he'
    have hseen' := hrest.seen_eq_current
    have hle := (hrest.append.1).le_current
    rw [hseen']
    cases hx : e.exclusive
    · simp only [hx, Bool.false_eq_true, if_false] at hle
      exact ⟨hseen ▸ hle, fun h => absurd h (by simp)⟩
    · simp only [hx, if_true] at hle
      exact ⟨(hwrite hx).le.trans hle, fun _ => (hwrite hx).trans_le hle⟩

end Register
