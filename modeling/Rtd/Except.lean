import Mathlib

/-!
Reasoning about computations in `Except`. A chain of binds that succeeds is peeled apart
one step at a time, with no unfolding of the monad. `Holds Q P x` is a postcondition on both
outcomes, `P` on the result and `Q` on the error; it composes along binds, so a chain is
specified by the specifications of its steps.
-/

set_option autoImplicit false

namespace Except

variable {ε α β : Type}

theorem bind_eq_ok {x : Except ε α} {f : α → Except ε β} {b : β} :
    x >>= f = .ok b ↔ ∃ a, x = .ok a ∧ f a = .ok b := by
  cases x <;> simp [bind, Except.bind]

@[simp] theorem ok_bind {a : α} {f : α → Except ε β} : (Except.ok a >>= f) = f a := rfl

@[simp] theorem error_bind {e : ε} {f : α → Except ε β} : (Except.error e >>= f) = .error e :=
  rfl

@[simp] theorem pure_eq_ok {a b : α} : (pure a : Except ε α) = .ok b ↔ a = b := by
  simp [pure, Except.pure]

@[simp] theorem throw_eq_error {e : ε} : (throw e : Except ε α) = .error e := rfl

/-- Two continuations that agree on every value the computation can return give one chain. -/
theorem bind_congr_ok {x : Except ε α} {f g : α → Except ε β} (h : ∀ a, x = .ok a → f a = g a) :
    x >>= f = x >>= g := by
  cases x with
  | error e => rfl
  | ok a => exact h a rfl

/-- A chain that ends by returning a value: the last step's result, and the value. -/
theorem bind_pure_eq_ok {x : Except ε α} {f : α → β} {b : β} :
    (x >>= fun a => pure (f a)) = .ok b ↔ ∃ a, x = .ok a ∧ f a = b := by
  simp only [bind_eq_ok, pure_eq_ok]

/-- A guard `if c then throw e` inside a `do` block, as the block's join point leaves it:
the rest of the block runs only when the guard does not fire. -/
theorem ite_throw_bind_eq_ok {c : Prop} [Decidable c] {e : ε} {k : α → Except ε β}
    {r : Except ε β} {b : β} : (if c then throw e >>= k else r) = .ok b ↔ ¬c ∧ r = .ok b := by
  by_cases hc : c <;> simp [hc]

/-- A final check that returns a value or throws. -/
theorem ite_pure_throw_eq_ok {c : Prop} [Decidable c] {e : ε} {a b : α} :
    (if c then pure a else throw e : Except ε α) = .ok b ↔ c ∧ a = b := by
  by_cases hc : c <;> simp [hc]

/-- A fold whose every step keeps `P` of the accumulator keeps it to the end. -/
theorem foldlM_eq_ok_invariant {f : β → α → Except ε β} {P : β → Prop} {l : List α}
    (hf : ∀ b, ∀ x ∈ l, ∀ b', P b → f b x = .ok b' → P b') {b b' : β} (hb : P b)
    (h : l.foldlM f b = .ok b') : P b' := by
  induction l generalizing b with
  | nil =>
    rw [List.foldlM_nil, pure_eq_ok] at h
    exact h ▸ hb
  | cons x xs ih =>
    rw [List.foldlM_cons] at h
    obtain ⟨b₁, h₁, h⟩ := bind_eq_ok.1 h
    exact ih (fun b y hy => hf b y (List.mem_cons_of_mem x hy)) (hf b x List.mem_cons_self b₁ hb h₁) h

/-- A loop of checks succeeds exactly when every check does. -/
theorem forM_eq_ok {xs : List α} {g : α → Except ε Unit} :
    xs.forM g = .ok ⟨⟩ ↔ ∀ x ∈ xs, g x = .ok ⟨⟩ := by
  induction xs with
  | nil => exact ⟨fun _ _ h => absurd h List.not_mem_nil, fun _ => rfl⟩
  | cons x xs ih =>
    show (g x >>= fun _ => xs.forM g) = _ ↔ _
    rw [bind_eq_ok, List.forall_mem_cons, ← ih]
    constructor
    · rintro ⟨⟨⟩, hx, hrest⟩
      exact ⟨hx, hrest⟩
    · rintro ⟨hx, hrest⟩
      exact ⟨⟨⟩, hx, hrest⟩

/-- Every element a map in `Except` returns is the result of its function on an element. -/
theorem mem_of_mapM_eq_ok {f : α → Except ε β} {l : List α} {l' : List β}
    (h : l.mapM f = .ok l') {y : β} (hy : y ∈ l') : ∃ x ∈ l, f x = .ok y := by
  induction l generalizing l' with
  | nil =>
    rw [List.mapM_nil, pure_eq_ok] at h
    subst h
    exact absurd hy List.not_mem_nil
  | cons x xs ih =>
    rw [List.mapM_cons] at h
    obtain ⟨z, hz, h⟩ := bind_eq_ok.1 h
    obtain ⟨zs, hzs, rfl⟩ := bind_pure_eq_ok.1 h
    rcases List.mem_cons.1 hy with rfl | hy
    · exact ⟨x, List.mem_cons_self, hz⟩
    · obtain ⟨x', hx', hfx'⟩ := ih hzs hy
      exact ⟨x', List.mem_cons_of_mem _ hx', hfx'⟩

/-- A map in `Except` whose function succeeds on every element returns their images. -/
theorem mapM_eq_ok_of_forall {f : α → Except ε β} {g : α → β} {l : List α}
    (h : ∀ x ∈ l, f x = .ok (g x)) : l.mapM f = .ok (l.map g) := by
  induction l with
  | nil => rfl
  | cons x xs ih =>
    rw [List.mapM_cons, h x List.mem_cons_self, ok_bind,
      ih fun y hy => h y (List.mem_cons_of_mem _ hy)]
    rfl

/-- Every element a filtering map in `Except` keeps is kept by its function on an element. -/
theorem mem_of_filterMapM_eq_ok {f : α → Except ε (Option β)} {l : List α} {l' : List β}
    (h : l.filterMapM f = .ok l') {y : β} (hy : y ∈ l') : ∃ x ∈ l, f x = .ok (some y) := by
  induction l generalizing l' with
  | nil =>
    rw [List.filterMapM_nil, pure_eq_ok] at h
    subst h
    exact absurd hy List.not_mem_nil
  | cons x xs ih =>
    rw [List.filterMapM_cons] at h
    obtain ⟨o, ho, h⟩ := bind_eq_ok.1 h
    cases o with
    | none =>
      obtain ⟨x', hx', hfx'⟩ := ih h hy
      exact ⟨x', List.mem_cons_of_mem _ hx', hfx'⟩
    | some z =>
      obtain ⟨zs, hzs, rfl⟩ := bind_pure_eq_ok.1 h
      rcases List.mem_cons.1 hy with rfl | hy
      · exact ⟨x, List.mem_cons_self, ho⟩
      · obtain ⟨x', hx', hfx'⟩ := ih hzs hy
        exact ⟨x', List.mem_cons_of_mem _ hx', hfx'⟩

/-- Every result of the computation satisfies `P` and every error satisfies `Q`. -/
def Holds (Q : ε → Prop) (P : α → Prop) : Except ε α → Prop
  | .ok a => P a
  | .error e => Q e

section Holds

variable {Q Q' : ε → Prop} {P P' : α → Prop} {x : Except ε α}

@[simp] theorem holds_ok {a : α} : Holds Q P (.ok a) ↔ P a := Iff.rfl

@[simp] theorem holds_error {e : ε} : Holds Q P (.error e) ↔ Q e := Iff.rfl

theorem holds_pure {a : α} (h : P a) : Holds Q P (pure a) := h

theorem holds_of_eq_ok {a : α} (hx : x = .ok a) (h : P a) : Holds Q P x := by
  rw [hx]; exact h

theorem Holds.of_eq_ok {a : α} (h : Holds Q P x) (hx : x = .ok a) : P a := by
  rw [hx] at h; exact h

theorem Holds.bind {R : β → Prop} {y : Except ε β} {f : β → Except ε α}
    (hy : Holds Q R y) (hf : ∀ b, R b → Holds Q P (f b)) : Holds Q P (y >>= f) := by
  cases y with
  | error e => exact hy
  | ok b => exact hf b hy

theorem Holds.mono (h : Holds Q P x) (hP : ∀ a, P a → P' a) (hQ : ∀ e, Q e → Q' e) :
    Holds Q' P' x := by
  cases x with
  | error e => exact hQ e h
  | ok a => exact hP a h

instance decidableHolds [DecidablePred Q] [DecidablePred P] :
    ∀ x : Except ε α, Decidable (Holds Q P x)
  | .ok a => inferInstanceAs (Decidable (P a))
  | .error e => inferInstanceAs (Decidable (Q e))

theorem holds_iff : Holds Q P x ↔ (∃ a, x = .ok a ∧ P a) ∨ ∃ e, x = .error e ∧ Q e := by
  cases x <;> simp [Holds]

end Holds

end Except
