import Rtd.Except
import Mathlib

/-!
Readers of a token stream that hold the stream as their state: a reader of values of type `α`
is a `StateT σ (Except ε) α`, and a state is a list of tokens seen through an equivalence
`e : List τ ≃ σ`, so that the stream may keep its tokens in any order or representation.

`ReadsBack e r enc P` says that `r` reads back what `enc` writes, for the values satisfying `P`,
whatever follows the encoding; `Extends e r` says that what `r` reads from a stream it reads the
same way when more tokens follow; `Yields r P` says that every value `r` reads satisfies `P`.
Each is carried through sequencing, mapping and repetition, and a reader that reads back an
encoding and extends fails on every truncation of it.
-/

set_option autoImplicit false

namespace StreamCodec

variable {τ σ ε α β : Type}

/-- Reading `n` values in turn. -/
def readN (r : StateT σ (Except ε) α) : Nat → StateT σ (Except ε) (List α)
  | 0 => pure []
  | n + 1 => do
    let x ← r
    let xs ← readN r n
    pure (x :: xs)

section Run

variable {r : StateT σ (Except ε) α} {f : α → StateT σ (Except ε) β} {s s' s'' : σ} {a : α}
  {b : β}

theorem run_bind_of_eq_ok (h : r.run s = .ok (a, s')) (hf : (f a).run s' = .ok (b, s'')) :
    (r >>= f).run s = .ok (b, s'') := by
  rw [StateT.run_bind, h, Except.ok_bind, hf]

theorem run_map_of_eq_ok (g : α → β) (h : r.run s = .ok (a, s')) :
    (g <$> r).run s = .ok (g a, s') := by
  rw [StateT.run_map, h]
  rfl

/-- A sequence that reads a value went through a value of its first reader. -/
theorem run_bind_eq_ok (h : (r >>= f).run s = .ok (b, s'')) :
    ∃ a s', r.run s = .ok (a, s') ∧ (f a).run s' = .ok (b, s'') := by
  rw [StateT.run_bind] at h
  obtain ⟨p, hp, hf⟩ := Except.bind_eq_ok.1 h
  exact ⟨p.1, p.2, hp, hf⟩

theorem run_map_eq_ok {g : α → β} (h : (g <$> r).run s = .ok (b, s'')) :
    ∃ a, r.run s = .ok (a, s'') ∧ g a = b := by
  rw [StateT.run_map] at h
  cases hr : r.run s with
  | error err => rw [hr] at h; cases h
  | ok p =>
    rw [hr] at h
    cases h
    exact ⟨p.1, rfl, rfl⟩

@[simp] theorem run_throw_eq (err : ε) : (throw err : StateT σ (Except ε) α).run s = .error err :=
  rfl

@[simp] theorem run_readN_zero : (readN r 0).run s = .ok ([], s) := rfl

theorem run_readN_succ (n : Nat) :
    (readN r (n + 1)).run s = (do
      let x ← r
      let xs ← readN r n
      pure (x :: xs)).run s := rfl

end Run

/-! ### Reading back an encoding -/

section ReadsBack

variable (e : List τ ≃ σ)

/-- `r` reads back what `enc` writes for the values satisfying `P`: run on a stream that begins
with the encoding of `x`, it returns `x` and the stream after the encoding. -/
def ReadsBack (r : StateT σ (Except ε) α) (enc : α → List τ) (P : α → Prop) : Prop :=
  ∀ x, P x → ∀ rest, r.run (e (enc x ++ rest)) = .ok (x, e rest)

variable {e} {r : StateT σ (Except ε) α} {enc : α → List τ} {P : α → Prop}

/-- Repetition reads back the encodings of a list of values, one after the other. -/
theorem ReadsBack.run_readN (h : ReadsBack e r enc P) {xs : List α} (hxs : ∀ x ∈ xs, P x)
    (rest : List τ) : (readN r xs.length).run (e (xs.flatMap enc ++ rest)) = .ok (xs, e rest) := by
  induction xs with
  | nil => rfl
  | cons x xs ih =>
    have hx : r.run (e (enc x ++ (xs.flatMap enc ++ rest))) = .ok (x, e (xs.flatMap enc ++ rest)) :=
      h x (hxs x List.mem_cons_self) _
    have hrest := ih fun y hy => hxs y (List.mem_cons_of_mem _ hy)
    rw [List.length_cons, run_readN_succ, List.flatMap_cons, List.append_assoc]
    exact run_bind_of_eq_ok hx (run_bind_of_eq_ok hrest rfl)

end ReadsBack

/-! ### Reading does not look past what it reads -/

section Extends

variable (e : List τ ≃ σ)

/-- What `r` reads from a stream it reads the same way when more tokens follow, and it leaves
them after the rest. -/
def Extends (r : StateT σ (Except ε) α) : Prop :=
  ∀ l a l', r.run (e l) = .ok (a, e l') → ∀ q, r.run (e (l ++ q)) = .ok (a, e (l' ++ q))

variable {e} {r : StateT σ (Except ε) α}

theorem extends_pure (a : α) : Extends e (pure a : StateT σ (Except ε) α) := by
  intro l a' l' h q
  obtain ⟨ha, hl⟩ := Prod.ext_iff.1 (Except.ok.inj h)
  have hl' : l = l' := e.injective hl
  subst ha hl'
  rfl

theorem extends_throw (err : ε) : Extends e (throw err : StateT σ (Except ε) α) := by
  intro l a l' h
  cases h

/-- A computation that does not touch the stream. -/
theorem extends_lift (x : Except ε α) : Extends e (StateT.lift x : StateT σ (Except ε) α) := by
  cases x with
  | ok a => exact extends_pure a
  | error err => exact extends_throw err

theorem Extends.bind {f : α → StateT σ (Except ε) β} (hr : Extends e r)
    (hf : ∀ a, Extends e (f a)) : Extends e (r >>= f) := by
  intro l b l'' h q
  obtain ⟨a, s', hra, hfa⟩ := run_bind_eq_ok h
  -- the state between the two readers is a stream too
  have hra' : r.run (e l) = .ok (a, e (e.symm s')) := by rw [hra, e.apply_symm_apply]
  have hfa' : (f a).run (e (e.symm s')) = .ok (b, e l'') := by rw [e.apply_symm_apply, hfa]
  exact run_bind_of_eq_ok (hr l a _ hra' q) (hf a _ b l'' hfa' q)

theorem Extends.map (hr : Extends e r) (g : α → β) : Extends e (g <$> r) := by
  intro l b l' h q
  obtain ⟨a, hra, rfl⟩ := run_map_eq_ok h
  exact run_map_of_eq_ok g (hr l a l' hra q)

theorem Extends.readN (hr : Extends e r) (n : Nat) : Extends e (readN r n) := by
  induction n with
  | zero => exact extends_pure []
  | succ n ih => exact hr.bind fun x => ih.bind fun xs => extends_pure (x :: xs)

/-- A reader that reads back an encoding and does not look past what it reads fails on every
proper prefix of the encoding: it never reads a value from a truncated one. -/
theorem ReadsBack.fails_on_truncation {enc : α → List τ} {P : α → Prop} (h : ReadsBack e r enc P)
    (hr : Extends e r) {x : α} (hx : P x) {p q : List τ} (hpq : p ++ q = enc x) (hq : q ≠ []) :
    ∃ err, r.run (e p) = .error err := by
  cases hp : r.run (e p) with
  | error err => exact ⟨err, rfl⟩
  | ok res =>
    exfalso
    have hp' : r.run (e p) = .ok (res.1, e (e.symm res.2)) := by rw [hp, e.apply_symm_apply]
    -- read with the rest of the encoding after it, the prefix leaves that rest behind ...
    have hlong := hr p res.1 _ hp' q
    -- ... but the whole encoding is read to its end
    have hfull := h x hx []
    rw [hpq] at hlong
    rw [List.append_nil, hlong] at hfull
    have hnil : e.symm res.2 ++ q = [] := e.injective (Prod.ext_iff.1 (Except.ok.inj hfull)).2
    exact hq (List.append_eq_nil_iff.1 hnil).2

end Extends

/-! ### What a reader reads -/

section Yields

/-- Every value that `r` reads satisfies `P`. -/
def Yields (r : StateT σ (Except ε) α) (P : α → Prop) : Prop :=
  ∀ s a s', r.run s = .ok (a, s') → P a

variable {r : StateT σ (Except ε) α} {P : α → Prop}

theorem yields_pure {a : α} (h : P a) : Yields (pure a : StateT σ (Except ε) α) P := by
  intro s a' s' hrun
  cases hrun
  exact h

theorem yields_throw (err : ε) : Yields (throw err : StateT σ (Except ε) α) P := by
  intro s a s' h
  cases h

theorem yields_true (r : StateT σ (Except ε) α) : Yields r fun _ => True :=
  fun _ _ _ _ => trivial

theorem Yields.bind {f : α → StateT σ (Except ε) β} {Q : β → Prop} {R : α → Prop}
    (hr : Yields r R) (hf : ∀ a, R a → Yields (f a) Q) : Yields (r >>= f) Q := by
  intro s b s'' h
  obtain ⟨a, s', hra, hfa⟩ := run_bind_eq_ok h
  exact hf a (hr s a s' hra) s' b s'' hfa

/-- A sequence reads what its second reader reads, whatever the first one read. -/
theorem yields_bind {f : α → StateT σ (Except ε) β} {Q : β → Prop} (hf : ∀ a, Yields (f a) Q) :
    Yields (r >>= f) Q :=
  (yields_true r).bind fun a _ => hf a

theorem Yields.map {Q : β → Prop} (hr : Yields r P) {g : α → β} (hg : ∀ a, P a → Q (g a)) :
    Yields (g <$> r) Q := by
  intro s b s' h
  obtain ⟨a, hra, rfl⟩ := run_map_eq_ok h
  exact hg a (hr s a s' hra)

theorem Yields.mono {Q : α → Prop} (hr : Yields r P) (h : ∀ a, P a → Q a) : Yields r Q :=
  fun s a s' hrun => h a (hr s a s' hrun)

/-- Repetition reads as many values as it is asked for, each one read by the reader it repeats. -/
theorem Yields.readN (hr : Yields r P) (n : Nat) :
    Yields (readN r n) fun xs => xs.length = n ∧ ∀ x ∈ xs, P x := by
  induction n with
  | zero => exact yields_pure ⟨rfl, by simp⟩
  | succ n ih =>
    refine hr.bind fun x hx => ih.bind fun xs hxs => yields_pure ⟨by simp [hxs.1], ?_⟩
    simpa [hx] using hxs.2

end Yields

end StreamCodec
