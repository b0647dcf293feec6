import Rtd.MoveArith
import Rtd.Except
import Mathlib

/-!
`rtd::balance` (`rtd-framework/sources/balance.move`): the amounts of a coin type. A `Supply`
counts what has been minted and not burned; a `Balance` holds an amount. The module's field
accesses are private, so a balance is only made by `increase_supply`, `zero` and `split`, and
only destroyed by `decrease_supply`, `join` and `destroy_zero`.

Over the functions stands the ledger of one coin type, its supply and its live balances, and a
step for each call of a public function that does not abort. Along every run from
`create_supply` the live balances add up to the supply, and the supply stays below the largest
`u64`: so `join` never overflows and `decrease_supply` never aborts on a live balance. The two
functions that only the system may call on `RTD` (`create_staking_rewards` and
`destroy_storage_rebates`) make or destroy a balance without the supply, and are not steps.
-/

set_option autoImplicit false
set_option linter.dupNamespace false

namespace Rtd

namespace Balance

open MoveArith

/-- The error constants of `rtd::balance`. -/
inductive ErrorConst where
  | eNonZero
  | eOverflow
  | eNotEnough
  | eNotSystemAddress
  | eNotRTD
  deriving DecidableEq, Repr

/-- `Supply<T>`: the amount of `T` minted and not burned. -/
structure Supply where
  value : Nat
  deriving DecidableEq, Repr

/-- `Balance<T>`: an amount of `T`. -/
structure Balance where
  value : Nat
  deriving DecidableEq, Repr

/-! ### The source's functions -/

/-- `value`. -/
def value (self : Balance) : Nat := self.value

/-- `supply_value`. -/
def supplyValue (supply : Supply) : Nat := supply.value

/-- `create_supply`. -/
def createSupply : Supply := ⟨0⟩

/-- `increase_supply`: the supply after it and the new balance. The bound is checked against
`u64::MAX - self.value`, a subtraction of the VM. -/
def increaseSupply (self : Supply) (value : Nat) : Except (Abort ErrorConst) (Supply × Balance) := do
  let room ← sub (maxValue 64) self.value
  if value < room then
    let supply ← add 64 self.value value
    pure (⟨supply⟩, ⟨value⟩)
  else throw (.abort .eOverflow)

/-- `decrease_supply`: the supply after it and the amount burned. -/
def decreaseSupply (self : Supply) (balance : Balance) :
    Except (Abort ErrorConst) (Supply × Nat) :=
  if self.value ≥ balance.value then do
    let supply ← sub self.value balance.value
    pure (⟨supply⟩, balance.value)
  else throw (.abort .eOverflow)

/-- `zero`. -/
def zero : Balance := ⟨0⟩

/-- `join`: the balance after it and its value. -/
def join (self balance : Balance) : Except (Abort ErrorConst) (Balance × Nat) := do
  let value ← add 64 self.value balance.value
  pure (⟨value⟩, value)

/-- `split`: the balance left and the balance taken from it. -/
def split (self : Balance) (value : Nat) : Except (Abort ErrorConst) (Balance × Balance) :=
  if self.value ≥ value then do
    let rest ← sub self.value value
    pure (⟨rest⟩, ⟨value⟩)
  else throw (.abort .eNotEnough)

/-- `withdraw_all`. -/
def withdrawAll (self : Balance) : Except (Abort ErrorConst) (Balance × Balance) :=
  split self self.value

/-- `destroy_zero`. -/
def destroyZero (balance : Balance) : Except (Abort ErrorConst) Unit :=
  if balance.value = 0 then .ok () else .error (.abort .eNonZero)

/-- `destroy_supply`: the amount the supply counted. -/
def destroySupply (self : Supply) : Nat := self.value

/-! ### The ledger of a coin type -/

/-- The supply of a coin type and its live balances. -/
structure Ledger where
  supply : Supply
  balances : List Balance
  deriving DecidableEq, Repr

/-- The ledger right after `create_supply`. -/
def Ledger.initial : Ledger := ⟨createSupply, []⟩

/-- The amounts the live balances hold. -/
def total (balances : List Balance) : Nat := (balances.map (·.value)).sum

/-- One call of a public function that does not abort; an aborting call reverts its
transaction and changes nothing. `join` consumes its second balance into its first one. -/
inductive Step : Ledger → Ledger → Prop where
  | increaseSupply {l : Ledger} {value : Nat} {s : Supply} {b : Balance} :
      increaseSupply l.supply value = .ok (s, b) → Step l ⟨s, b :: l.balances⟩
  | decreaseSupply {l : Ledger} {i : Nat} {s : Supply} {v : Nat} (hi : i < l.balances.length) :
      decreaseSupply l.supply l.balances[i] = .ok (s, v) → Step l ⟨s, l.balances.eraseIdx i⟩
  | zero {l : Ledger} : Step l ⟨l.supply, zero :: l.balances⟩
  | join {l : Ledger} {i j : Nat} {b : Balance} {v : Nat} (hi : i < l.balances.length)
      (hj : j < l.balances.length) (hij : i ≠ j) :
      join l.balances[i] l.balances[j] = .ok (b, v) →
        Step l ⟨l.supply, (l.balances.set i b).eraseIdx j⟩
  | split {l : Ledger} {i value : Nat} {b b' : Balance} (hi : i < l.balances.length) :
      split l.balances[i] value = .ok (b, b') → Step l ⟨l.supply, b' :: l.balances.set i b⟩
  | withdrawAll {l : Ledger} {i : Nat} {b b' : Balance} (hi : i < l.balances.length) :
      withdrawAll l.balances[i] = .ok (b, b') → Step l ⟨l.supply, b' :: l.balances.set i b⟩
  | destroyZero {l : Ledger} {i : Nat} (hi : i < l.balances.length) :
      destroyZero l.balances[i] = .ok () → Step l ⟨l.supply, l.balances.eraseIdx i⟩

/-- The ledgers that some run of calls reaches from `create_supply`. -/
def Reachable (l : Ledger) : Prop := Relation.ReflTransGen Step Ledger.initial l

/-- The live balances add up to the supply, which is below the largest `u64`. -/
def Conserved (l : Ledger) : Prop :=
  total l.balances = l.supply.value ∧ l.supply.value < maxValue 64

instance : DecidablePred Conserved :=
  fun l => inferInstanceAs
    (Decidable (total l.balances = l.supply.value ∧ l.supply.value < maxValue 64))

/-! ### What each function does -/

section Specs

variable {self : Supply} {b b' : Balance} {value : Nat}

theorem increaseSupply_eq_ok {s : Supply} (h : increaseSupply self value = .ok (s, b)) :
    s.value = self.value + value ∧ b.value = value ∧ self.value + value < maxValue 64 := by
  have hle : self.value ≤ maxValue 64 ∨ maxValue 64 < self.value := le_or_gt _ _
  rcases hle with hle | hlt
  · rw [increaseSupply, sub_of_le hle, Except.ok_bind] at h
    split at h
    · next hroom =>
      have hsum : self.value + value < 2 ^ 64 := by
        have := maxValue_lt (w := 64); omega
      rw [add_of_lt hsum, Except.ok_bind] at h
      cases h
      exact ⟨rfl, rfl, by omega⟩
    · cases h
  · have hsub : (sub (maxValue 64) self.value : Except (Abort ErrorConst) Nat) =
        .error .arithmeticError := if_neg (by omega)
    rw [increaseSupply, hsub] at h
    cases h

theorem decreaseSupply_of_le (h : b.value ≤ self.value) :
    decreaseSupply self b = .ok (⟨self.value - b.value⟩, b.value) := by
  rw [decreaseSupply, if_pos h, sub_of_le h]
  rfl

theorem decreaseSupply_eq_ok {s : Supply} {v : Nat} (h : decreaseSupply self b = .ok (s, v)) :
    s.value + b.value = self.value := by
  unfold decreaseSupply at h
  split at h
  · next hle =>
    rw [sub_of_le hle, Except.ok_bind] at h
    cases h
    show self.value - b.value + b.value = self.value
    omega
  · cases h

theorem join_of_lt (h : b.value + b'.value < 2 ^ 64) :
    join b b' = .ok (⟨b.value + b'.value⟩, b.value + b'.value) := by
  rw [join, add_of_lt h]
  rfl

theorem join_eq_ok {b'' : Balance} {v : Nat} (h : join b b' = .ok (b'', v)) :
    b''.value = b.value + b'.value := by
  rw [join] at h
  obtain ⟨x, hx, hpure⟩ := Except.bind_eq_ok.1 h
  cases hpure
  exact (add_eq_ok hx).1

theorem split_eq_ok {b₁ b₂ : Balance} (h : split b value = .ok (b₁, b₂)) :
    b₁.value + b₂.value = b.value := by
  unfold split at h
  split at h
  · next hle =>
    rw [sub_of_le hle, Except.ok_bind] at h
    cases h
    show b.value - value + value = b.value
    omega
  · cases h

theorem destroyZero_eq_ok (h : destroyZero b = .ok ()) : b.value = 0 := by
  unfold destroyZero at h
  split at h
  · next hz => exact hz
  · cases h

end Specs

/-! ### The amounts of the live balances -/

section Total

@[simp] theorem total_cons (b : Balance) (bs : List Balance) :
    total (b :: bs) = b.value + total bs := by
  simp [total]

theorem total_append (bs bs' : List Balance) : total (bs ++ bs') = total bs + total bs' := by
  simp [total]

theorem split_getElem {bs : List Balance} {i : Nat} (hi : i < bs.length) :
    bs = bs.take i ++ bs[i] :: bs.drop (i + 1) := by
  rw [← List.drop_eq_getElem_cons hi, List.take_append_drop]

theorem total_set {bs : List Balance} {i : Nat} (hi : i < bs.length) (b : Balance) :
    total (bs.set i b) + bs[i].value = total bs + b.value := by
  rw [List.set_eq_take_append_cons_drop, if_pos hi]
  conv => rhs; rw [split_getElem hi]
  simp only [total_append, total_cons]
  omega

theorem total_eraseIdx {bs : List Balance} {i : Nat} (hi : i < bs.length) :
    total (bs.eraseIdx i) + bs[i].value = total bs := by
  rw [List.eraseIdx_eq_take_drop_succ]
  conv => rhs; rw [split_getElem hi]
  simp only [total_append, total_cons]
  omega

/-- Splitting a live balance in two, the part left in its place, keeps the total. -/
theorem total_split {bs : List Balance} {i : Nat} (hi : i < bs.length) {b b' : Balance}
    (hv : b.value + b'.value = bs[i].value) : total (b' :: bs.set i b) = total bs := by
  have hset := total_set hi b
  rw [total_cons]
  omega

/-- Joining a live balance into another one, which then holds both, keeps the total. -/
theorem total_join {bs : List Balance} {i j : Nat} (hi : i < bs.length) (hj : j < bs.length)
    (hij : i ≠ j) {b : Balance} (hv : b.value = bs[i].value + bs[j].value) :
    total ((bs.set i b).eraseIdx j) = total bs := by
  have hset := total_set hi b
  -- the second balance is still at its index after the first one is overwritten
  have hj' : j < (bs.set i b).length := by simpa using hj
  have herase := total_eraseIdx hj'
  rw [List.getElem_set_ne hij] at herase
  omega

theorem getElem_le_total {bs : List Balance} {i : Nat} (hi : i < bs.length) :
    bs[i].value ≤ total bs := by
  have := total_eraseIdx hi
  omega

theorem getElem_add_getElem_le_total {bs : List Balance} {i j : Nat} (hi : i < bs.length)
    (hj : j < bs.length) (hij : i ≠ j) : bs[i].value + bs[j].value ≤ total bs := by
  -- with the first one emptied, the second one is still there
  have hset := total_set hi zero
  have hj' : j < (bs.set i zero).length := by simpa using hj
  have hle := getElem_le_total hj'
  rw [List.getElem_set_ne hij] at hle
  have hzero : zero.value = 0 := rfl
  omega

end Total

/-! ### Conservation along every run -/

section Conservation

variable {l l' : Ledger}

theorem Conserved.initial : Conserved Ledger.initial := by
  refine ⟨rfl, ?_⟩
  show 0 < maxValue 64
  decide

/-- Each call keeps the balances adding up to the supply: minting and burning change both by
the same amount, and the other calls move amounts between balances. -/
theorem Conserved.step (hc : Conserved l) (h : Step l l') : Conserved l' := by
  obtain ⟨htotal, hbound⟩ := hc
  cases h with
  | increaseSupply hinc =>
    obtain ⟨hs, hb, hlt⟩ := increaseSupply_eq_ok hinc
    simp only [Conserved]
    exact ⟨by rw [total_cons]; omega, by omega⟩
  | decreaseSupply hi hdec =>
    have hs := decreaseSupply_eq_ok hdec
    have herase := total_eraseIdx hi
    simp only [Conserved]
    exact ⟨by omega, by omega⟩
  | zero =>
    simp only [Conserved]
    exact ⟨by rw [total_cons, zero, Nat.zero_add]; exact htotal, hbound⟩
  | join hi hj hij hjoin => exact ⟨(total_join hi hj hij (join_eq_ok hjoin)).trans htotal, hbound⟩
  | split hi hsplit => exact ⟨(total_split hi (split_eq_ok hsplit)).trans htotal, hbound⟩
  | withdrawAll hi hsplit => exact ⟨(total_split hi (split_eq_ok hsplit)).trans htotal, hbound⟩
  | destroyZero hi hz =>
    have hv := destroyZero_eq_ok hz
    have herase := total_eraseIdx hi
    simp only [Conserved]
    exact ⟨by omega, hbound⟩

theorem Conserved.run (hc : Conserved l) (h : Relation.ReflTransGen Step l l') :
    Conserved l' := by
  induction h with
  | refl => exact hc
  | tail _ hstep ih => exact ih.step hstep

/-- In every ledger that calls reach from `create_supply`, the live balances add up to the
supply, and the supply is below the largest `u64`. -/
theorem reachable_conserved (h : Reachable l) :
    total l.balances = l.supply.value ∧ l.supply.value < maxValue 64 :=
  Conserved.initial.run h

/-- Two mints of `5` and `3` from `create_supply`. -/
theorem reachable_twoMints : Reachable ⟨⟨8⟩, [⟨3⟩, ⟨5⟩]⟩ := by
  have h₁ : Step Ledger.initial ⟨⟨5⟩, [⟨5⟩]⟩ :=
    Step.increaseSupply (show increaseSupply Ledger.initial.supply 5 = .ok (⟨5⟩, ⟨5⟩) from rfl)
  have h₂ : Step ⟨⟨5⟩, [⟨5⟩]⟩ ⟨⟨8⟩, [⟨3⟩, ⟨5⟩]⟩ :=
    Step.increaseSupply (show increaseSupply ⟨5⟩ 3 = .ok (⟨8⟩, ⟨3⟩) from rfl)
  exact (Relation.ReflTransGen.single h₁).tail h₂

theorem reachable_conserved_twoMints :
    Reachable ⟨⟨8⟩, [⟨3⟩, ⟨5⟩]⟩ ∧ total [⟨3⟩, ⟨5⟩] = 8 ∧ 8 < maxValue 64 :=
  ⟨reachable_twoMints, reachable_conserved reachable_twoMints⟩

/-- On a reachable ledger, joining a live balance into another one never overflows a `u64`. -/
theorem join_reachable (h : Reachable l) {i j : Nat} (hi : i < l.balances.length)
    (hj : j < l.balances.length) (hij : i ≠ j) :
    join l.balances[i] l.balances[j] =
      .ok (⟨l.balances[i].value + l.balances[j].value⟩,
        l.balances[i].value + l.balances[j].value) := by
  obtain ⟨htotal, hbound⟩ := Conserved.initial.run h
  have hle := getElem_add_getElem_le_total hi hj hij
  have hmax := maxValue_lt (w := 64)
  exact join_of_lt (by omega)

theorem join_reachable_twoMints :
    Reachable ⟨⟨8⟩, [⟨3⟩, ⟨5⟩]⟩ ∧ join ⟨3⟩ ⟨5⟩ = .ok (⟨8⟩, 8) :=
  ⟨reachable_twoMints,
    join_reachable (l := ⟨⟨8⟩, [⟨3⟩, ⟨5⟩]⟩) reachable_twoMints (i := 0) (j := 1)
      (by decide) (by decide) (by decide)⟩

/-- On a reachable ledger, burning a live balance never aborts: the supply always covers it. -/
theorem decreaseSupply_reachable (h : Reachable l) {i : Nat} (hi : i < l.balances.length) :
    decreaseSupply l.supply l.balances[i] =
      .ok (⟨l.supply.value - l.balances[i].value⟩, l.balances[i].value) := by
  obtain ⟨htotal, -⟩ := Conserved.initial.run h
  have hle := getElem_le_total hi
  exact decreaseSupply_of_le (by omega)

theorem decreaseSupply_reachable_twoMints :
    Reachable ⟨⟨8⟩, [⟨3⟩, ⟨5⟩]⟩ ∧ decreaseSupply ⟨8⟩ ⟨5⟩ = .ok (⟨3⟩, 5) :=
  ⟨reachable_twoMints,
    decreaseSupply_reachable (l := ⟨⟨8⟩, [⟨3⟩, ⟨5⟩]⟩) reachable_twoMints (i := 1) (by decide)⟩

end Conservation

end Balance

end Rtd
