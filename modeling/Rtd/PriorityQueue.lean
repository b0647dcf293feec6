import Rtd.Except
import Mathlib

/-!
`rtd::priority_queue` (`rtd-framework/sources/priority_queue.move`): a max heap kept in a
vector, the children of position `i` at `i * 2 + 1` and `i * 2 + 2`.

The helpers that sift an entry work on a vector of a known length, `Vector (Entry T) n`,
and take the bound they read below (`len ≤ n`) as an argument: every call passes the
vector's own length, so every read and swap of the source is in range. Priorities are
`u64` and only compared, so they are naturals here; so are the positions, whose doubling
would overflow only for a vector of more than `2 ^ 63` entries.
-/

set_option autoImplicit false

namespace Rtd

namespace PriorityQueue

/-- Why a call aborts: `EPopFromEmptyHeap` and `EIndexOutOfBounds`. -/
inductive Abort where
  | popFromEmptyHeap
  | indexOutOfBounds
  deriving DecidableEq, Repr

structure Entry (T : Type) where
  priority : Nat
  value : T

end PriorityQueue

structure PriorityQueue (T : Type) where
  entries : Array (PriorityQueue.Entry T)

namespace PriorityQueue

variable {T : Type} {n : Nat}

def parent (i : Nat) : Nat := (i - 1) / 2

theorem parent_lt {c : Nat} (h : 0 < c) : parent c < c := by
  unfold parent; omega

/-- The children of `p` are `p * 2 + 1` and `p * 2 + 2`. -/
theorem parent_eq_iff {c p : Nat} (h : 0 < c) : parent c = p ↔ c = p * 2 + 1 ∨ c = p * 2 + 2 := by
  unfold parent; omega

/-! ### The module's functions -/

/-- `vector::swap_remove`: the entry at `i`, and the vector with the last entry moved
into its place. -/
def swapRemove {α : Type} (v : Vector α n) (i : Nat) (hi : i < n) : α × Vector α (n - 1) :=
  (v[i], (v.swap i (n - 1)).pop)

/-- `restore_heap_recursive`: move the entry at `i` up while it outranks its parent. -/
def restoreHeapRecursive (v : Vector (Entry T) n) (i : Nat) (hi : i < n) : Vector (Entry T) n :=
  if h0 : i = 0 then v
  else
    have hp : parent i < n := by have := parent_lt (Nat.pos_of_ne_zero h0); omega
    if v[i].priority > v[parent i].priority then
      restoreHeapRecursive (v.swap i (parent i)) (parent i) hp
    else v
termination_by i
decreasing_by exact parent_lt (Nat.pos_of_ne_zero h0)

/-- One comparison of `max_heapify_recursive`: `c` becomes the position of the maximum if
it is below `len` and outranks the maximum so far. -/
def pickHigher (v : Vector (Entry T) n) (len : Nat) (hlen : len ≤ n) (max : Nat) (hmax : max < len)
    (c : Nat) : Nat :=
  if hc : c < len then (if v[c].priority > v[max].priority then c else max) else max

theorem pickHigher_cases (v : Vector (Entry T) n) (len : Nat) (hlen : len ≤ n) (max : Nat)
    (hmax : max < len) (c : Nat) :
    pickHigher v len hlen max hmax c = max ∨ (pickHigher v len hlen max hmax c = c ∧ c < len) := by
  unfold pickHigher
  split_ifs with hc <;> simp [hc]

theorem pickHigher_lt (v : Vector (Entry T) n) (len : Nat) (hlen : len ≤ n) (max : Nat)
    (hmax : max < len) (c : Nat) : pickHigher v len hlen max hmax c < len := by
  rcases pickHigher_cases v len hlen max hmax c with h | h <;> omega

/-- The `max` of `max_heapify_recursive`: after comparing `i` with its left child and the
result with its right child, the position of the highest priority among them below `len`. -/
def largest (v : Vector (Entry T) n) (len : Nat) (hlen : len ≤ n) (i : Nat) (hi : i < len) : Nat :=
  let left := i * 2 + 1
  let right := left + 1
  let max := pickHigher v len hlen i hi left
  pickHigher v len hlen max (pickHigher_lt v len hlen i hi left) right

theorem largest_lt (v : Vector (Entry T) n) (len : Nat) (hlen : len ≤ n) (i : Nat) (hi : i < len) :
    largest v len hlen i hi < len :=
  pickHigher_lt v len hlen _ (pickHigher_lt v len hlen i hi (i * 2 + 1)) _

theorem largest_cases (v : Vector (Entry T) n) (len : Nat) (hlen : len ≤ n) (i : Nat)
    (hi : i < len) :
    largest v len hlen i hi = i ∨ (0 < largest v len hlen i hi ∧ parent (largest v len hlen i hi) = i) := by
  simp only [largest, parent]
  rcases pickHigher_cases v len hlen i hi (i * 2 + 1) with h₁ | h₁ <;>
    rcases pickHigher_cases v len hlen _ (pickHigher_lt v len hlen i hi (i * 2 + 1))
      (i * 2 + 1 + 1) with h₂ | h₂ <;> omega

theorem lt_largest (v : Vector (Entry T) n) (len : Nat) (hlen : len ≤ n) (i : Nat) (hi : i < len)
    (h : largest v len hlen i hi ≠ i) : i < largest v len hlen i hi := by
  have := (largest_cases v len hlen i hi).resolve_left h
  have := parent_lt this.1
  omega

/-- `max_heapify_recursive`: sift the entry at `i` down the heap of the first `len`
entries. -/
def maxHeapifyRecursive (v : Vector (Entry T) n) (len i : Nat) (hlen : len ≤ n) :
    Except Abort (Vector (Entry T) n) :=
  if len = 0 then .ok v
  else if hi : i < len then
    let max := largest v len hlen i hi
    if hmax : max ≠ i then
      have hlt : max < len := largest_lt v len hlen i hi
      maxHeapifyRecursive (v.swap max i (by omega) (by omega)) len max hlen
    else .ok v
  else .error .indexOutOfBounds
termination_by len - i
decreasing_by
  have := lt_largest v len hlen i hi hmax
  omega

/-- The loop of `new`: `max_heapify_recursive` at `i - 1`, then the loop from `i - 1`. -/
def heapifyLoop : Vector (Entry T) n → Nat → Except Abort (Vector (Entry T) n)
  | v, 0 => .ok v
  | v, i + 1 => do
    let v ← maxHeapifyRecursive v n i (Nat.le_refl n)
    heapifyLoop v i

/-- `priority_queue::new`: heapify from the last parent, at `len / 2 - 1`, down to the root. -/
def new (entries : Array (Entry T)) : Except Abort (PriorityQueue T) := do
  let len := entries.size
  let v ← heapifyLoop entries.toVector (len / 2)
  pure ⟨v.toArray⟩

/-- `priority_queue::pop_max`. -/
def popMax (pq : PriorityQueue T) : Except Abort (PriorityQueue T × Nat × T) :=
  let len := pq.entries.size
  if h : len > 0 then
    let (entry, entries) := swapRemove pq.entries.toVector 0 h
    (fun entries => (⟨entries.toArray⟩, entry.priority, entry.value)) <$>
      maxHeapifyRecursive entries (len - 1) 0 (Nat.le_refl _)
  else .error .popFromEmptyHeap

/-- `k` calls of `pop_max`, one after the other, with the entries they return. -/
def popMaxN : PriorityQueue T → Nat → Except Abort (PriorityQueue T × List (Entry T))
  | pq, 0 => .ok (pq, [])
  | pq, k + 1 => do
    let (q, priority, value) ← pq.popMax
    let (q, out) ← popMaxN q k
    pure (q, ⟨priority, value⟩ :: out)

/-- `priority_queue::insert`: push the entry and sift it up from the last position. -/
def insert (pq : PriorityQueue T) (priority : Nat) (value : T) : PriorityQueue T :=
  let entries := pq.entries.toVector.push ⟨priority, value⟩
  let index := (pq.entries.size + 1) - 1
  ⟨(restoreHeapRecursive entries index (by omega)).toArray⟩

/-! ### Heap order -/

/-- The priority at position `i`, read for the statements of heap order. -/
def prio (v : Vector (Entry T) n) (i : Nat) : Nat := (v[i]?.map Entry.priority).getD 0

/-- Every child below `len` of a parent at or after `k` has at most its parent's
priority. -/
def OrderedFrom (v : Vector (Entry T) n) (len k : Nat) : Prop :=
  ∀ c, 0 < c → c < len → k ≤ parent c → prio v c ≤ prio v (parent c)

/-- What `max_heapify_recursive` at `i` needs: the pairs whose parent is not `i` are in
order, and the parent of `i` outranks the children of `i`. -/
structure DownOrder (v : Vector (Entry T) n) (len k i : Nat) : Prop where
  except : ∀ c, 0 < c → c < len → k ≤ parent c → parent c ≠ i → prio v c ≤ prio v (parent c)
  grand : 0 < i → k ≤ parent i → ∀ c, 0 < c → c < len → parent c = i →
    prio v c ≤ prio v (parent i)

/-- What `restore_heap_recursive` at `i` needs: the pairs whose child is not `i` are in
order, and the parent of `i` outranks the children of `i`. -/
structure UpOrder (v : Vector (Entry T) n) (i : Nat) : Prop where
  except : ∀ c, 0 < c → c < n → c ≠ i → prio v c ≤ prio v (parent c)
  grand : 0 < i → ∀ c, 0 < c → c < n → parent c = i → prio v c ≤ prio v (parent i)

section Order

variable (v : Vector (Entry T) n)

theorem prio_of_lt {i : Nat} (h : i < n) : prio v i = v[i].priority := by
  simp [prio, h]

theorem prio_swap {i j : Nat} (hi : i < n) (hj : j < n) (k : Nat) :
    prio (v.swap i j hi hj) k = if k = i then prio v j else if k = j then prio v i else prio v k := by
  unfold prio
  rw [Vector.getElem?_swap]
  by_cases hki : k = i
  · subst hki
    by_cases hkj : k = j
    · subst hkj; simp [hi]
    · simp [Ne.symm hkj, hj]
  · by_cases hkj : k = j
    · subst hkj; simp [hki, hi]
    · simp [Ne.symm hki, Ne.symm hkj, hki, hkj]

theorem prio_le_pickHigher (len : Nat) (hlen : len ≤ n) (max : Nat) (hmax : max < len)
    (c : Nat) :
    prio v max ≤ prio v (pickHigher v len hlen max hmax c) ∧
      (c < len → prio v c ≤ prio v (pickHigher v len hlen max hmax c)) := by
  unfold pickHigher
  by_cases hc : c < len
  · rw [dif_pos hc, prio_of_lt v (by omega : c < n), prio_of_lt v (by omega : max < n)]
    by_cases hgt : v[c].priority > v[max].priority
    · rw [if_pos hgt, prio_of_lt v (by omega : c < n)]
      omega
    · rw [if_neg hgt, prio_of_lt v (by omega : max < n)]
      omega
  · rw [dif_neg hc]
    exact ⟨Nat.le_refl _, fun h => absurd h hc⟩

theorem prio_le_largest (len : Nat) (hlen : len ≤ n) (i : Nat) (hi : i < len) {c : Nat}
    (hc : c = i ∨ (0 < c ∧ parent c = i)) (hcl : c < len) :
    prio v c ≤ prio v (largest v len hlen i hi) := by
  have h₁ := prio_le_pickHigher v len hlen i hi (i * 2 + 1)
  have h₂ := prio_le_pickHigher v len hlen _ (pickHigher_lt v len hlen i hi (i * 2 + 1))
    (i * 2 + 1 + 1)
  simp only [largest]
  rcases hc with rfl | ⟨hc0, hcp⟩
  · omega
  · rcases (parent_eq_iff hc0).1 hcp with rfl | rfl
    · have := h₁.2 hcl
      omega
    · exact h₂.2 hcl

theorem DownOrder.finish {len k i : Nat} {v : Vector (Entry T) n} (o : DownOrder v len k i)
    (hbest : ∀ c, 0 < c → parent c = i → c < len → prio v c ≤ prio v i) :
    OrderedFrom v len k := by
  intro c hc0 hcl hkc
  by_cases hp : parent c = i
  · rw [hp]
    exact hbest c hc0 hp hcl
  · exact o.except c hc0 hcl hkc hp

/-- Swapping `i` with the maximum `m` of its children puts `i` in order and leaves the
hole at `m`. -/
theorem DownOrder.swap {len k i m : Nat} {v : Vector (Entry T) n} (o : DownOrder v len k i)
    (hk : k ≤ i) (hm : m < len) (hlen : len ≤ n) (hmi : 0 < m ∧ parent m = i)
    (hbest : ∀ c, (c = i ∨ (0 < c ∧ parent c = i)) → c < len → prio v c ≤ prio v m) :
    DownOrder (v.swap m i (by omega) (by have := parent_lt hmi.1; omega)) len k m := by
  have him : i < m := hmi.2 ▸ parent_lt hmi.1
  constructor
  · intro c hc0 hcl hkc hcm
    rw [prio_swap, prio_swap, if_neg hcm]
    by_cases hc : c = m
    · -- the old entry of `i` went down to `m`, under the maximum
      subst hc
      rw [if_pos rfl, if_pos hmi.2]
      exact hbest i (.inl rfl) (by omega)
    · rw [if_neg hc]
      by_cases hci : c = i
      · -- the maximum went up to `i`, under `i`'s parent
        subst hci
        have hpc : parent c ≠ c := Nat.ne_of_lt (parent_lt hc0)
        rw [if_pos rfl, if_neg hpc]
        exact o.grand hc0 hkc m hmi.1 hm hmi.2
      · rw [if_neg hci]
        by_cases hpi : parent c = i
        · rw [if_pos hpi]
          exact hbest c (.inr ⟨hc0, hpi⟩) hcl
        · rw [if_neg hpi]
          exact o.except c hc0 hcl hkc hpi
  · intro _ _ c hc0 hcl hcm
    have hcm' : m < c := hcm ▸ parent_lt hc0
    rw [prio_swap, prio_swap, if_neg (by omega), if_neg (by omega), hmi.2, if_neg (by omega),
      if_pos rfl]
    have := o.except c hc0 hcl (by omega) (by omega)
    rwa [hcm] at this

/-- `max_heapify_recursive` at `i` ends in order from `k` on, holding the same entries. -/
theorem maxHeapifyRecursive_spec {len k : Nat} (hlen : len ≤ n) (v : Vector (Entry T) n)
    (i : Nat) (hi : i < len) (hk : k ≤ i) (o : DownOrder v len k i) :
    ∃ w, maxHeapifyRecursive v len i hlen = .ok w ∧ w.toList.Perm v.toList ∧
      OrderedFrom w len k := by
  induction v, i using maxHeapifyRecursive.induct len hlen with
  | case1 v i h0 => omega
  | case2 v i h0 hi' _ hmax hlt ih =>
    have hm := (largest_cases v len hlen i hi').resolve_left hmax
    have hgt := lt_largest v len hlen i hi' hmax
    obtain ⟨w, hw, hperm, hord⟩ := ih hlt (by omega)
      (o.swap hk hlt hlen hm fun c hc hcl => prio_le_largest v len hlen i hi' hc hcl)
    refine ⟨w, ?_, hperm.trans (Vector.perm_iff_toList_perm.1 (Vector.swap_perm _ _)), hord⟩
    rw [maxHeapifyRecursive, if_neg h0, dif_pos hi', dif_pos hmax]
    exact hw
  | case3 v i h0 hi' _ hmax =>
    refine ⟨v, ?_, List.Perm.refl _, o.finish fun c hc0 hcp hcl => ?_⟩
    · rw [maxHeapifyRecursive, if_neg h0, dif_pos hi', dif_neg hmax]
    · have hmi : largest v len hlen i hi' = i := not_not.1 hmax
      have := prio_le_largest v len hlen i hi' (.inr ⟨hc0, hcp⟩) hcl
      rwa [hmi] at this
  | case4 v i h0 hi' => exact absurd hi hi'

theorem UpOrder.finish {i : Nat} {v : Vector (Entry T) n} (o : UpOrder v i)
    (hstop : 0 < i → prio v i ≤ prio v (parent i)) : OrderedFrom v n 0 := by
  intro c hc0 hcn _
  by_cases hci : c = i
  · subst hci
    exact hstop hc0
  · exact o.except c hc0 hcn hci

/-- Swapping `i` with a parent it outranks puts `i` in order and leaves the hole at the
parent. -/
theorem UpOrder.swap {i : Nat} {v : Vector (Entry T) n} (o : UpOrder v i) (hi : i < n)
    (h0 : 0 < i) (hgt : prio v (parent i) < prio v i) :
    UpOrder (v.swap i (parent i) hi (by have := parent_lt h0; omega)) (parent i) := by
  have hpi : parent i < i := parent_lt h0
  constructor
  · intro c hc0 hcn hcp
    rw [prio_swap, prio_swap, if_neg hcp]
    by_cases hci : c = i
    · -- the parent's old entry went down to `i`
      rw [if_pos hci, hci, if_neg (Nat.ne_of_lt hpi), if_pos rfl]
      omega
    · rw [if_neg hci]
      have hc := o.except c hc0 hcn hci
      by_cases hpc : parent c = i
      · rw [if_pos hpc]
        exact o.grand h0 c hc0 hcn hpc
      · rw [if_neg hpc]
        by_cases hsib : parent c = parent i
        · -- a sibling of `i`, under the entry that went up
          rw [if_pos hsib]
          rw [hsib] at hc
          omega
        · rw [if_neg hsib]
          exact hc
  · intro hp0 c hc0 hcn hcp
    have hppi : parent (parent i) < parent i := parent_lt hp0
    have hpp := o.except (parent i) hp0 (by omega) (Nat.ne_of_lt hpi)
    rw [prio_swap, prio_swap, if_neg (show parent (parent i) ≠ i by omega),
      if_neg (show parent (parent i) ≠ parent i by omega)]
    by_cases hci : c = i
    · rw [if_pos hci]
      exact hpp
    · have hcp' : parent i < c := hcp ▸ parent_lt hc0
      rw [if_neg hci, if_neg (show c ≠ parent i by omega)]
      have hc := o.except c hc0 hcn hci
      rw [hcp] at hc
      omega

/-- `restore_heap_recursive` at `i` ends in a heap holding the same entries. -/
theorem restoreHeapRecursive_spec (v : Vector (Entry T) n) (i : Nat) (hi : i < n)
    (o : UpOrder v i) :
    (restoreHeapRecursive v i hi).toList.Perm v.toList ∧
      OrderedFrom (restoreHeapRecursive v i hi) n 0 := by
  induction v, i, hi using restoreHeapRecursive.induct with
  | case1 v hi =>
    rw [restoreHeapRecursive, dif_pos rfl]
    exact ⟨List.Perm.refl _, o.finish fun h => absurd h (Nat.lt_irrefl 0)⟩
  | case2 v i hi h0 hp hgt ih =>
    have hgt' : prio v (parent i) < prio v i := by rwa [prio_of_lt v hi, prio_of_lt v hp]
    rw [restoreHeapRecursive, dif_neg h0, if_pos hgt]
    obtain ⟨hperm, hord⟩ := ih (o.swap hi (Nat.pos_of_ne_zero h0) hgt')
    exact ⟨hperm.trans (Vector.perm_iff_toList_perm.1 (Vector.swap_perm _ _)), hord⟩
  | case3 v i hi h0 hp hle =>
    rw [restoreHeapRecursive, dif_neg h0, if_neg hle]
    refine ⟨List.Perm.refl _, o.finish fun _ => ?_⟩
    rw [prio_of_lt v hi, prio_of_lt v hp]
    omega

/-- Order from `k + 1` on is what `max_heapify_recursive` at `k` needs. -/
theorem OrderedFrom.downOrder {len k : Nat} {v : Vector (Entry T) n}
    (o : OrderedFrom v len (k + 1)) : DownOrder v len k k where
  except c hc0 hcl hkc hck := o c hc0 hcl (by omega)
  grand h0 hk := absurd hk (Nat.not_le.2 (parent_lt h0))

/-- The loop of `new` from `i` down, started in order from `i` on, ends in a heap. -/
theorem heapifyLoop_spec (v : Vector (Entry T) n) (i : Nat) (hi : i ≤ n) (o : OrderedFrom v n i) :
    ∃ w, heapifyLoop v i = .ok w ∧ w.toList.Perm v.toList ∧ OrderedFrom w n 0 := by
  induction i generalizing v with
  | zero => exact ⟨v, rfl, List.Perm.refl _, o⟩
  | succ i ih =>
    obtain ⟨w, hw, hperm, hord⟩ :=
      maxHeapifyRecursive_spec (Nat.le_refl n) v i (by omega) (Nat.le_refl i) o.downOrder
    obtain ⟨w', hw', hperm', hord'⟩ := ih w (by omega) hord
    refine ⟨w', ?_, hperm'.trans hperm, hord'⟩
    rw [heapifyLoop, hw, Except.ok_bind, hw']

/-- Nothing below `len` is a child of a parent at or after `len / 2`. -/
theorem orderedFrom_half (v : Vector (Entry T) n) (len : Nat) : OrderedFrom v len (len / 2) := by
  intro c hc0 hcl hkc
  unfold parent at hkc
  omega

theorem OrderedFrom.prio_le_root {len : Nat} {v : Vector (Entry T) n} (o : OrderedFrom v len 0) :
    ∀ c, c < len → prio v c ≤ prio v 0 := by
  intro c
  induction c using Nat.strongRecOn with
  | ind c ih =>
    intro hc
    rcases Nat.eq_zero_or_pos c with rfl | hc0
    · exact Nat.le_refl _
    · have hp := parent_lt hc0
      exact Nat.le_trans (o c hc0 hc (Nat.zero_le _)) (ih _ hp (by omega))

theorem prio_push_of_lt {c : Nat} (e : Entry T) (h : c < n) : prio (v.push e) c = prio v c := by
  simp [prio, Vector.getElem?_push, Nat.ne_of_lt h]

theorem prio_pop_of_lt {c : Nat} (h : c < n - 1) : prio v.pop c = prio v c := by
  rw [prio, prio, Vector.getElem?_pop, if_pos h]

theorem toList_perm_swapRemove {α : Type} (v : Vector α n) (i : Nat) (hi : i < n) :
    v.toList.Perm ((swapRemove v i hi).1 :: (swapRemove v i hi).2.toList) := by
  have hne : (v.swap i (n - 1)).toList ≠ [] := by
    rw [← List.length_pos_iff, Vector.length_toList]
    omega
  have hlast : (v.swap i (n - 1)).toList.getLast hne = v[i] := by
    rw [List.getLast_eq_getElem]
    simp
  calc List.Perm v.toList (v.swap i (n - 1)).toList :=
        (Vector.perm_iff_toList_perm.1 (Vector.swap_perm _ _)).symm
    _ = (v.swap i (n - 1)).toList.dropLast ++ [v[i]] := by
        rw [← hlast, List.dropLast_append_getLast]
    List.Perm _ (v[i] :: (v.swap i (n - 1)).toList.dropLast) := List.perm_append_singleton _ _
    _ = (swapRemove v i hi).1 :: (swapRemove v i hi).2.toList := by
        simp [swapRemove, Vector.toList_pop]

end Order

/-! ### The queue -/

/-- The max-heap property of the source: every entry has at most its parent's priority. -/
def IsHeap (pq : PriorityQueue T) : Prop :=
  ∀ c (hc : c < pq.entries.size), 0 < c → pq.entries[c].priority ≤ pq.entries[(c - 1) / 2].priority

theorem isHeap_mk {m : Nat} (w : Vector (Entry T) m) :
    (⟨w.toArray⟩ : PriorityQueue T).IsHeap ↔ OrderedFrom w m 0 := by
  constructor
  · intro h c hc0 hcl _
    have hp : parent c < m := by have := parent_lt hc0; omega
    have hc := h c (by simpa using hcl) hc0
    dsimp only at hc
    rw [prio_of_lt w hcl, prio_of_lt w hp]
    simpa [parent] using hc
  · intro h c hc hc0
    have hcl : c < m := by simpa using hc
    have hp : parent c < m := by have := parent_lt hc0; omega
    have := h c hc0 hcl (Nat.zero_le _)
    rw [prio_of_lt w hcl, prio_of_lt w hp] at this
    simpa [parent, Vector.getElem_toArray] using this

theorem IsHeap.orderedFrom {pq : PriorityQueue T} (h : pq.IsHeap) :
    OrderedFrom pq.entries.toVector pq.entries.size 0 :=
  (isHeap_mk pq.entries.toVector).1 h

/-- `new` heapifies any vector of entries. -/
theorem new_spec (entries : Array (Entry T)) :
    ∃ pq, new entries = .ok pq ∧ pq.IsHeap ∧ pq.entries.toList.Perm entries.toList := by
  obtain ⟨w, hw, hperm, hord⟩ := heapifyLoop_spec entries.toVector (entries.size / 2)
    (Nat.div_le_self _ _) (orderedFrom_half _ _)
  refine ⟨⟨w.toArray⟩, ?_, (isHeap_mk w).2 hord, by simpa [Vector.toList_toArray] using hperm⟩
  simp [new, hw]

/-- `insert` keeps a heap, with the new entry added. -/
theorem insert_spec {pq : PriorityQueue T} (h : pq.IsHeap) (priority : Nat) (value : T) :
    (pq.insert priority value).IsHeap ∧
      (pq.insert priority value).entries.toList.Perm
        (pq.entries.toList ++ [⟨priority, value⟩]) := by
  have ho := h.orderedFrom
  -- the new entry at the last position is the only one that may be out of order
  have o : UpOrder (pq.entries.toVector.push ⟨priority, value⟩) ((pq.entries.size + 1) - 1) := by
    constructor
    · intro c hc0 hcn hcl
      have hc : c < pq.entries.size := by omega
      have hp : parent c < pq.entries.size := by have := parent_lt hc0; omega
      rw [prio_push_of_lt _ _ hc, prio_push_of_lt _ _ hp]
      exact ho c hc0 hc (Nat.zero_le _)
    · intro _ c hc0 hcn hcp
      rw [parent_eq_iff hc0] at hcp
      omega
  obtain ⟨hperm, hord⟩ := restoreHeapRecursive_spec _ _ (by omega) o
  exact ⟨(isHeap_mk _).2 hord,
    by simpa [PriorityQueue.insert, Vector.toList_push, Vector.toList_toArray] using hperm⟩

/-- `pop_max` on a heap that is not empty returns its root, an entry of the highest
priority, and leaves a heap of the other entries. -/
theorem popMax_spec {pq : PriorityQueue T} (h : pq.IsHeap) (hpos : 0 < pq.entries.size) :
    ∃ q, pq.popMax = .ok (q, pq.entries[0].priority, pq.entries[0].value) ∧ q.IsHeap ∧
      pq.entries.toList.Perm (pq.entries[0] :: q.entries.toList) ∧
      ∀ e ∈ pq.entries.toList, e.priority ≤ pq.entries[0].priority := by
  have ho := h.orderedFrom
  let w := (swapRemove pq.entries.toVector 0 hpos).2
  -- the last entry moved to the root is the only one that may be out of order
  have o : DownOrder w (pq.entries.size - 1) 0 0 := by
    constructor
    · intro c hc0 hcl _ hcp
      have hpc := parent_lt hc0
      have hp : parent c < pq.entries.size - 1 := by omega
      simp only [w, swapRemove]
      rw [prio_pop_of_lt _ hcl, prio_pop_of_lt _ hp, prio_swap, prio_swap,
        if_neg (Nat.ne_of_gt hc0), if_neg (by omega), if_neg hcp, if_neg (by omega)]
      exact ho c hc0 (by omega) (Nat.zero_le _)
    · intro h0
      exact absurd h0 (Nat.lt_irrefl 0)
  obtain ⟨w', hw', hperm, hord⟩ : ∃ w', maxHeapifyRecursive w (pq.entries.size - 1) 0
      (Nat.le_refl _) = .ok w' ∧ w'.toList.Perm w.toList ∧ OrderedFrom w' (pq.entries.size - 1) 0 := by
    rcases Nat.eq_zero_or_pos (pq.entries.size - 1) with hz | hz
    · refine ⟨w, ?_, List.Perm.refl _, fun c _ hc _ => absurd hc (by omega)⟩
      rw [maxHeapifyRecursive, if_pos hz]
    · exact maxHeapifyRecursive_spec _ w 0 hz (Nat.le_refl 0) o
  refine ⟨⟨w'.toArray⟩, ?_, (isHeap_mk w').2 hord, ?_, ?_⟩
  · simp [popMax, hpos, w, swapRemove] at hw' ⊢
    rw [hw']
    rfl
  · have := toList_perm_swapRemove pq.entries.toVector 0 hpos
    simp only [swapRemove] at this
    simpa [Vector.toList_toArray] using this.trans (List.Perm.cons _ hperm.symm)
  · intro e he
    obtain ⟨c, hc, rfl⟩ := List.mem_iff_getElem.1 he
    have := ho.prio_le_root c (by simpa using hc)
    rw [prio_of_lt _ (by simpa using hc), prio_of_lt _ hpos] at this
    simpa using this

theorem popMax_of_size_eq_zero {pq : PriorityQueue T} (h : pq.entries.size = 0) :
    pq.popMax = .error .popFromEmptyHeap := by
  simp [popMax, h]

/-- Pops from a heap, as many as it holds, return entries of non-increasing priority. -/
theorem popMaxN_spec (k : Nat) {pq : PriorityQueue T} (h : pq.IsHeap) (hk : k ≤ pq.entries.size) :
    ∃ q out, popMaxN pq k = .ok (q, out) ∧ q.IsHeap ∧ out.length = k ∧
      (out ++ q.entries.toList).Perm pq.entries.toList ∧
      (out.map Entry.priority).Pairwise (· ≥ ·) := by
  induction k generalizing pq with
  | zero => exact ⟨pq, [], rfl, h, rfl, List.Perm.refl _, List.Pairwise.nil⟩
  | succ k ih =>
    obtain ⟨q₁, hpop, hq₁, hperm₁, hmax⟩ := popMax_spec h (by omega)
    have hsize : q₁.entries.size = pq.entries.size - 1 := by
      have := hperm₁.length_eq
      simp at this
      omega
    obtain ⟨q, out, hrun, hq, hlen, hperm, hsorted⟩ := ih hq₁ (by omega)
    refine ⟨q, pq.entries[0] :: out, ?_, hq, by simp [hlen], ?_, ?_⟩
    · simp [popMaxN, hpop, hrun]
    · exact (List.Perm.cons _ hperm).trans hperm₁.symm
    · -- everything popped later was in the heap the root was taken from
      refine List.pairwise_cons.2 ⟨?_, hsorted⟩
      intro p hp
      obtain ⟨e, he, rfl⟩ := List.mem_map.1 hp
      have he₁ : e ∈ q₁.entries.toList := hperm.subset (List.mem_append_left _ he)
      exact hmax e (hperm₁.symm.subset (List.mem_cons_of_mem _ he₁))

/-- The queue is a max heap: `new` builds one from any vector, holding its entries;
`insert` and `pop_max` keep one, with the entry added or taken out; `pop_max` aborts
exactly on an empty queue and otherwise returns an entry of the highest priority; so pops,
as many as the queue holds, return non-increasing priorities. -/
theorem priorityQueue_maxHeap :
    (∀ entries : Array (Entry T), ∃ pq, new entries = .ok pq ∧ pq.IsHeap ∧
      pq.entries.toList.Perm entries.toList) ∧
    (∀ pq : PriorityQueue T, pq.IsHeap → ∀ priority value,
      (pq.insert priority value).IsHeap ∧
      (pq.insert priority value).entries.toList.Perm (pq.entries.toList ++ [⟨priority, value⟩])) ∧
    (∀ pq : PriorityQueue T, pq.IsHeap →
      (pq.entries.size = 0 → pq.popMax = .error .popFromEmptyHeap) ∧
      ∀ h : 0 < pq.entries.size, ∃ q,
        pq.popMax = .ok (q, pq.entries[0].priority, pq.entries[0].value) ∧ q.IsHeap ∧
        pq.entries.toList.Perm (pq.entries[0] :: q.entries.toList) ∧
        ∀ e ∈ pq.entries.toList, e.priority ≤ pq.entries[0].priority) ∧
    (∀ pq : PriorityQueue T, pq.IsHeap → ∀ k ≤ pq.entries.size, ∃ q out,
      popMaxN pq k = .ok (q, out) ∧ out.length = k ∧
      (out.map Entry.priority).Pairwise (· ≥ ·)) := by
  refine ⟨new_spec, fun _ h => insert_spec h, fun _ h => ⟨popMax_of_size_eq_zero, popMax_spec h⟩,
    fun _ h k hk => ?_⟩
  obtain ⟨q, out, hrun, -, hlen, -, hsorted⟩ := popMaxN_spec k h hk
  exact ⟨q, out, hrun, hlen, hsorted⟩

end PriorityQueue

end Rtd
