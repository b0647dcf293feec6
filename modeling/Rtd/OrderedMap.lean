import Mathlib

/-!
Ordered maps, kept as the list of their entries in increasing key order: the order in
which a B-tree map iterates and from which it pops its first entry. Insertion replaces
the entry of an existing key, `entry k` reads a key's value or a default, and
`dropWhile` removes entries from the front for as long as their keys satisfy a test.

The lookup lemmas hold of any entry list; sortedness is needed only where the order
matters, for the uniqueness of a key's entry and for what a removal from the front
leaves behind.
-/

set_option autoImplicit false

/-- A map as the list of its entries, strictly increasing by key. -/
@[ext] structure OrderedMap (κ β : Type) [LinearOrder κ] where
  entries : List (κ × β)
  sorted : entries.Pairwise fun a b => a.1 < b.1

namespace OrderedMap

variable {κ β : Type} [LinearOrder κ]

section Lists

/-- The value of the first entry with key `k`. -/
def find (k : κ) : List (κ × β) → Option β
  | [] => none
  | (k', v) :: rest => if k = k' then some v else find k rest

/-- Insertion at the key's place, replacing the entry of an existing key. -/
def insertList (k : κ) (v : β) : List (κ × β) → List (κ × β)
  | [] => [(k, v)]
  | (k', v') :: rest =>
    if k < k' then (k, v) :: (k', v') :: rest
    else if k = k' then (k, v) :: rest
    else (k', v') :: insertList k v rest

theorem insertList_insertList (k : κ) (v v' : β) (l : List (κ × β)) :
    insertList k v' (insertList k v l) = insertList k v' l := by
  induction l with
  | nil => simp [insertList]
  | cons e rest ih =>
    obtain ⟨k', w⟩ := e
    by_cases hlt : k < k'
    · simp [insertList, hlt]
    · by_cases heq : k = k'
      · subst heq
        simp [insertList]
      · simp [insertList, hlt, heq, ih]

theorem mem_insertList {k : κ} {v : β} {a : κ × β} {l : List (κ × β)}
    (h : a ∈ insertList k v l) : a = (k, v) ∨ a ∈ l := by
  induction l with
  | nil => simpa [insertList] using h
  | cons e rest ih =>
    obtain ⟨k', v'⟩ := e
    unfold insertList at h
    split_ifs at h with hlt heq
    · simpa using h
    · rcases List.mem_cons.1 h with h | h
      · exact .inl h
      · exact .inr (List.mem_cons_of_mem _ h)
    · rcases List.mem_cons.1 h with h | h
      · exact .inr (h ▸ List.mem_cons_self)
      · rcases ih h with h | h
        · exact .inl h
        · exact .inr (List.mem_cons_of_mem _ h)

theorem sorted_insertList (k : κ) (v : β) {l : List (κ × β)}
    (h : l.Pairwise fun a b => a.1 < b.1) :
    (insertList k v l).Pairwise fun a b => a.1 < b.1 := by
  induction l with
  | nil => exact List.pairwise_singleton _ _
  | cons e rest ih =>
    obtain ⟨k', v'⟩ := e
    obtain ⟨hhead, hrest⟩ := List.pairwise_cons.1 h
    unfold insertList
    split_ifs with hlt heq
    · refine List.pairwise_cons.2 ⟨fun a ha => ?_, h⟩
      rcases List.mem_cons.1 ha with rfl | ha
      · exact hlt
      · exact lt_trans hlt (hhead a ha)
    · subst heq
      exact List.pairwise_cons.2 ⟨hhead, hrest⟩
    · refine List.pairwise_cons.2 ⟨fun a ha => ?_, ih hrest⟩
      rcases mem_insertList ha with rfl | ha
      · exact lt_of_le_of_ne (not_lt.1 hlt) (Ne.symm heq)
      · exact hhead a ha

@[simp] theorem find_insertList_self (k : κ) (v : β) (l : List (κ × β)) :
    find k (insertList k v l) = some v := by
  induction l with
  | nil => simp [insertList, find]
  | cons e rest ih =>
    obtain ⟨k', v'⟩ := e
    unfold insertList
    split_ifs with hlt heq
    · simp [find]
    · simp [find]
    · simp [find, heq, ih]

theorem find_insertList_of_ne {k k' : κ} (v : β) (h : k' ≠ k) (l : List (κ × β)) :
    find k' (insertList k v l) = find k' l := by
  induction l with
  | nil => simp [insertList, find, h]
  | cons e rest ih =>
    obtain ⟨k'', v''⟩ := e
    unfold insertList
    split_ifs with hlt heq
    · simp [find, h]
    · subst heq
      simp [find, h]
    · simp only [find, ih]

theorem find_eq_some_iff {k : κ} {v : β} {l : List (κ × β)}
    (h : l.Pairwise fun a b => a.1 < b.1) : find k l = some v ↔ (k, v) ∈ l := by
  induction l with
  | nil => simp [find]
  | cons e rest ih =>
    obtain ⟨k', v'⟩ := e
    obtain ⟨hhead, hrest⟩ := List.pairwise_cons.1 h
    unfold find
    split_ifs with heq
    · subst heq
      -- no later entry has the key of the first
      have hnot : (k, v) ∉ rest := fun hmem => lt_irrefl k (hhead _ hmem)
      simp [hnot, eq_comm]
    · rw [ih hrest, List.mem_cons]
      simp [heq]

end Lists

section Maps

def empty : OrderedMap κ β := ⟨[], List.Pairwise.nil⟩

/-- `get`: the value at a key. -/
def get? (m : OrderedMap κ β) (k : κ) : Option β := find k m.entries

/-- `insert`: the key's entry set to `v`. -/
def insert (m : OrderedMap κ β) (k : κ) (v : β) : OrderedMap κ β :=
  ⟨insertList k v m.entries, sorted_insertList k v m.sorted⟩

/-- `entry(k).or_default()`: the key's value, or `d` where the key has none. -/
def entry (m : OrderedMap κ β) (k : κ) (d : β) : β := (m.get? k).getD d

/-- `contains_key`. -/
def contains (m : OrderedMap κ β) (k : κ) : Bool := (m.get? k).isSome

/-- `remove`. -/
def erase (m : OrderedMap κ β) (k : κ) : OrderedMap κ β :=
  ⟨m.entries.filter (·.1 ≠ k), m.sorted.sublist List.filter_sublist⟩

/-- `pop_first`. -/
def popFirst (m : OrderedMap κ β) : Option ((κ × β) × OrderedMap κ β) :=
  match m with
  | ⟨[], _⟩ => none
  | ⟨e :: rest, h⟩ => some (e, ⟨rest, h.of_cons⟩)

def keys (m : OrderedMap κ β) : List κ := m.entries.map Prod.fst

theorem sorted_filterMap (l : List (κ × β)) (h : l.Pairwise fun a b => a.1 < b.1)
    (f : κ → β → Option β) :
    (l.filterMap fun e => (f e.1 e.2).map (e.1, ·)).Pairwise fun a b => a.1 < b.1 := by
  refine h.filterMap _ fun a a' hlt b hb b' hb' => ?_
  -- a kept entry keeps its key
  obtain ⟨x, -, rfl⟩ := Option.map_eq_some_iff.1 hb
  obtain ⟨x', -, rfl⟩ := Option.map_eq_some_iff.1 hb'
  exact hlt

/-- Each value replaced by what `f` gives, the entry removed where it gives `none`. -/
def filterMap (m : OrderedMap κ β) (f : κ → β → Option β) : OrderedMap κ β :=
  ⟨m.entries.filterMap fun e => (f e.1 e.2).map (e.1, ·), sorted_filterMap _ m.sorted f⟩

/-- The ordered set of the keys `l`, as a set collected from a list is. -/
def ofKeys (l : List κ) : OrderedMap κ Unit := l.foldl (fun m k => m.insert k ⟨⟩) empty

/-- Popping the first entry for as long as its key satisfies `p`. -/
def dropWhile (m : OrderedMap κ β) (p : κ → Bool) : OrderedMap κ β :=
  ⟨m.entries.dropWhile (p ·.1), m.sorted.sublist (List.dropWhile_suffix _).sublist⟩

@[simp] theorem get?_empty (k : κ) : (empty : OrderedMap κ β).get? k = none := rfl

@[simp] theorem get?_insert_self (m : OrderedMap κ β) (k : κ) (v : β) :
    (m.insert k v).get? k = some v :=
  find_insertList_self k v m.entries

@[simp] theorem get?_insert_of_ne (m : OrderedMap κ β) {k k' : κ} (v : β) (h : k' ≠ k) :
    (m.insert k v).get? k' = m.get? k' :=
  find_insertList_of_ne v h m.entries

theorem get?_insert (m : OrderedMap κ β) (k k' : κ) (v : β) :
    (m.insert k v).get? k' = if k' = k then some v else m.get? k' := by
  split_ifs with h
  · rw [h, get?_insert_self]
  · exact get?_insert_of_ne m v h

theorem get?_insert_eq_some {m : OrderedMap κ β} {k k' : κ} {v x : β} :
    (m.insert k v).get? k' = some x ↔ (k' = k ∧ x = v) ∨ (k' ≠ k ∧ m.get? k' = some x) := by
  rw [get?_insert]
  split_ifs with h <;> simp [h, eq_comm]

/-- Inserting twice at one key keeps the second value. -/
@[simp] theorem insert_insert (m : OrderedMap κ β) (k : κ) (v v' : β) :
    (m.insert k v).insert k v' = m.insert k v' :=
  OrderedMap.ext (insertList_insertList k v v' m.entries)

theorem get?_eq_some_iff {m : OrderedMap κ β} {k : κ} {v : β} :
    m.get? k = some v ↔ (k, v) ∈ m.entries :=
  find_eq_some_iff m.sorted

@[simp] theorem entry_insert_self (m : OrderedMap κ β) (k : κ) (v d : β) :
    (m.insert k v).entry k d = v := by
  simp [entry]

@[simp] theorem entry_insert_of_ne (m : OrderedMap κ β) {k k' : κ} (v d : β) (h : k' ≠ k) :
    (m.insert k v).entry k' d = m.entry k' d := by
  simp [entry, h]

theorem entry_of_get? {m : OrderedMap κ β} {k : κ} {v d : β} (h : m.get? k = some v) :
    m.entry k d = v := by
  simp [entry, h]

theorem entry_of_get?_eq_none {m : OrderedMap κ β} {k : κ} {d : β} (h : m.get? k = none) :
    m.entry k d = d := by
  simp [entry, h]

theorem mem_keys {m : OrderedMap κ β} {k : κ} : k ∈ m.keys ↔ ∃ v, m.get? k = some v := by
  simp [keys, get?_eq_some_iff]

theorem get?_erase (m : OrderedMap κ β) (k k' : κ) :
    (m.erase k).get? k' = if k' = k then none else m.get? k' := by
  obtain ⟨l, hs⟩ := m
  simp only [erase, get?]
  induction l with
  | nil => simp [find]
  | cons e rest ih =>
    obtain ⟨k'', v⟩ := e
    rw [List.filter_cons]
    by_cases he : k'' = k
    · subst he
      simp only [ne_eq, not_true_eq_false, decide_false, Bool.false_eq_true, if_false]
      rw [ih (List.pairwise_cons.1 hs).2]
      split_ifs with hk
      · rfl
      · simp [find, hk]
    · simp only [ne_eq, he, not_false_eq_true, decide_true, if_true, find]
      rw [ih (List.pairwise_cons.1 hs).2]
      split_ifs <;> simp_all

@[simp] theorem get?_erase_self (m : OrderedMap κ β) (k : κ) : (m.erase k).get? k = none := by
  simp [get?_erase]

@[simp] theorem get?_erase_of_ne (m : OrderedMap κ β) {k k' : κ} (h : k' ≠ k) :
    (m.erase k).get? k' = m.get? k' := by
  simp [get?_erase, h]

@[simp] theorem entry_erase_of_ne (m : OrderedMap κ β) {k k' : κ} (d : β) (h : k' ≠ k) :
    (m.erase k).entry k' d = m.entry k' d := by
  simp [entry, get?_erase_of_ne _ h]

/-- The keys of a map are strictly increasing, so no key repeats. -/
theorem nodup_keys (m : OrderedMap κ β) : m.keys.Nodup :=
  (List.pairwise_map.2 m.sorted).imp ne_of_lt

theorem card_keys_toFinset [DecidableEq κ] (m : OrderedMap κ β) : m.keys.toFinset.card = m.entries.length := by
  rw [List.toFinset_card_of_nodup m.nodup_keys, keys, List.length_map]

theorem mem_keys_toFinset_of_get? [DecidableEq κ] {m : OrderedMap κ β} {k : κ} {v : β}
    (h : m.get? k = some v) : k ∈ m.keys.toFinset :=
  List.mem_toFinset.2 (mem_keys.2 ⟨v, h⟩)

theorem mem_keys_erase {m : OrderedMap κ β} {k k' : κ} :
    k' ∈ (m.erase k).keys ↔ k' ≠ k ∧ k' ∈ m.keys := by
  rw [mem_keys, mem_keys, get?_erase]
  split_ifs with h <;> simp [h]

theorem mem_keys_insert {m : OrderedMap κ β} {k k' : κ} {v : β} :
    k' ∈ (m.insert k v).keys ↔ k' = k ∨ k' ∈ m.keys := by
  rw [mem_keys, mem_keys, get?_insert]
  split_ifs with h <;> simp [h]

theorem keys_eq_nil_iff {m : OrderedMap κ β} : m.keys = [] ↔ m.entries = [] :=
  List.map_eq_nil_iff

theorem entries_eq_nil_iff {m : OrderedMap κ β} : m.entries = [] ↔ ∀ k, m.get? k = none := by
  constructor
  · intro h k
    simp [get?, h, find]
  · intro h
    cases hl : m.entries with
    | nil => rfl
    | cons e rest =>
      have hmem : (e.1, e.2) ∈ m.entries := by simp [hl]
      rw [← get?_eq_some_iff, h] at hmem
      exact nomatch hmem

theorem contains_iff {m : OrderedMap κ β} {k : κ} : m.contains k = true ↔ ∃ v, m.get? k = some v :=
  Option.isSome_iff_exists

theorem popFirst_eq_some {m m' : OrderedMap κ β} {e : κ × β} (h : m.popFirst = some (e, m')) :
    m.entries = e :: m'.entries := by
  obtain ⟨_ | ⟨e', rest⟩, hs⟩ := m
  · cases h
  · cases h
    rfl

/-- When the test holds of every key below one it holds of, popping from the front
removes exactly the keys that pass it. -/
theorem get?_dropWhile {m : OrderedMap κ β} {p : κ → Bool}
    (hp : ∀ k k', k ≤ k' → p k' = true → p k = true) (k : κ) :
    (m.dropWhile p).get? k = if p k then none else m.get? k := by
  obtain ⟨l, hs⟩ := m
  simp only [dropWhile, get?]
  induction l with
  | nil => simp [find]
  | cons e rest ih =>
    obtain ⟨k', v'⟩ := e
    obtain ⟨hhead, hrest⟩ := List.pairwise_cons.1 hs
    rw [List.dropWhile_cons]
    by_cases hk' : p k' = true
    · rw [if_pos hk', ih hrest]
      by_cases hk : p k = true
      · simp [hk]
      · -- the key of the popped entry passes the test and `k` fails it, so they differ
        have hne : k ≠ k' := fun heq => hk (heq ▸ hk')
        simp [hk, find, hne]
    · rw [if_neg hk']
      by_cases hk : p k = true
      · -- `k` passes the test and the first entry left fails it, so `k` lies below it
        have hlt : k < k' := lt_of_not_ge fun hle => hk' (hp k' k hle hk)
        have hnot : find k rest = none := by
          cases hfind : find k rest with
          | none => rfl
          | some w =>
            have hmem := (find_eq_some_iff hrest).1 hfind
            exact absurd (hhead _ hmem) (not_lt.2 (le_of_lt hlt))
        simp [hk, find, ne_of_lt hlt, hnot]
      · simp [hk]

section Collect

/-! A map collected from a list, one insertion per element. -/

variable {α : Type} (f : α → κ) (g : α → β)

theorem get?_foldl_insert_of_forall_ne {l : List α} (m : OrderedMap κ β) {k : κ}
    (hk : ∀ x ∈ l, f x ≠ k) :
    (l.foldl (fun m x => m.insert (f x) (g x)) m).get? k = m.get? k := by
  induction l generalizing m with
  | nil => rfl
  | cons x xs ih =>
    rw [List.foldl_cons, ih _ fun y hy => hk y (List.mem_cons_of_mem _ hy)]
    exact get?_insert_of_ne m (g x) (Ne.symm (hk x List.mem_cons_self))

/-- With distinct keys, each element's entry is the one inserted for it. -/
theorem get?_foldl_insert_of_mem {l : List α} (hl : (l.map f).Nodup) (m : OrderedMap κ β)
    {a : α} (ha : a ∈ l) :
    (l.foldl (fun m x => m.insert (f x) (g x)) m).get? (f a) = some (g a) := by
  induction l generalizing m with
  | nil => exact absurd ha List.not_mem_nil
  | cons x xs ih =>
    obtain ⟨hx, hxs⟩ := List.nodup_cons.1 hl
    rw [List.foldl_cons]
    rcases List.mem_cons.1 ha with rfl | ha
    · -- no later element has the key of the first
      have hne : ∀ y ∈ xs, f y ≠ f a := fun y hy heq => hx (heq ▸ List.mem_map_of_mem hy)
      rw [get?_foldl_insert_of_forall_ne f g _ hne, get?_insert_self]
    · exact ih hxs _ ha

theorem mem_foldl_insert {l : List α} (m : OrderedMap κ β) {e : κ × β}
    (he : e ∈ (l.foldl (fun m x => m.insert (f x) (g x)) m).entries) :
    e ∈ m.entries ∨ ∃ x ∈ l, e = (f x, g x) := by
  induction l generalizing m with
  | nil => exact .inl he
  | cons x xs ih =>
    rcases ih _ he with he | ⟨y, hy, rfl⟩
    · rcases mem_insertList he with rfl | he
      · exact .inr ⟨x, List.mem_cons_self, rfl⟩
      · exact .inl he
    · exact .inr ⟨y, List.mem_cons_of_mem _ hy, rfl⟩

theorem mem_keys_foldl_insert {l : List α} (m : OrderedMap κ β) {k : κ}
    (hk : k ∈ (l.foldl (fun m x => m.insert (f x) (g x)) m).keys) :
    k ∈ m.keys ∨ ∃ x ∈ l, f x = k := by
  obtain ⟨e, he, rfl⟩ := List.mem_map.1 hk
  rcases mem_foldl_insert f g m he with he | ⟨x, hx, rfl⟩
  · exact .inl (List.mem_map_of_mem he)
  · exact .inr ⟨x, hx, rfl⟩

theorem mem_keys_foldl_insert_iff {l : List α} (m : OrderedMap κ β) {k : κ} :
    k ∈ (l.foldl (fun m x => m.insert (f x) (g x)) m).keys ↔ k ∈ m.keys ∨ ∃ x ∈ l, f x = k := by
  induction l generalizing m with
  | nil => simp
  | cons x xs ih =>
    rw [List.foldl_cons, ih, mem_keys_insert]
    simp only [List.mem_cons, exists_eq_or_imp]
    constructor
    · rintro ((h | h) | h)
      · exact .inr (.inl h.symm)
      · exact .inl h
      · exact .inr (.inr h)
    · rintro (h | h | h)
      · exact .inl (.inr h)
      · exact .inl (.inl h.symm)
      · exact .inr h

end Collect

instance [DecidableEq κ] [DecidableEq β] : DecidableEq (OrderedMap κ β) := fun a b =>
  decidable_of_iff (a.entries = b.entries) ⟨OrderedMap.ext, congrArg _⟩

end Maps

end OrderedMap
