import Rtd.Except
import Mathlib

/-!
`rtd::vec_map` (`rtd-framework/sources/vec_map.move`): a map backed by a vector of entries in
insertion order. Its field is private to the module, and `insert` aborts on a key already bound,
so, as the source says, a map never holds two entries of one key.

Over the source stands the map it represents: `lookup m k` is the value of the entry of `k`.
Every map the module's functions build is `WellFormed`, its `keys` without duplicates; every
operation refines the matching operation on `lookup`, and `from_keys_values` inverts
`into_keys_values`. A call that aborts reverts the transaction, so it returns an `Abort` and no
map; a `&mut V` that `get_mut` returns is its value and the map with a new value written back.
-/

set_option autoImplicit false

namespace Rtd

namespace VecMap

/-- The error constants of `rtd::vec_map`. -/
inductive ErrorConst where
  | eKeyAlreadyExists
  | eKeyDoesNotExist
  | eMapNotEmpty
  | eIndexOutOfBounds
  | eMapEmpty
  | eUnequalLengths
  deriving DecidableEq, Repr

/-- Why a call aborts. -/
inductive Abort where
  | vecMap (e : ErrorConst)
  /-- `vector::EINDEX_OUT_OF_BOUNDS`, of an index past the end of a vector. -/
  | vectorIndexOutOfBounds
  deriving DecidableEq, Repr

end VecMap

/-- `Entry`. -/
structure VecMap.Entry (K V : Type) where
  key : K
  value : V
  deriving DecidableEq, Repr

/-- `VecMap`. -/
structure VecMap (K V : Type) where
  contents : List (VecMap.Entry K V)
  deriving DecidableEq, Repr

namespace VecMap

variable {K V : Type} [DecidableEq K]

/-! ### Vectors -/

/-- `vector::remove(v, i)` (`move-stdlib/sources/vector.move`): it aborts when `i` is out of
bounds; its loop of swaps moves element `i` to the end, keeping the order of the others, and
`pop_back` takes it. -/
def vectorRemove {α : Type} (v : List α) (i : Nat) : Except Abort (α × List α) :=
  if h : i < v.length then .ok (v[i], v.eraseIdx i) else .error .vectorIndexOutOfBounds

/-- `&v[i]`: it aborts when `i` is out of bounds. -/
def borrow {α : Type} (v : List α) (i : Nat) : Except Abort α :=
  match v[i]? with
  | some a => .ok a
  | none => .error .vectorIndexOutOfBounds

/-! ### The source's functions -/

/-- `empty`. -/
def empty : VecMap K V := ⟨[]⟩

/-- `get_idx_opt`: through `find_index!`, the index of the first entry of `key`. -/
def getIdxOpt (self : VecMap K V) (key : K) : Option Nat :=
  self.contents.findIdx? fun e => e.key = key

/-- `contains`. -/
def contains (self : VecMap K V) (key : K) : Bool := (self.getIdxOpt key).isSome

/-- `get_idx`. -/
def getIdx (self : VecMap K V) (key : K) : Except Abort Nat :=
  match self.getIdxOpt key with
  | some i => .ok i
  | none => .error (.vecMap .eKeyDoesNotExist)

/-- `insert`. -/
def insert (self : VecMap K V) (key : K) (value : V) : Except Abort (VecMap K V) :=
  if self.contains key then .error (.vecMap .eKeyAlreadyExists)
  else .ok ⟨self.contents ++ [⟨key, value⟩]⟩

/-- `remove`. -/
def remove (self : VecMap K V) (key : K) : Except Abort ((K × V) × VecMap K V) := do
  let idx ← self.getIdx key
  let r ← vectorRemove self.contents idx
  pure ((r.1.key, r.1.value), ⟨r.2⟩)

/-- `pop`: the most recently inserted entry. -/
def pop (self : VecMap K V) : Except Abort ((K × V) × VecMap K V) :=
  if h : self.contents ≠ [] then
    .ok (((self.contents.getLast h).key, (self.contents.getLast h).value), ⟨self.contents.dropLast⟩)
  else .error (.vecMap .eMapEmpty)

/-- `get_mut`: the value of `key`, and the map with a new value written in its place. -/
def getMut (self : VecMap K V) (key : K) : Except Abort (V × (V → VecMap K V)) := do
  let idx ← self.getIdx key
  let entry ← borrow self.contents idx
  pure (entry.value, fun value => ⟨self.contents.set idx ⟨entry.key, value⟩⟩)

/-- `get`. -/
def get (self : VecMap K V) (key : K) : Except Abort V := do
  let idx ← self.getIdx key
  let entry ← borrow self.contents idx
  pure entry.value

/-- `try_get`. -/
def tryGet (self : VecMap K V) (key : K) : Except Abort (Option V) :=
  if self.contains key then some <$> self.get key else pure none

/-- `length`. -/
def length (self : VecMap K V) : Nat := self.contents.length

/-- `is_empty`. -/
def isEmpty (self : VecMap K V) : Bool := self.length = 0

/-- `destroy_empty`. -/
def destroyEmpty (self : VecMap K V) : Except Abort Unit :=
  if self.contents.isEmpty then .ok () else .error (.vecMap .eMapNotEmpty)

/-- `into_keys_values`: through `do!`, the key and the value of each entry in turn. -/
def intoKeysValues (self : VecMap K V) : List K × List V :=
  self.contents.foldl (fun acc e => (acc.1 ++ [e.key], acc.2 ++ [e.value])) ([], [])

/-- `from_keys_values`: through `zip_do!`, whose own check of the lengths comes after this one,
each key inserted with its value in turn. -/
def fromKeysValues (keys : List K) (values : List V) : Except Abort (VecMap K V) :=
  if keys.length = values.length then
    (keys.zip values).foldlM (fun m kv => m.insert kv.1 kv.2) empty
  else .error (.vecMap .eUnequalLengths)

/-- `keys`: through `map_ref!`. -/
def keys (self : VecMap K V) : List K := self.contents.map (·.key)

/-- `get_entry_by_idx`. -/
def getEntryByIdx (self : VecMap K V) (idx : Nat) : Except Abort (K × V) :=
  if idx < self.length then do
    let entry ← borrow self.contents idx
    pure (entry.key, entry.value)
  else .error (.vecMap .eIndexOutOfBounds)

/-- `get_entry_by_idx_mut`: the entry at `idx`, and the map with a new value written there. -/
def getEntryByIdxMut (self : VecMap K V) (idx : Nat) :
    Except Abort ((K × V) × (V → VecMap K V)) :=
  if idx < self.length then do
    let entry ← borrow self.contents idx
    pure ((entry.key, entry.value), fun value => ⟨self.contents.set idx ⟨entry.key, value⟩⟩)
  else .error (.vecMap .eIndexOutOfBounds)

/-- `remove_entry_by_idx`. -/
def removeEntryByIdx (self : VecMap K V) (idx : Nat) : Except Abort ((K × V) × VecMap K V) :=
  if idx < self.length then do
    let r ← vectorRemove self.contents idx
    pure ((r.1.key, r.1.value), ⟨r.2⟩)
  else .error (.vecMap .eIndexOutOfBounds)

/-- `size`, deprecated for `length`. -/
def size (self : VecMap K V) : Nat := self.contents.length

/-! ### The map a `VecMap` represents -/

/-- The value of the first entry of `k`. -/
def lookup (m : VecMap K V) (k : K) : Option V :=
  (m.contents.find? fun e => e.key = k).map (·.value)

/-- No two entries of one key. -/
def WellFormed (m : VecMap K V) : Prop := m.keys.Nodup

instance : DecidablePred (WellFormed : VecMap K V → Prop) :=
  fun m => inferInstanceAs (Decidable m.keys.Nodup)

/-- The maps that the module's functions build: its field is private, so these are all. -/
inductive Built : VecMap K V → Prop where
  | empty : Built empty
  | insert {m m' : VecMap K V} {k : K} {v : V} : Built m → m.insert k v = .ok m' → Built m'
  | remove {m : VecMap K V} {k : K} {r : (K × V) × VecMap K V} :
      Built m → m.remove k = .ok r → Built r.2
  | pop {m : VecMap K V} {r : (K × V) × VecMap K V} : Built m → m.pop = .ok r → Built r.2
  | getMut {m : VecMap K V} {k : K} {r : V × (V → VecMap K V)} (v : V) :
      Built m → m.getMut k = .ok r → Built (r.2 v)
  | getEntryByIdxMut {m : VecMap K V} {idx : Nat} {r : (K × V) × (V → VecMap K V)} (v : V) :
      Built m → m.getEntryByIdxMut idx = .ok r → Built (r.2 v)
  | removeEntryByIdx {m : VecMap K V} {idx : Nat} {r : (K × V) × VecMap K V} :
      Built m → m.removeEntryByIdx idx = .ok r → Built r.2
  | fromKeysValues {ks : List K} {vs : List V} {m : VecMap K V} :
      fromKeysValues ks vs = .ok m → Built m

/-! ### Finding a key -/

section Find

variable {m : VecMap K V} {k : K}

omit [DecidableEq K] in
theorem mem_keys : k ∈ m.keys ↔ ∃ e ∈ m.contents, e.key = k := by
  simp [keys]

theorem contains_iff : m.contains k = true ↔ k ∈ m.keys := by
  simp [contains, getIdxOpt, List.findIdx?_isSome, mem_keys]

theorem getIdxOpt_eq_none_iff : m.getIdxOpt k = none ↔ k ∉ m.keys := by
  simp [getIdxOpt, List.findIdx?_eq_none_iff, mem_keys]

/-- The entry that `get_idx_opt` finds is the first one of its key. -/
theorem getIdxOpt_eq_some {i : Nat} (h : m.getIdxOpt k = some i) :
    ∃ pre e post, m.contents = pre ++ e :: post ∧ pre.length = i ∧ e.key = k ∧
      k ∉ pre.map (·.key) := by
  obtain ⟨hi, hk, hfirst⟩ := List.findIdx?_eq_some_iff_getElem.1 h
  refine ⟨m.contents.take i, m.contents[i], m.contents.drop (i + 1), ?_, by simp; omega,
    by simpa using hk, ?_⟩
  · rw [← List.drop_eq_getElem_cons hi, List.take_append_drop]
  · -- an entry of `k` before `i` would have been found first
    intro hmem
    obtain ⟨e, he, hek⟩ := List.mem_map.1 hmem
    obtain ⟨j, hj, rfl⟩ := List.getElem_of_mem he
    have hji : j < i := by simp at hj; omega
    exact hfirst j hji (by simpa [List.getElem_take] using hek)

end Find

/-! ### Lookup -/

section Lookup

variable {k : K}

theorem lookup_append (l₁ l₂ : List (Entry K V)) (k : K) :
    (⟨l₁ ++ l₂⟩ : VecMap K V).lookup k =
      ((⟨l₁⟩ : VecMap K V).lookup k).or ((⟨l₂⟩ : VecMap K V).lookup k) := by
  simp [lookup, List.find?_append, Option.map_or]

theorem lookup_cons (e : Entry K V) (l : List (Entry K V)) (k : K) :
    (⟨e :: l⟩ : VecMap K V).lookup k =
      if e.key = k then some e.value else (⟨l⟩ : VecMap K V).lookup k := by
  by_cases he : e.key = k <;> simp [lookup, he]

theorem lookup_eq_none_iff {m : VecMap K V} : m.lookup k = none ↔ k ∉ m.keys := by
  simp [lookup, List.find?_eq_none, mem_keys]

theorem lookup_split {pre post : List (Entry K V)} {e : Entry K V} (he : e.key = k)
    (hpre : k ∉ pre.map (·.key)) : (⟨pre ++ e :: post⟩ : VecMap K V).lookup k = some e.value := by
  have hnone : (⟨pre⟩ : VecMap K V).lookup k = none := lookup_eq_none_iff.2 hpre
  rw [lookup_append, hnone, lookup_cons, if_pos he, Option.none_or]

theorem lookup_set_split {pre post : List (Entry K V)} {e : Entry K V} (v : V) (he : e.key = k)
    (hpre : k ∉ pre.map (·.key)) :
    (⟨pre ++ ⟨k, v⟩ :: post⟩ : VecMap K V).lookup =
      Function.update (⟨pre ++ e :: post⟩ : VecMap K V).lookup k (some v) := by
  funext k'
  by_cases hk' : k' = k
  · subst hk'
    rw [Function.update_self]
    exact lookup_split rfl hpre
  · rw [Function.update_of_ne hk', lookup_append, lookup_append, lookup_cons, lookup_cons,
      if_neg (Ne.symm hk'), if_neg (by rw [he]; exact Ne.symm hk')]

theorem lookup_erase_split {pre post : List (Entry K V)} {e : Entry K V} (he : e.key = k)
    (hwf : (⟨pre ++ e :: post⟩ : VecMap K V).WellFormed) :
    (⟨pre ++ post⟩ : VecMap K V).lookup =
      Function.update (⟨pre ++ e :: post⟩ : VecMap K V).lookup k none := by
  -- by the unique keys, `k` is in neither part
  have hnodup : (pre.map (·.key) ++ e.key :: post.map (·.key)).Nodup := by
    simpa [WellFormed, keys] using hwf
  rw [List.nodup_append, List.nodup_cons] at hnodup
  have hpre : k ∉ pre.map (·.key) := fun h => hnodup.2.2 k h k (by simp [he]) rfl
  have hpost : k ∉ post.map (·.key) := he ▸ hnodup.2.1.1
  funext k'
  by_cases hk' : k' = k
  · subst hk'
    rw [Function.update_self]
    refine lookup_eq_none_iff.2 ?_
    simp only [keys, List.map_append, List.mem_append, not_or]
    exact ⟨hpre, hpost⟩
  · rw [Function.update_of_ne hk', lookup_append, lookup_append, lookup_cons,
      if_neg (by rw [he]; exact Ne.symm hk')]

end Lookup

/-! ### The operations -/

section Operations

omit [DecidableEq K] in
@[simp] theorem mk_contents (m : VecMap K V) : (⟨m.contents⟩ : VecMap K V) = m := rfl

omit [DecidableEq K] in
theorem vectorRemove_split {α : Type} (pre post : List α) (a : α) :
    vectorRemove (pre ++ a :: post) pre.length = .ok (a, pre ++ post) := by
  rw [vectorRemove, dif_pos (by simp)]
  simp [List.eraseIdx_append_of_length_le le_rfl]

omit [DecidableEq K] in
theorem borrow_split {α : Type} (pre post : List α) (a : α) :
    borrow (pre ++ a :: post) pre.length = .ok a := by
  simp [borrow]

omit [DecidableEq K] in
theorem split_at {l : List (Entry K V)} {i : Nat} (hi : i < l.length) :
    l = l.take i ++ l[i] :: l.drop (i + 1) := by
  rw [← List.drop_eq_getElem_cons hi, List.take_append_drop]

omit [DecidableEq K] in
/-- In a well-formed map, the key of an entry is bound by no other entry. -/
theorem key_not_mem_split {pre post : List (Entry K V)} {e : Entry K V}
    (hwf : (⟨pre ++ e :: post⟩ : VecMap K V).WellFormed) :
    e.key ∉ pre.map (·.key) ∧ e.key ∉ post.map (·.key) := by
  have hnodup : (pre.map (·.key) ++ e.key :: post.map (·.key)).Nodup := by
    simpa [WellFormed, keys] using hwf
  rw [List.nodup_append, List.nodup_cons] at hnodup
  exact ⟨fun h => hnodup.2.2 e.key h e.key (by simp) rfl, hnodup.2.1.1⟩

omit [DecidableEq K] in
theorem wellFormed_erase_split {pre post : List (Entry K V)} {e : Entry K V}
    (hwf : (⟨pre ++ e :: post⟩ : VecMap K V).WellFormed) :
    (⟨pre ++ post⟩ : VecMap K V).WellFormed :=
  hwf.sublist (((List.sublist_cons_self e post).append_left pre).map _)

/-- What `get_idx` can do: abort on a key that is not bound, or give the index of the first
entry of the key, with the entries before and after it. -/
theorem getIdx_cases (m : VecMap K V) (k : K) :
    (m.getIdx k = .error (.vecMap .eKeyDoesNotExist) ∧ k ∉ m.keys) ∨
      ∃ pre e post, m = ⟨pre ++ e :: post⟩ ∧ m.getIdx k = .ok pre.length ∧ e.key = k ∧
        k ∉ pre.map (·.key) := by
  cases hidx : m.getIdxOpt k with
  | none => exact .inl ⟨by simp [getIdx, hidx], getIdxOpt_eq_none_iff.1 hidx⟩
  | some i =>
    obtain ⟨pre, e, post, hc, rfl, he, hpre⟩ := getIdxOpt_eq_some hidx
    exact .inr ⟨pre, e, post, by rw [← hc], by simp [getIdx, hidx], he, hpre⟩

/-- `insert` binds a key that is not bound yet, after the entries there are, and aborts with
`EKeyAlreadyExists` on a key that is. -/
theorem insert_holds (m : VecMap K V) (k : K) (v : V) :
    (m.insert k v).Holds (fun e => e = .vecMap .eKeyAlreadyExists ∧ k ∈ m.keys)
      (fun m' => k ∉ m.keys ∧ m'.keys = m.keys ++ [k] ∧
        m'.lookup = Function.update m.lookup k (some v)) := by
  unfold insert
  split
  · next hc => exact ⟨rfl, contains_iff.1 hc⟩
  · next hc =>
    have hk : k ∉ m.keys := fun h => hc (contains_iff.2 h)
    refine ⟨hk, by simp [keys], ?_⟩
    funext k'
    by_cases hk' : k' = k
    · subst hk'
      rw [Function.update_self, lookup_append, mk_contents, lookup_eq_none_iff.2 hk,
        Option.none_or, lookup_cons, if_pos rfl]
    · rw [Function.update_of_ne hk', lookup_append, mk_contents, lookup_cons,
        if_neg (Ne.symm hk')]
      simp [lookup]

theorem insert_contents {m m' : VecMap K V} {k : K} {v : V} (h : m.insert k v = .ok m') :
    m'.contents = m.contents ++ [⟨k, v⟩] := by
  unfold insert at h
  split at h
  · cases h
  · cases h; rfl

theorem wellFormed_insert {m m' : VecMap K V} {k : K} {v : V} (hwf : m.WellFormed)
    (h : m.insert k v = .ok m') : m'.WellFormed := by
  obtain ⟨hk, hkeys, -⟩ := (insert_holds m k v).of_eq_ok h
  rw [WellFormed, hkeys, List.nodup_append]
  refine ⟨hwf, List.nodup_singleton k, ?_⟩
  rintro a ha b hb rfl
  exact hk (List.eq_of_mem_singleton hb ▸ ha)

/-- `remove` takes the entry of a bound key out of a well-formed map, which then no longer binds
the key, and aborts with `EKeyDoesNotExist` on a key that is not bound. -/
theorem remove_holds {m : VecMap K V} (hwf : m.WellFormed) (k : K) :
    (m.remove k).Holds (fun e => e = .vecMap .eKeyDoesNotExist ∧ k ∉ m.keys)
      (fun r => r.1.1 = k ∧ m.lookup k = some r.1.2 ∧
        r.2.lookup = Function.update m.lookup k none ∧ r.2.WellFormed) := by
  rcases getIdx_cases m k with ⟨hidx, hk⟩ | ⟨pre, e, post, rfl, hidx, he, hpre⟩
  · rw [remove, hidx]
    exact ⟨rfl, hk⟩
  · rw [remove, hidx, Except.ok_bind, vectorRemove_split, Except.ok_bind]
    exact ⟨he, lookup_split he hpre, lookup_erase_split he hwf, wellFormed_erase_split hwf⟩

/-- Removing the middle key of three: the other two stay bound as they were. -/
theorem remove_holds_middle :
    (⟨[⟨1, 2⟩, ⟨3, 4⟩, ⟨5, 6⟩]⟩ : VecMap Nat Nat).WellFormed ∧
      ((⟨[⟨1, 2⟩, ⟨3, 4⟩, ⟨5, 6⟩]⟩ : VecMap Nat Nat).remove 3).Holds
        (fun e => e = .vecMap .eKeyDoesNotExist ∧
          3 ∉ (⟨[⟨1, 2⟩, ⟨3, 4⟩, ⟨5, 6⟩]⟩ : VecMap Nat Nat).keys)
        (fun r => r.1.1 = 3 ∧ (⟨[⟨1, 2⟩, ⟨3, 4⟩, ⟨5, 6⟩]⟩ : VecMap Nat Nat).lookup 3 = some r.1.2 ∧
          r.2.lookup =
            Function.update (⟨[⟨1, 2⟩, ⟨3, 4⟩, ⟨5, 6⟩]⟩ : VecMap Nat Nat).lookup 3 none ∧
          r.2.WellFormed) := by
  have hwf : (⟨[⟨1, 2⟩, ⟨3, 4⟩, ⟨5, 6⟩]⟩ : VecMap Nat Nat).WellFormed := by decide
  exact ⟨hwf, remove_holds hwf 3⟩

/-- `pop` takes the most recently inserted entry out of a well-formed map, which then no longer
binds its key, and aborts with `EMapEmpty` on an empty map. -/
theorem pop_holds {m : VecMap K V} (hwf : m.WellFormed) :
    m.pop.Holds (fun e => e = .vecMap .eMapEmpty ∧ m.contents = [])
      (fun r => m.contents.getLast? = some ⟨r.1.1, r.1.2⟩ ∧ m.lookup r.1.1 = some r.1.2 ∧
        r.2.lookup = Function.update m.lookup r.1.1 none ∧ r.2.WellFormed) := by
  cases m with
  | mk c =>
    unfold pop
    split
    · next hne =>
      obtain ⟨pre, e, rfl⟩ : ∃ pre e, c = pre ++ [e] :=
        ⟨_, _, (List.dropLast_append_getLast hne).symm⟩
      have hpre := (key_not_mem_split hwf).1
      have herase := lookup_erase_split rfl hwf
      rw [List.append_nil] at herase
      rw [List.getLast_concat, List.dropLast_concat]
      refine ⟨by simp, lookup_split rfl hpre, herase, ?_⟩
      simpa using wellFormed_erase_split hwf
    · next hne => exact ⟨rfl, not_not.1 hne⟩

theorem pop_holds_pair :
    (⟨[⟨1, 2⟩, ⟨3, 4⟩]⟩ : VecMap Nat Nat).WellFormed ∧
      (⟨[⟨1, 2⟩, ⟨3, 4⟩]⟩ : VecMap Nat Nat).pop.Holds
        (fun e => e = .vecMap .eMapEmpty ∧ (⟨[⟨1, 2⟩, ⟨3, 4⟩]⟩ : VecMap Nat Nat).contents = [])
        (fun r => (⟨[⟨1, 2⟩, ⟨3, 4⟩]⟩ : VecMap Nat Nat).contents.getLast? = some ⟨r.1.1, r.1.2⟩ ∧
          (⟨[⟨1, 2⟩, ⟨3, 4⟩]⟩ : VecMap Nat Nat).lookup r.1.1 = some r.1.2 ∧
          r.2.lookup = Function.update (⟨[⟨1, 2⟩, ⟨3, 4⟩]⟩ : VecMap Nat Nat).lookup r.1.1 none ∧
          r.2.WellFormed) := by
  have hwf : (⟨[⟨1, 2⟩, ⟨3, 4⟩]⟩ : VecMap Nat Nat).WellFormed := by decide
  exact ⟨hwf, pop_holds hwf⟩

/-- `get_mut` gives the value of a bound key, and writing through it updates that value and
keeps the keys; it aborts with `EKeyDoesNotExist` on a key that is not bound. -/
theorem getMut_holds (m : VecMap K V) (k : K) :
    (m.getMut k).Holds (fun e => e = .vecMap .eKeyDoesNotExist ∧ k ∉ m.keys)
      (fun r => m.lookup k = some r.1 ∧ ∀ v, (r.2 v).keys = m.keys ∧
        (r.2 v).lookup = Function.update m.lookup k (some v)) := by
  rcases getIdx_cases m k with ⟨hidx, hk⟩ | ⟨pre, e, post, rfl, hidx, he, hpre⟩
  · rw [getMut, hidx]
    exact ⟨rfl, hk⟩
  · rw [getMut, hidx, Except.ok_bind, borrow_split, Except.ok_bind]
    refine ⟨lookup_split he hpre, fun v => ?_⟩
    -- the value is written back into the entry of the key, in its place
    have hset : (pre ++ e :: post).set pre.length ⟨e.key, v⟩ = pre ++ ⟨k, v⟩ :: post := by
      simp [List.set_append_right, he]
    simp only [hset]
    exact ⟨by simp [keys, he], lookup_set_split v he hpre⟩

/-- `get` reads the map: the value of a bound key, or the abort `EKeyDoesNotExist`. -/
theorem get_eq (m : VecMap K V) (k : K) :
    m.get k = (m.lookup k).elim (.error (.vecMap .eKeyDoesNotExist)) .ok := by
  rcases getIdx_cases m k with ⟨hidx, hk⟩ | ⟨pre, e, post, rfl, hidx, he, hpre⟩
  · rw [get, hidx, lookup_eq_none_iff.2 hk]
    rfl
  · rw [get, hidx, Except.ok_bind, borrow_split, Except.ok_bind, lookup_split he hpre]
    rfl

/-- `try_get` reads the map and never aborts. -/
theorem tryGet_eq (m : VecMap K V) (k : K) : m.tryGet k = .ok (m.lookup k) := by
  unfold tryGet
  split
  · next hc =>
    obtain ⟨v, hv⟩ := Option.ne_none_iff_exists'.1
      (mt lookup_eq_none_iff.1 (not_not.2 (contains_iff.1 hc)))
    rw [get_eq, hv]
    rfl
  · next hc =>
    rw [lookup_eq_none_iff.2 fun h => hc (contains_iff.2 h)]
    rfl

omit [DecidableEq K] in
theorem getEntryByIdxMut_keys {m : VecMap K V} {idx : Nat} {r : (K × V) × (V → VecMap K V)}
    (h : m.getEntryByIdxMut idx = .ok r) (v : V) : (r.2 v).keys = m.keys := by
  unfold getEntryByIdxMut at h
  split at h
  · next hi =>
    have hb : borrow m.contents idx = .ok m.contents[idx] := by simp [borrow, List.getElem?_eq_getElem hi]
    rw [hb, Except.ok_bind] at h
    cases h
    -- the entry written back keeps its key
    apply List.ext_getElem (by simp [keys])
    intro i h₁ h₂
    simp only [keys, List.getElem_map, List.getElem_set]
    split
    · next hi => subst hi; rfl
    · rfl
  · cases h

/-- `remove_entry_by_idx` takes the entry at an index out of a well-formed map, which then no
longer binds its key, and aborts with `EIndexOutOfBounds` past the end. -/
theorem removeEntryByIdx_holds {m : VecMap K V} (hwf : m.WellFormed) (idx : Nat) :
    (m.removeEntryByIdx idx).Holds (fun e => e = .vecMap .eIndexOutOfBounds ∧ m.length ≤ idx)
      (fun r => m.lookup r.1.1 = some r.1.2 ∧ r.2.lookup = Function.update m.lookup r.1.1 none ∧
        r.2.WellFormed) := by
  cases m with
  | mk c =>
    unfold removeEntryByIdx
    split
    · next hi =>
      obtain ⟨pre, e, post, rfl, rfl⟩ : ∃ pre e post, c = pre ++ e :: post ∧ pre.length = idx :=
        ⟨_, _, _, split_at hi, by simp [length] at hi ⊢; omega⟩
      have hpre := (key_not_mem_split hwf).1
      rw [vectorRemove_split, Except.ok_bind]
      exact ⟨lookup_split rfl hpre, lookup_erase_split rfl hwf, wellFormed_erase_split hwf⟩
    · next hi => exact ⟨rfl, Nat.not_lt.1 hi⟩

end Operations

/-! ### Keys and values -/

section KeysValues

omit [DecidableEq K] in
theorem foldl_keysValues (l : List (Entry K V)) (ks : List K) (vs : List V) :
    l.foldl (fun acc e => (acc.1 ++ [e.key], acc.2 ++ [e.value])) (ks, vs) =
      (ks ++ l.map (·.key), vs ++ l.map (·.value)) := by
  induction l generalizing ks vs with
  | nil => simp
  | cons e l ih => simp [ih]

omit [DecidableEq K] in
theorem intoKeysValues_eq (m : VecMap K V) :
    m.intoKeysValues = (m.keys, m.contents.map (·.value)) := by
  rw [intoKeysValues, foldl_keysValues, List.nil_append, List.nil_append]
  rfl

/-- Inserting pairs in turn into a well-formed map: it binds them all after its entries when no
key comes twice, and aborts with `EKeyAlreadyExists` otherwise. -/
theorem foldlM_insert (l : List (K × V)) {m : VecMap K V} (hwf : m.WellFormed) :
    l.foldlM (fun m kv => m.insert kv.1 kv.2) m =
      if (m.keys ++ l.map Prod.fst).Nodup then .ok ⟨m.contents ++ l.map fun kv => ⟨kv.1, kv.2⟩⟩
      else .error (.vecMap .eKeyAlreadyExists) := by
  induction l generalizing m with
  | nil =>
    have hnodup : m.keys.Nodup := hwf
    rw [List.map_nil, List.append_nil, if_pos hnodup, List.map_nil, List.append_nil]
    rfl
  | cons kv l ih =>
    rw [List.foldlM_cons]
    have hins := insert_holds m kv.1 kv.2
    cases hm : m.insert kv.1 kv.2 with
    | error e =>
      rw [hm] at hins
      obtain ⟨rfl, hk⟩ := hins
      have hdup : ¬ (m.keys ++ (kv :: l).map Prod.fst).Nodup := by
        rw [List.nodup_append]
        exact fun h => h.2.2 kv.1 hk kv.1 (by simp) rfl
      rw [if_neg hdup]
      rfl
    | ok m' =>
      rw [hm] at hins
      obtain ⟨-, hkeys, -⟩ := hins
      rw [Except.ok_bind, ih (wellFormed_insert hwf hm), hkeys, insert_contents hm]
      simp [List.append_assoc]

omit [DecidableEq K] in
theorem wellFormed_empty : (empty : VecMap K V).WellFormed := List.nodup_nil

/-- What `from_keys_values` does: with as many keys as values and no key twice, the map of the
pairs in order; otherwise the abort of the check that fails. -/
theorem fromKeysValues_eq (ks : List K) (vs : List V) :
    fromKeysValues ks vs =
      if ks.length = vs.length then
        if ks.Nodup then .ok ⟨(ks.zip vs).map fun kv => ⟨kv.1, kv.2⟩⟩
        else .error (.vecMap .eKeyAlreadyExists)
      else .error (.vecMap .eUnequalLengths) := by
  unfold fromKeysValues
  split
  · next hlen =>
    rw [foldlM_insert _ wellFormed_empty, List.map_fst_zip (by omega)]
    simp [empty, keys]
  · rfl

omit [DecidableEq K] in
theorem intoKeysValues_zip {ks : List K} {vs : List V} (hlen : ks.length = vs.length) :
    (⟨(ks.zip vs).map fun kv => ⟨kv.1, kv.2⟩⟩ : VecMap K V).intoKeysValues = (ks, vs) := by
  rw [intoKeysValues_eq]
  simp [keys, Function.comp_def, List.map_fst_zip, List.map_snd_zip, hlen]

omit [DecidableEq K] in
theorem wellFormed_zip {ks : List K} {vs : List V} (hlen : ks.length = vs.length)
    (hks : ks.Nodup) : (⟨(ks.zip vs).map fun kv => ⟨kv.1, kv.2⟩⟩ : VecMap K V).WellFormed := by
  have hkeys : (⟨(ks.zip vs).map fun kv => ⟨kv.1, kv.2⟩⟩ : VecMap K V).keys = ks := by
    have h := congrArg Prod.fst (intoKeysValues_zip (V := V) hlen)
    rw [intoKeysValues_eq] at h
    exact h
  rw [WellFormed, hkeys]
  exact hks

/-- `from_keys_values` aborts with `EUnequalLengths` on lists of different lengths and with
`EKeyAlreadyExists` on a key given twice; the map it builds otherwise is well formed and gives
back the keys and the values through `into_keys_values`. -/
theorem fromKeysValues_holds (ks : List K) (vs : List V) :
    (fromKeysValues ks vs).Holds
      (fun e => (ks.length ≠ vs.length ∧ e = .vecMap .eUnequalLengths) ∨
        (ks.length = vs.length ∧ ¬ ks.Nodup ∧ e = .vecMap .eKeyAlreadyExists))
      (fun m => m.intoKeysValues = (ks, vs) ∧ m.WellFormed) := by
  rw [fromKeysValues_eq]
  by_cases hlen : ks.length = vs.length
  · by_cases hks : ks.Nodup
    · rw [if_pos hlen, if_pos hks]
      exact ⟨intoKeysValues_zip hlen, wellFormed_zip hlen hks⟩
    · rw [if_pos hlen, if_neg hks]
      exact Or.inr ⟨hlen, hks, rfl⟩
  · rw [if_neg hlen]
    exact Or.inl ⟨hlen, rfl⟩

/-- A well-formed map is rebuilt by `from_keys_values` from what `into_keys_values` gives. -/
theorem fromKeysValues_intoKeysValues {m : VecMap K V} (hwf : m.WellFormed) :
    fromKeysValues m.intoKeysValues.1 m.intoKeysValues.2 = .ok m := by
  have hkeys : m.keys.Nodup := hwf
  rw [intoKeysValues_eq, fromKeysValues_eq, if_pos (by simp [keys]), if_pos hkeys]
  cases m with
  | mk c => simp [keys, List.zip_map', Function.comp_def]

theorem fromKeysValues_intoKeysValues_pair :
    (⟨[⟨1, 2⟩, ⟨3, 4⟩]⟩ : VecMap Nat Nat).WellFormed ∧
      fromKeysValues (⟨[⟨1, 2⟩, ⟨3, 4⟩]⟩ : VecMap Nat Nat).intoKeysValues.1
          (⟨[⟨1, 2⟩, ⟨3, 4⟩]⟩ : VecMap Nat Nat).intoKeysValues.2 =
        .ok ⟨[⟨1, 2⟩, ⟨3, 4⟩]⟩ := by
  have hwf : (⟨[⟨1, 2⟩, ⟨3, 4⟩]⟩ : VecMap Nat Nat).WellFormed := by decide
  exact ⟨hwf, fromKeysValues_intoKeysValues hwf⟩

end KeysValues

/-! ### Every map the module builds is well formed -/

section Invariant

omit [DecidableEq K] in
theorem wellFormed_of_keys {m m' : VecMap K V} (hwf : m.WellFormed) (hkeys : m'.keys = m.keys) :
    m'.WellFormed := by
  rw [WellFormed, hkeys]
  exact hwf

/-- No function of the module builds a map with two entries of one key: the invariant holds of
`empty` and `from_keys_values`, and every operation keeps it. -/
theorem built_wellFormed {m : VecMap K V} (h : Built m) : m.WellFormed := by
  induction h with
  | empty => exact wellFormed_empty
  | insert _ hins ih => exact wellFormed_insert ih hins
  -- each operation's own spec says what it leaves, from a well-formed map
  | @remove m k r _ hrem ih => exact ((remove_holds ih k).of_eq_ok hrem).2.2.2
  | pop _ hpop ih => exact ((pop_holds ih).of_eq_ok hpop).2.2.2
  | @getMut m k r v _ hget ih =>
    exact wellFormed_of_keys ih (((getMut_holds m k).of_eq_ok hget).2 v).1
  | getEntryByIdxMut v _ hget ih => exact wellFormed_of_keys ih (getEntryByIdxMut_keys hget v)
  | @removeEntryByIdx m idx r _ hrem ih =>
    exact ((removeEntryByIdx_holds ih idx).of_eq_ok hrem).2.2
  | @fromKeysValues ks vs m hfrom => exact ((fromKeysValues_holds ks vs).of_eq_ok hfrom).2

/-- Three inserts and the removal of the middle key leave two entries of distinct keys. -/
theorem built_wellFormed_insertsAndRemove :
    Built (⟨[⟨1, 2⟩, ⟨5, 6⟩]⟩ : VecMap Nat Nat) ∧
      (⟨[⟨1, 2⟩, ⟨5, 6⟩]⟩ : VecMap Nat Nat).WellFormed := by
  have h₁ : (empty : VecMap Nat Nat).insert 1 2 = .ok ⟨[⟨1, 2⟩]⟩ := rfl
  have h₂ : (⟨[⟨1, 2⟩]⟩ : VecMap Nat Nat).insert 3 4 = .ok ⟨[⟨1, 2⟩, ⟨3, 4⟩]⟩ := rfl
  have h₃ : (⟨[⟨1, 2⟩, ⟨3, 4⟩]⟩ : VecMap Nat Nat).insert 5 6 =
      .ok ⟨[⟨1, 2⟩, ⟨3, 4⟩, ⟨5, 6⟩]⟩ := rfl
  have h₄ : (⟨[⟨1, 2⟩, ⟨3, 4⟩, ⟨5, 6⟩]⟩ : VecMap Nat Nat).remove 3 =
      .ok ((3, 4), ⟨[⟨1, 2⟩, ⟨5, 6⟩]⟩) := rfl
  have hb : Built (⟨[⟨1, 2⟩, ⟨5, 6⟩]⟩ : VecMap Nat Nat) :=
    Built.remove (Built.insert (Built.insert (Built.insert Built.empty h₁) h₂) h₃) h₄
  exact ⟨hb, built_wellFormed hb⟩

end Invariant

end VecMap

end Rtd
