import Rtd.Except
import Mathlib

/-!
`rtd::linked_table` (`rtd-framework/sources/linked_table.move`): a table whose entries
are dynamic fields of its `UID`, each a node holding its value and the keys of its
neighbours, with the head, the tail and the size kept in the table.

The dynamic fields are a function from keys to nodes. A call that aborts reverts the
transaction, so it returns an `Abort` and no table. Sizes are `u64`: an increment past
the largest value and a decrement below zero abort.

Over the source's functions stands the list the table represents: `nodesOf l` is the
nodes a table stores for the list of entries `l`, and every operation refines the
matching list operation.
-/

set_option autoImplicit false

namespace Rtd

namespace LinkedTable

/-- Why a call aborts, by the module that raises it and its error code. -/
inductive Abort where
  /-- An integer overflow or underflow. -/
  | arithmetic
  | linkedTable (code : Nat)
  | dynamicField (code : Nat)
  | option (code : Nat)
  deriving DecidableEq, Repr

def eTableIsEmpty : Nat := 1

/-- `dynamic_field::EFieldAlreadyExists` and `EFieldDoesNotExist`. -/
def eFieldAlreadyExists : Nat := 0
def eFieldDoesNotExist : Nat := 1

/-- `option::EOPTION_NOT_SET`. -/
def eOptionNotSet : Nat := 0x40001

end LinkedTable

structure LinkedTable.Node (K V : Type) where
  prev : Option K
  next : Option K
  value : V

/-- A linked table: its size, head and tail, and the nodes stored under its `UID`. -/
structure LinkedTable (K V : Type) where
  size : Nat
  head : Option K
  tail : Option K
  fields : K → Option (LinkedTable.Node K V)

namespace LinkedTable

variable {K V : Type} [DecidableEq K]

/-! ### Dynamic fields, options and `u64` -/

section Primitives

variable (fields : K → Option (Node K V))

/-- `dynamic_field::add`. -/
def fieldAdd (k : K) (node : Node K V) : Except Abort (K → Option (Node K V)) :=
  if (fields k).isSome then .error (.dynamicField eFieldAlreadyExists)
  else .ok (Function.update fields k (some node))

/-- A write through `dynamic_field::borrow_mut`. -/
def fieldModify (k : K) (f : Node K V → Node K V) : Except Abort (K → Option (Node K V)) :=
  match fields k with
  | some node => .ok (Function.update fields k (some (f node)))
  | none => .error (.dynamicField eFieldDoesNotExist)

/-- `dynamic_field::remove`. -/
def fieldRemove (k : K) : Except Abort (Node K V × (K → Option (Node K V))) :=
  match fields k with
  | some node => .ok (node, Function.update fields k none)
  | none => .error (.dynamicField eFieldDoesNotExist)

/-- `option::borrow`. -/
def optionBorrow (o : Option K) : Except Abort K :=
  match o with
  | some k => .ok k
  | none => .error (.option eOptionNotSet)

def incrementSize (size : Nat) : Except Abort Nat :=
  if size + 1 < 2 ^ 64 then .ok (size + 1) else .error .arithmetic

def decrementSize (size : Nat) : Except Abort Nat :=
  if size = 0 then .error .arithmetic else .ok (size - 1)

end Primitives

/-! ### The module's functions -/

/-- `linked_table::new`. -/
def new : LinkedTable K V := ⟨0, none, none, fun _ => none⟩

variable (table : LinkedTable K V)

/-- `linked_table::push_front`: the head becomes `k` (`swap_or_fill`), an empty table's
tail too (`fill`), and the old head's node points back to `k`. -/
def pushFront (k : K) (value : V) : Except Abort (LinkedTable K V) := do
  let oldHead := table.head
  let tail := if table.tail.isNone then some k else table.tail
  let (next, fields) ← (match oldHead with
    | some oldHeadK => do
      let fields ← fieldModify table.fields oldHeadK fun node => { node with prev := some k }
      pure (some oldHeadK, fields)
    | none => pure (none, table.fields))
  let fields ← fieldAdd fields k ⟨none, next, value⟩
  let size ← incrementSize table.size
  pure ⟨size, some k, tail, fields⟩

/-- `linked_table::push_back`: the mirror image of `push_front`. -/
def pushBack (k : K) (value : V) : Except Abort (LinkedTable K V) := do
  let head := if table.head.isNone then some k else table.head
  let oldTail := table.tail
  let (prev, fields) ← (match oldTail with
    | some oldTailK => do
      let fields ← fieldModify table.fields oldTailK fun node => { node with next := some k }
      pure (some oldTailK, fields)
    | none => pure (none, table.fields))
  let fields ← fieldAdd fields k ⟨prev, none, value⟩
  let size ← incrementSize table.size
  pure ⟨size, head, some k, fields⟩

/-- `linked_table::remove`: take out the node of `k`, link its neighbours to each other,
and move the head and tail off `k`. -/
def remove (k : K) : Except Abort (LinkedTable K V × V) := do
  let (node, fields) ← fieldRemove table.fields k
  let size ← decrementSize table.size
  let fields ← (match node.prev with
    | some prev => fieldModify fields prev fun n => { n with next := node.next }
    | none => pure fields)
  let fields ← (match node.next with
    | some next => fieldModify fields next fun n => { n with prev := node.prev }
    | none => pure fields)
  let head ← optionBorrow table.head
  let head := if head = k then node.next else table.head
  let tail ← optionBorrow table.tail
  let tail := if tail = k then node.prev else table.tail
  pure (⟨size, head, tail, fields⟩, node.value)

/-- `linked_table::pop_front`. -/
def popFront : Except Abort (LinkedTable K V × K × V) :=
  match table.head with
  | none => .error (.linkedTable eTableIsEmpty)
  | some head => (fun r => (r.1, head, r.2)) <$> table.remove head

/-- `linked_table::pop_back`. -/
def popBack : Except Abort (LinkedTable K V × K × V) :=
  match table.tail with
  | none => .error (.linkedTable eTableIsEmpty)
  | some tail => (fun r => (r.1, tail, r.2)) <$> table.remove tail

/-! ### The list a table stores -/

section Nodes

/-- Rewrites the node of `x`, if there is one. -/
def modifyAt (fields : K → Option (Node K V)) (x : K) (f : Node K V → Node K V) :
    K → Option (Node K V) :=
  Function.update fields x ((fields x).map f)

/-- The nodes of the entries `l` written over `base`, the first with predecessor `prev`
and the last with successor `next`. -/
def nodesOnto (prev : Option K) : List (K × V) → Option K → (K → Option (Node K V)) →
    K → Option (Node K V)
  | [], _, base => base
  | (k, v) :: rest, next, base =>
    Function.update (nodesOnto (some k) rest next base) k
      (some ⟨prev, (rest.head?.map Prod.fst).or next, v⟩)

/-- The nodes that store the entries `l` in order, the first with predecessor `prev`. -/
def nodesOf (prev : Option K) (l : List (K × V)) : K → Option (Node K V) :=
  nodesOnto prev l none fun _ => none

variable {prev next : Option K} {base : K → Option (Node K V)}

@[simp] theorem nodesOf_nil : nodesOf prev ([] : List (K × V)) = fun _ => none := rfl

theorem nodesOf_cons (k : K) (v : V) (rest : List (K × V)) :
    nodesOf prev ((k, v) :: rest) =
      Function.update (nodesOf (some k) rest) k (some ⟨prev, rest.head?.map Prod.fst, v⟩) := by
  simp [nodesOf, nodesOnto]

theorem nodesOnto_of_not_mem {l : List (K × V)} {x : K} (hx : x ∉ l.map Prod.fst) :
    nodesOnto prev l next base x = base x := by
  induction l generalizing prev with
  | nil => rfl
  | cons e rest ih =>
    simp only [List.map_cons, List.mem_cons, not_or] at hx
    simp [nodesOnto, Function.update_of_ne hx.1, ih hx.2]

theorem nodesOf_of_not_mem {l : List (K × V)} {x : K} (hx : x ∉ l.map Prod.fst) :
    nodesOf prev l x = none :=
  nodesOnto_of_not_mem hx

/-- Writing outside the entries commutes with writing the entries. -/
theorem nodesOnto_update {l : List (K × V)} {x : K} (hx : x ∉ l.map Prod.fst)
    (y : Option (Node K V)) :
    nodesOnto prev l next (Function.update base x y) =
      Function.update (nodesOnto prev l next base) x y := by
  induction l generalizing prev with
  | nil => rfl
  | cons e rest ih =>
    simp only [List.map_cons, List.mem_cons, not_or] at hx
    simp only [nodesOnto, ih hx.2]
    exact Function.update_comm hx.1 _ _ _

theorem modifyAt_update_of_ne {fields : K → Option (Node K V)} {x a : K} (h : x ≠ a)
    (y : Option (Node K V)) (f : Node K V → Node K V) :
    modifyAt (Function.update fields a y) x f = Function.update (modifyAt fields x f) a y := by
  rw [modifyAt, modifyAt, Function.update_of_ne h, Function.update_comm h.symm]

theorem modifyAt_nodesOnto {l : List (K × V)} {x : K} (hx : x ∉ l.map Prod.fst)
    (f : Node K V → Node K V) :
    modifyAt (nodesOnto prev l next base) x f = nodesOnto prev l next (modifyAt base x f) := by
  rw [modifyAt, modifyAt, nodesOnto_of_not_mem hx, nodesOnto_update hx]

/-- The nodes of two lists one after the other: the first list's nodes, its last one
pointing on to the second list, over the second list's nodes. -/
theorem nodesOf_append (l₁ l₂ : List (K × V)) :
    nodesOf prev (l₁ ++ l₂) = nodesOnto prev l₁ (l₂.head?.map Prod.fst)
      (nodesOf ((l₁.getLast?.map Prod.fst).or prev) l₂) := by
  induction l₁ generalizing prev with
  | nil => simp [nodesOnto]
  | cons e rest ih =>
    obtain ⟨k, v⟩ := e
    rw [List.cons_append, nodesOf_cons, ih, nodesOnto]
    cases rest <;> simp [List.getLast?_cons]

/-- Repointing the last entry's successor. -/
theorem modifyAt_nodesOnto_last {l : List (K × V)} {b : K}
    (hlast : l.getLast?.map Prod.fst = some b) (hnodup : (l.map Prod.fst).Nodup)
    (next' : Option K) :
    modifyAt (nodesOnto prev l next base) b (fun n => { n with next := next' }) =
      nodesOnto prev l next' base := by
  induction l generalizing prev with
  | nil => simp at hlast
  | cons e rest ih =>
    obtain ⟨a, va⟩ := e
    cases rest with
    | nil =>
      simp only [List.getLast?_singleton, Option.map_some, Option.some.injEq] at hlast
      subst hlast
      simp [modifyAt, nodesOnto]
    | cons e' rest' =>
      -- the last entry is further on: the first node keeps its successor
      have hne : b ≠ a := by
        rintro rfl
        have : b ∈ ((e' :: rest').map Prod.fst) := by
          rw [List.getLast?_cons_cons] at hlast
          obtain ⟨x, hx, hxb⟩ := Option.map_eq_some_iff.1 hlast
          exact List.mem_map.2 ⟨x, List.mem_of_getLast? hx, hxb⟩
        exact (List.nodup_cons.1 hnodup).1 this
      rw [List.getLast?_cons_cons] at hlast
      have hih := @ih (some a) hlast (List.nodup_cons.1 hnodup).2
      calc modifyAt (nodesOnto prev ((a, va) :: e' :: rest') next base) b _
          = modifyAt (Function.update (nodesOnto (some a) (e' :: rest') next base) a
              (some ⟨prev, some e'.1, va⟩)) b (fun n => { n with next := next' }) := rfl
        _ = Function.update (modifyAt (nodesOnto (some a) (e' :: rest') next base) b
              (fun n => { n with next := next' })) a (some ⟨prev, some e'.1, va⟩) :=
            modifyAt_update_of_ne hne _ _
        _ = nodesOnto prev ((a, va) :: e' :: rest') next' base := by rw [hih]; rfl

/-- Repointing the first entry's predecessor. -/
theorem modifyAt_nodesOf_head (c : K) (vc : V) (rest : List (K × V)) (prev' : Option K) :
    modifyAt (nodesOf prev ((c, vc) :: rest)) c (fun n => { n with prev := prev' }) =
      nodesOf prev' ((c, vc) :: rest) := by
  simp [modifyAt, nodesOf_cons]

end Nodes

/-- The table stores the entries `l`, in order. -/
structure Represents (table : LinkedTable K V) (l : List (K × V)) : Prop where
  nodup : (l.map Prod.fst).Nodup
  size_eq : table.size = l.length
  head_eq : table.head = l.head?.map Prod.fst
  tail_eq : table.tail = l.getLast?.map Prod.fst
  fields_eq : table.fields = nodesOf none l

/-- The table that stores the entries `l`. -/
def ofList (l : List (K × V)) : LinkedTable K V :=
  ⟨l.length, l.head?.map Prod.fst, l.getLast?.map Prod.fst, nodesOf none l⟩

theorem represents_ofList {l : List (K × V)} (h : (l.map Prod.fst).Nodup) :
    Represents (ofList l) l :=
  ⟨h, rfl, rfl, rfl, rfl⟩

theorem represents_new : Represents (new : LinkedTable K V) [] :=
  represents_ofList (l := []) List.nodup_nil

@[simp] theorem isSome_nodesOnto_iff {prev next : Option K} {base : K → Option (Node K V)}
    {l : List (K × V)} {x : K} :
    (nodesOnto prev l next base x).isSome ↔ x ∈ l.map Prod.fst ∨ (base x).isSome := by
  induction l generalizing prev with
  | nil => simp [nodesOnto]
  | cons e rest ih =>
    obtain ⟨k, v⟩ := e
    by_cases hx : x = k
    · subst hx; simp [nodesOnto]
    · simp [nodesOnto, ih, hx]

@[simp] theorem isSome_nodesOf_iff {prev : Option K} {l : List (K × V)} {x : K} :
    (nodesOf prev l x).isSome ↔ x ∈ l.map Prod.fst := by
  simp [nodesOf]

section Calls

variable {fields : K → Option (Node K V)} {x : K}

theorem fieldModify_of_isSome (hx : (fields x).isSome) (f : Node K V → Node K V) :
    fieldModify fields x f = .ok (modifyAt fields x f) := by
  obtain ⟨n, hn⟩ := Option.isSome_iff_exists.1 hx
  simp [fieldModify, modifyAt, hn]

theorem fieldAdd_of_isSome (hx : (fields x).isSome) (n : Node K V) :
    fieldAdd fields x n = .error (.dynamicField eFieldAlreadyExists) := by
  simp [fieldAdd, hx]

theorem fieldAdd_of_eq_none (hx : fields x = none) (n : Node K V) :
    fieldAdd fields x n = .ok (Function.update fields x (some n)) := by
  simp [fieldAdd, hx]

end Calls

/-! ### The list operations the calls implement -/

/-- `push_front` on the list of entries; `none` where the call aborts, on a key that is
stored already or a size past the largest `u64`. -/
def listPushFront (l : List (K × V)) (k : K) (v : V) : Option (List (K × V)) :=
  if k ∈ l.map Prod.fst ∨ 2 ^ 64 ≤ l.length + 1 then none else some ((k, v) :: l)

def listPushBack (l : List (K × V)) (k : K) (v : V) : Option (List (K × V)) :=
  if k ∈ l.map Prod.fst ∨ 2 ^ 64 ≤ l.length + 1 then none else some (l ++ [(k, v)])

/-- `remove` on the list of entries: the entry of `k` taken out and its value, the rest in
order. -/
def listRemove : List (K × V) → K → Option (List (K × V) × V)
  | [], _ => none
  | (k', v) :: rest, k =>
    if k' = k then some (rest, v) else (listRemove rest k).map fun r => ((k', v) :: r.1, r.2)

def listPopFront : List (K × V) → Option (List (K × V) × K × V)
  | [] => none
  | (k, v) :: rest => some (rest, k, v)

def listPopBack (l : List (K × V)) : Option (List (K × V) × K × V) :=
  l.getLast?.map fun e => (l.dropLast, e.1, e.2)

/-! ### Each call refines its list operation -/

section Refinement

variable {t : LinkedTable K V} {l : List (K × V)}

/-- On a table that stores `l`, `push_front` links the old head back to `k` and then adds
the node of `k`. -/
theorem Represents.pushFront_eq (h : Represents t l) (k : K) (v : V) :
    t.pushFront k v = (do
      let fields ← fieldAdd (nodesOf (some k) l) k ⟨none, l.head?.map Prod.fst, v⟩
      let size ← incrementSize l.length
      pure ⟨size, some k, (l.getLast?.map Prod.fst).or (some k), fields⟩) := by
  obtain ⟨size, head, tail, fields⟩ := t
  obtain ⟨hnodup, hs, hh, ht, hf⟩ := h
  simp only at hs hh ht hf
  subst hs hh ht hf
  cases l with
  | nil => rfl
  | cons e rest =>
    obtain ⟨a, va⟩ := e
    have hmod : fieldModify (nodesOf none ((a, va) :: rest)) a
        (fun n => { n with prev := some k }) = .ok (nodesOf (some k) ((a, va) :: rest)) := by
      rw [fieldModify_of_isSome (by simp), modifyAt_nodesOf_head]
    simp [LinkedTable.pushFront, hmod, List.getLast?_eq_some_getLast (List.cons_ne_nil (a, va) rest)]

/-- On a table that stores `l`, `push_back` links the old tail on to `k` and then adds the
node of `k`. -/
theorem Represents.pushBack_eq (h : Represents t l) (k : K) (v : V) :
    t.pushBack k v = (do
      let fields ← fieldAdd (nodesOnto none l (some k) fun _ => none) k
        ⟨l.getLast?.map Prod.fst, none, v⟩
      let size ← incrementSize l.length
      pure ⟨size, (l.head?.map Prod.fst).or (some k), some k, fields⟩) := by
  obtain ⟨size, head, tail, fields⟩ := t
  obtain ⟨hnodup, hs, hh, ht, hf⟩ := h
  simp only at hs hh ht hf
  subst hs hh ht hf
  rcases List.eq_nil_or_concat' l with rfl | ⟨init, ⟨b, vb⟩, rfl⟩
  · rfl
  · have hlast : (init ++ [(b, vb)]).getLast?.map Prod.fst = some b := by simp
    have hne : init ++ [(b, vb)] ≠ [] := by simp
    have hmod : fieldModify (nodesOf none (init ++ [(b, vb)])) b
        (fun n => { n with next := some k }) =
          .ok (nodesOnto none (init ++ [(b, vb)]) (some k) fun _ => none) := by
      rw [fieldModify_of_isSome (by simp), nodesOf, modifyAt_nodesOnto_last hlast hnodup]
    simp [LinkedTable.pushBack, hmod, List.head?_eq_some_head hne]

omit [DecidableEq K] in
theorem getLast?_cons_or (e : K × V) (l : List (K × V)) (k : K) (he : e.1 = k) :
    (l.getLast?.map Prod.fst).or (some k) = (e :: l).getLast?.map Prod.fst := by
  cases l <;> simp [List.getLast?_cons, he]

/-- `push_front` aborts exactly where the list operation does, and otherwise stores the
list with `k` in front. -/
theorem Represents.pushFront (h : Represents t l) (k : K) (v : V) :
    (t.pushFront k v).Holds (fun _ => listPushFront l k v = none)
      (fun t' => ∃ l', listPushFront l k v = some l' ∧ Represents t' l') := by
  rw [h.pushFront_eq]
  by_cases hk : k ∈ l.map Prod.fst
  · rw [fieldAdd_of_isSome (by simpa using hk)]
    simp [listPushFront, hk]
  rw [fieldAdd_of_eq_none (nodesOf_of_not_mem hk)]
  by_cases hsize : l.length + 1 < 2 ^ 64
  · simp only [Except.ok_bind, incrementSize, if_pos hsize]
    apply Except.holds_pure
    refine ⟨(k, v) :: l, by simp [listPushFront, hk]; omega, ?_⟩
    exact ⟨List.nodup_cons.2 ⟨hk, h.nodup⟩, rfl, rfl, getLast?_cons_or (k, v) l k rfl,
      (nodesOf_cons k v l).symm⟩
  · have : listPushFront l k v = none := by simp [listPushFront]; omega
    rw [incrementSize, if_neg hsize]
    simp [this]

/-- `push_back` aborts exactly where the list operation does, and otherwise stores the
list with `k` at the back. -/
theorem Represents.pushBack (h : Represents t l) (k : K) (v : V) :
    (t.pushBack k v).Holds (fun _ => listPushBack l k v = none)
      (fun t' => ∃ l', listPushBack l k v = some l' ∧ Represents t' l') := by
  rw [h.pushBack_eq]
  by_cases hk : k ∈ l.map Prod.fst
  · rw [fieldAdd_of_isSome (by simp [hk])]
    simp [listPushBack, hk]
  rw [fieldAdd_of_eq_none (nodesOnto_of_not_mem hk)]
  by_cases hsize : l.length + 1 < 2 ^ 64
  · simp only [Except.ok_bind, incrementSize, if_pos hsize]
    apply Except.holds_pure
    refine ⟨l ++ [(k, v)], by simp [listPushBack, hk]; omega, ?_⟩
    have hnodup : ((l ++ [(k, v)]).map Prod.fst).Nodup := by
      simp only [List.map_append, List.nodup_append, h.nodup, List.map_cons, List.map_nil,
        List.nodup_cons, List.not_mem_nil, not_false_eq_true, List.nodup_nil, List.mem_singleton,
        true_and]
      rintro a ha _ rfl rfl
      exact hk ha
    -- the new node sits over the old ones, whose last now points on to it
    have hfields : Function.update (nodesOnto none l (some k) fun _ => none) k
        (some ⟨l.getLast?.map Prod.fst, none, v⟩) = nodesOf none (l ++ [(k, v)]) := by
      rw [← nodesOnto_update hk, nodesOf_append, Option.or_none, nodesOf_cons]
      rfl
    exact ⟨hnodup, by simp, by cases l <;> simp, by simp, hfields⟩
  · have : listPushBack l k v = none := by simp [listPushBack]; omega
    rw [incrementSize, if_neg hsize]
    simp [this]

section Remove

variable {pre post : List (K × V)} {k : K} {v : V}

/-- After `remove k` the head moves to `k`'s successor only if `k` was the head. -/
theorem head_after_remove (hnodup : ((pre ++ (k, v) :: post).map Prod.fst).Nodup) {x : K}
    (hx : (pre ++ (k, v) :: post).head?.map Prod.fst = some x) :
    (if x = k then post.head?.map Prod.fst else some x) = (pre ++ post).head?.map Prod.fst := by
  cases pre with
  | nil =>
    simp only [List.nil_append, List.head?_cons, Option.map_some, Option.some.injEq] at hx
    simp [hx]
  | cons p pre' =>
    simp only [List.cons_append, List.head?_cons, Option.map_some, Option.some.injEq] at hx
    have hne : x ≠ k := by
      rintro rfl
      simp only [List.cons_append, List.map_cons, List.map_append, List.nodup_cons] at hnodup
      exact hnodup.1 (by simp [hx])
    simp [hne, hx]

/-- After `remove k` the tail moves to `k`'s predecessor only if `k` was the tail. -/
theorem tail_after_remove (hnodup : ((pre ++ (k, v) :: post).map Prod.fst).Nodup) {y : K}
    (hy : (pre ++ (k, v) :: post).getLast?.map Prod.fst = some y) :
    (if y = k then pre.getLast?.map Prod.fst else some y) =
      (pre ++ post).getLast?.map Prod.fst := by
  rcases List.eq_nil_or_concat' post with rfl | ⟨post', e, rfl⟩
  · simp only [List.getLast?_append, List.getLast?_singleton, Option.some_or, Option.map_some,
      Option.some.injEq] at hy
    simp [hy]
  · simp only [← List.cons_append, ← List.append_assoc, List.getLast?_append,
      List.getLast?_singleton, Option.some_or, Option.map_some, Option.some.injEq] at hy
    subst hy
    have hne : e.1 ≠ k := by
      intro he
      simp only [List.map_append, List.map_cons, List.nodup_append, List.nodup_cons] at hnodup
      exact hnodup.2.1.1 (by simp [← he])
    simp [hne, ← List.append_assoc]

/-- Removing the node of `k` from the nodes of `pre ++ (k, v) :: post` leaves the nodes of
`pre`, still pointing on to `k`, over those of `post`. -/
theorem fieldRemove_nodesOf_middle (hkpre : k ∉ pre.map Prod.fst)
    (hkpost : k ∉ post.map Prod.fst) :
    fieldRemove (nodesOf none (pre ++ (k, v) :: post)) k =
      .ok (⟨pre.getLast?.map Prod.fst, post.head?.map Prod.fst, v⟩,
        nodesOnto none pre (some k) (nodesOf (some k) post)) := by
  -- the node of `k` sits between the nodes of `pre` and those of `post`
  have hsplit : nodesOf none (pre ++ (k, v) :: post) = nodesOnto none pre (some k)
      (Function.update (nodesOf (some k) post) k
        (some ⟨pre.getLast?.map Prod.fst, post.head?.map Prod.fst, v⟩)) := by
    rw [nodesOf_append, Option.or_none, nodesOf_cons]
    rfl
  simp only [hsplit, fieldRemove, nodesOnto_of_not_mem hkpre, Function.update_self]
  rw [← nodesOnto_update hkpre, Function.update_idem,
    Function.update_eq_self_iff.2 (nodesOf_of_not_mem hkpost).symm]

/-- The predecessor of the removed node points on to its successor. -/
theorem fieldModify_predecessor (hpre : (pre.map Prod.fst).Nodup) {b : K}
    (hb : pre.getLast?.map Prod.fst = some b) :
    fieldModify (nodesOnto none pre (some k) (nodesOf (some k) post)) b
        (fun n => { n with next := post.head?.map Prod.fst }) =
      .ok (nodesOnto none pre (post.head?.map Prod.fst) (nodesOf (some k) post)) := by
  have hbpre : b ∈ pre.map Prod.fst := by
    obtain ⟨e, he, rfl⟩ := Option.map_eq_some_iff.1 hb
    exact List.mem_map_of_mem (List.mem_of_getLast? he)
  rw [fieldModify_of_isSome (by simp [hbpre]), modifyAt_nodesOnto_last hb hpre]

/-- The successor of the removed node points back to its predecessor. -/
theorem fieldModify_successor (hdisj : (pre.map Prod.fst).Disjoint (k :: post.map Prod.fst))
    {c : K} (hc : post.head?.map Prod.fst = some c) :
    fieldModify (nodesOnto none pre (post.head?.map Prod.fst) (nodesOf (some k) post)) c
        (fun n => { n with prev := pre.getLast?.map Prod.fst }) =
      .ok (nodesOf none (pre ++ post)) := by
  obtain ⟨⟨c', vc⟩, post', rfl⟩ : ∃ e post', post = e :: post' := by
    cases post <;> simp_all
  simp only [List.head?_cons, Option.map_some, Option.some.injEq] at hc
  subst hc
  have hcpre : c' ∉ pre.map Prod.fst := fun hc => hdisj hc (List.mem_cons_of_mem _ (by simp))
  rw [fieldModify_of_isSome (by simp [nodesOnto_of_not_mem hcpre]), modifyAt_nodesOnto hcpre,
    modifyAt_nodesOf_head, nodesOf_append, Option.or_none]

/-- On a table that stores `pre ++ (k, v) :: post`, `remove k` takes out the node of `k`,
points its predecessor on to its successor and back, and returns `v`. -/
theorem Represents.remove_eq (h : Represents t (pre ++ (k, v) :: post)) :
    t.remove k = .ok (ofList (pre ++ post), v) := by
  obtain ⟨size, head, tail, fields⟩ := t
  obtain ⟨hnodup, hs, hh, ht, hf⟩ := h
  simp only at hs hh ht hf
  subst hs hf
  have hkeys : (pre.map Prod.fst ++ k :: post.map Prod.fst).Nodup := by simpa using hnodup
  have hdisj := List.disjoint_of_nodup_append hkeys
  have hpre : (pre.map Prod.fst).Nodup := hkeys.of_append_left
  have hkpre : k ∉ pre.map Prod.fst := fun hk => hdisj hk List.mem_cons_self
  have hkpost : k ∉ post.map Prod.fst := (List.nodup_cons.1 hkeys.of_append_right).1
  have hdec : decrementSize (pre ++ (k, v) :: post).length = .ok (pre ++ post).length := by
    simp [decrementSize]
  obtain ⟨x, hx⟩ : ∃ x, (pre ++ (k, v) :: post).head?.map Prod.fst = some x := by
    cases pre <;> simp
  obtain ⟨y, hy⟩ : ∃ y, (pre ++ (k, v) :: post).getLast?.map Prod.fst = some y :=
    ⟨_, by rw [List.getLast?_eq_some_getLast (by simp)]; rfl⟩
  rw [hx] at hh
  rw [hy] at ht
  subst hh ht
  simp only [LinkedTable.remove, fieldRemove_nodesOf_middle hkpre hkpost, hdec, Except.ok_bind,
    optionBorrow]
  rw [head_after_remove hnodup hx, tail_after_remove hnodup hy]
  -- with no predecessor `pre` is empty, and with no successor `post` is
  have hnoPrev : pre.getLast?.map Prod.fst = none →
      nodesOnto none pre (some k) (nodesOf (some k) post) =
        nodesOnto none pre (post.head?.map Prod.fst) (nodesOf (some k) post) := by
    intro hb
    obtain rfl : pre = [] := by simpa using hb
    rfl
  have hnoNext : post.head?.map Prod.fst = none →
      nodesOnto none pre (post.head?.map Prod.fst) (nodesOf (some k) post) =
        nodesOf none (pre ++ post) := by
    intro hc
    obtain rfl : post = [] := by simpa using hc
    rw [List.append_nil]
    rfl
  split
  next b hb =>
    rw [fieldModify_predecessor hpre hb, Except.ok_bind]
    split
    next c hc => rw [fieldModify_successor hdisj hc]; rfl
    next hc => rw [hnoNext hc]; rfl
  next hb =>
    rw [hnoPrev hb]
    split
    next c hc => rw [pure_bind, fieldModify_successor hdisj hc]; rfl
    next hc => rw [hnoNext hc]; rfl

omit [DecidableEq K] in
theorem not_mem_pre_of_nodup (h : ((pre ++ (k, v) :: post).map Prod.fst).Nodup) :
    k ∉ pre.map Prod.fst :=
  fun hk => List.disjoint_of_nodup_append (by simpa using h) hk List.mem_cons_self

theorem listRemove_split (hk : k ∉ pre.map Prod.fst) :
    listRemove (pre ++ (k, v) :: post) k = some (pre ++ post, v) := by
  induction pre with
  | nil => simp [listRemove]
  | cons e pre ih =>
    simp only [List.map_cons, List.mem_cons, not_or] at hk
    simp [listRemove, Ne.symm hk.1, ih hk.2]

theorem listRemove_of_not_mem {l : List (K × V)} (hk : k ∉ l.map Prod.fst) :
    listRemove l k = none := by
  induction l with
  | nil => rfl
  | cons e l ih =>
    simp only [List.map_cons, List.mem_cons, not_or] at hk
    simp [listRemove, Ne.symm hk.1, ih hk.2]

theorem Represents.splice (h : Represents t (pre ++ (k, v) :: post)) :
    Represents (ofList (pre ++ post)) (pre ++ post) :=
  represents_ofList (h.nodup.sublist ((List.sublist_cons_self _ _).append_left pre |>.map _))

/-- `remove` aborts exactly where `k` is not stored, and otherwise stores the list with the
entry of `k` spliced out. -/
theorem Represents.remove (h : Represents t l) (k : K) :
    (t.remove k).Holds (fun _ => listRemove l k = none)
      (fun r => ∃ l', listRemove l k = some (l', r.2) ∧ Represents r.1 l') := by
  by_cases hk : k ∈ l.map Prod.fst
  · obtain ⟨⟨k', v⟩, hmem, rfl⟩ := List.mem_map.1 hk
    obtain ⟨pre, post, rfl⟩ := List.append_of_mem hmem
    rw [h.remove_eq]
    exact ⟨pre ++ post, listRemove_split (not_mem_pre_of_nodup h.nodup), h.splice⟩
  · simp [LinkedTable.remove, h.fields_eq, fieldRemove, nodesOf_of_not_mem hk,
      listRemove_of_not_mem hk]

theorem Represents.popFront (h : Represents t l) :
    t.popFront.Holds (fun _ => listPopFront l = none)
      (fun r => ∃ l', listPopFront l = some (l', r.2) ∧ Represents r.1 l') := by
  cases l with
  | nil => simp [LinkedTable.popFront, h.head_eq, listPopFront]
  | cons e rest =>
    obtain ⟨k, v⟩ := e
    have h' : Represents t ([] ++ (k, v) :: rest) := h
    simp only [LinkedTable.popFront, h.head_eq, List.head?_cons, Option.map_some, h'.remove_eq]
    exact ⟨rest, rfl, h'.splice⟩

theorem Represents.popBack (h : Represents t l) :
    t.popBack.Holds (fun _ => listPopBack l = none)
      (fun r => ∃ l', listPopBack l = some (l', r.2) ∧ Represents r.1 l') := by
  rcases List.eq_nil_or_concat' l with rfl | ⟨init, ⟨k, v⟩, rfl⟩
  · simp [LinkedTable.popBack, h.tail_eq, listPopBack]
  · have h' : Represents t (init ++ (k, v) :: []) := h
    simp only [LinkedTable.popBack, h.tail_eq, List.getLast?_concat, Option.map_some, h'.remove_eq]
    exact ⟨init ++ [], by simp [listPopBack], h'.splice⟩

end Remove

end Refinement

/-! ### Walking the links -/

/-- The keys met following `link` from `start`, through at most `fuel` nodes. -/
def follow (link : Node K V → Option K) (fields : K → Option (Node K V)) :
    Nat → Option K → List K
  | 0, _ => []
  | _ + 1, none => []
  | fuel + 1, some k =>
    match fields k with
    | none => []
    | some node => k :: follow link fields fuel (link node)

section Walks

variable {t : LinkedTable K V} {l : List (K × V)}

/-- The node of an entry points back to the entry before it and on to the one after it. -/
theorem nodesOf_split_self {prev : Option K} {pre post : List (K × V)} {k : K} {v : V}
    (hk : k ∉ pre.map Prod.fst) :
    nodesOf prev (pre ++ (k, v) :: post) k =
      some ⟨(pre.getLast?.map Prod.fst).or prev, post.head?.map Prod.fst, v⟩ := by
  rw [nodesOf_append, nodesOnto_of_not_mem hk, nodesOf_cons, Function.update_self]

theorem Represents.isSome_fields_iff (h : Represents t l) (x : K) :
    (t.fields x).isSome ↔ x ∈ l.map Prod.fst := by
  rw [h.fields_eq, isSome_nodesOf_iff]

/-- Following `next` from the head visits the stored keys in order, and stops there. -/
theorem Represents.follow_next (h : Represents t l) {fuel : Nat} (hfuel : l.length ≤ fuel) :
    follow Node.next t.fields fuel t.head = l.map Prod.fst := by
  rw [h.fields_eq, h.head_eq]
  -- followed from the first key of a suffix, the links give the suffix's keys
  suffices ∀ post pre fuel, pre ++ post = l → post.length ≤ fuel →
      follow Node.next (nodesOf none l) fuel (post.head?.map Prod.fst) = post.map Prod.fst from
    this l [] fuel rfl hfuel
  intro post
  induction post with
  | nil => intro _ fuel _ _; cases fuel <;> rfl
  | cons e post ih =>
    obtain ⟨k, v⟩ := e
    intro pre fuel hl hfuel
    obtain ⟨fuel, rfl⟩ : ∃ f, fuel = f + 1 := ⟨fuel - 1, by simp at hfuel; omega⟩
    have hnode : nodesOf none l k =
        some ⟨(pre.getLast?.map Prod.fst).or none, post.head?.map Prod.fst, v⟩ := by
      rw [← hl, nodesOf_split_self (not_mem_pre_of_nodup (by rw [hl]; exact h.nodup))]
    simp only [List.head?_cons, Option.map_some, follow, hnode, List.map_cons]
    rw [ih (pre ++ [(k, v)]) fuel (by simp [← hl]) (by simp at hfuel; omega)]

/-- Following `prev` from the tail visits the stored keys in reverse order, and stops
there. -/
theorem Represents.follow_prev (h : Represents t l) {fuel : Nat} (hfuel : l.length ≤ fuel) :
    follow Node.prev t.fields fuel t.tail = (l.map Prod.fst).reverse := by
  rw [h.fields_eq, h.tail_eq]
  -- followed back from the last key of a prefix, the links give the prefix's keys reversed
  suffices ∀ pre post fuel, pre ++ post = l → pre.length ≤ fuel →
      follow Node.prev (nodesOf none l) fuel (pre.getLast?.map Prod.fst) =
        (pre.map Prod.fst).reverse from
    this l [] fuel (List.append_nil l) hfuel
  intro pre
  induction pre using List.reverseRecOn with
  | nil => intro _ fuel _ _; cases fuel <;> rfl
  | append_singleton init e ih =>
    obtain ⟨k, v⟩ := e
    intro post fuel hl hfuel
    obtain ⟨fuel, rfl⟩ : ∃ f, fuel = f + 1 := ⟨fuel - 1, by simp at hfuel; omega⟩
    have hl' : init ++ (k, v) :: post = l := by simpa using hl
    have hnode : nodesOf none l k =
        some ⟨(init.getLast?.map Prod.fst).or none, post.head?.map Prod.fst, v⟩ := by
      rw [← hl', nodesOf_split_self (not_mem_pre_of_nodup (by rw [hl']; exact h.nodup))]
    simp only [List.getLast?_concat, Option.map_some, follow, hnode, Option.or_none]
    rw [ih ((k, v) :: post) fuel hl' (by simp at hfuel; omega)]
    simp

theorem Represents.head_prev (h : Represents t l) {k : K} {n : Node K V}
    (hk : t.head = some k) (hn : t.fields k = some n) : n.prev = none := by
  cases l with
  | nil => simp [h.head_eq] at hk
  | cons e rest =>
    obtain ⟨k', v⟩ := e
    obtain rfl : k' = k := by simpa [h.head_eq] using hk
    rw [h.fields_eq, nodesOf_cons, Function.update_self] at hn
    cases hn
    rfl

theorem Represents.tail_next (h : Represents t l) {k : K} {n : Node K V}
    (hk : t.tail = some k) (hn : t.fields k = some n) : n.next = none := by
  rcases List.eq_nil_or_concat' l with rfl | ⟨init, ⟨k', v⟩, rfl⟩
  · simp [h.tail_eq] at hk
  · obtain rfl : k' = k := by simpa [h.tail_eq] using hk
    have hnodup : ((init ++ (k', v) :: []).map Prod.fst).Nodup := h.nodup
    rw [h.fields_eq, nodesOf_split_self (not_mem_pre_of_nodup hnodup)] at hn
    cases hn
    rfl

theorem Represents.head_eq_none_iff (h : Represents t l) : t.head = none ↔ t.size = 0 := by
  rw [h.head_eq, h.size_eq]
  cases l <;> simp

theorem Represents.tail_eq_none_iff (h : Represents t l) : t.tail = none ↔ t.size = 0 := by
  rw [h.tail_eq, h.size_eq]
  cases l <;> simp

end Walks

/-! ### Runs of calls -/

/-- A call that changes a linked table. -/
inductive Op (K V : Type) where
  | pushFront (k : K) (value : V)
  | pushBack (k : K) (value : V)
  | remove (k : K)
  | popFront
  | popBack

/-- The table a call leaves: its result, or the table as it was where the call aborts and
the transaction reverts. -/
def orRevert (t : LinkedTable K V) : Except Abort (LinkedTable K V) → LinkedTable K V
  | .ok t' => t'
  | .error _ => t

def Op.apply (t : LinkedTable K V) : Op K V → LinkedTable K V
  | .pushFront k v => orRevert t (t.pushFront k v)
  | .pushBack k v => orRevert t (t.pushBack k v)
  | .remove k => orRevert t (Prod.fst <$> t.remove k)
  | .popFront => orRevert t (Prod.fst <$> t.popFront)
  | .popBack => orRevert t (Prod.fst <$> t.popBack)

/-- The list operation of a call, the list as it was where the call aborts. -/
def Op.applyList (l : List (K × V)) : Op K V → List (K × V)
  | .pushFront k v => (listPushFront l k v).getD l
  | .pushBack k v => (listPushBack l k v).getD l
  | .remove k => ((listRemove l k).map Prod.fst).getD l
  | .popFront => ((listPopFront l).map Prod.fst).getD l
  | .popBack => ((listPopBack l).map Prod.fst).getD l

def runOps (t : LinkedTable K V) (ops : List (Op K V)) : LinkedTable K V :=
  ops.foldl Op.apply t

def runList (l : List (K × V)) (ops : List (Op K V)) : List (K × V) :=
  ops.foldl Op.applyList l

section Runs

variable {t : LinkedTable K V} {l : List (K × V)}

theorem Represents.revert {x : Except Abort (LinkedTable K V)} {o : Option (List (K × V))}
    (h : Represents t l)
    (hx : x.Holds (fun _ => o = none) fun t' => ∃ l', o = some l' ∧ Represents t' l') :
    Represents (orRevert t x) (o.getD l) := by
  cases x with
  | ok t' =>
    obtain ⟨l', rfl, h'⟩ := hx
    exact h'
  | error e =>
    rw [show o = none from hx]
    exact h

/-- The same for a call that also returns a value. -/
theorem Represents.revert_fst {β : Type} {x : Except Abort (LinkedTable K V × β)}
    {o : Option (List (K × V) × β)} (h : Represents t l)
    (hx : x.Holds (fun _ => o = none) fun r => ∃ l', o = some (l', r.2) ∧ Represents r.1 l') :
    Represents (orRevert t (Prod.fst <$> x)) ((o.map Prod.fst).getD l) := by
  cases x with
  | ok r =>
    obtain ⟨l', ho, h'⟩ := hx
    simpa [ho, LinkedTable.orRevert] using h'
  | error e =>
    rw [show o = none from hx]
    exact h

/-- One call: the table it leaves stores what the list operation leaves. -/
theorem Represents.apply (h : Represents t l) (op : Op K V) :
    Represents (op.apply t) (op.applyList l) := by
  cases op with
  | pushFront k v => exact h.revert (h.pushFront k v)
  | pushBack k v => exact h.revert (h.pushBack k v)
  | remove k => exact h.revert_fst (h.remove k)
  | popFront => exact h.revert_fst h.popFront
  | popBack => exact h.revert_fst h.popBack

theorem Represents.runOps (h : Represents t l) (ops : List (Op K V)) :
    Represents (runOps t ops) (runList l ops) := by
  induction ops generalizing t l with
  | nil => exact h
  | cons op ops ih => exact ih (h.apply op)

end Runs

/-- Whatever calls are made on a new table, it stays a well-formed doubly linked list of
the entries their list operations give: following `next` from the head visits every
stored key once and stops at the tail, `prev` walks the same keys back, the ends point
nowhere, the size counts the stored nodes, and each further call places, or splices out,
exactly as its list operation does. -/
theorem runOps_wellFormed (ops : List (Op K V)) :
    let t := runOps new ops
    let l := runList [] ops
    (l.map Prod.fst).Nodup ∧ t.size = l.length ∧
      (∀ x, (t.fields x).isSome ↔ x ∈ l.map Prod.fst) ∧
      (∀ fuel, t.size ≤ fuel → follow Node.next t.fields fuel t.head = l.map Prod.fst) ∧
      (∀ fuel, t.size ≤ fuel →
        follow Node.prev t.fields fuel t.tail = (l.map Prod.fst).reverse) ∧
      t.head = (l.map Prod.fst).head? ∧ t.tail = (l.map Prod.fst).getLast? ∧
      (∀ k n, t.head = some k → t.fields k = some n → n.prev = none) ∧
      (∀ k n, t.tail = some k → t.fields k = some n → n.next = none) ∧
      (t.head = none ↔ t.size = 0) ∧ (t.tail = none ↔ t.size = 0) ∧
      (∀ k v, (t.pushFront k v).Holds (fun _ => listPushFront l k v = none)
        fun t' => ∃ l', listPushFront l k v = some l' ∧ Represents t' l') ∧
      (∀ k v, (t.pushBack k v).Holds (fun _ => listPushBack l k v = none)
        fun t' => ∃ l', listPushBack l k v = some l' ∧ Represents t' l') ∧
      (∀ k, (t.remove k).Holds (fun _ => listRemove l k = none)
        fun r => ∃ l', listRemove l k = some (l', r.2) ∧ Represents r.1 l') ∧
      t.popFront.Holds (fun _ => listPopFront l = none)
        (fun r => ∃ l', listPopFront l = some (l', r.2) ∧ Represents r.1 l') ∧
      t.popBack.Holds (fun _ => listPopBack l = none)
        (fun r => ∃ l', listPopBack l = some (l', r.2) ∧ Represents r.1 l') := by
  intro t l
  have h : Represents t l := represents_new.runOps ops
  refine ⟨h.nodup, h.size_eq, h.isSome_fields_iff, fun fuel hfuel => ?_, fun fuel hfuel => ?_,
    by rw [h.head_eq, List.head?_map], by rw [h.tail_eq, List.getLast?_map],
    fun _ _ => h.head_prev, fun _ _ => h.tail_next, h.head_eq_none_iff, h.tail_eq_none_iff,
    h.pushFront, h.pushBack, h.remove, h.popFront, h.popBack⟩
  · exact h.follow_next (h.size_eq ▸ hfuel)
  · exact h.follow_prev (h.size_eq ▸ hfuel)

example :
    let ops : List (Op Nat Nat) :=
      [.pushBack 1 10, .pushFront 0 5, .pushBack 2 7, .pushFront 0 9, .remove 1]
    let t := runOps new ops
    runList [] ops = [(0, 5), (2, 7)] ∧ follow Node.next t.fields 3 t.head = [0, 2] ∧
      follow Node.prev t.fields 3 t.tail = [2, 0] := by
  decide

end LinkedTable

end Rtd
