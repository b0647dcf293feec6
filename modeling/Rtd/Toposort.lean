import Mathlib

/-!
The two ingredients of a deterministic topological sort: an acyclic dependency
relation, and the ascending list without repeats that an ordered set or the keys of an
ordered map enumerate, which depends only on the elements.
-/

set_option autoImplicit false

namespace Toposort

open Relation

section Acyclic

variable {α : Type*} {R S : α → α → Prop}

/-- No element reaches itself through one or more steps of the relation. -/
def Acyclic (R : α → α → Prop) : Prop := ∀ a, ¬ TransGen R a a

theorem Acyclic.mono (hS : Acyclic S) (h : ∀ a b, R a b → S a b) : Acyclic R :=
  fun a ha => hS a (TransGen.mono h a a ha)

theorem Acyclic.irrefl (hR : Acyclic R) (a : α) : ¬ R a a :=
  fun h => hR a (.single h)

/-- A step back to the start of a path closes a cycle. -/
theorem Acyclic.not_rel_of_reflTransGen (hR : Acyclic R) {a b : α}
    (hab : ReflTransGen R a b) : ¬ R b a :=
  fun hba => hR a (TransGen.tail' hab hba)

theorem acyclic_of_rank (f : α → ℕ) (h : ∀ a b, R a b → f b < f a) : Acyclic R := by
  have hlt : ∀ a b, TransGen R a b → f b < f a := by
    intro a b hab
    induction hab with
    | single hab => exact h _ _ hab
    | tail _ hbc ih => exact (h _ _ hbc).trans ih
  exact fun a ha => lt_irrefl _ (hlt a a ha)

end Acyclic

section SortedSet

variable {α : Type*} [LinearOrder α]

/-- The elements of a list in ascending order, each once: how an ordered set built from
the list enumerates it. -/
def sortedSet (l : List α) : List α := l.dedup.insertionSort (· ≤ ·)

@[simp] theorem mem_sortedSet {l : List α} {a : α} : a ∈ sortedSet l ↔ a ∈ l := by
  simp [sortedSet, List.mem_insertionSort]

theorem nodup_sortedSet (l : List α) : (sortedSet l).Nodup :=
  (List.perm_insertionSort _ _).nodup_iff.mpr (List.nodup_dedup l)

theorem sortedLT_sortedSet (l : List α) : (sortedSet l).SortedLT :=
  List.sortedLE_insertionSort.sortedLT_of_nodup (nodup_sortedSet l)

theorem sortedSet_eq_of_mem_iff {l l' : List α} (h : ∀ a, a ∈ l ↔ a ∈ l') :
    sortedSet l = sortedSet l' :=
  (sortedLT_sortedSet l).eq_of_mem_iff (sortedLT_sortedSet l') (by simpa using h)

end SortedSet

end Toposort
