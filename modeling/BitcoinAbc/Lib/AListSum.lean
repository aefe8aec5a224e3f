import Mathlib

/-!
# Sums over the values of an association list

A container that keeps a running total of some weight of its values (a memory
usage, a size) is correct when the total equals the sum of the weights over
its current contents. `AList.sumBy` is that sum for an association list, and
`sumBy_insert` / `sumBy_erase` say how inserting and erasing one key change
it: the old value of the key, if there was one, leaves the sum.
-/

namespace AList

universe u v

variable {α : Type u} {V : Type v} [DecidableEq α] (f : V → Nat)

/-- The sum of `f` over the values of `s`. -/
def sumBy (s : AList fun _ : α => V) : Nat := (s.entries.map fun e => f e.2).sum

omit [DecidableEq α] in
@[simp] theorem sumBy_empty : sumBy f (∅ : AList fun _ : α => V) = 0 := rfl

/-- Removing the first entry of a key takes exactly its value out of the sum. -/
theorem sum_kerase (a : α) :
    ∀ l : List (Sigma fun _ : α => V),
      ((l.kerase a).map fun e => f e.2).sum + ((l.dlookup a).map f).getD 0 =
        (l.map fun e => f e.2).sum
  | [] => rfl
  | ⟨a', b⟩ :: l => by
    by_cases h : a = a'
    · subst h
      rw [List.kerase_cons_eq (β := fun _ => V) (s := ⟨a, b⟩) rfl]
      simp only [List.dlookup_cons_eq, Option.map_some, Option.getD_some, List.map_cons,
        List.sum_cons]
      omega
    · have ih := sum_kerase a l
      rw [List.kerase_cons_ne (β := fun _ => V) (s := ⟨a', b⟩) h,
        List.dlookup_cons_ne (β := fun _ => V) l ⟨a', b⟩ h]
      simp only [List.map_cons, List.sum_cons]
      omega

theorem sumBy_erase (a : α) (s : AList fun _ : α => V) :
    sumBy f (s.erase a) + ((s.lookup a).map f).getD 0 = sumBy f s :=
  sum_kerase f a s.entries

theorem sumBy_insert (a : α) (b : V) (s : AList fun _ : α => V) :
    sumBy f (s.insert a b) + ((s.lookup a).map f).getD 0 = f b + sumBy f s := by
  have h := sum_kerase f a s.entries
  simp only [sumBy, entries_insert, List.map_cons, List.sum_cons]
  unfold lookup at *
  omega

end AList
