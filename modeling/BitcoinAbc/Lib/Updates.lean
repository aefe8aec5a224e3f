import Mathlib

/-!
# A function updated at a list of keys

`Function.updates f l` writes the pairs of `l` into `f` one after the other,
with `Function.update`, so a key written twice keeps its last value. It is the
meaning of a loop that adds or removes one entry of a map per turn.

The lemmas say where a key ends up:

- a key that `l` does not write keeps its value (`updates_apply_of_not_mem`);
- when `l` writes keys that are pairwise distinct, a key keeps the one value
  written for it (`updates_apply_of_mem`);
- when every value written for a key is the value of a fixed function `g`
  there, the key ends with `g`'s value (`updates_apply_of_agree`), which covers
  writing one constant at many keys (`updates_const_apply`);
- every key ends with its old value or with one the list wrote for it
  (`updates_apply_eq_or`).

Two round trips follow: writing a constant at some keys and then the old
values back (`updates_const_updates_self`), and writing a list and then, at its
keys, the constant they held before (`updates_updates_const`).
-/

namespace Function

universe u v

variable {α : Type u} {β : Type v} [DecidableEq α]

/-- `f` with the pairs of `l` written in order. -/
def updates (f : α → β) (l : List (α × β)) : α → β :=
  l.foldl (fun f p => update f p.1 p.2) f

@[simp] theorem updates_nil (f : α → β) : updates f [] = f := rfl

@[simp] theorem updates_cons (f : α → β) (p : α × β) (l : List (α × β)) :
    updates f (p :: l) = updates (update f p.1 p.2) l := rfl

theorem updates_append (f : α → β) (l₁ l₂ : List (α × β)) :
    updates f (l₁ ++ l₂) = updates (updates f l₁) l₂ := by
  simp only [updates, List.foldl_append]

/-- A key that the list does not write keeps its value. -/
theorem updates_apply_of_not_mem {a : α} :
    ∀ {f : α → β} {l : List (α × β)}, a ∉ l.map Prod.fst → updates f l a = f a
  | _, [], _ => rfl
  | f, p :: l, h => by
    have hp : a ≠ p.1 := fun hp => h (hp ▸ List.mem_cons_self)
    have hl : a ∉ l.map Prod.fst := fun hl => h (List.mem_cons_of_mem _ hl)
    rw [updates_cons, updates_apply_of_not_mem hl, update_of_ne hp]

/-- Where every value written is the value of `g` at its key, a written key
ends with `g`'s value. -/
theorem updates_apply_of_agree {g : α → β} (a : α) :
    ∀ {f : α → β} {l : List (α × β)}, (∀ p ∈ l, g p.1 = p.2) →
      updates f l a = if a ∈ l.map Prod.fst then g a else f a
  | f, [], _ => by simp
  | f, p :: l, h => by
    have hp : g p.1 = p.2 := h p List.mem_cons_self
    rw [updates_cons, updates_apply_of_agree a fun q hq => h q (List.mem_cons_of_mem _ hq)]
    by_cases ha : a = p.1
    · subst ha
      simp [hp]
    · rw [update_of_ne ha, List.map_cons]
      simp only [List.mem_cons, ha, false_or]

/-- Writing one value at each of the keys `ks`. -/
theorem updates_const_apply (f : α → β) (ks : List α) (b : β) (a : α) :
    updates f (ks.map fun k => (k, b)) a = if a ∈ ks then b else f a := by
  rw [updates_apply_of_agree (g := fun _ => b) a (by simp)]
  simp

/-- With pairwise distinct keys, each key ends with the one value written for
it. -/
theorem updates_apply_of_mem :
    ∀ {f : α → β} {l : List (α × β)} {p : α × β}, (l.map Prod.fst).Nodup → p ∈ l →
      updates f l p.1 = p.2
  | _, [], _, _, hp => absurd hp List.not_mem_nil
  | f, q :: l, p, hnd, hp => by
    rw [List.map_cons, List.nodup_cons] at hnd
    rw [updates_cons]
    rcases List.mem_cons.mp hp with rfl | hp
    · rw [updates_apply_of_not_mem hnd.1, update_self]
    · exact updates_apply_of_mem hnd.2 hp

/-- Every key ends with its old value or with a value the list wrote for it. -/
theorem updates_apply_eq_or (a : α) :
    ∀ (f : α → β) (l : List (α × β)), updates f l a = f a ∨ (a, updates f l a) ∈ l
  | _, [] => .inl rfl
  | f, p :: l => by
    rw [updates_cons]
    rcases updates_apply_eq_or a (update f p.1 p.2) l with h | h
    · by_cases ha : a = p.1
      · subst ha
        rw [update_self] at h
        rw [h]
        exact .inr List.mem_cons_self
      · rw [update_of_ne ha] at h
        exact .inl h
    · exact .inr (List.mem_cons_of_mem _ h)

/-- Writing a constant at the keys `ks`, then the old values back, gives the
function back. -/
theorem updates_const_updates_self (f : α → β) (ks : List α) (b : β) :
    updates (updates f (ks.map fun k => (k, b))) (ks.map fun k => (k, f k)) = f := by
  funext a
  rw [updates_apply_of_agree (g := f) a (by simp)]
  split
  · rfl
  · rename_i ha
    rw [updates_const_apply, if_neg (by simpa using ha)]

/-- Writing the pairs of `l`, then at their keys the constant they held, gives
the function back. -/
theorem updates_updates_const (f : α → β) (l : List (α × β)) (b : β)
    (hb : ∀ k ∈ l.map Prod.fst, f k = b) :
    updates (updates f l) (l.map fun p => (p.1, b)) = f := by
  funext a
  have hmap : (l.map fun p => (p.1, b)) = (l.map Prod.fst).map fun k => (k, b) := by
    rw [List.map_map]
    rfl
  rw [hmap, updates_const_apply]
  split
  · rename_i ha
    exact (hb a ha).symm
  · rename_i ha
    exact updates_apply_of_not_mem ha

end Function
