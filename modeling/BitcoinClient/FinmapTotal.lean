/-
**Sums over a finite map.**

The total of a weight over the values of a finite map, and what inserting an entry does to it.
The weight at a key without an entry counts as zero, so the two cases of an insertion (a new key
and a key that is already there) are one equation.

Main definitions:

* `Finmap.weightAt`, `Finmap.total` — the weight at a key, and the sum of all weights.

Main results:

* `Finmap.total_insert` — inserting an entry adds its weight and takes away the weight that was
  at its key.
-/

import Mathlib.Data.Finmap
import Mathlib.Algebra.Order.BigOperators.Group.Multiset
import Mathlib.Tactic.Common

set_option relaxedAutoImplicit false
set_option autoImplicit false

universe u v

namespace Finmap

variable {α : Type u} {β : Type v}

/-- The sum of the weights of all values. -/
def total (w : β → ℕ) (s : Finmap fun _ : α => β) : ℕ :=
  (s.entries.map fun p => w p.2).sum

@[simp] theorem total_empty (w : β → ℕ) : total w (∅ : Finmap fun _ : α => β) = 0 := rfl

variable [DecidableEq α]

/-- The weight of the value at `a`, zero when there is none. -/
def weightAt (w : β → ℕ) (a : α) (s : Finmap fun _ : α => β) : ℕ :=
  match s.lookup a with
  | none => 0
  | some b => w b

variable {w : β → ℕ} {s : Finmap fun _ : α => β} {a : α} {b : β}

theorem weightAt_of_lookup (h : s.lookup a = some b) : weightAt w a s = w b := by
  rw [weightAt, h]

theorem weightAt_of_notMem (h : a ∉ s) : weightAt w a s = 0 := by
  rw [weightAt, lookup_eq_none.2 h]

theorem weightAt_insert (w : β → ℕ) (s : Finmap fun _ : α => β) (a x : α) (b : β) :
    weightAt w x (s.insert a b) = if x = a then w b else weightAt w x s := by
  by_cases hx : x = a
  · rw [if_pos hx, hx]
    exact weightAt_of_lookup (lookup_insert s)
  · rw [if_neg hx, weightAt, lookup_insert_of_ne _ hx, ← weightAt]

theorem total_insert_of_notMem (h : a ∉ s) : total w (s.insert a b) = w b + total w s := by
  rw [total, total, entries_insert_of_notMem h, Multiset.map_cons, Multiset.sum_cons]

/-- Putting back an erased entry. -/
theorem insert_erase_of_lookup (h : s.lookup a = some b) : (s.erase a).insert a b = s := by
  refine ext_lookup fun x => ?_
  by_cases hx : x = a
  · rw [hx, lookup_insert, h]
  · rw [lookup_insert_of_ne _ hx, lookup_erase_ne hx]

theorem insert_erase (s : Finmap fun _ : α => β) (a : α) (b : β) :
    (s.erase a).insert a b = s.insert a b := by
  refine ext_lookup fun x => ?_
  by_cases hx : x = a
  · rw [hx, lookup_insert, lookup_insert]
  · rw [lookup_insert_of_ne _ hx, lookup_insert_of_ne _ hx, lookup_erase_ne hx]

theorem total_erase_add (w : β → ℕ) (s : Finmap fun _ : α => β) (a : α) :
    total w (s.erase a) + weightAt w a s = total w s := by
  cases h : s.lookup a with
  | none =>
      have hmem : a ∉ s := lookup_eq_none.1 h
      have herase : s.erase a = s := by
        refine ext_lookup fun x => ?_
        by_cases hx : x = a
        · rw [hx, lookup_erase, h]
        · rw [lookup_erase_ne hx]
      rw [herase, weightAt_of_notMem hmem, Nat.add_zero]
  | some c =>
      have hback := total_insert_of_notMem (w := w) (b := c) (notMem_erase_self (a := a) (s := s))
      rw [insert_erase_of_lookup h] at hback
      rw [weightAt_of_lookup h, hback, Nat.add_comm]

/-- **Inserting an entry**: its weight comes in, the weight at its key goes out. -/
theorem total_insert (w : β → ℕ) (s : Finmap fun _ : α => β) (a : α) (b : β) :
    total w (s.insert a b) + weightAt w a s = total w s + w b := by
  have hins := total_insert_of_notMem (w := w) (b := b) (notMem_erase_self (a := a) (s := s))
  rw [insert_erase] at hins
  have herase := total_erase_add w s a
  omega

end Finmap
