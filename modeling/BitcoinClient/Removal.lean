/-
**Removing positions one by one.**

A list of positions is removed from a list by removing the first one, then the second one from what is left,
and so on.  The positions are meant as positions in the list as it was, so this is right only when no removal
moves what is still to be removed: when the positions decrease.

It is wrong in all other cases.  What is removed at a position of the list that is left stood at this
position or behind it, and behind it when something before it is gone; so a removal that goes wrong takes
away a later element than it should, and no other one makes up for it.

Main definitions:

* `Removal.eraseAll` — removing positions one by one.

Main results:

* `Removal.eraseAll_decreasing` — decreasing positions;
* `Removal.sum_eraseAll_le` — what is removed stood at the positions or behind them;
* `Removal.eraseAll_range_iff` — **the positions kept are the others exactly if the positions decrease**.
-/

import Mathlib.Algebra.BigOperators.Group.List.Basic
import Mathlib.Algebra.GroupWithZero.Nat
import Mathlib.Algebra.Order.BigOperators.Group.List
import Mathlib.Data.List.Nodup
import Mathlib.Data.List.Range
import Mathlib.Data.List.Perm.Basic
import Mathlib.Tactic.Common

set_option relaxedAutoImplicit false
set_option autoImplicit false

universe u v

namespace Removal

variable {α : Type u} {β : Type v}

/-- Removing positions one by one, each from what is left. -/
def eraseAll : List ℕ → List α → List α
  | [], l => l
  | i :: idxs, l => eraseAll idxs (l.eraseIdx i)

theorem eraseAll_map (f : α → β) : ∀ (idxs : List ℕ) (l : List α),
    eraseAll idxs (l.map f) = (eraseAll idxs l).map f := by
  intro idxs
  induction idxs with
  | nil => intro l; rfl
  | cons i idxs ih =>
      intro l
      rw [eraseAll, eraseAll, ← ih, List.eraseIdx_map]

/-- What is kept, by its positions in the list. -/
theorem map_some_eraseAll (idxs : List ℕ) (l : List α) :
    (eraseAll idxs l).map some = (eraseAll idxs (List.range l.length)).map (l[·]?) := by
  have hl : l.map some = (List.range l.length).map (l[·]?) := by
    refine List.ext_getElem (by simp) fun i hi hi' => ?_
    simp at hi
    simp [hi]
  rw [← eraseAll_map, hl, eraseAll_map]

/-- At most one element is lost at each position. -/
theorem length_le_eraseAll : ∀ (idxs : List ℕ) (l : List α),
    l.length ≤ (eraseAll idxs l).length + idxs.length := by
  intro idxs
  induction idxs with
  | nil => intro l; rfl
  | cons i idxs ih =>
      intro l
      have hrest := ih (l.eraseIdx i)
      have hone : l.length ≤ (l.eraseIdx i).length + 1 := by
        rw [List.length_eraseIdx]
        split <;> omega
      rw [eraseAll, List.length_cons]
      omega

/-! ### Decreasing positions -/

/-- **Decreasing positions** are removed as they are meant. -/
theorem eraseAll_decreasing : ∀ (idxs : List ℕ) (n : ℕ), (∀ i ∈ idxs, i < n) →
    idxs.Pairwise (fun i j => j < i) →
      ∀ rest : List ℕ, (∀ k ∈ rest, n ≤ k) → eraseAll idxs (List.range n ++ rest) =
        (List.range n ++ rest).filter (· ∉ idxs) := by
  intro idxs
  induction idxs with
  | nil => intro n _ _ rest _; simp [eraseAll]
  | cons i idxs ih =>
      intro n hlt hdec rest hrest
      obtain ⟨hhead, hdec⟩ := List.pairwise_cons.1 hdec
      obtain ⟨d, rfl⟩ := Nat.exists_eq_add_of_lt (hlt i (List.mem_cons_self ..))
      -- what stands behind the first position
      obtain ⟨rest', hsplit, hrest'⟩ : ∃ rest', List.range (i + d + 1) ++ rest =
          List.range i ++ i :: rest' ∧ ∀ k ∈ rest', i < k := by
        refine ⟨(List.range d).map (i + 1 + ·) ++ rest, ?_, ?_⟩
        · rw [Nat.add_right_comm, List.range_add, List.range_succ, List.append_assoc,
            List.append_assoc, List.singleton_append]
        · intro k hk
          rcases List.mem_append.1 hk with hk | hk
          · obtain ⟨j, -, rfl⟩ := List.mem_map.1 hk
            omega
          · have hle := hrest k hk
            omega
      rw [hsplit, eraseAll, List.eraseIdx_append_of_length_le (by rw [List.length_range]),
        List.length_range, Nat.sub_self, List.eraseIdx_zero, List.tail_cons,
        ih i hhead hdec rest' fun k hk => (hrest' k hk).le, List.filter_append, List.filter_append,
        List.filter_cons_of_neg (by simp)]
      refine congrArg₂ _ (List.filter_congr fun k hk => ?_) (List.filter_congr fun k hk => ?_)
      · have hne : k ≠ i := Nat.ne_of_lt (List.mem_range.1 hk)
        simp [hne]
      · have hne : k ≠ i := Nat.ne_of_gt (hrest' k hk)
        simp [hne]

/-! ### What is removed -/

/-- An increasing list of numbers from `b` on: the `i`-th one is at least `b + i`, and when it is `b + i`
no number from `b` to it is missing. -/
theorem le_of_getElem? : ∀ {l : List ℕ} {b : ℕ}, l.Pairwise (· < ·) → (∀ k ∈ l, b ≤ k) →
    ∀ {i x : ℕ}, l[i]? = some x → b + i ≤ x ∧ (x = b + i → ∀ k, b ≤ k → k ≤ x → k ∈ l) := by
  intro l
  induction l with
  | nil => intro b _ _ i x hx; simp at hx
  | cons a l ih =>
      intro b hinc hb i x hx
      obtain ⟨hhead, hinc⟩ := List.pairwise_cons.1 hinc
      have hba := hb a (List.mem_cons_self ..)
      cases i with
      | zero =>
          rw [List.getElem?_cons_zero, Option.some_inj] at hx
          subst hx
          refine ⟨hba, fun heq k hbk hka => ?_⟩
          have hk : k = a := by omega
          rw [hk]
          exact List.mem_cons_self ..
      | succ i =>
          rw [List.getElem?_cons_succ] at hx
          obtain ⟨hle, hall⟩ := ih (b := a + 1) hinc hhead hx
          refine ⟨by omega, fun heq k hbk hkx => ?_⟩
          have hab : a = b := by omega
          rcases Nat.eq_or_lt_of_le hbk with rfl | hlt
          · rw [hab]
            exact List.mem_cons_self ..
          · exact List.mem_cons_of_mem _ (hall (by omega) k (by omega) hkx)

theorem sum_eraseIdx {l : List ℕ} {i x : ℕ} (hx : l[i]? = some x) :
    (l.eraseIdx i).sum + x = l.sum := by
  obtain ⟨hi, rfl⟩ := List.getElem?_eq_some_iff.1 hx
  have hsplit : l.sum = (l.take i ++ l[i] :: l.drop (i + 1)).sum := by
    rw [List.getElem_cons_drop, List.take_append_drop]
  rw [hsplit, List.eraseIdx_eq_take_drop_succ, List.sum_append, List.sum_append, List.sum_cons]
  omega

/-- The positions are within what is left, one after the other. -/
theorem lt_of_length_eraseAll {i : ℕ} {idxs : List ℕ} {l : List α}
    (h : (eraseAll (i :: idxs) l).length + (i :: idxs).length = l.length) :
    i < l.length ∧ (eraseAll idxs (l.eraseIdx i)).length + idxs.length = (l.eraseIdx i).length := by
  have hrest := length_le_eraseAll idxs (l.eraseIdx i)
  rw [eraseAll, List.length_cons] at h
  rw [List.length_eraseIdx] at hrest ⊢
  split at hrest
  · rename_i hi
    rw [if_pos hi]
    exact ⟨hi, by omega⟩
  · omega

/-- After decreasing positions are removed, what is left stood at another position. -/
theorem exists_of_mem_eraseAll {idxs : List ℕ} {l : List α} (hdec : idxs.Pairwise fun i j => j < i)
    (hlen : (eraseAll idxs l).length + idxs.length = l.length) {z : α} (hz : z ∈ eraseAll idxs l) :
    ∃ j, l[j]? = some z ∧ j ∉ idxs := by
  have hlt : ∀ i ∈ idxs, i < l.length := by
    cases idxs with
    | nil => exact fun i hi => absurd hi List.not_mem_nil
    | cons i idxs =>
        have hi := (lt_of_length_eraseAll hlen).1
        intro j hj
        rcases List.mem_cons.1 hj with rfl | hj
        · exact hi
        · exact ((List.pairwise_cons.1 hdec).1 j hj).trans hi
  have hkept := eraseAll_decreasing idxs l.length hlt hdec [] fun k hk => absurd hk List.not_mem_nil
  rw [List.append_nil] at hkept
  have hsome : some z ∈ (eraseAll idxs l).map some := List.mem_map_of_mem hz
  rw [map_some_eraseAll, hkept] at hsome
  obtain ⟨j, hj, hjz⟩ := List.mem_map.1 hsome
  exact ⟨j, hjz, by simpa using (List.mem_filter.1 hj).2⟩

/-- **What is removed stood at the positions or behind them.** -/
theorem sum_eraseAll_le : ∀ (idxs l : List ℕ), l.Pairwise (· < ·) →
    (eraseAll idxs l).length + idxs.length = l.length → (eraseAll idxs l).sum + idxs.sum ≤ l.sum := by
  intro idxs
  induction idxs with
  | nil => intro l _ _; simp [eraseAll]
  | cons i idxs ih =>
      intro l hinc hlen
      obtain ⟨hi, hlen⟩ := lt_of_length_eraseAll hlen
      have hx := List.getElem?_eq_getElem hi
      have hle := (le_of_getElem? hinc (fun _ _ => Nat.zero_le _) hx).1
      have hsum := sum_eraseIdx hx
      have hrest := ih (l.eraseIdx i) (hinc.sublist (List.eraseIdx_sublist l i)) hlen
      rw [eraseAll, List.sum_cons]
      omega

/-- When it stood at the positions, these decrease, and no number up to one of them is missing. -/
theorem decreasing_of_sum_eraseAll : ∀ (idxs l : List ℕ), l.Pairwise (· < ·) →
    (eraseAll idxs l).length + idxs.length = l.length → l.sum ≤ (eraseAll idxs l).sum + idxs.sum →
      idxs.Pairwise (fun i j => j < i) ∧ ∀ t ∈ idxs, ∀ k ≤ t, k ∈ l := by
  intro idxs
  induction idxs with
  | nil => intro l _ _ _; simp
  | cons i idxs ih =>
      intro l hinc hlen hsum
      obtain ⟨hi, hlen⟩ := lt_of_length_eraseAll hlen
      have hx := List.getElem?_eq_getElem hi
      obtain ⟨hle, hall⟩ := le_of_getElem? hinc (fun _ _ => Nat.zero_le _) hx
      have hone := sum_eraseIdx hx
      have hinc' := hinc.sublist (List.eraseIdx_sublist l i)
      have hrest := sum_eraseAll_le idxs (l.eraseIdx i) hinc' hlen
      rw [eraseAll, List.sum_cons] at hsum
      have hxi : l[i] = i := by omega
      obtain ⟨hdec, hmem⟩ := ih (l.eraseIdx i) hinc' hlen (by omega)
      -- the first position is gone, so the later ones are before it
      have hgone : i ∉ l.eraseIdx i := by
        have hnodup : (l.take i ++ l[i] :: l.drop (i + 1)).Nodup := by
          rw [List.getElem_cons_drop, List.take_append_drop]
          exact hinc.imp Nat.ne_of_lt
        rw [hxi, List.nodup_middle, List.nodup_cons] at hnodup
        rw [List.eraseIdx_eq_take_drop_succ]
        exact hnodup.1
      refine ⟨List.pairwise_cons.2 ⟨fun t ht => ?_, hdec⟩, ?_⟩
      · by_contra hge
        exact hgone (hmem t ht i (Nat.not_lt.1 hge))
      · intro t ht k hk
        rcases List.mem_cons.1 ht with rfl | ht
        · exact hall (by omega) k (Nat.zero_le k) (by omega)
        · exact (List.eraseIdx_sublist l i).subset (hmem t ht k hk)

/-- **The positions kept are the others exactly if the positions decrease.** -/
theorem eraseAll_range_iff {idxs : List ℕ} {n : ℕ} (hnodup : idxs.Nodup)
    (hlt : ∀ i ∈ idxs, i < n) :
    eraseAll idxs (List.range n) = (List.range n).filter (· ∉ idxs) ↔
      idxs.Pairwise (fun i j => j < i) := by
  constructor
  · intro h
    have hperm : (List.range n).Perm ((List.range n).filter (· ∉ idxs) ++ idxs) := by
      have hin : ((List.range n).filter fun k => !decide (k ∉ idxs)).Perm idxs := by
        refine (List.perm_ext_iff_of_nodup (List.nodup_range.filter _) hnodup).2 fun k => ?_
        simp only [List.mem_filter, List.mem_range, Bool.not_eq_true', decide_eq_false_iff_not,
          not_not, and_iff_right_iff_imp]
        exact hlt k
      exact (List.filter_append_perm _ _).symm.trans (hin.append_left _)
    have hlen := hperm.length_eq
    have hsum := hperm.sum_eq
    rw [← h, List.length_append] at hlen
    rw [← h, List.sum_append] at hsum
    exact (decreasing_of_sum_eraseAll idxs _ List.pairwise_lt_range hlen.symm hsum.le).1
  · intro h
    have hkept := eraseAll_decreasing idxs n hlt h [] (by simp)
    rwa [List.append_nil] at hkept

end Removal
