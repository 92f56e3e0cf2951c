/-
**Trees built level by level.**

A list is the lowest level.  A level is paired off from the left: two neighbours are joined, and a last
element without a neighbour is made into an element of the next level on its own.  The levels end at one
element, the top.

With concatenation as the join, and with a doubled list for a last one that stands alone, the top of the
singletons is a list whose length is a power of two.  What a join of values commits to is this list: two
complete trees of any heights whose values are equal have the same leaves, as long as the pairs that are
joined in them do not collide and no leaf is a joined pair.

Main definitions:

* `Levels.up`, `Levels.top` — the level above, and the element at the top;
* `Levels.Perfect` — the value of the complete tree over a list of leaves.

Main results:

* `Levels.top_eq_some` — the top exists;
* `Levels.top_rel` — **the induction rule**: a relation between elements that joins preserve holds between
  the tops;
* `Levels.top_forall` — the same for a property of the elements;
* `Levels.flatMap_top` — a list that the joins concatenate is kept from the lowest level to the top;
* `Levels.prefix_top` — concatenating keeps the leaves at the front;
* `Levels.Perfect.unique`, `Levels.Perfect.injective` — **leaves and value determine each other**.
-/

import Mathlib.Algebra.Ring.Nat
import Mathlib.Data.List.Forall2
import Mathlib.Data.Nat.Log
import Mathlib.Data.Set.Function
import Mathlib.Tactic.Common

set_option relaxedAutoImplicit false
set_option autoImplicit false

universe u v

namespace Levels

variable {α : Type u} {β : Type v}

/-! ### The levels -/

section

variable (join : α → α → α) (single : α → α)

/-- The level above. -/
def up : List α → List α
  | [] => []
  | [x] => [single x]
  | x :: y :: rest => join x y :: up rest

/-- The element at the top, in at most `fuel` rounds. -/
def top : ℕ → List α → Option α
  | 0, _ => none
  | fuel + 1, xs => if xs.length > 1 then top fuel (up join single xs) else xs.getLast?

theorem length_up (xs : List α) : (up join single xs).length = (xs.length + 1) / 2 := by
  induction xs using up.induct with
  | case1 => simp [up]
  | case2 x => simp [up]
  | case3 x y rest ih =>
      simp only [up, List.length_cons, ih]
      omega

/-- **The top exists**, since every level is shorter than the one below. -/
theorem top_eq_some : ∀ (fuel : ℕ) (xs : List α), xs ≠ [] → xs.length < fuel →
    ∃ x, top join single fuel xs = some x := by
  intro fuel
  induction fuel with
  | zero => intro xs _ hlt; omega
  | succ fuel ih =>
      intro xs hne hlt
      have hpos : 0 < xs.length := List.length_pos_iff.2 hne
      have hup := length_up join single xs
      unfold top
      split
      · refine ih _ ?_ (by omega)
        rw [← List.length_pos_iff]
        omega
      · exact ⟨xs.getLast hne, List.getLast?_eq_some_getLast hne⟩

end

/-- What the top of a level is: that of the level above, or the only element. -/
theorem top_cases {join : α → α → α} {single : α → α} {fuel : ℕ} {xs : List α} {x : α}
    (h : top join single (fuel + 1) xs = some x) :
    (1 < xs.length ∧ top join single fuel (up join single xs) = some x) ∨ xs = [x] := by
  unfold top at h
  split at h
  · rename_i hgt
    exact Or.inl ⟨hgt, h⟩
  · rename_i hle
    obtain ⟨ys, rfl⟩ := List.getLast?_eq_some_iff.1 h
    rw [List.length_append, List.length_singleton] at hle
    have hnil : ys.length = 0 := by omega
    rw [List.length_eq_zero_iff.1 hnil]
    exact Or.inr rfl

/-! ### Two lists of levels side by side -/

section

variable {join : α → α → α} {single : α → α} {join' : β → β → β} {single' : β → β}

/-- The relation holds on the level above. -/
theorem forall₂_up {R R' : α → β → Prop}
    (hjoin : ∀ x y x' y', R x x' → R y y' → R' (join x y) (join' x' y'))
    (hsingle : ∀ x x', R x x' → R' (single x) (single' x')) (xs : List α) :
    ∀ ys : List β, List.Forall₂ R xs ys →
      List.Forall₂ R' (up join single xs) (up join' single' ys) := by
  induction xs using up.induct with
  | case1 =>
      intro ys h
      rw [List.forall₂_nil_left_iff.1 h]
      exact List.Forall₂.nil
  | case2 x =>
      intro ys h
      obtain ⟨x', _, hx, hrest, rfl⟩ := List.forall₂_cons_left_iff.1 h
      rw [List.forall₂_nil_left_iff.1 hrest]
      exact List.Forall₂.cons (hsingle x x' hx) List.Forall₂.nil
  | case3 x y rest ih =>
      intro ys h
      obtain ⟨x', _, hx, htail, rfl⟩ := List.forall₂_cons_left_iff.1 h
      obtain ⟨y', rest', hy, hrest, rfl⟩ := List.forall₂_cons_left_iff.1 htail
      exact List.Forall₂.cons (hjoin x y x' y' hx hy) (ih rest' hrest)

/-- **The induction rule.**  A relation, which may depend on the level, that holds on the lowest level and
is preserved by the joins holds between the tops, which are as high as it takes to halve the level down to
one element. -/
theorem top_rel {R : ℕ → α → β → Prop}
    (hjoin : ∀ j x y x' y', R j x x' → R j y y' → R (j + 1) (join x y) (join' x' y'))
    (hsingle : ∀ j x x', R j x x' → R (j + 1) (single x) (single' x')) :
    ∀ (fuel j : ℕ) (xs : List α) (ys : List β), List.Forall₂ (R j) xs ys →
      ∀ {x x'}, top join single fuel xs = some x → top join' single' fuel ys = some x' →
        R (j + Nat.clog 2 xs.length) x x' := by
  intro fuel
  induction fuel with
  | zero => intro j xs ys _ x x' hx; cases hx
  | succ fuel ih =>
      intro j xs ys h x x' hx hx'
      have hlen := h.length_eq
      rcases top_cases hx with ⟨hgt, hx⟩ | rfl
      · rcases top_cases hx' with ⟨-, hx'⟩ | rfl
        · have htop := ih (j + 1) _ _ (forall₂_up (hjoin j) (hsingle j) xs ys h) hx hx'
          have hclog : Nat.clog 2 xs.length = Nat.clog 2 ((xs.length + 1) / 2) + 1 :=
            Nat.clog_of_two_le Nat.one_lt_two hgt
          rwa [length_up, Nat.add_right_comm, Nat.add_assoc, ← hclog] at htop
        · rw [List.length_singleton] at hlen
          omega
      · rcases top_cases hx' with ⟨hgt, -⟩ | rfl
        · rw [List.length_singleton] at hlen
          omega
        · -- one element on both sides
          rw [List.length_singleton, Nat.clog_one_right, Nat.add_zero]
          exact (List.forall₂_cons.1 h).1

/-- A property of all elements that the joins preserve holds of the top. -/
theorem top_forall {P : α → Prop} (hjoin : ∀ x y, P x → P y → P (join x y))
    (hsingle : ∀ x, P x → P (single x)) {fuel : ℕ} {xs : List α} (h : ∀ x ∈ xs, P x) {x : α}
    (htop : top join single fuel xs = some x) : P x := by
  have hlevel : List.Forall₂ (fun x _ => P x) xs xs := List.forall₂_same.2 h
  exact top_rel (R := fun _ x _ => P x) (fun _ x y _ _ => hjoin x y) (fun _ x _ => hsingle x) fuel 0
    xs xs hlevel htop htop

end

/-! ### Concatenating the leaves -/

section

variable {join : α → α → α} {single : α → α} {f : α → List β}

/-- A list that the joins concatenate, and that an element that stands alone keeps, is the same on every
level when read from the left. -/
theorem flatMap_up (hjoin : ∀ x y, f (join x y) = f x ++ f y) (hsingle : ∀ x, f (single x) = f x)
    (xs : List α) : (up join single xs).flatMap f = xs.flatMap f := by
  induction xs using up.induct with
  | case1 => rfl
  | case2 x => rw [up, List.flatMap_singleton, List.flatMap_singleton, hsingle]
  | case3 x y rest ih =>
      rw [up, List.flatMap_cons, List.flatMap_cons, List.flatMap_cons, hjoin, ih, List.append_assoc]

/-- **Such a list is at the top that of the lowest level.** -/
theorem flatMap_top (hjoin : ∀ x y, f (join x y) = f x ++ f y) (hsingle : ∀ x, f (single x) = f x) :
    ∀ (fuel : ℕ) (xs : List α) {x : α}, top join single fuel xs = some x → f x = xs.flatMap f := by
  intro fuel
  induction fuel with
  | zero => intro xs x h; cases h
  | succ fuel ih =>
      intro xs x h
      rcases top_cases h with ⟨-, h⟩ | rfl
      · rw [ih _ h, flatMap_up hjoin hsingle]
      · rw [List.flatMap_singleton]

end

/-- The leaves of a level stand at the front of the leaves of the level above. -/
theorem prefix_flatten_up (ls : List (List α)) :
    ls.flatten <+: (up (· ++ ·) (fun l => l ++ l) ls).flatten := by
  induction ls using up.induct with
  | case1 => exact List.prefix_refl _
  | case2 l => simp [up]
  | case3 l l' rest ih =>
      simp only [up, List.flatten_cons, ← List.append_assoc]
      exact (List.prefix_append_right_inj _).2 ih

/-- **Concatenating keeps the leaves at the front.** -/
theorem prefix_top : ∀ (fuel : ℕ) (ls : List (List α)) {l : List α},
    top (· ++ ·) (fun l => l ++ l) fuel ls = some l → ls.flatten <+: l := by
  intro fuel
  induction fuel with
  | zero => intro ls l h; cases h
  | succ fuel ih =>
      intro ls l h
      rcases top_cases h with ⟨-, h⟩ | rfl
      · exact (prefix_flatten_up ls).trans (ih _ h)
      · exact ⟨[], by rw [List.append_nil, List.flatten_singleton]⟩

/-! ### Complete trees -/

section

variable {join : α → α → α} {joined : Set (α × α)}

/-- The complete tree of the height `k` over a list of leaves has the value `x`; the pairs that are joined
in it are in `joined`. -/
inductive Perfect (join : α → α → α) (joined : Set (α × α)) : ℕ → List α → α → Prop
  | leaf (x : α) : Perfect join joined 0 [x] x
  | node {k : ℕ} {xs ys : List α} {x y : α} : Perfect join joined k xs x →
      Perfect join joined k ys y → (x, y) ∈ joined →
        Perfect join joined (k + 1) (xs ++ ys) (join x y)

namespace Perfect

theorem length_eq {k : ℕ} {xs : List α} {x : α} (h : Perfect join joined k xs x) :
    xs.length = 2 ^ k := by
  induction h with
  | leaf x => rfl
  | node _ _ _ ihx ihy =>
      rw [List.length_append, ihx, ihy, Nat.pow_succ]
      omega

theorem mono {joined' : Set (α × α)} (hsub : joined ⊆ joined') {k : ℕ} {xs : List α} {x : α}
    (h : Perfect join joined k xs x) : Perfect join joined' k xs x := by
  induction h with
  | leaf x => exact leaf x
  | node _ _ hmem ihx ihy => exact node ihx ihy (hsub hmem)

/-- **The leaves determine the value.** -/
theorem unique {k : ℕ} {xs : List α} {x : α} (h : Perfect join joined k xs x) :
    ∀ {k' : ℕ} {xs' : List α} {x' : α}, Perfect join joined k' xs' x' → xs = xs' → x = x' := by
  induction h with
  | leaf x =>
      intro k' xs' x' h' heq
      cases h' with
      | leaf x' => exact List.singleton_inj.1 heq
      | @node k _ _ _ _ hl hr _ =>
          have hlen := congrArg List.length heq
          have hpos : 0 < 2 ^ k := Nat.two_pow_pos k
          rw [List.length_append, hl.length_eq, hr.length_eq, List.length_singleton] at hlen
          omega
  | @node k _ _ _ _ hl hr _ ihl ihr =>
      intro k' xs' x' h' heq
      have hlen := congrArg List.length heq
      have hpos : 0 < 2 ^ k := Nat.two_pow_pos k
      rw [List.length_append, hl.length_eq, hr.length_eq] at hlen
      cases h' with
      | leaf x' =>
          rw [List.length_singleton] at hlen
          omega
      | node hl' hr' _ =>
          -- both lists split in the middle
          rw [List.length_append, hl'.length_eq, hr'.length_eq] at hlen
          have hhalf := List.append_inj heq (by rw [hl.length_eq, hl'.length_eq]; omega)
          rw [ihl hl' hhalf.1, ihr hr' hhalf.2]

/-- **The value determines the leaves**, of trees of any heights, when the pairs that are joined do not
collide and no leaf is a joined pair. -/
theorem injective (hinj : Set.InjOn (Function.uncurry join) joined) {k : ℕ} {xs : List α} {x : α}
    (h : Perfect join joined k xs x) (hleaf : ∀ z ∈ xs, ∀ p ∈ joined, z ≠ Function.uncurry join p) :
    ∀ {k' : ℕ} {xs' : List α} {x' : α}, Perfect join joined k' xs' x' →
      (∀ z ∈ xs', ∀ p ∈ joined, z ≠ Function.uncurry join p) → x = x' → xs = xs' := by
  induction h with
  | leaf x =>
      intro k' xs' x' h' _ heq
      cases h' with
      | leaf x' => rw [heq]
      | node _ _ hmem => exact absurd heq (hleaf x (List.mem_singleton_self x) _ hmem)
  | node _ _ hmem ihl ihr =>
      intro k' xs' x' h' hleaf' heq
      cases h' with
      | leaf x' => exact absurd heq.symm (hleaf' x' (List.mem_singleton_self x') _ hmem)
      | node hl' hr' hmem' =>
          have hpair := hinj hmem hmem' heq
          rw [Prod.mk.injEq] at hpair
          simp only [List.forall_mem_append] at hleaf hleaf'
          rw [ihl hleaf.1 hl' hleaf'.1 hpair.1, ihr hleaf.2 hr' hleaf'.2 hpair.2]

end Perfect

end

end Levels
