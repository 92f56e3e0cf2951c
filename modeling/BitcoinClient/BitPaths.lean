/-
**Bits as a path through a binary tree.**

The leaves of a binary tree are numbered from the left.  The bits of a number, from the lowest up, say at
each level whether the way from the leaf to the root comes from the right; from the highest down, they say
which half of the remaining interval a bisection takes.  A climb combines a value with a sibling at each
level.

Main definitions:

* `BitPaths.bits` — the lowest bits of a number, the lowest first;
* `BitPaths.climb` — combining a value with siblings, each with the side on which the value stands;
* `BitPaths.climbPairs` — the pairs that are combined on the way.

Main results:

* `BitPaths.bits_succ`, `BitPaths.climb_snoc` — one level more;
* `BitPaths.ofDigits_bits` — the bits are the binary expansion;
* `BitPaths.testBit_of_even`, `BitPaths.testBit_of_odd` — the bit of a position among the positions of a
  level;
* `BitPaths.le_middle_iff` — a bisection reads the highest bit;
* `BitPaths.climb_injective` — **two climbs by the same sides that meet are the same climb**, unless two of
  the pairs on the way collide.
-/

import Mathlib.Data.Nat.Bitwise
import Mathlib.Data.Nat.Digits.Defs
import Mathlib.Data.Set.Function
import Mathlib.Tactic.Common
import Mathlib.Tactic.Ring

set_option relaxedAutoImplicit false
set_option autoImplicit false

universe u

namespace BitPaths

/-! ### Bits -/

/-- The lowest `k` bits of `i`, the lowest first. -/
def bits (k i : ℕ) : List Bool := (List.range k).map i.testBit

@[simp] theorem length_bits (k i : ℕ) : (bits k i).length = k := by simp [bits]

@[simp] theorem bits_zero (i : ℕ) : bits 0 i = [] := rfl

/-- **One bit more** stands at the end. -/
theorem bits_succ (k i : ℕ) : bits (k + 1) i = bits k i ++ [i.testBit k] := by
  simp [bits, List.range_succ]

theorem reverse_bits_succ (k i : ℕ) :
    (bits (k + 1) i).reverse = i.testBit k :: (bits k i).reverse := by
  rw [bits_succ, List.reverse_append, List.reverse_singleton, List.singleton_append]

/-- The lowest bits of the lowest bits. -/
theorem take_bits {m k : ℕ} (h : m ≤ k) (i : ℕ) : (bits k i).take m = bits m i := by
  rw [bits, ← List.map_take, List.take_range, Nat.min_eq_left h, bits]

/-- As many bits are used as there are siblings. -/
theorem zip_bits {α : Type u} {k : ℕ} {siblings : List α} (h : siblings.length ≤ k) (i : ℕ) :
    (bits k i).zip siblings = (bits siblings.length i).zip siblings := by
  rw [List.zip_eq_zip_take_min, length_bits, Nat.min_eq_right h, take_bits h, List.take_length]

/-- **The bits are the binary expansion**, of as many digits as there are bits. -/
theorem ofDigits_bits (k i : ℕ) : Nat.ofDigits 2 ((bits k i).map Bool.toNat) = i % 2 ^ k := by
  induction k with
  | zero => rw [bits_zero, List.map_nil, Nat.ofDigits_nil, Nat.pow_zero, Nat.mod_one]
  | succ k ih =>
      rw [bits_succ, List.map_append, Nat.ofDigits_append, ih, List.length_map, length_bits,
        List.map_singleton, Nat.ofDigits_singleton, Nat.toNat_testBit, Nat.mod_pow_succ]

/-- The position above. -/
theorem div_pow_succ (i k : ℕ) : i / 2 ^ (k + 1) = i / 2 ^ k / 2 := by
  rw [Nat.pow_succ, Nat.div_div_eq_div_mul]

/-- A number whose position is even stands on the left. -/
theorem testBit_of_even {i k q : ℕ} (h : i / 2 ^ k = 2 * q) : i.testBit k = false := by
  rw [Nat.testBit_eq_decide_div_mod_eq, h]
  simp

/-- A number whose position is odd stands on the right. -/
theorem testBit_of_odd {i k q : ℕ} (h : i / 2 ^ k = 2 * q + 1) : i.testBit k = true := by
  rw [Nat.testBit_eq_decide_div_mod_eq, h]
  simp [Nat.add_mod]

/-- The middle of an interval of `2 ^ (k + 1)` numbers is the last number of its lower half. -/
theorem middle_eq (a k : ℕ) :
    (a * 2 ^ (k + 1) + 2 ^ (k + 1) - 1 + a * 2 ^ (k + 1)) / 2 = 2 * a * 2 ^ k + 2 ^ k - 1 := by
  have hpow : 2 ^ (k + 1) = 2 * 2 ^ k := by rw [Nat.pow_succ, Nat.mul_comm]
  have hpos : 0 < 2 ^ k := Nat.two_pow_pos k
  have ha : a * (2 * 2 ^ k) = 2 * a * 2 ^ k := by ring
  rw [hpow, ha]
  generalize 2 * a * 2 ^ k = b
  omega

/-- **A bisection reads the highest bit**: the number is in the lower half when the bit is 0. -/
theorem le_middle_iff {i a k : ℕ} (h : i / 2 ^ (k + 1) = a) :
    i ≤ 2 * a * 2 ^ k + 2 ^ k - 1 ↔ i / 2 ^ k = 2 * a := by
  have hpos : 0 < 2 ^ k := Nat.two_pow_pos k
  rw [div_pow_succ] at h
  constructor
  · intro hle
    have hlt : i / 2 ^ k < 2 * a + 1 := by
      rw [Nat.div_lt_iff_lt_mul hpos, Nat.add_mul, Nat.one_mul]
      omega
    omega
  · intro heq
    have hlt : i < (2 * a + 1) * 2 ^ k := by
      rw [← Nat.div_lt_iff_lt_mul hpos]
      omega
    rw [Nat.add_mul, Nat.one_mul] at hlt
    omega

/-! ### Climbing -/

section

variable {α : Type u} (combine : α → α → α)

/-- Combining a value with one sibling after the other; `true` says that the value stands on the
right. -/
def climb (x : α) (path : List (Bool × α)) : α :=
  path.foldl (fun x step => if step.1 then combine step.2 x else combine x step.2) x

@[simp] theorem climb_nil (x : α) : climb combine x [] = x := rfl

theorem climb_cons (x s : α) (right : Bool) (path : List (Bool × α)) :
    climb combine x ((right, s) :: path) =
      climb combine (if right then combine s x else combine x s) path := rfl

/-- **One level more** is combined last. -/
theorem climb_snoc (x s : α) (right : Bool) (path : List (Bool × α)) :
    climb combine x (path ++ [(right, s)]) =
      if right then combine s (climb combine x path) else combine (climb combine x path) s := by
  rw [climb, List.foldl_append]
  rfl

/-- The pairs that a climb combines, the lowest first. -/
def climbPairs : α → List (Bool × α) → List (α × α)
  | _, [] => []
  | x, (right, s) :: path =>
    (if right then (s, x) else (x, s)) ::
      climbPairs (if right then combine s x else combine x s) path

theorem climbPairs_cons (x s : α) (right : Bool) (path : List (Bool × α)) :
    climbPairs combine x ((right, s) :: path) = (if right then (s, x) else (x, s)) ::
      climbPairs combine (if right then combine s x else combine x s) path := rfl

/-- The pair of the highest level. -/
theorem climbPairs_snoc (x s : α) (right : Bool) (path : List (Bool × α)) :
    climbPairs combine x (path ++ [(right, s)]) = climbPairs combine x path ++
      [if right then (s, climb combine x path) else (climb combine x path, s)] := by
  induction path generalizing x with
  | nil => rfl
  | cons step path ih => rw [List.cons_append, climbPairs, climbPairs, ih, List.cons_append, climb_cons]

/-- **Two climbs by the same sides that meet are the same climb**: they meet at the highest level, and
what meets at a level has met at the level below. -/
theorem climb_injective {collected : Set (α × α)}
    (hinj : Set.InjOn (Function.uncurry combine) collected) :
    ∀ (sides : List Bool) (x y : α) (p q : List α), p.length = sides.length →
      q.length = sides.length → (∀ z ∈ climbPairs combine x (sides.zip p), z ∈ collected) →
      (∀ z ∈ climbPairs combine y (sides.zip q), z ∈ collected) →
      climb combine x (sides.zip p) = climb combine y (sides.zip q) → x = y ∧ p = q := by
  intro sides
  induction sides with
  | nil =>
      intro x y p q hp hq _ _ hmeet
      rw [List.length_eq_zero_iff.1 hp, List.length_eq_zero_iff.1 hq]
      exact ⟨hmeet, rfl⟩
  | cons right sides ih =>
      intro x y p q hp hq hx hy hmeet
      obtain ⟨s, p, rfl⟩ := List.exists_cons_of_length_eq_add_one hp
      obtain ⟨t, q, rfl⟩ := List.exists_cons_of_length_eq_add_one hq
      simp only [List.zip_cons_cons, climbPairs_cons, List.forall_mem_cons, climb_cons] at hx hy hmeet
      obtain ⟨hlow, rfl⟩ := ih _ _ p q (Nat.succ.inj hp) (Nat.succ.inj hq) hx.2 hy.2 hmeet
      -- the lowest pairs are combined to the same value
      cases right with
      | false =>
          have hpair := hinj hx.1 hy.1 hlow
          rw [if_neg Bool.false_ne_true, if_neg Bool.false_ne_true, Prod.mk.injEq] at hpair
          exact ⟨hpair.1, by rw [hpair.2]⟩
      | true =>
          have hpair := hinj hx.1 hy.1 hlow
          rw [if_pos rfl, if_pos rfl, Prod.mk.injEq] at hpair
          exact ⟨hpair.2, by rw [hpair.1]⟩

end

end BitPaths
