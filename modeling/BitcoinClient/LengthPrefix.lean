/-
**Frames with a length prefix.**

A frame is a header of fixed size, which tells the length of the payload, and then the payload.  A sequence
of payloads is sent as its frames one after the other.  The receiver takes frames off the stream as long as
the next one is complete, so that from any prefix of the stream it has exactly the payloads whose frames lie
in the prefix.

Main definitions:

* `LengthPrefix.toBeBytes`, `LengthPrefix.fromBeBytes` — numbers as bytes, most significant first;
* `LengthPrefix.Header` — a code for the lengths;
* `LengthPrefix.Header.frames`, `LengthPrefix.Header.next`, `LengthPrefix.Header.parse`.

Main results:

* `LengthPrefix.fromBeBytes_toBeBytes`;
* `LengthPrefix.Header.parse_frames_append` — the payloads of complete frames are delivered first;
* `LengthPrefix.Header.exists_parse_take` — **a stream that is cut**.
-/

import Mathlib.Algebra.Ring.Nat
import Mathlib.Data.List.Basic
import Mathlib.Tactic.Common

set_option relaxedAutoImplicit false
set_option autoImplicit false

universe u

namespace LengthPrefix

/-! ### Numbers as bytes -/

/-- The last `k` bytes of a number. -/
def toBeBytes : ℕ → ℕ → List UInt8
  | 0, _ => []
  | k + 1, n => toBeBytes k (n / 256) ++ [UInt8.ofNat n]

def fromBeBytes (bs : List UInt8) : ℕ := bs.foldl (fun n b => n * 256 + b.toNat) 0

@[simp] theorem length_toBeBytes (k : ℕ) : ∀ n, (toBeBytes k n).length = k := by
  induction k with
  | zero => exact fun _ => rfl
  | succ k ih =>
      intro n
      rw [toBeBytes, List.length_append, ih, List.length_singleton]

theorem fromBeBytes_concat (bs : List UInt8) (b : UInt8) :
    fromBeBytes (bs ++ [b]) = fromBeBytes bs * 256 + b.toNat := by
  rw [fromBeBytes, List.foldl_append]
  rfl

theorem fromBeBytes_toBeBytes (k : ℕ) : ∀ n, fromBeBytes (toBeBytes k n) = n % 256 ^ k := by
  induction k with
  | zero =>
      intro n
      rw [pow_zero, Nat.mod_one]
      rfl
  | succ k ih =>
      intro n
      rw [toBeBytes, fromBeBytes_concat, ih, UInt8.toNat_ofNat', pow_succ' 256 k, Nat.mod_mul]
      omega

/-! ### Frames -/

/-- A code of fixed size for the lengths below `bound`. -/
structure Header (α : Type u) where
  size : ℕ
  bound : ℕ
  encode : ℕ → List α
  decode : List α → ℕ
  size_pos : 0 < size
  length_encode : ∀ n, (encode n).length = size
  decode_encode : ∀ n, n < bound → decode (encode n) = n

namespace Header

variable {α : Type u} (H : Header α)

def frame (p : List α) : List α := H.encode p.length ++ p

/-- The frames of some payloads, one after the other. -/
def frames (ps : List (List α)) : List α := ps.flatMap H.frame

/-- The first payload of a stream and what comes after its frame; `none` when the frame is not complete. -/
def next (bs : List α) : Option (List α × List α) :=
  let n := H.decode (bs.take H.size)
  if H.size ≤ bs.length ∧ n ≤ (bs.drop H.size).length then
    some ((bs.drop H.size).take n, (bs.drop H.size).drop n)
  else none

variable {H}

theorem next_eq_some {bs p rest : List α} (h : H.next bs = some (p, rest)) :
    ∃ hd, hd.length = H.size ∧ H.decode hd = p.length ∧ bs = hd ++ p ++ rest := by
  unfold next at h
  obtain ⟨⟨hsize, hn⟩, hpair⟩ := Option.ite_none_right_eq_some.1 h
  obtain ⟨rfl, rfl⟩ := Prod.mk.inj (Option.some_inj.1 hpair)
  refine ⟨bs.take H.size, ?_, ?_, ?_⟩
  · rw [List.length_take, Nat.min_eq_left hsize]
  · rw [List.length_take, Nat.min_eq_left hn]
  · rw [List.append_assoc, List.take_append_drop, List.take_append_drop]

/-- A complete frame is taken off the stream. -/
theorem next_append {hd p : List α} (hhd : hd.length = H.size) (hp : H.decode hd = p.length)
    (rest : List α) : H.next (hd ++ p ++ rest) = some (p, rest) := by
  have htake : (hd ++ p ++ rest).take H.size = hd := by
    rw [List.append_assoc, ← hhd, List.take_left]
  have hdrop : (hd ++ p ++ rest).drop H.size = p ++ rest := by
    rw [List.append_assoc, ← hhd, List.drop_left]
  rw [next, htake, hdrop, hp, if_pos, List.take_left, List.drop_left]
  simp only [List.length_append]
  omega

theorem length_of_next {bs p rest : List α} (h : H.next bs = some (p, rest)) :
    rest.length < bs.length := by
  obtain ⟨hd, hhd, -, rfl⟩ := next_eq_some h
  have hpos := H.size_pos
  simp only [List.length_append]
  omega

variable (H)

/-- The payloads that a receiver delivers from a stream, until the first frame that is not complete. -/
def parse (bs : List α) : List (List α) :=
  match _h : H.next bs with
  | none => []
  | some (p, rest) => p :: parse rest
termination_by bs.length
decreasing_by exact length_of_next _h

variable {H}

theorem parse_of_none {bs : List α} (h : H.next bs = none) : H.parse bs = [] := by
  rw [parse]
  split
  · rfl
  · rename_i hsome
    rw [h] at hsome
    cases hsome

theorem parse_of_some {bs p rest : List α} (h : H.next bs = some (p, rest)) :
    H.parse bs = p :: H.parse rest := by
  rw [parse]
  split
  · rename_i hnone
    rw [h] at hnone
    cases hnone
  · rename_i p' rest' hsome
    rw [h, Option.some_inj] at hsome
    obtain ⟨rfl, rfl⟩ := Prod.mk.inj hsome
    rfl

/-- The frame of a payload that is not too long. -/
theorem next_frame {p : List α} (hp : p.length < H.bound) (rest : List α) :
    H.next (H.frame p ++ rest) = some (p, rest) :=
  next_append (H.length_encode _) (H.decode_encode _ hp) rest

/-- A frame that has been cut is not taken. -/
theorem next_take_frame {p : List α} (hp : p.length < H.bound) {k : ℕ}
    (hk : k < (H.frame p).length) : H.next ((H.frame p).take k) = none := by
  cases hnext : H.next ((H.frame p).take k) with
  | none => rfl
  | some x =>
      -- it would be the frame of the same payload
      obtain ⟨payload, rest⟩ := x
      obtain ⟨hd, hhd, hlen, heq⟩ := next_eq_some hnext
      have hlength := congrArg List.length heq
      rw [List.length_take, List.length_append, List.length_append, hhd] at hlength
      have hheader : hd = H.encode p.length := by
        have htake := congrArg (List.take H.size) heq
        rw [List.take_take, Nat.min_eq_left (by omega), frame, ← H.length_encode p.length,
          List.take_left, List.append_assoc, H.length_encode, ← hhd, List.take_left] at htake
        exact htake.symm
      rw [hheader, H.decode_encode _ hp] at hlen
      rw [frame, List.length_append, H.length_encode] at hk hlength
      omega

@[simp] theorem frames_nil : H.frames [] = [] := rfl

@[simp] theorem frames_cons (p : List α) (ps : List (List α)) :
    H.frames (p :: ps) = H.frame p ++ H.frames ps := List.flatMap_cons

/-- **Complete frames** are delivered, whatever comes after them. -/
theorem parse_frames_append {ps : List (List α)} (hps : ∀ p ∈ ps, p.length < H.bound)
    (rest : List α) : H.parse (H.frames ps ++ rest) = ps ++ H.parse rest := by
  induction ps with
  | nil => rfl
  | cons p ps ih =>
      obtain ⟨hp, hps⟩ := List.forall_mem_cons.1 hps
      rw [frames_cons, List.append_assoc, parse_of_some (next_frame hp _), ih hps, List.cons_append]

theorem parse_nil : H.parse [] = [] := by
  refine parse_of_none ?_
  have hpos := H.size_pos
  rw [next, if_neg]
  rintro ⟨hsize, -⟩
  rw [List.length_nil] at hsize
  omega

theorem parse_frames {ps : List (List α)} (hps : ∀ p ∈ ps, p.length < H.bound) :
    H.parse (H.frames ps) = ps := by
  have h := parse_frames_append hps []
  rwa [parse_nil, List.append_nil, List.append_nil] at h

/-- **A stream that is cut** after `k` symbols: the receiver delivers the payloads whose frames are complete,
and the next frame is not. -/
theorem exists_parse_take {ps : List (List α)} (hps : ∀ p ∈ ps, p.length < H.bound) :
    ∀ k, ∃ m, H.parse ((H.frames ps).take k) = ps.take m ∧ (H.frames (ps.take m)).length ≤ k ∧
      (m < ps.length → k < (H.frames (ps.take (m + 1))).length) := by
  induction ps with
  | nil =>
      intro k
      exact ⟨0, by rw [frames_nil, List.take_nil, parse_nil, List.take_nil], Nat.zero_le _,
        fun h => absurd h (Nat.not_lt_zero _)⟩
  | cons p ps ih =>
      obtain ⟨hp, hps⟩ := List.forall_mem_cons.1 hps
      intro k
      rcases Nat.lt_or_ge k (H.frame p).length with hk | hk
      · -- the cut is in the first frame
        refine ⟨0, ?_, Nat.zero_le _, fun _ => ?_⟩
        · rw [frames_cons, List.take_append_of_le_length (Nat.le_of_lt hk),
            parse_of_none (next_take_frame hp hk), List.take_zero]
        · rw [Nat.zero_add, List.take_succ_cons, List.take_zero, frames_cons, frames_nil,
            List.append_nil]
          exact hk
      · obtain ⟨m, hparse, hle, hlt⟩ := ih hps (k - (H.frame p).length)
        refine ⟨m + 1, ?_, ?_, fun hm => ?_⟩
        · rw [frames_cons, List.take_append, List.take_of_length_le hk,
            parse_of_some (next_frame hp _), hparse, List.take_succ_cons]
        · rw [List.take_succ_cons, frames_cons, List.length_append]
          omega
        · have hnext := hlt (by rwa [List.length_cons, Nat.succ_lt_succ_iff] at hm)
          rw [List.take_succ_cons, frames_cons, List.length_append]
          omega

end Header

end LengthPrefix
