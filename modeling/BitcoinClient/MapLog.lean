/-
**Maps that are written key by key.**

A log lists what has been written to a map and which keys have been cleared, the oldest entry first.  The map
has a value at a key exactly if the last entry with that key wrote it.

Main definitions:

* `MapLog.Entry`, `MapLog.Entry.apply` — the entries, and what they do to a map;
* `MapLog.Current` — the value that a log leaves at a key;
* `MapLog.Represents` — a log of a map.

Main results:

* `MapLog.Represents.concat` — the log goes on with the map;
* `MapLog.exists_current` — a key that has been written and not cleared since has a value.
-/

import Mathlib.Data.Finmap
import Mathlib.Tactic.Common

set_option relaxedAutoImplicit false
set_option autoImplicit false

universe u v

namespace MapLog

variable {κ : Type u} {β : Type v}

inductive Entry (κ : Type u) (β : Type v)
  | write (key : κ) (value : β)
  | clear (key : κ)

namespace Entry

def key : Entry κ β → κ
  | write k _ => k
  | clear k => k

def value : Entry κ β → Option β
  | write _ v => some v
  | clear _ => none

/-- What an entry does to the map. -/
def apply [DecidableEq κ] (m : Finmap fun _ : κ => β) : Entry κ β → Finmap fun _ : κ => β
  | write k v => m.insert k v
  | clear k => m.erase k

end Entry

/-- The last entry with the key `k` has written `v`. -/
def Current (log : List (Entry κ β)) (k : κ) (v : β) : Prop :=
  ∃ l₁ l₂, log = l₁ ++ .write k v :: l₂ ∧ ∀ x ∈ l₂, x.key ≠ k

theorem not_current_nil (k : κ) (v : β) : ¬ Current [] k v := by
  rintro ⟨l₁, l₂, hlog, -⟩
  exact List.append_ne_nil_of_right_ne_nil l₁ (List.cons_ne_nil _ _) hlog.symm

/-- One more entry: it writes the value, or it leaves the key alone. -/
theorem current_concat {log : List (Entry κ β)} {x : Entry κ β} {k : κ} {v : β} :
    Current (log ++ [x]) k v ↔ x = .write k v ∨ x.key ≠ k ∧ Current log k v := by
  constructor
  · rintro ⟨l₁, l₂, hlog, hothers⟩
    rcases List.eq_nil_or_concat l₂ with rfl | ⟨l₃, y, rfl⟩
    · exact Or.inl (List.singleton_inj.1 (List.append_inj_right' hlog rfl))
    · rw [List.concat_eq_append] at hlog hothers
      rw [← List.cons_append, ← List.append_assoc] at hlog
      obtain ⟨rfl, hxy⟩ := List.append_inj' hlog rfl
      obtain rfl := List.singleton_inj.1 hxy
      exact Or.inr ⟨hothers _ (List.mem_append_right _ (List.mem_singleton.2 rfl)), l₁, l₃, rfl,
        fun z hz => hothers z (List.mem_append_left _ hz)⟩
  · rintro (rfl | ⟨hx, l₁, l₂, rfl, hothers⟩)
    · exact ⟨log, [], rfl, fun _ h => absurd h List.not_mem_nil⟩
    · refine ⟨l₁, l₂ ++ [x], by rw [List.append_assoc, List.cons_append], fun z hz => ?_⟩
      rcases List.mem_append.1 hz with hz | hz
      · exact hothers z hz
      · rw [List.mem_singleton.1 hz]
        exact hx

/-- A key that has been written and not cleared since has a value, that one or a later one. -/
theorem exists_current (l₁ : List (Entry κ β)) (k : κ) (v : β) {l₂ : List (Entry κ β)}
    (h : .clear k ∉ l₂) : ∃ v', Current (l₁ ++ .write k v :: l₂) k v' ∧
      (v' = v ∨ .write k v' ∈ l₂) := by
  induction l₂ using List.reverseRecOn with
  | nil => exact ⟨v, ⟨l₁, [], rfl, fun _ hx => absurd hx List.not_mem_nil⟩, Or.inl rfl⟩
  | append_singleton l x ih =>
      have happend : l₁ ++ Entry.write k v :: (l ++ [x]) = (l₁ ++ .write k v :: l) ++ [x] := by
        rw [List.append_assoc, List.cons_append]
      rw [List.mem_append, not_or] at h
      rw [happend]
      by_cases hx : x.key = k
      · cases x with
        | write key value =>
            obtain rfl : key = k := hx
            exact ⟨value, current_concat.2 (Or.inl rfl),
              Or.inr (List.mem_append_right _ (List.mem_singleton.2 rfl))⟩
        | clear key =>
            obtain rfl : key = k := hx
            exact absurd (List.mem_singleton.2 rfl) h.2
      · obtain ⟨v', hv', hlater⟩ := ih h.1
        exact ⟨v', current_concat.2 (Or.inr ⟨hx, hv'⟩),
          hlater.imp id (List.mem_append_left _)⟩

variable [DecidableEq κ]

/-- The map that a log has made. -/
def Represents (log : List (Entry κ β)) (m : Finmap fun _ : κ => β) : Prop :=
  ∀ k v, m.lookup k = some v ↔ Current log k v

theorem represents_nil : Represents ([] : List (Entry κ β)) ∅ := fun k v =>
  ⟨fun h => absurd h (by simp), fun h => absurd h (not_current_nil k v)⟩

/-- **The log goes on with the map.** -/
theorem Represents.concat {log : List (Entry κ β)} {m : Finmap fun _ : κ => β}
    (h : Represents log m) (x : Entry κ β) : Represents (log ++ [x]) (x.apply m) := by
  intro k v
  rw [current_concat, ← h k v]
  cases x with
  | write key value =>
      by_cases hk : key = k
      · subst hk
        simp [Entry.apply, Entry.key]
      · simp [Entry.apply, Entry.key, hk, Finmap.lookup_insert_of_ne m (Ne.symm hk)]
  | clear key =>
      by_cases hk : key = k
      · subst hk
        simp [Entry.apply, Entry.key]
      · simp [Entry.apply, Entry.key, hk, Finmap.lookup_erase_ne (Ne.symm hk)]

end MapLog
