/-
**Computations on a state that may panic or not return.**

A computation that changes a state in place leaves it changed even when it panics half way, and a
loop may never end.  `Exec σ α` is the result of such a computation: it is done with a value, it
panicked, or it is still looping; the state it has reached is kept in each case.

Main definitions:

* `Exec` — the results, with `Exec.state`, the state reached;
* `Exec.bind` — running a computation after another one;
* `Exec.lift` — running a computation on a part of a larger state;
* `Exec.Ensures`, `Exec.Ends` — partial and total correctness;
* `Exec.Returns` — the computation is done.

Main results:

* `Exec.bind_eq_done` — a sequence is done when both computations are;
* `Exec.ensures_bind`, `Exec.ends_bind`, `Exec.ensures_lift` — the rules for postconditions;
* `Exec.returns_lift` — when a computation on a part of the state returns.
-/

import Mathlib.Tactic.Common

set_option relaxedAutoImplicit false
set_option autoImplicit false

universe u v w

/-- The result of a computation on a state. -/
inductive Exec (σ : Type u) (α : Type v)
  | done (s : σ) (a : α)
  | panicked (s : σ)
  | looping (s : σ)
  deriving DecidableEq

namespace Exec

variable {σ τ : Type u} {α β : Type v}

/-- The state that was reached. -/
def state : Exec σ α → σ
  | done s _ => s
  | panicked s => s
  | looping s => s

/-- Running `f` when `x` is done. -/
def bind (x : Exec σ α) (f : σ → α → Exec σ β) : Exec σ β :=
  match x with
  | done s a => f s a
  | panicked s => panicked s
  | looping s => looping s

/-- A computation on a part of the state; `set` puts the part back. -/
def lift (x : Exec τ α) (set : τ → σ) : Exec σ α :=
  match x with
  | done s a => done (set s) a
  | panicked s => panicked (set s)
  | looping s => looping (set s)

@[simp] theorem state_done (s : σ) (a : α) : (done s a : Exec σ α).state = s := rfl

@[simp] theorem state_panicked (s : σ) : (panicked s : Exec σ α).state = s := rfl

@[simp] theorem state_looping (s : σ) : (looping s : Exec σ α).state = s := rfl

@[simp] theorem bind_done (s : σ) (a : α) (f : σ → α → Exec σ β) : (done s a).bind f = f s a := rfl

@[simp] theorem bind_panicked (s : σ) (f : σ → α → Exec σ β) :
    (panicked s : Exec σ α).bind f = panicked s := rfl

@[simp] theorem bind_looping (s : σ) (f : σ → α → Exec σ β) :
    (looping s : Exec σ α).bind f = looping s := rfl

@[simp] theorem lift_done (s : τ) (a : α) (set : τ → σ) :
    (done s a).lift set = done (set s) a := rfl

@[simp] theorem lift_panicked (s : τ) (set : τ → σ) :
    (panicked s : Exec τ α).lift set = panicked (set s) := rfl

@[simp] theorem lift_looping (s : τ) (set : τ → σ) :
    (looping s : Exec τ α).lift set = looping (set s) := rfl

@[simp] theorem state_lift (x : Exec τ α) (set : τ → σ) : (x.lift set).state = set x.state := by
  cases x <;> rfl

/-- A sequence is done when both computations are. -/
theorem bind_eq_done {x : Exec σ α} {f : σ → α → Exec σ β} {s : σ} {b : β} :
    x.bind f = done s b ↔ ∃ m a, x = done m a ∧ f m a = done s b := by
  cases x with
  | done m a => simp
  | panicked m => simp
  | looping m => simp

/-- A sequence loops when one of the computations does. -/
theorem bind_eq_looping {x : Exec σ α} {f : σ → α → Exec σ β} {s : σ} :
    x.bind f = looping s ↔ x = looping s ∨ ∃ m a, x = done m a ∧ f m a = looping s := by
  cases x with
  | done m a => simp
  | panicked m => simp
  | looping m => simp

/-! ### Postconditions -/

/-- Partial correctness: when the computation is done, the state and the value are in `Q`. -/
def Ensures (x : Exec σ α) (Q : σ → α → Prop) : Prop := ∀ s a, x = done s a → Q s a

/-- Total correctness: the computation is done, and the state and the value are in `Q`. -/
def Ends (x : Exec σ α) (Q : σ → α → Prop) : Prop := ∃ s a, x = done s a ∧ Q s a

theorem ensures_done {s : σ} {a : α} {Q : σ → α → Prop} : (done s a).Ensures Q ↔ Q s a := by
  simp [Ensures]

theorem ends_done {s : σ} {a : α} {Q : σ → α → Prop} : (done s a).Ends Q ↔ Q s a := by
  simp [Ends]

theorem ensures_bind {x : Exec σ α} {f : σ → α → Exec σ β} {Q : σ → β → Prop} :
    (x.bind f).Ensures Q ↔ x.Ensures fun s a => (f s a).Ensures Q := by
  cases x <;> simp [Ensures]

theorem ends_bind {x : Exec σ α} {f : σ → α → Exec σ β} {Q : σ → β → Prop} :
    (x.bind f).Ends Q ↔ x.Ends fun s a => (f s a).Ends Q := by
  cases x <;> simp [Ends]

theorem ensures_lift {x : Exec τ α} {set : τ → σ} {Q : σ → α → Prop} :
    (x.lift set).Ensures Q ↔ x.Ensures fun t a => Q (set t) a := by
  cases x <;> simp [Ensures]

theorem Ensures.mono {x : Exec σ α} {Q R : σ → α → Prop} (h : x.Ensures Q)
    (hQ : ∀ s a, Q s a → R s a) : x.Ensures R :=
  fun s a hx => hQ s a (h s a hx)

theorem Ends.mono {x : Exec σ α} {Q R : σ → α → Prop} (h : x.Ends Q)
    (hQ : ∀ s a, Q s a → R s a) : x.Ends R := by
  obtain ⟨s, a, hx, hs⟩ := h
  exact ⟨s, a, hx, hQ s a hs⟩

theorem Ends.ensures {x : Exec σ α} {Q : σ → α → Prop} (h : x.Ends Q) : x.Ensures Q := by
  obtain ⟨s, a, rfl, hs⟩ := h
  exact ensures_done.2 hs

instance {x : Exec σ α} {Q : σ → α → Prop} [∀ s a, Decidable (Q s a)] : Decidable (x.Ends Q) :=
  match x with
  | done _ _ => decidable_of_iff _ ends_done.symm
  | panicked _ => isFalse fun ⟨_, _, h, _⟩ => nomatch h
  | looping _ => isFalse fun ⟨_, _, h, _⟩ => nomatch h

/-! ### Returning -/

/-- The computation is done. -/
def Returns (x : Exec σ α) : Prop := ∃ s a, x = done s a

instance : (x : Exec σ α) → Decidable x.Returns
  | done s a => isTrue ⟨s, a, rfl⟩
  | panicked _ => isFalse fun ⟨_, _, h⟩ => nomatch h
  | looping _ => isFalse fun ⟨_, _, h⟩ => nomatch h

@[simp] theorem returns_done (s : σ) (a : α) : (done s a : Exec σ α).Returns := ⟨s, a, rfl⟩

@[simp] theorem not_returns_panicked (s : σ) : ¬ (panicked s : Exec σ α).Returns :=
  fun ⟨_, _, h⟩ => nomatch h

@[simp] theorem not_returns_looping (s : σ) : ¬ (looping s : Exec σ α).Returns :=
  fun ⟨_, _, h⟩ => nomatch h

@[simp] theorem returns_lift {x : Exec τ α} {set : τ → σ} : (x.lift set).Returns ↔ x.Returns := by
  cases x <;> simp

end Exec
