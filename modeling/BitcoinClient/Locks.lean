/-
**Threads that share mutexes.**

Threads take steps in any order on shared data.  What a thread does next depends on where it is in its
program; at some places it first has to take a mutex, and waits while another thread holds that.  A thread
that panics drops the mutexes it holds, which are poisoned from then on, and a thread that takes a poisoned
mutex panics.

A program says which mutex a thread takes at a place, but not which mutexes it holds there; an *annotation*
says that, and when the program keeps to it the owners of the mutexes can be read off from the places of
the threads.  There is no cycle of waiting threads when every thread takes its mutexes in the order of a
rank.

Main definitions:

* `Locks.Program`, `Locks.System`, `Locks.Program.step` — the programs, the states and the steps;
* `Locks.Program.WaitsOn`, `Locks.Program.Deadlocked` — the waiting relation and its cycles;
* `Locks.Program.Annotates`, `Locks.System.Owned` — the places with the mutexes held there.

Main results:

* `Locks.owned_step` — the annotation describes the owners in every state of a run;
* `Locks.stepCase_of_step` — what a step does, with the mutexes it has;
* `Locks.clean_step` — a poisoned mutex is not taken again;
* `Locks.Program.not_deadlocked` — **lock ordering**;
* `Locks.Program.deadlocked_of_pair` — two threads that wait for each other.
-/

import Mathlib.Data.Finset.Basic
import Mathlib.Data.Finset.Option
import Mathlib.Logic.Function.Basic
import Mathlib.Logic.Relation
import Mathlib.Tactic.Common

set_option relaxedAutoImplicit false
set_option autoImplicit false

namespace Locks

variable {τ μ σ π ε : Type}

/-- What a thread does in one step. -/
inductive Act (μ σ π : Type)
  | blocked
  | go (s : σ) (pc : π)
  | release (m : μ) (s : σ) (pc : π)
  | panic (s : σ)

/-- A program: at the place `pc` a thread takes the mutex `wants pc`, if any, and then acts.  When it
panics, its locals are dropped. -/
structure Program (μ σ π ε : Type) where
  wants : π → Option μ
  next : π → ε → σ → Act μ σ π
  drops : π → σ → σ
  dead : π

/-- The shared data, the places of the threads, and the mutexes. -/
structure System (τ μ σ π : Type) where
  shared : σ
  pc : τ → π
  owner : μ → Option τ
  poisoned : μ → Bool

namespace System

variable [DecidableEq τ] [DecidableEq μ]

/-- The thread `t` takes `m`. -/
def take (S : System τ μ σ π) (t : τ) (m : μ) : System τ μ σ π :=
  { S with owner := Function.update S.owner m (some t) }

/-- The mutex `m` is dropped. -/
def drop (S : System τ μ σ π) (m : μ) : System τ μ σ π :=
  { S with owner := Function.update S.owner m none }

/-- The thread `t` goes to the place `pc`. -/
def move (S : System τ μ σ π) (t : τ) (s : σ) (pc : π) : System τ μ σ π :=
  { S with shared := s, pc := Function.update S.pc t pc }

/-- The thread `t` drops what it holds, and poisons it. -/
def unwind (S : System τ μ σ π) (t : τ) : System τ μ σ π :=
  { S with
    owner := fun m => if S.owner m = some t then none else S.owner m
    poisoned := fun m => S.poisoned m || S.owner m = some t }

end System

namespace Program

variable [DecidableEq τ] [DecidableEq μ] (P : Program μ σ π ε)

/-- The thread `t` panics. -/
def crash (S : System τ μ σ π) (t : τ) (s : σ) : System τ μ σ π :=
  (S.unwind t).move t (P.drops (S.pc t) s) P.dead

/-- The thread `t` acts, with the mutexes it has. -/
def perform (S : System τ μ σ π) (t : τ) (e : ε) : Option (System τ μ σ π) :=
  match P.next (S.pc t) e S.shared with
  | .blocked => none
  | .go s pc => some (S.move t s pc)
  | .release m s pc => some ((S.drop m).move t s pc)
  | .panic s => some (P.crash S t s)

/-- **One step of one thread**; `none` when it cannot take it. -/
def step (S : System τ μ σ π) (x : τ × ε) : Option (System τ μ σ π) :=
  match P.wants (S.pc x.1) with
  | none => P.perform S x.1 x.2
  | some m =>
    if S.owner m = none then
      if S.poisoned m then some (P.crash S x.1 S.shared) else P.perform (S.take x.1 m) x.1 x.2
    else none

/-- The thread `t` waits for a mutex that `u` holds. -/
def WaitsOn (S : System τ μ σ π) (t u : τ) : Prop :=
  ∃ m, P.wants (S.pc t) = some m ∧ S.owner m = some u

/-- **A cycle of threads**, each waiting for a mutex that the next one holds. -/
def Deadlocked (S : System τ μ σ π) : Prop := ∃ t, Relation.TransGen (P.WaitsOn S) t t

/-! ### Cycles -/

section Cycles

omit [DecidableEq τ] [DecidableEq μ]

variable {P} {S : System τ μ σ π}

/-- Along a chain of waiting threads the ranks do not fall. -/
theorem rank_le_of_transGen {rank : μ → ℕ}
    (h : ∀ t m, P.wants (S.pc t) = some m → ∀ m', S.owner m' = some t → rank m' < rank m)
    {t u : τ} (htu : Relation.TransGen (P.WaitsOn S) t u) :
    ∃ m m', P.wants (S.pc t) = some m ∧ S.owner m' = some u ∧ rank m ≤ rank m' := by
  induction htu with
  | single hstep =>
      obtain ⟨m, hm, hown⟩ := hstep
      exact ⟨m, m, hm, hown, Nat.le_refl _⟩
  | tail _ hstep ih =>
      obtain ⟨m, m', hm, hown, hle⟩ := ih
      obtain ⟨m'', hm'', hown'⟩ := hstep
      exact ⟨m, m'', hm, hown', hle.trans (h _ _ hm'' _ hown).le⟩

/-- **Lock ordering.**  There is no cycle when every waiting thread holds only mutexes of a lower rank
than the one it waits for. -/
theorem not_deadlocked (rank : μ → ℕ)
    (h : ∀ t m, P.wants (S.pc t) = some m → ∀ m', S.owner m' = some t → rank m' < rank m) :
    ¬ P.Deadlocked S := by
  rintro ⟨t, hcycle⟩
  obtain ⟨m, m', hm, hown, hle⟩ := rank_le_of_transGen h hcycle
  exact absurd (h t m hm m' hown) (Nat.not_lt.2 hle)

/-- **Two threads that wait for each other.** -/
theorem deadlocked_of_pair {t u : τ} (htu : P.WaitsOn S t u) (hut : P.WaitsOn S u t) :
    P.Deadlocked S :=
  ⟨t, .tail (.single htu) hut⟩

end Cycles

/-! ### Annotations -/

/-- The mutexes that a thread has when it acts at the place `pc`. -/
def holding (held : π → Finset μ) (pc : π) : Finset μ := held pc ∪ (P.wants pc).toFinset

/-- The act of a thread that has the mutexes `A` leads to a place where exactly the mutexes it still has
are held. -/
inductive Keeps (held : π → Finset μ) (A : Finset μ) : Act μ σ π → Prop
  | blocked : Keeps held A .blocked
  | go {s : σ} {pc : π} (hpc : held pc = A) : Keeps held A (.go s pc)
  | release {m : μ} {s : σ} {pc : π} (hm : m ∈ A) (hpc : held pc = A.erase m) :
      Keeps held A (.release m s pc)
  | panic {s : σ} : Keeps held A (.panic s)

/-- The program keeps to the annotation `held`. -/
structure Annotates (held : π → Finset μ) : Prop where
  dead : held P.dead = ∅
  next : ∀ pc e s, Keeps held (P.holding held pc) (P.next pc e s)

end Program

/-- The annotation says who holds the mutexes. -/
def System.Owned (held : π → Finset μ) (S : System τ μ σ π) : Prop :=
  ∀ t m, S.owner m = some t ↔ m ∈ held (S.pc t)

section Owners

variable [DecidableEq τ] [DecidableEq μ] {P : Program μ σ π ε} {held : π → Finset μ}
  {S S' : System τ μ σ π} {t : τ} {e : ε}

/-- The thread `t` has the mutexes `A`, and the annotation says who holds the others. -/
def System.OwnedBut (held : π → Finset μ) (S : System τ μ σ π) (t : τ) (A : Finset μ) : Prop :=
  (∀ m, S.owner m = some t ↔ m ∈ A) ∧ ∀ u, u ≠ t → ∀ m, S.owner m = some u ↔ m ∈ held (S.pc u)

omit [DecidableEq τ] in
/-- A mutex that is free is taken. -/
theorem System.Owned.take (h : S.Owned held) {m : μ} (hm : S.owner m = none) :
    (S.take t m).OwnedBut held t (insert m (held (S.pc t))) := by
  constructor
  · intro m'
    rw [Finset.mem_insert, ← h t m', System.take]
    by_cases hmm : m' = m
    · simp [hmm]
    · simp [hmm]
  · intro u hu m'
    rw [System.take, ← h u m']
    by_cases hmm : m' = m
    · simp [hmm, hm, Ne.symm hu]
    · simp [Function.update_of_ne hmm]

omit [DecidableEq μ] in
/-- A thread that goes to a place where it holds what it has. -/
theorem System.OwnedBut.move {A : Finset μ} (h : S.OwnedBut held t A) (s : σ) {pc : π}
    (hpc : held pc = A) : (S.move t s pc).Owned held := by
  intro u m
  by_cases hu : u = t
  · subst hu
    simpa [System.move, hpc] using h.1 m
  · simpa [System.move, Function.update_of_ne hu] using h.2 u hu m

omit [DecidableEq τ] in
/-- A mutex that `t` has is dropped. -/
theorem System.OwnedBut.drop {A : Finset μ} (h : S.OwnedBut held t A) {m : μ} (hm : m ∈ A) :
    (S.drop m).OwnedBut held t (A.erase m) := by
  constructor
  · intro m'
    rw [Finset.mem_erase, ← h.1 m', System.drop]
    by_cases hmm : m' = m
    · simp [hmm]
    · simp [hmm]
  · intro u hu m'
    rw [System.drop, ← h.2 u hu m']
    by_cases hmm : m' = m
    · have hown := (h.1 m).2 hm
      simp [hmm, hown, Ne.symm hu]
    · simp [Function.update_of_ne hmm]

omit [DecidableEq μ] in
/-- Everything that `t` has is dropped. -/
theorem System.OwnedBut.unwind {A : Finset μ} (h : S.OwnedBut held t A) :
    (S.unwind t).OwnedBut held t ∅ := by
  constructor
  · intro m
    simp only [System.unwind, Finset.notMem_empty, iff_false]
    split
    · simp
    · assumption
  · intro u hu m
    have hheld := h.2 u hu m
    simp only [System.unwind]
    rw [← hheld]
    split
    · rename_i hown
      simp [hown, Ne.symm hu]
    · rfl

theorem owned_crash {A : Finset μ} (hP : P.Annotates held) (h : S.OwnedBut held t A) (s : σ) :
    (P.crash S t s).Owned held :=
  h.unwind.move _ hP.dead

/-- An act leads to a state that the annotation describes. -/
theorem owned_perform (hP : P.Annotates held) (h : S.OwnedBut held t (P.holding held (S.pc t)))
    (hs : P.perform S t e = some S') : S'.Owned held := by
  have hkeeps := hP.next (S.pc t) e S.shared
  rw [Program.perform] at hs
  cases hact : P.next (S.pc t) e S.shared with
  | blocked => simp [hact] at hs
  | go s pc =>
      simp only [hact, Option.some.injEq] at hs
      rw [hact] at hkeeps
      cases hkeeps with
      | go hpc =>
          rw [← hs]
          exact h.move s hpc
  | release m s pc =>
      simp only [hact, Option.some.injEq] at hs
      rw [hact] at hkeeps
      cases hkeeps with
      | release hm hpc =>
          rw [← hs]
          exact (h.drop hm).move s hpc
  | panic s =>
      simp only [hact, Option.some.injEq] at hs
      rw [← hs]
      exact owned_crash hP h s

/-- **The annotation says who holds the mutexes, after every step.** -/
theorem owned_step (hP : P.Annotates held) (h : S.Owned held) {x : τ × ε}
    (hs : P.step S x = some S') : S'.Owned held := by
  obtain ⟨t, e⟩ := x
  have hbut : S.OwnedBut held t (held (S.pc t)) := ⟨fun m => h t m, fun u _ m => h u m⟩
  rw [Program.step] at hs
  cases hw : P.wants (S.pc t) with
  | none =>
      simp only [hw] at hs
      refine owned_perform hP ?_ hs
      rwa [Program.holding, hw, Option.toFinset_none, Finset.union_empty]
  | some m =>
      simp only [hw] at hs
      split at hs
      · rename_i hfree
        split at hs
        · rw [Option.some.injEq] at hs
          rw [← hs]
          exact owned_crash hP hbut _
        · refine owned_perform hP ?_ hs
          have htake := h.take (t := t) hfree
          rwa [System.take, Program.holding, hw, Option.toFinset_some, Finset.union_comm,
            ← Finset.insert_eq]
      · cases hs

/-! ### Places after a step -/

theorem perform_pc_of_ne (hs : P.perform S t e = some S') {u : τ} (hu : u ≠ t) :
    S'.pc u = S.pc u := by
  rw [Program.perform] at hs
  split at hs
  · cases hs
  all_goals
    rw [Option.some.injEq] at hs
    rw [← hs]
    exact Function.update_of_ne hu _ _

/-- The other threads stay where they are. -/
theorem step_pc_of_ne {x : τ × ε} (hs : P.step S x = some S') {u : τ} (hu : u ≠ x.1) :
    S'.pc u = S.pc u := by
  rw [Program.step] at hs
  split at hs
  · exact perform_pc_of_ne hs hu
  · split at hs
    · split at hs
      · rw [Option.some.injEq] at hs
        rw [← hs]
        exact Function.update_of_ne hu _ _
      · rw [perform_pc_of_ne hs hu, System.take]
    · cases hs

/-- The place to which an act leads. -/
def Act.target : Act μ σ π → Option π
  | .go _ pc => some pc
  | .release _ _ pc => some pc
  | _ => none

theorem perform_pc (hs : P.perform S t e = some S') :
    P.next (S.pc t) e S.shared ≠ .blocked ∧
      S'.pc t = ((P.next (S.pc t) e S.shared).target).getD P.dead := by
  rw [Program.perform] at hs
  cases hact : P.next (S.pc t) e S.shared with
  | blocked => simp [hact] at hs
  | go s pc | release m s pc | panic s =>
      simp only [hact, Option.some.injEq] at hs
      rw [← hs]
      exact ⟨by simp, Function.update_self _ _ _⟩

/-- **Where a thread is after its step**: it has died of a poisoned mutex, or it is where its act
leads. -/
theorem step_pc {x : τ × ε} (hs : P.step S x = some S') :
    ((∃ m, P.wants (S.pc x.1) = some m ∧ S.poisoned m = true) ∧ S'.pc x.1 = P.dead) ∨
      ((∀ m, P.wants (S.pc x.1) = some m → S.poisoned m = false) ∧
        P.next (S.pc x.1) x.2 S.shared ≠ .blocked ∧
        S'.pc x.1 = ((P.next (S.pc x.1) x.2 S.shared).target).getD P.dead) := by
  rw [Program.step] at hs
  cases hw : P.wants (S.pc x.1) with
  | none =>
      simp only [hw] at hs
      exact Or.inr ⟨fun m hm => (nomatch hm), perform_pc hs⟩
  | some m =>
      simp only [hw] at hs
      split at hs
      · split at hs
        · rename_i hpoisoned
          rw [Option.some.injEq] at hs
          rw [← hs]
          exact Or.inl ⟨⟨m, rfl, hpoisoned⟩, Function.update_self _ _ _⟩
        · rename_i hpoisoned
          obtain ⟨hact, hpc⟩ := perform_pc hs
          refine Or.inr ⟨fun m' hm' => ?_, hact, hpc⟩
          rw [← Option.some.inj hm']
          simpa using hpoisoned
      · cases hs

/-! ### What a step does -/

/-- The act goes on at the place `pc`, and may drop a mutex. -/
def Act.Moves (act : Act μ σ π) (s : σ) (pc : π) : Prop :=
  act = .go s pc ∨ ∃ m, act = .release m s pc

/-- The mutex that the thread `t` wants is free and not poisoned. -/
def Program.Enters (P : Program μ σ π ε) (S : System τ μ σ π) (t : τ) : Prop :=
  ∀ m, P.wants (S.pc t) = some m → S.owner m = none ∧ S.poisoned m = false

omit [DecidableEq τ] in
theorem Program.Annotates.subset_of_moves (hP : P.Annotates held) {pc pc' : π} {s s' : σ}
    (h : (P.next pc e s).Moves s' pc') : held pc' ⊆ P.holding held pc := by
  have hkeeps := hP.next pc e s
  obtain hgo | ⟨m, hrelease⟩ := h
  · rw [hgo] at hkeeps
    cases hkeeps with
    | go hpc => rw [hpc]
  · rw [hrelease] at hkeeps
    cases hkeeps with
    | release hm hpc =>
        rw [hpc]
        exact Finset.erase_subset _ _

/-- **A step of the thread `t`**: it acts, or it dies, of a poisoned mutex or of a panic; then what it has
is poisoned. -/
inductive Program.StepCase (P : Program μ σ π ε) (held : π → Finset μ) (S : System τ μ σ π) (t : τ)
    (e : ε) (S' : System τ μ σ π) : Prop
  | acts : P.Enters S t → (P.next (S.pc t) e S.shared).Moves S'.shared (S'.pc t) →
      S'.poisoned = S.poisoned → StepCase P held S t e S'
  | dies {s : σ} : (s = S.shared ∧ (∃ m, P.wants (S.pc t) = some m ∧ S.poisoned m = true) ∨
      P.Enters S t ∧ P.next (S.pc t) e S.shared = .panic s) →
      S'.shared = P.drops (S.pc t) s → S'.pc t = P.dead →
      (∀ m, S'.poisoned m = false ↔ m ∉ P.holding held (S.pc t) ∧ S.poisoned m = false) →
      StepCase P held S t e S'

omit [DecidableEq μ] in
/-- What a thread has when it crashes is poisoned. -/
theorem System.OwnedBut.poisoned_crash {A : Finset μ} (h : S.OwnedBut held t A) (s : σ) (m : μ) :
    (P.crash S t s).poisoned m = false ↔ m ∉ A ∧ S.poisoned m = false := by
  simp only [Program.crash, System.move, System.unwind, Bool.or_eq_false_iff,
    decide_eq_false_iff_not, h.1 m]
  exact and_comm

theorem stepCase_perform {A : System τ μ σ π} (henters : P.Enters S t)
    (hpc : A.pc = S.pc) (hshared : A.shared = S.shared) (hpoisoned : A.poisoned = S.poisoned)
    (hbut : A.OwnedBut held t (P.holding held (S.pc t))) (hs : P.perform A t e = some S') :
    P.StepCase held S t e S' := by
  rw [Program.perform, hpc, hshared] at hs
  cases hact : P.next (S.pc t) e S.shared with
  | blocked => simp [hact] at hs
  | go s pc =>
      simp only [hact, Option.some.injEq] at hs
      rw [← hs]
      refine .acts henters (Or.inl ?_) hpoisoned
      simp [hact, System.move]
  | release m s pc =>
      simp only [hact, Option.some.injEq] at hs
      rw [← hs]
      refine .acts henters (Or.inr ⟨m, ?_⟩) hpoisoned
      simp [hact, System.move]
  | panic s =>
      simp only [hact, Option.some.injEq] at hs
      rw [← hs]
      refine .dies (Or.inr ⟨henters, hact⟩) (by rw [← hpc]; rfl) (Function.update_self _ _ _)
        fun m => ?_
      rw [hbut.poisoned_crash, hpoisoned]

/-- **Every step is one of these.** -/
theorem stepCase_of_step (h : S.Owned held) (hs : P.step S (t, e) = some S') :
    P.StepCase held S t e S' := by
  have hbut : S.OwnedBut held t (held (S.pc t)) := ⟨fun m => h t m, fun u _ m => h u m⟩
  rw [Program.step] at hs
  cases hw : P.wants (S.pc t) with
  | none =>
      simp only [hw] at hs
      have hholding : P.holding held (S.pc t) = held (S.pc t) := by
        rw [Program.holding, hw, Option.toFinset_none, Finset.union_empty]
      refine stepCase_perform (fun m hm => ?_) rfl rfl rfl ?_ hs
      · rw [hw] at hm
        cases hm
      · rwa [hholding]
  | some m =>
      have hholding : P.holding held (S.pc t) = insert m (held (S.pc t)) := by
        rw [Program.holding, hw, Option.toFinset_some, Finset.union_comm, ← Finset.insert_eq]
      simp only [hw] at hs
      split at hs
      · rename_i hfree
        split at hs
        · rename_i hpoisoned
          rw [Option.some.injEq] at hs
          rw [← hs]
          refine .dies (Or.inl ⟨rfl, m, hw, hpoisoned⟩) rfl (Function.update_self _ _ _) fun m' => ?_
          rw [hbut.poisoned_crash, hholding, Finset.mem_insert]
          constructor
          · rintro ⟨hnot, hclean⟩
            refine ⟨?_, hclean⟩
            rintro (rfl | hmem)
            · rw [hpoisoned] at hclean
              cases hclean
            · exact hnot hmem
          · exact fun hm' => ⟨fun hmem => hm'.1 (Or.inr hmem), hm'.2⟩
        · rename_i hpoisoned
          refine stepCase_perform (A := S.take t m) (fun m' hm' => ?_) rfl rfl rfl ?_ hs
          · rw [hw, Option.some.injEq] at hm'
            rw [← hm']
            exact ⟨hfree, by simpa using hpoisoned⟩
          · rw [hholding]
            exact h.take hfree
      · cases hs

/-- A poisoned mutex stays poisoned. -/
theorem poisoned_step (h : S.Owned held) {x : τ × ε} (hs : P.step S x = some S') {m : μ}
    (hm : S.poisoned m = true) : S'.poisoned m = true := by
  obtain ⟨t, e⟩ := x
  cases stepCase_of_step h hs with
  | acts henters hmoves hpoisoned => rw [hpoisoned, hm]
  | dies hcause hshared hdead hpoisoned =>
      by_contra hclean
      have hold := ((hpoisoned m).1 (Bool.eq_false_iff.2 hclean)).2
      rw [hm] at hold
      cases hold

/-- A dead thread takes no step. -/
theorem dead_step (hwants : P.wants P.dead = none) (hnext : ∀ e s, P.next P.dead e s = .blocked)
    {x : τ × ε} (hs : P.step S x = some S') {u : τ} (hu : S.pc u = P.dead) : S'.pc u = P.dead := by
  by_cases hux : u = x.1
  · rw [hux] at hu
    rw [Program.step, hu, hwants] at hs
    simp only [Program.perform, hu, hnext] at hs
    cases hs
  · rw [step_pc_of_ne hs hux, hu]

omit [DecidableEq τ] in
/-- A mutex that another thread holds is not one that `t` has or takes. -/
theorem System.Owned.notMem_holding (h : S.Owned held) (henters : P.Enters S t) {u : τ} (hu : u ≠ t)
    {m : μ} (hm : m ∈ held (S.pc u)) : m ∉ P.holding held (S.pc t) := by
  have hown := (h u m).2 hm
  rw [Program.holding, Finset.mem_union, Option.mem_toFinset]
  rintro (hheld | hwants)
  · rw [(h t m).2 hheld, Option.some_inj] at hown
    exact hu hown.symm
  · rw [(henters m hwants).1] at hown
    cases hown

omit [DecidableEq τ] in
/-- A mutex that is free after a step that did not touch it was free before. -/
theorem System.Owned.owner_eq_none (h : S.Owned held) (h' : S'.Owned held)
    (hpc : ∀ u, u ≠ t → S'.pc u = S.pc u) {m : μ} (hm : m ∉ P.holding held (S.pc t))
    (hfree : S'.owner m = none) : S.owner m = none := by
  cases hown : S.owner m with
  | none => rfl
  | some u =>
      have hmem := (h u m).1 hown
      by_cases hu : u = t
      · rw [hu] at hmem
        exact absurd (Finset.mem_union_left _ hmem) hm
      · rw [← hpc u hu] at hmem
        rw [(h' u m).2 hmem] at hfree
        cases hfree

/-- A mutex that a thread holds is not poisoned. -/
def System.Clean (S : System τ μ σ π) : Prop := ∀ t m, S.owner m = some t → S.poisoned m = false

/-- **A poisoned mutex is not taken again.** -/
theorem clean_step (hP : P.Annotates held) (h : S.Owned held) (hclean : S.Clean) {x : τ × ε}
    (hs : P.step S x = some S') : S'.Clean := by
  obtain ⟨t, e⟩ := x
  have h' := owned_step hP h hs
  intro u m hu
  have hmem : m ∈ held (S'.pc u) := (h' u m).1 hu
  have hother : u ≠ t → m ∈ held (S.pc u) := by
    intro hut
    rwa [step_pc_of_ne hs hut] at hmem
  cases stepCase_of_step h hs with
  | acts henters hmoves hpoisoned =>
      rw [hpoisoned]
      by_cases hut : u = t
      · subst hut
        have hholding := hP.subset_of_moves hmoves hmem
        rw [Program.holding, Finset.mem_union, Option.mem_toFinset] at hholding
        rcases hholding with hheld | hwants
        · exact hclean u m ((h u m).2 hheld)
        · exact (henters m hwants).2
      · exact hclean u m ((h u m).2 (hother hut))
  | @dies s hcause hshared hdead hpoisoned =>
      have hut : u ≠ t := by
        rintro rfl
        rw [hdead, hP.dead] at hmem
        exact absurd hmem (Finset.notMem_empty m)
      have hown := (h u m).2 (hother hut)
      refine (hpoisoned m).2 ⟨fun hholding => ?_, hclean u m hown⟩
      rcases hcause with ⟨-, m', hwants', hpoisoned'⟩ | ⟨henters, -⟩
      · rw [Program.holding, Finset.mem_union, Option.mem_toFinset] at hholding
        rcases hholding with hheld | hwants
        · rw [(h t m).2 hheld, Option.some_inj] at hown
          exact hut hown.symm
        · -- the thread dies of a poisoned mutex, and nobody holds that
          rw [hwants] at hwants'
          rw [← Option.some_inj.1 hwants', hclean u m ((h u m).2 (hother hut))] at hpoisoned'
          cases hpoisoned'
      · exact h.notMem_holding henters hut (hother hut) hholding

end Owners

end Locks
