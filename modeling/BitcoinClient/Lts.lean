/-
**Runs of labelled transition systems.**

A transition system is a relation `step s e t`: in the state `s` the event `e` may lead to `t`.
A run carries its *trace*, the list of the states it passes together with the event taken in each,
so that a hypothesis about a run is a hypothesis about the members of its trace.

Main definitions:

* `Lts.Run` — the runs from a state, each with its trace;
* `Lts.replay` — the state that a list of events leads to, for a system given by a function;
* `Lts.interleave` — the system of a family of components, of which one takes a step at a time;
* `Lts.projection` — the steps of one component in a trace of the family.

Main results:

* `Lts.Run.invariant` — the induction rule: an invariant that every step allowed by a condition
  preserves holds at the end of every run whose steps all meet the condition;
* `Lts.Run.always_iff` — the induction rule for a condition that is exact;
* `Lts.Run.relation` — the same as the first for a reflexive and transitive relation between states;
* `Lts.Run.refine` — the simulation rule: when every step either does nothing or takes a step of another
  system, seen through an abstraction function, every run is a run of that system;
* `Lts.Run.split`, `Lts.Run.split_of_mem` — a run splits where its trace does, at every member;
* `Lts.run_of_replay` — replaying a list of events gives a run;
* `Lts.run_projection` — a run of the family projects to a run of each component;
* `Lts.guarantee` — the assume-guarantee rule: what every component says of the messages it sends,
  as long as the messages that it receives are such, holds of all messages of the family.
-/

import Mathlib.Logic.Function.Basic
import Mathlib.Tactic.Common

set_option relaxedAutoImplicit false
set_option autoImplicit false

universe u v w

namespace Lts

variable {σ : Type u} {ε : Type v}

/-- `Run step s tr t`: a run from `s` to `t` with the trace `tr`. -/
inductive Run (step : σ → ε → σ → Prop) (s : σ) : List (σ × ε) → σ → Prop
  | nil : Run step s [] s
  | snoc {tr : List (σ × ε)} {m n : σ} {e : ε} :
      Run step s tr m → step m e n → Run step s (tr ++ [(m, e)]) n

namespace Run

variable {step : σ → ε → σ → Prop} {s t u : σ} {tr tr' : List (σ × ε)}

theorem single {e : ε} (h : step s e t) : Run step s [(s, e)] t := Run.snoc Run.nil h

theorem trans (h : Run step s tr t) (h' : Run step t tr' u) : Run step s (tr ++ tr') u := by
  induction h' with
  | nil => simpa using h
  | snoc _ hs ih =>
      rw [← List.append_assoc]
      exact ih.snoc hs

/-- A run splits where its trace does. -/
theorem split {tr₁ tr₂ : List (σ × ε)} {m : σ} {e : ε} (h : Run step s (tr₁ ++ (m, e) :: tr₂) t) :
    ∃ m', Run step s tr₁ m ∧ step m e m' ∧ Run step m' tr₂ t := by
  generalize htr : tr₁ ++ (m, e) :: tr₂ = tr at h
  induction h generalizing tr₂ with
  | nil => exact absurd htr (by simp)
  | @snoc tr m₀ n e₀ hr hs ih =>
      rcases List.eq_nil_or_concat tr₂ with rfl | ⟨tr₃, p, rfl⟩
      · obtain ⟨rfl, hp⟩ := List.append_inj' htr rfl
        obtain ⟨rfl, rfl⟩ := Prod.mk.inj (List.singleton_inj.1 hp)
        exact ⟨n, hr, hs, Run.nil⟩
      · rw [List.concat_eq_append, ← List.cons_append, ← List.append_assoc] at htr
        obtain ⟨htr', hp⟩ := List.append_inj' htr rfl
        obtain rfl := List.singleton_inj.1 hp
        obtain ⟨m', h₁, h₂, h₃⟩ := ih htr'
        rw [List.concat_eq_append]
        exact ⟨m', h₁, h₂, h₃.snoc hs⟩

/-- A run splits at every member of its trace. -/
theorem split_of_mem (h : Run step s tr t) {m : σ} {e : ε} (hm : (m, e) ∈ tr) :
    ∃ tr₁ m' tr₂, Run step s tr₁ m ∧ step m e m' ∧ Run step m' tr₂ t ∧
      tr = tr₁ ++ (m, e) :: tr₂ := by
  obtain ⟨tr₁, tr₂, rfl⟩ := List.append_of_mem hm
  obtain ⟨m', h₁, h₂, h₃⟩ := h.split
  exact ⟨tr₁, m', tr₂, h₁, h₂, h₃, rfl⟩

/-- **The induction rule for invariants.**  `C` is a condition on the steps of the run. -/
theorem invariant {I : σ → Prop} {C : σ → ε → Prop} (h : Run step s tr t) (h₀ : I s)
    (hstep : ∀ m e n, I m → C m e → step m e n → I n) (hC : ∀ p ∈ tr, C p.1 p.2) : I t := by
  induction h with
  | nil => exact h₀
  | snoc _ hs ih =>
      have hprev := ih fun p hp => hC p (List.mem_append_left _ hp)
      exact hstep _ _ _ hprev (hC _ (List.mem_append_right _ (List.mem_singleton.2 rfl))) hs

/-- A reflexive and transitive relation that every step of a run establishes holds between its
ends.  `I` is an invariant of the run. -/
theorem relation {I : σ → Prop} {C : σ → ε → Prop} {R : σ → σ → Prop} (h : Run step s tr t)
    (h₀ : I s) (hstep : ∀ m e n, I m → C m e → step m e n → I n) (hrefl : ∀ m, R m m)
    (htrans : ∀ a b c, R a b → R b c → R a c)
    (hR : ∀ m e n, I m → C m e → step m e n → R m n) (hC : ∀ p ∈ tr, C p.1 p.2) : R s t := by
  induction h with
  | nil => exact hrefl s
  | @snoc tr m n e hr hs ih =>
      have hC' : ∀ p ∈ tr, C p.1 p.2 := fun p hp => hC p (List.mem_append_left _ hp)
      have hCe : C m e := hC (m, e) (List.mem_append_right _ (List.mem_singleton.2 rfl))
      exact htrans _ _ _ (ih hC') (hR _ _ _ (hr.invariant h₀ hstep hC') hCe hs)

/-- What is collected along a trace that is one step longer. -/
theorem filterMap_concat {α β : Type*} (f : α → Option β) (l : List α) (x : α) :
    (l ++ [x]).filterMap f = l.filterMap f ++ (f x).toList := by
  rw [List.filterMap_append]
  cases h : f x <;> simp [h]

/-- The trace of a run as the trace of another system: `label` says which event a step takes there, if
any. -/
def abstractTrace {τ : Type*} {δ : Type*} (abs : σ → τ) (label : σ → ε → Option δ)
    (tr : List (σ × ε)) : List (τ × δ) :=
  tr.filterMap fun p => (label p.1 p.2).map fun d => (abs p.1, d)

/-- **The simulation rule.**  `abs` is the abstraction function, `I` an invariant and `C` a condition on the
steps of the run. -/
theorem refine {τ : Type*} {δ : Type*} {step' : τ → δ → τ → Prop} (abs : σ → τ)
    (label : σ → ε → Option δ) {I : List (σ × ε) → σ → Prop} {C : σ → ε → Prop}
    (h : Run step s tr t) (h₀ : I [] s)
    (hstep : ∀ tr m e n, I tr m → C m e → step m e n → I (tr ++ [(m, e)]) n ∧
      (label m e = none ∧ abs n = abs m ∨ ∃ d, label m e = some d ∧ step' (abs m) d (abs n)))
    (hC : ∀ p ∈ tr, C p.1 p.2) :
    I tr t ∧ Run step' (abs s) (abstractTrace abs label tr) (abs t) := by
  induction h with
  | nil => exact ⟨h₀, Run.nil⟩
  | @snoc tr m n e hr hs ih =>
      obtain ⟨hI, hrun⟩ := ih fun p hp => hC p (List.mem_append_left _ hp)
      have hCe : C m e := hC (m, e) (List.mem_append_right _ (List.mem_singleton.2 rfl))
      obtain ⟨hI', hcase⟩ := hstep tr m e n hI hCe hs
      refine ⟨hI', ?_⟩
      rw [abstractTrace, List.filterMap_append, ← abstractTrace]
      rcases hcase with ⟨hlabel, habs⟩ | ⟨d, hlabel, hs'⟩
      · -- the other system does not move
        simpa [hlabel, habs] using hrun
      · simpa [hlabel] using hrun.snoc hs'

/-- **The induction rule for exact conditions.**  When a good state is followed by a good one exactly if
the step meets `C`, the states of a run are all good exactly if all its steps meet `C`. -/
theorem always_iff {I G : σ → Prop} {C : σ → ε → Prop} (h : Run step s tr t) (h₀ : I s)
    (hI : ∀ m e n, I m → step m e n → I n) (hG : G s)
    (hstep : ∀ m e n, I m → G m → step m e n → (G n ↔ C m e)) :
    ((∀ p ∈ tr, G p.1) ∧ G t) ↔ ∀ p ∈ tr, C p.1 p.2 := by
  induction h with
  | nil => simpa using hG
  | @snoc tr m n e hr hs ih =>
      have hm : I m := hr.invariant (C := fun _ _ => True) h₀ (fun a e b ha _ => hI a e b ha)
        fun _ _ => trivial
      simp only [List.forall_mem_append, List.forall_mem_singleton]
      constructor
      · rintro ⟨⟨htr, hgm⟩, hgn⟩
        exact ⟨ih.1 ⟨htr, hgm⟩, (hstep m e n hm hgm hs).1 hgn⟩
      · rintro ⟨htr, hc⟩
        obtain ⟨hall, hgm⟩ := ih.2 htr
        exact ⟨⟨hall, hgm⟩, (hstep m e n hm hgm hs).2 hc⟩

end Run

/-! ### Systems given by a function -/

/-- The state that the events of a list lead to; `none` when one of them is not enabled. -/
def replay (next : σ → ε → Option σ) : σ → List ε → Option σ
  | s, [] => some s
  | s, e :: es => (next s e).bind fun m => replay next m es

/-- The trace of a replay. -/
def replayTrace (next : σ → ε → Option σ) : σ → List ε → List (σ × ε)
  | _, [] => []
  | s, e :: es => (s, e) :: ((next s e).map fun m => replayTrace next m es).getD []

/-- Replaying a list of events gives a run. -/
theorem run_of_replay {next : σ → ε → Option σ} : ∀ {es : List ε} {s t : σ},
    replay next s es = some t →
      Run (fun m e n => next m e = some n) s (replayTrace next s es) t := by
  intro es
  induction es with
  | nil =>
      intro s t h
      rw [replay, Option.some_inj] at h
      rw [h]
      exact Run.nil
  | cons e es ih =>
      intro s t h
      rw [replay] at h
      cases hm : next s e with
      | none => simp [hm] at h
      | some m =>
          rw [hm, Option.bind_some] at h
          have hfirst : Run (fun m e n => next m e = some n) s [(s, e)] m := Run.single hm
          have hrun := hfirst.trans (ih h)
          simpa [replayTrace, hm] using hrun

/-- An event of a replay is taken in the state to which those before it lead. -/
theorem mem_replayTrace {next : σ → ε → Option σ} {x : σ × ε} : ∀ {es : List ε} {s : σ},
    x ∈ replayTrace next s es → ∃ k, replay next s (es.take k) = some x.1 ∧ es[k]? = some x.2 := by
  intro es
  induction es with
  | nil => intro s hx; exact absurd hx List.not_mem_nil
  | cons e es ih =>
      intro s hx
      rw [replayTrace] at hx
      rcases List.mem_cons.1 hx with rfl | hx
      · exact ⟨0, rfl, rfl⟩
      · cases hm : next s e with
        | none => simp [hm] at hx
        | some m =>
            rw [hm, Option.map_some, Option.getD_some] at hx
            obtain ⟨k, hreplay, hk⟩ := ih hx
            refine ⟨k + 1, ?_, hk⟩
            rw [List.take_succ_cons, replay, hm]
            exact hreplay

/-- Replaying a list of events to a state with a property. -/
theorem exists_run_of_replay {next : σ → ε → Option σ} {es : List ε} {s : σ} {P : σ → Prop}
    (h : ∃ t ∈ replay next s es, P t) :
    ∃ t, Run (fun m e n => next m e = some n) s (replayTrace next s es) t ∧ P t := by
  obtain ⟨t, ht, hP⟩ := h
  exact ⟨t, run_of_replay ht, hP⟩

/-! ### Families of components -/

section

variable {ι : Type w} [DecidableEq ι] (next : σ → ε → Option σ) (enabled : (ι → σ) → ε → Prop)
  [∀ N e, Decidable (enabled N e)]

/-- One component takes a step with an event that the family enables; the others stay. -/
def interleave (N : ι → σ) (x : ι × ε) : Option (ι → σ) :=
  if enabled N x.2 then (next (N x.1) x.2).map (Function.update N x.1) else none

/-- The steps of the component `i` in a trace of the family. -/
def projection (i : ι) (tr : List ((ι → σ) × (ι × ε))) : List (σ × ε) :=
  tr.filterMap fun x => if x.2.1 = i then some (x.1 i, x.2.2) else none

variable {next enabled}

theorem interleave_eq_some {N N' : ι → σ} {x : ι × ε} :
    interleave next enabled N x = some N' ↔
      enabled N x.2 ∧ ∃ n', next (N x.1) x.2 = some n' ∧ N' = Function.update N x.1 n' := by
  rw [interleave]
  split
  · rename_i h
    simp [h, eq_comm]
  · rename_i h
    simp [h]

omit [∀ N e, Decidable (enabled N e)] in
theorem projection_snoc (i : ι) (tr : List ((ι → σ) × (ι × ε))) (N : ι → σ) (x : ι × ε) :
    projection i (tr ++ [(N, x)]) =
      projection i tr ++ if x.1 = i then [(N i, x.2)] else [] := by
  rw [projection, List.filterMap_append]
  by_cases h : x.1 = i
  · simp [projection, h]
  · simp [projection, h]

/-- **A run of the family projects to a run of each component.** -/
theorem run_projection {N₀ N : ι → σ} {tr : List ((ι → σ) × (ι × ε))}
    (h : Run (fun M x M' => interleave next enabled M x = some M') N₀ tr N) (i : ι) :
    Run (fun m e m' => next m e = some m') (N₀ i) (projection i tr) (N i) := by
  induction h with
  | nil => exact Run.nil
  | @snoc tr M N x _ hstep ih =>
      obtain ⟨-, n', hn', rfl⟩ := interleave_eq_some.1 hstep
      rw [projection_snoc]
      by_cases hi : x.1 = i
      · subst hi
        rw [if_pos rfl, Function.update_self]
        exact ih.snoc hn'
      · -- another component has moved
        rw [if_neg hi, List.append_nil, Function.update_of_ne (Ne.symm hi)]
        exact ih

/-- **The assume-guarantee rule.**  The components exchange messages: `received` is what an event
delivers, and `sent` lists what a component has sent.  `C` is a condition on the steps of the run. -/
theorem guarantee {μ : Type*} (received : ε → Option μ) (sent : σ → List μ)
    (hdeliver : ∀ N e, enabled N e → ∀ m ∈ received e, ∃ i, m ∈ sent (N i)) {I : σ → Prop}
    {P : μ → Prop} {C : σ → ε → Prop}
    (hstep : ∀ n e n', I n → C n e → (∀ m ∈ received e, P m) → next n e = some n' →
      I n' ∧ ∀ m ∈ sent n', m ∈ sent n ∨ P m)
    {N₀ N : ι → σ} {tr : List ((ι → σ) × (ι × ε))}
    (h : Run (fun M x M' => interleave next enabled M x = some M') N₀ tr N) (hI : ∀ i, I (N₀ i))
    (hP : ∀ i, ∀ m ∈ sent (N₀ i), P m) (hC : ∀ x ∈ tr, C (x.1 x.2.1) x.2.2) :
    ∀ i, I (N i) ∧ ∀ m ∈ sent (N i), P m := by
  induction h with
  | nil => exact fun i => ⟨hI i, hP i⟩
  | @snoc tr M N x _ hs ih =>
      have hprev := ih fun y hy => hC y (List.mem_append_left _ hy)
      obtain ⟨hen, n', hn', rfl⟩ := interleave_eq_some.1 hs
      -- what is delivered was sent by one of the components
      have hreceived : ∀ m ∈ received x.2, P m := by
        intro m hm
        obtain ⟨j, hj⟩ := hdeliver M x.2 hen m hm
        exact (hprev j).2 m hj
      have hCx := hC (M, x) (List.mem_append_right _ (List.mem_singleton.2 rfl))
      obtain ⟨hI', hsent⟩ := hstep _ _ _ (hprev x.1).1 hCx hreceived hn'
      intro i
      by_cases hi : i = x.1
      · subst hi
        rw [Function.update_self]
        exact ⟨hI', fun m hm => (hsent m hm).elim ((hprev x.1).2 m) id⟩
      · rw [Function.update_of_ne hi]
        exact hprev i

end

end Lts
