/-
**Walks along pointers.**

A partial function `next` gives each node at most one successor.  A walk follows it until there is
no successor, in a bounded number of rounds.  When the ranks go down along `next` a walk visits a
node once, so as many rounds as there are nodes with a successor are enough.

Main definitions:

* `Pointers.walk` — the nodes visited in at most `k` rounds, those without a successor left out;
* `Pointers.path` — the whole walk, when it ends within `k` rounds;
* `Pointers.Descending` — the ranks go down along `next`;
* `Pointers.Acyclic` — following `next` never leads back;
* `Pointers.IsPath` — the walk from a node to its end.

Main results:

* `Pointers.length_walk_of_extends` — a walk that used all its rounds is not cut short when pointers
  are added;
* `Pointers.nodup_walk` — a walk along falling ranks has no repetition;
* `Pointers.length_walk_le_card` — a walk is as long as it will ever be after as many rounds as
  there are nodes with a successor;
* `Pointers.exists_path`, `Pointers.path_eq_none` — a walk ends after as many nodes as the rank says
  when the ranks go down by one, and it never ends when every successor has one;
* `Pointers.exists_descending`, `Pointers.exists_path_of_descending` — without cycles there are falling
  ranks, and with these a walk ends;
* `Pointers.exists_path_of_acyclic`, `Pointers.nodup_of_isChain` — without cycles a walk ends after as many
  rounds as there are nodes with a successor, and nothing is visited twice;
* `Pointers.isPath_path` — **the whole walk**: its start, its links and its end.
-/

import Mathlib.Data.Finset.Card
import Mathlib.Data.List.Chain
import Mathlib.Data.List.Nodup
import Mathlib.Logic.Relation
import Mathlib.Tactic.Common

set_option relaxedAutoImplicit false
set_option autoImplicit false

universe u

namespace Pointers

variable {α : Type u} {next next' : α → Option α} {rank : α → ℕ}

/-- The nodes with a successor that are visited from `a` on, in at most `k` rounds. -/
def walk (next : α → Option α) : ℕ → α → List α
  | 0, _ => []
  | k + 1, a =>
    match next a with
    | none => []
    | some b => a :: walk next k b

@[simp] theorem walk_zero (a : α) : walk next 0 a = [] := rfl

theorem walk_succ_of_some {a b : α} (h : next a = some b) (k : ℕ) :
    walk next (k + 1) a = a :: walk next k b := by
  rw [walk, h]

theorem walk_succ_of_none {a : α} (h : next a = none) (k : ℕ) : walk next (k + 1) a = [] := by
  rw [walk, h]

/-- More rounds only make a walk longer. -/
theorem length_walk_mono : ∀ {k k' : ℕ}, k ≤ k' → ∀ (a : α),
    (walk next k a).length ≤ (walk next k' a).length := by
  intro k
  induction k with
  | zero => intro k' _ a; simp
  | succ k ih =>
      intro k' hk a
      obtain ⟨j, rfl⟩ : ∃ j, k' = j + 1 := ⟨k' - 1, by omega⟩
      cases h : next a with
      | none => simp [walk_succ_of_none h]
      | some b =>
          rw [walk_succ_of_some h, walk_succ_of_some h, List.length_cons, List.length_cons]
          have hle := ih (show k ≤ j by omega) b
          omega

/-- A walk that used all its rounds uses them all when pointers are added. -/
theorem length_walk_of_extends (hext : ∀ a b, next a = some b → next' a = some b) :
    ∀ {k : ℕ} {a : α}, (walk next k a).length = k → (walk next' k a).length = k := by
  intro k
  induction k with
  | zero => intro a _; simp
  | succ k ih =>
      intro a h
      cases hn : next a with
      | none => simp [walk_succ_of_none hn] at h
      | some b =>
          rw [walk_succ_of_some hn, List.length_cons] at h
          rw [walk_succ_of_some (hext a b hn), List.length_cons, ih (by omega)]

theorem isSome_of_mem_walk : ∀ {k : ℕ} {a x : α}, x ∈ walk next k a → (next x).isSome := by
  intro k
  induction k with
  | zero => intro a x hx; simp at hx
  | succ k ih =>
      intro a x hx
      cases h : next a with
      | none => simp [walk_succ_of_none h] at hx
      | some b =>
          rw [walk_succ_of_some h] at hx
          rcases List.mem_cons.1 hx with rfl | hx
          · rw [h]
            rfl
          · exact ih hx

/-- The ranks go down along `next`. -/
def Descending (next : α → Option α) (rank : α → ℕ) : Prop :=
  ∀ a b, next a = some b → rank b < rank a

theorem rank_le_of_mem_walk (hrank : Descending next rank) :
    ∀ {k : ℕ} {a x : α}, x ∈ walk next k a → rank x ≤ rank a := by
  intro k
  induction k with
  | zero => intro a x hx; simp at hx
  | succ k ih =>
      intro a x hx
      cases h : next a with
      | none => simp [walk_succ_of_none h] at hx
      | some b =>
          rw [walk_succ_of_some h] at hx
          rcases List.mem_cons.1 hx with rfl | hx
          · exact le_rfl
          · exact (ih hx).trans (hrank a b h).le

/-- **A walk along falling ranks has no repetition.** -/
theorem nodup_walk (hrank : Descending next rank) : ∀ (k : ℕ) (a : α), (walk next k a).Nodup := by
  intro k
  induction k with
  | zero => intro a; simp
  | succ k ih =>
      intro a
      cases h : next a with
      | none => simp [walk_succ_of_none h]
      | some b =>
          rw [walk_succ_of_some h, List.nodup_cons]
          refine ⟨fun hmem => ?_, ih b⟩
          have hle := rank_le_of_mem_walk hrank hmem
          have hlt := hrank a b h
          omega

/-- A walk along falling ranks is no longer than the number of the nodes with a successor. -/
theorem length_walk_le [DecidableEq α] (hrank : Descending next rank) {s : Finset α}
    (hs : ∀ a, (next a).isSome → a ∈ s) (k : ℕ) (a : α) : (walk next k a).length ≤ s.card := by
  rw [← List.toFinset_card_of_nodup (nodup_walk hrank k a)]
  refine Finset.card_le_card fun x hx => hs x ?_
  exact isSome_of_mem_walk (List.mem_toFinset.1 hx)

/-- **As many rounds as there are nodes with a successor are enough.** -/
theorem length_walk_le_card [DecidableEq α] (hrank : Descending next rank) {s : Finset α}
    (hs : ∀ a, (next a).isSome → a ∈ s) (k : ℕ) (a : α) :
    (walk next k a).length ≤ (walk next s.card a).length := by
  -- cut to the rounds that it needed, the walk is as long
  have hcut : ∀ (k : ℕ) (a : α),
      (walk next (walk next k a).length a).length = (walk next k a).length := by
    intro k
    induction k with
    | zero => intro a; simp
    | succ k ih =>
        intro a
        cases h : next a with
        | none => simp [walk_succ_of_none h]
        | some b => rw [walk_succ_of_some h, List.length_cons, walk_succ_of_some h,
            List.length_cons, ih]
  rw [← hcut]
  exact length_walk_mono (length_walk_le hrank hs k a) a

/-! ### Whole walks -/

/-- The nodes with a successor on the walk from `a`, when it ends within `k` rounds. -/
def path (next : α → Option α) : ℕ → α → Option (List α)
  | 0, _ => none
  | k + 1, a =>
    match next a with
    | none => some []
    | some b => (path next k b).map fun l => a :: l

/-- **A walk along ranks that go down by one** visits as many nodes as the rank says. -/
theorem exists_path (hzero : ∀ a, next a = none → rank a = 0)
    (hsucc : ∀ a b, next a = some b → rank a = rank b + 1) :
    ∀ {k : ℕ} {a : α}, rank a < k → ∃ l, path next k a = some l ∧ l.length = rank a := by
  intro k
  induction k with
  | zero => intro a ha; omega
  | succ k ih =>
      intro a ha
      unfold path
      cases h : next a with
      | none => exact ⟨[], rfl, (hzero a h).symm⟩
      | some b =>
          have hrank := hsucc a b h
          obtain ⟨l, hl, hlen⟩ := ih (a := b) (by omega)
          exact ⟨a :: l, by simp only [hl, Option.map_some], by rw [List.length_cons, hlen, hrank]⟩

/-- **A walk never ends** when every node on it has a successor. -/
theorem path_eq_none (hnext : ∀ a b, next a = some b → (next b).isSome) :
    ∀ {k : ℕ} {a : α}, (next a).isSome → path next k a = none := by
  intro k
  induction k with
  | zero => intro a _; rfl
  | succ k ih =>
      intro a ha
      obtain ⟨b, h⟩ := Option.isSome_iff_exists.1 ha
      rw [path, h]
      simp only [ih (hnext a b h), Option.map_none]

theorem path_of_none {a : α} (h : next a = none) (k : ℕ) : path next (k + 1) a = some [] := by
  rw [path, h]

theorem path_of_some {a b : α} (h : next a = some b) (k : ℕ) :
    path next (k + 1) a = (path next k b).map fun l => a :: l := by
  rw [path, h]

/-- The first round of a walk that ends. -/
theorem path_cases {k : ℕ} {a : α} {l : List α} (hl : path next (k + 1) a = some l) :
    (next a = none ∧ l = []) ∨
      ∃ b rest, next a = some b ∧ path next k b = some rest ∧ l = a :: rest := by
  cases h : next a with
  | none =>
      rw [path_of_none h, Option.some_inj] at hl
      exact Or.inl ⟨rfl, hl.symm⟩
  | some b =>
      rw [path_of_some h, Option.map_eq_some_iff] at hl
      obtain ⟨rest, hrest, rfl⟩ := hl
      exact Or.inr ⟨b, rest, rfl, hrest, rfl⟩

/-- A walk along falling ranks ends. -/
theorem exists_path_of_descending (hrank : Descending next rank) :
    ∀ {k : ℕ} {a : α}, rank a < k → ∃ l, path next k a = some l := by
  intro k
  induction k with
  | zero => intro a ha; omega
  | succ k ih =>
      intro a ha
      cases h : next a with
      | none => exact ⟨[], path_of_none h k⟩
      | some b =>
          have hlt := hrank a b h
          obtain ⟨l, hl⟩ := ih (a := b) (by omega)
          exact ⟨a :: l, by rw [path_of_some h, hl, Option.map_some]⟩

/-- Following `next` never leads back. -/
def Acyclic (next : α → Option α) : Prop :=
  ∀ a, ¬ Relation.TransGen (fun a b => next a = some b) a a

/-- A relation along which a rank falls has no cycles. -/
theorem not_transGen_of_falling {r : α → α → Prop} (rank : α → ℕ)
    (hrank : ∀ a b, r a b → rank b < rank a) (a : α) : ¬ Relation.TransGen r a a := by
  have hlt : ∀ a b, Relation.TransGen r a b → rank b < rank a := by
    intro a b hab
    induction hab with
    | single h => exact hrank _ _ h
    | tail _ h ih => exact (hrank _ _ h).trans ih
  exact fun ha => absurd (hlt a a ha) (Nat.lt_irrefl _)

theorem acyclic_of_descending (hrank : Descending next rank) : Acyclic next :=
  not_transGen_of_falling rank hrank

open Classical in
/-- Without cycles, the number of the nodes that lie ahead is a falling rank, when finitely many nodes have a
successor. -/
theorem exists_descending (hacyclic : Acyclic next) {s : Finset α}
    (hs : ∀ a, (next a).isSome → a ∈ s) : ∃ rank : α → ℕ, Descending next rank := by
  let Ahead (a b : α) : Prop := Relation.ReflTransGen (fun a b => next a = some b) a b
  refine ⟨fun a => (s.filter (Ahead a)).card, fun a b h => Finset.card_lt_card ?_⟩
  rw [Finset.ssubset_iff_of_subset fun x hx => ?_]
  · have hmem : a ∈ s := hs a (by rw [h]; rfl)
    refine ⟨a, Finset.mem_filter.2 ⟨hmem, Relation.ReflTransGen.refl⟩, fun hback => ?_⟩
    exact hacyclic a (Relation.TransGen.head' h (Finset.mem_filter.1 hback).2)
  · obtain ⟨hxs, hx⟩ := Finset.mem_filter.1 hx
    exact Finset.mem_filter.2 ⟨hxs, Relation.ReflTransGen.head h hx⟩

/-- A walk that ends has visited its path. -/
theorem walk_of_path : ∀ {k : ℕ} {a : α} {l : List α}, path next k a = some l →
    walk next k a = l := by
  intro k
  induction k with
  | zero => intro a l hl; cases hl
  | succ k ih =>
      intro a l hl
      rcases path_cases hl with ⟨h, rfl⟩ | ⟨b, rest, h, hrest, rfl⟩
      · exact walk_succ_of_none h k
      · rw [walk_succ_of_some h, ih hrest]

/-- One round more than it visits nodes is enough for a walk that ends. -/
theorem path_of_length_lt : ∀ {k k' : ℕ} {a : α} {l : List α}, path next k a = some l →
    l.length < k' → path next k' a = some l := by
  intro k
  induction k with
  | zero => intro k' a l hl; cases hl
  | succ k ih =>
      intro k' a l hl hlt
      obtain ⟨k', rfl⟩ : ∃ j, k' = j + 1 := ⟨k' - 1, by omega⟩
      rcases path_cases hl with ⟨h, rfl⟩ | ⟨b, rest, h, hrest, rfl⟩
      · exact path_of_none h k'
      · rw [path_of_some h, ih hrest (Nat.lt_of_succ_lt_succ hlt), Option.map_some]

/-- A walk that ends has a round left for its end. -/
theorem length_lt_of_path : ∀ {k : ℕ} {a : α} {l : List α}, path next k a = some l → l.length < k := by
  intro k
  induction k with
  | zero => intro a l hl; cases hl
  | succ k ih =>
      intro a l hl
      rcases path_cases hl with ⟨-, rfl⟩ | ⟨b, rest, -, hrest, rfl⟩
      · exact Nat.succ_pos k
      · exact Nat.succ_lt_succ (ih hrest)

/-- A walk ends in one way, whatever the number of rounds it is given. -/
theorem path_unique {k k' : ℕ} {a : α} {l l' : List α} (h : path next k a = some l)
    (h' : path next k' a = some l') : l = l' := by
  have hmax : l.length < l.length + l'.length + 1 := by omega
  have hmax' : l'.length < l.length + l'.length + 1 := by omega
  rw [← Option.some_inj, ← path_of_length_lt h hmax, path_of_length_lt h' hmax']

/-- Two walks that end and visit the same nodes end within the same numbers of rounds. -/
theorem path_congr_of_eq {k₀ : ℕ} {a : α} {l : List α} (h : path next k₀ a = some l)
    (h' : path next' k₀ a = some l) (k : ℕ) : path next k a = path next' k a := by
  by_cases hlt : l.length < k
  · rw [path_of_length_lt h hlt, path_of_length_lt h' hlt]
  · have hnone : ∀ {f : α → Option α}, path f k₀ a = some l → path f k a = none := by
      intro f hf
      rw [Option.eq_none_iff_forall_ne_some]
      intro l' hl'
      rw [path_unique hf hl'] at hlt
      exact hlt (length_lt_of_path hl')
    rw [hnone h, hnone h']

/-- **Without cycles a walk ends**: it visits each of the nodes with a successor once at most. -/
theorem exists_path_of_acyclic [DecidableEq α] (hacyclic : Acyclic next) {s : Finset α}
    (hs : ∀ a, (next a).isSome → a ∈ s) (a : α) :
    ∃ l, path next (s.card + 1) a = some l ∧ l.length ≤ s.card ∧ l.Nodup := by
  obtain ⟨rank, hrank⟩ := exists_descending hacyclic hs
  obtain ⟨l, hl⟩ := exists_path_of_descending hrank (Nat.lt_succ_self (rank a))
  have hwalk := walk_of_path hl
  have hlen : l.length ≤ s.card := hwalk ▸ length_walk_le hrank hs _ a
  exact ⟨l, path_of_length_lt hl (Nat.lt_succ_of_le hlen), hlen, hwalk ▸ nodup_walk hrank _ a⟩

/-- A chain along a relation without cycles has no repetition. -/
theorem nodup_of_isChain {r : α → α → Prop} (hacyclic : ∀ a, ¬ Relation.TransGen r a a) {l : List α}
    (h : l.IsChain r) : l.Nodup := by
  have hpairs : l.Pairwise (Relation.TransGen r) :=
    (h.imp fun _ _ => Relation.TransGen.single).pairwise
  refine hpairs.imp fun {a b} hab heq => ?_
  rw [heq] at hab
  exact hacyclic b hab

/-- What a whole walk is: it starts at `a`, it goes along `next` through nodes with a successor, and that of
its last node has none. -/
structure IsPath (next : α → Option α) (a : α) (l : List α) : Prop where
  head : l.head? = some a
  isSome : ∀ x ∈ l, (next x).isSome
  linked : l.IsChain fun x y => next x = some y
  last : ∀ x ∈ l.getLast?, ∃ y, next x = some y ∧ next y = none

/-- **The whole walk from a node with a successor.** -/
theorem isPath_path : ∀ {k : ℕ} {a b : α} {l : List α}, next a = some b → path next k a = some l →
    IsPath next a l := by
  intro k
  induction k with
  | zero => intro a b l _ hl; cases hl
  | succ k ih =>
      intro a b l h hl
      rw [path_of_some h, Option.map_eq_some_iff] at hl
      obtain ⟨rest, hrest, rfl⟩ := hl
      cases hb : next b with
      | none =>
          -- the walk ends here
          obtain rfl : rest = [] := by
            cases k with
            | zero => cases hrest
            | succ k => exact Option.some_inj.1 (hrest.symm.trans (path_of_none hb k))
          refine ⟨rfl, fun x hx => ?_, List.isChain_singleton a, fun x hx => ?_⟩
          · rw [List.mem_singleton.1 hx, h]
            rfl
          · obtain rfl : a = x := Option.some_inj.1 hx
            exact ⟨b, h, hb⟩
      | some c =>
          obtain ⟨hhead, hsome, hlinked, hlast⟩ := ih hb hrest
          refine ⟨rfl, fun x hx => ?_, hlinked.cons fun y hy => ?_, fun x hx => hlast x ?_⟩
          · rcases List.mem_cons.1 hx with rfl | hx
            · rw [h]
              rfl
            · exact hsome x hx
          · obtain rfl : b = y := Option.some_inj.1 (hhead.symm.trans hy)
            exact h
          · obtain ⟨c', rest', rfl⟩ := List.exists_cons_of_ne_nil
              (show rest ≠ [] by rintro rfl; cases hhead)
            rwa [List.getLast?_cons_cons] at hx

end Pointers
