/-
**Blocks that the orphan search leaves behind.**

The orphan search follows the first child only, and the positions that it visits are removed without
allowing for the positions removed before.  When a new block has two new children, delivering them
before it strands the second one; when it has a new child and a new grandchild, delivering these two
before it removes the child from the buffer and a wrong block or none in place of the grandchild.
Either way a block of the set is left in the buffer, or the worker panics.

So when no parked block is a child of a new one, deliveries are independent of the order exactly when
the blocks are unentangled.

Main definitions:

* `BitcoinClient.Calm` — no parked block is a child of one to be delivered;
* `BitcoinClient.Sorted` — parents before children;
* `BitcoinClient.Entangled` — a new block with a second child, or with a grandchild.

Main results:

* `BitcoinClient.calm_run` — a calm delivery of sorted blocks removes nothing from the buffer;
* `BitcoinClient.sorted_run` — a delivery of sorted blocks attaches them all;
* `BitcoinClient.Entangled.strands` — **a second child, or a grandchild, is left in the buffer**;
* `BitcoinClient.arrival_order_iff` — when the arrival order does not matter.
-/

import BitcoinClient.ArrivalOrder

set_option relaxedAutoImplicit false
set_option autoImplicit false

namespace BitcoinClient

variable [Crypto]

/-! ### Calm deliveries -/

/-- The blocks stand in the order of a rank that rises from parents to children. -/
def Sorted (rank : H256 → ℕ) (L : List Block) : Prop :=
  L.Pairwise fun a b => rank a.hash ≤ rank b.hash

instance (rank : H256 → ℕ) (L : List Block) : Decidable (Sorted rank L) :=
  inferInstanceAs (Decidable (L.Pairwise _))

/-- No parked block is a child of a block of `L` that is not stored. -/
def Calm (m : Worker) (L : List Block) : Prop :=
  ∀ z ∈ m.orphanBuffer, ∀ x ∈ L, m.blockchain.getBlock x.hash = none → z.getParent ≠ x.hash

section

variable {m : Worker} {L : List Block} {x : Block}

/-- A new block without a parked child is parked, or settled and nothing else. -/
theorem calm_step (hnone : ∀ z ∈ m.orphanBuffer, z.getParent ≠ x.hash) (hlen : x.length ≠ 1) :
    (m.handleNewBlock x).Ensures fun m' _ =>
      (m'.blockchain = m.blockchain ∧ m'.orphanBuffer = m.orphanBuffer ++ [x] ∧
          m.blockchain.getBlock x.getParent = none) ∨
        ∃ p, m.blockchain.getBlock x.getParent = some p ∧
          Settles m.blockchain x p m'.blockchain ∧ m'.orphanBuffer = m.orphanBuffer := by
  refine (Worker.handleNewBlock_ensures hlen).mono fun m' _ h => ?_
  rcases h with ⟨hpar, hchain, hbuf⟩ | ⟨p, path, c₁, hp, hsettle, hpath, hall, hremove⟩
  · exact Or.inl ⟨hchain, hbuf, hpar⟩
  · rw [searchPath_none (findChild_eq_none.2 hnone), Option.some_inj] at hpath
    rw [← hpath] at hall hremove
    rw [SettlesAll] at hall
    rw [List.map_nil, removeAll, Exec.done.injEq] at hremove
    exact Or.inr ⟨p, hp, hall ▸ hsettle, hremove.1.symm⟩

/-- **A calm delivery of sorted blocks removes nothing from the buffer**, and adds blocks delivered. -/
theorem calm_run {rank : H256 → ℕ} : ∀ (L : List Block) (hs : List H256) (m : Worker),
    (∀ x ∈ L, rank x.getParent < rank x.hash) → (∀ x ∈ L, x.length ≠ 1) → Sorted rank L →
      Calm m L → (m.onBlocks L hs).Ensures fun m' _ =>
        (∃ R, m'.orphanBuffer = m.orphanBuffer ++ R ∧ R ⊆ L) ∧
          ∀ h, (m.blockchain.getBlock h).isSome → (m'.blockchain.getBlock h).isSome := by
  intro L
  induction L with
  | nil =>
      intro hs m _ _ _ _
      rw [Worker.onBlocks, Exec.ensures_done]
      exact ⟨⟨[], (List.append_nil _).symm, List.Subset.refl _⟩, fun _ h => h⟩
  | cons x L ih =>
      intro hs m hrank hlen hsorted hcalm
      obtain ⟨hx, hsorted'⟩ := List.pairwise_cons.1 hsorted
      have hrank' : ∀ y ∈ L, rank y.getParent < rank y.hash :=
        fun y hy => hrank y (List.mem_cons_of_mem _ hy)
      have hlen' : ∀ y ∈ L, y.length ≠ 1 := fun y hy => hlen y (List.mem_cons_of_mem _ hy)
      rw [Worker.onBlocks]
      cases hb : m.blockchain.getBlock x.hash with
      | some b =>
          have hcalm' : Calm m L := fun z hz y hy => hcalm z hz y (List.mem_cons_of_mem _ hy)
          refine (ih hs m hrank' hlen' hsorted' hcalm').mono fun m' _ h => ?_
          obtain ⟨⟨R, hR, hRL⟩, hkeep⟩ := h
          exact ⟨⟨R, hR, fun z hz => List.mem_cons_of_mem _ (hRL hz)⟩, hkeep⟩
      | none =>
          simp only
          rw [Exec.ensures_bind]
          refine (calm_step (fun z hz => hcalm z hz x (List.mem_cons_self ..) hb)
            (hlen x (List.mem_cons_self ..))).mono fun m₁ _ h₁ => ?_
          have hkeep₁ : ∀ h, (m.blockchain.getBlock h).isSome →
              (m₁.blockchain.getBlock h).isSome := by
            intro h hs
            rcases h₁ with ⟨hchain, -, -⟩ | ⟨p, -, hsettle, -⟩
            · rw [hchain]
              exact hs
            · exact hsettle.isSome hs
          obtain ⟨R₁, hR₁, hRx⟩ : ∃ R₁, m₁.orphanBuffer = m.orphanBuffer ++ R₁ ∧
              ∀ z ∈ R₁, z = x := by
            rcases h₁ with ⟨-, hbuf, -⟩ | ⟨p, -, -, hbuf⟩
            · exact ⟨[x], hbuf, fun z hz => List.mem_singleton.1 hz⟩
            · exact ⟨[], by rw [hbuf, List.append_nil], by simp⟩
          -- a parked block is no child of a later one
          have hcalm' : Calm m₁ L := by
            intro z hz y hy hnone hzy
            rw [hR₁] at hz
            rcases List.mem_append.1 hz with hz | hz
            · refine hcalm z hz y (List.mem_cons_of_mem _ hy) ?_ hzy
              rw [← Option.not_isSome_iff_eq_none] at hnone ⊢
              exact fun hs => hnone (hkeep₁ _ hs)
            · have hzx := hrank x (List.mem_cons_self ..)
              rw [← hRx z hz, hzy, hRx z hz] at hzx
              exact absurd (hx y hy) (Nat.not_le.2 hzx)
          refine (ih _ m₁ hrank' hlen' hsorted' hcalm').mono fun m' _ h => ?_
          obtain ⟨⟨R, hR, hRL⟩, hkeep⟩ := h
          refine ⟨⟨R₁ ++ R, by rw [hR, hR₁, List.append_assoc], fun z hz => ?_⟩,
            fun h hs => hkeep h (hkeep₁ h hs)⟩
          rcases List.mem_append.1 hz with hz | hz
          · rw [hRx z hz]
            exact List.mem_cons_self ..
          · exact List.mem_cons_of_mem _ (hRL hz)

end

/-! ### Sorted deliveries -/

section

variable {w : Worker} {S : List Block} {x y z u v : Block}

/-- No parked block is a child of a new block of `S`. -/
def NoParkedChild (w : Worker) (S : List Block) : Prop :=
  ∀ q ∈ w.orphanBuffer, ∀ x ∈ fresh w S, q.getParent ≠ x.hash

theorem Admissible.fresh_inj (hS : Admissible w S) (hx : x ∈ fresh w S) (hy : y ∈ fresh w S)
    (h : x.hash = y.hash) : x = y :=
  List.inj_on_of_nodup_map hS.distinct (mem_fresh.1 hx).1 (mem_fresh.1 hy).1 h

/-- A list of blocks can be sorted. -/
theorem exists_sorted (rank : H256 → ℕ) (S : List Block) : ∃ L, L.Perm S ∧ Sorted rank L := by
  induction S with
  | nil => exact ⟨[], List.Perm.refl _, List.Pairwise.nil⟩
  | cons x S ih =>
      obtain ⟨L, hperm, hsorted⟩ := ih
      -- `x` goes between the blocks of a smaller and those of a greater rank
      refine ⟨L.filter (fun a => rank a.hash ≤ rank x.hash) ++
        x :: L.filter (fun a => ¬ rank a.hash ≤ rank x.hash), ?_, ?_⟩
      · refine List.perm_middle.trans (List.Perm.cons x (List.Perm.trans ?_ hperm))
        simpa only [decide_not] using
          List.filter_append_perm (fun a : Block => decide (rank a.hash ≤ rank x.hash)) L
      · refine List.pairwise_append.2
          ⟨hsorted.filter _, List.pairwise_cons.2 ⟨?_, hsorted.filter _⟩, ?_⟩
        · intro a ha
          have hgt := (List.mem_filter.1 ha).2
          simp only [decide_eq_true_eq] at hgt
          omega
        · intro a ha b hb
          have hle := (List.mem_filter.1 ha).2
          simp only [decide_eq_true_eq] at hle
          rcases List.mem_cons.1 hb with rfl | hb
          · exact hle
          · have hgt := (List.mem_filter.1 hb).2
            simp only [decide_eq_true_eq] at hgt
            omega

/-- Every new block is attached in the end, as its parent has a smaller rank. -/
theorem attached_of_rank (hS : Admissible w S) {rank : H256 → ℕ}
    (hrank : ∀ x ∈ S, rank x.getParent < rank x.hash) :
    ∀ (k : ℕ) (x : Block), rank x.hash = k → x ∈ fresh w S → Attached w S x := by
  intro k
  induction k using Nat.strong_induction_on with
  | _ k ih =>
      intro x hk hx
      cases hpar : w.blockchain.getBlock x.getParent with
      | some p => exact .stored hx (by rw [hpar]; rfl)
      | none =>
          obtain ⟨t, ht, htx, hv⟩ := hS.parent_new hx hpar
          have hlt := hrank x (mem_fresh.1 hx).1
          rw [← htx, hk] at hlt
          exact .child (ih _ hlt t rfl ht) (List.mem_append_right _ hx) htx.symm hv

/-- When no parked block is a child of a new one, only new blocks are reached. -/
theorem fresh_of_visited (hno : NoParkedChild w S) (h : Visited w S z) : z ∈ fresh w S := by
  induction h with
  | stored hz _ => exact hz
  | child _ hz hzy ih =>
      rcases List.mem_append.1 hz with hz | hz
      · exact absurd hzy (hno _ hz _ ih)
      · exact hz

/-- The invariant of a sorted delivery: the blocks delivered are attached, and the buffer is as it
was. -/
structure AllAttached (w : Worker) (S L : List Block) (c' : Blockchain) (buffer' : List Block) :
    Prop where
  store : HasOutcomes w.blockchain (Attached w S) (fun z => z ∈ fresh w L) c'
  buffer_eq : buffer' = w.orphanBuffer

/-- The step of a sorted delivery. -/
theorem allAttached_step (hS : Admissible w S) (hno : NoParkedChild w S) {rank : H256 → ℕ}
    (hrank : ∀ x ∈ S, rank x.getParent < rank x.hash) {L rest : List Block}
    (hperm : (L ++ x :: rest).Perm S) (hsorted : Sorted rank (L ++ x :: rest)) {m : Worker}
    (hD : AllAttached w S L m.blockchain m.orphanBuffer) (hx : x ∈ fresh w S) :
    (m.handleNewBlock x).Ensures fun m' _ =>
      AllAttached w S (L ++ [x]) m'.blockchain m'.orphanBuffer := by
  have hmem : ∀ z ∈ L ++ x :: rest, z ∈ S := fun z hz => hperm.mem_iff.1 hz
  have hLS : ∀ z ∈ fresh w L, z ∈ fresh w S :=
    fun z hz => fresh_mono (fun z hz => hmem z (List.mem_append_left _ hz)) hz
  have hxL : x ∉ L := by
    intro hxL
    have hnodup := hperm.nodup_iff.2 hS.distinct.of_map
    exact (List.nodup_append.1 hnodup).2.2 x hxL x (List.mem_cons_self ..) rfl
  have hne : ∀ z ∈ fresh w L, z.hash ≠ x.hash := by
    intro z hz hzx
    rw [hS.fresh_inj (hLS z hz) hx hzx] at hz
    exact hxL (mem_fresh.1 hz).1
  have hnone : ∀ z ∈ m.orphanBuffer, z.getParent ≠ x.hash := by
    rw [hD.buffer_eq]
    exact fun z hz => hno z hz x hx
  have hxS := (mem_fresh.1 hx).1
  -- the parent is stored: it was, or it came before
  obtain ⟨p, hp, hv, hparent⟩ : ∃ p, m.blockchain.getBlock x.getParent = some p ∧
      checkBlockValidity x p = true ∧ HasOutcomes.Parent w.blockchain (Attached w S)
        (fun z => z ∈ fresh w L) x := by
    cases hpar : w.blockchain.getBlock x.getParent with
    | some p =>
        have hnotpar : ∀ z ∈ fresh w L, z.hash ≠ x.getParent := by
          intro z hz hzx
          rw [← hzx, (mem_fresh.1 hz).2] at hpar
          simp at hpar
        exact ⟨p, (hD.store.old _ hnotpar).1.trans hpar, hS.valid_of_stored hx hpar,
          Or.inl ⟨⟨p, hpar⟩, hnotpar⟩⟩
    | none =>
        obtain ⟨t, ht, htx, hv⟩ := hS.parent_new hx hpar
        have htL : t ∈ L := by
          have hlt := hrank x hxS
          rw [← htx] at hlt
          rcases List.mem_append.1 (hperm.mem_iff.2 (mem_fresh.1 ht).1) with htL | htL
          · exact htL
          · rcases List.mem_cons.1 htL with rfl | htL
            · exact absurd hlt (Nat.lt_irrefl _)
            · have hle := (List.pairwise_cons.1 (List.pairwise_append.1 hsorted).2.1).1 t htL
              omega
        have htF : t ∈ fresh w L := mem_fresh.2 ⟨htL, (mem_fresh.1 ht).2⟩
        obtain ⟨l, s, -, hb, -⟩ := hD.store.new t htF
        rw [htx] at hb
        exact ⟨_, hb, hv, Or.inr ⟨t, attached_of_rank hS hrank _ t rfl ht, htF, htx⟩⟩
  refine (calm_step hnone (hS.length_ne_one hxS)).mono fun m' _ h => ?_
  rcases h with ⟨-, -, hpar⟩ | ⟨p', hp', hsettle, hbuf⟩
  · rw [hp] at hpar
    simp at hpar
  · rw [hp, Option.some_inj] at hp'
    subst hp'
    rcases hsettle with ⟨-, ha⟩ | ⟨hv', -⟩
    · refine ⟨(hD.store.attach_of_done hparent hne ha).congr fun z => ?_, hbuf.trans hD.buffer_eq⟩
      rw [fresh_snoc hx, List.mem_append, List.mem_singleton]
    · rw [hv] at hv'
      simp at hv'

/-- **A delivery of sorted blocks attaches them all.** -/
theorem sorted_run (hS : Admissible w S) (hno : NoParkedChild w S) {rank : H256 → ℕ}
    (hrank : ∀ x ∈ S, rank x.getParent < rank x.hash) {T : List Block} (hperm : T.Perm S)
    (hsorted : Sorted rank T) : (w.onBlocks T []).Ensures fun m _ =>
      AllAttached w S T m.blockchain m.orphanBuffer := by
  have hstart : AllAttached w S [] w.blockchain w.orphanBuffer := by
    refine ⟨(HasOutcomes.refl _ _).congr fun z => ?_, rfl⟩
    exact ⟨fun h => absurd h List.not_mem_nil, False.elim⟩
  refine Worker.onBlocks_ensures (T := T)
    (I := fun L c' buffer' => AllAttached w S L c' buffer') ?_ ?_ T [] [] [] w (by simp) hstart
  · intro L x rest m hT hD hs
    -- a new block is not stored before its turn
    have hnot : x ∉ fresh w S := by
      intro hx
      have hnodup := hperm.nodup_iff.2 hS.distinct.of_map
      rw [hT] at hnodup
      have hne : ∀ z ∈ fresh w L, z.hash ≠ x.hash := by
        intro z hz hzx
        have hzS : z ∈ fresh w S := by
          refine fresh_mono (fun y hy => hperm.mem_iff.1 ?_) hz
          rw [hT]
          exact List.mem_append_left _ hy
        rw [hS.fresh_inj hzS hx hzx] at hz
        exact (List.nodup_append.1 hnodup).2.2 x (mem_fresh.1 hz).1 x (List.mem_cons_self ..) rfl
      rw [(hD.store.old _ hne).1, (mem_fresh.1 hx).2] at hs
      simp at hs
    have hxS : x ∈ S := by
      refine hperm.mem_iff.1 ?_
      rw [hT]
      exact List.mem_append_right _ (List.mem_cons_self ..)
    have hfresh : fresh w (L ++ [x]) = fresh w L := by
      rw [fresh, List.filter_append, ← fresh]
      simpa [mem_fresh, hxS] using hnot
    exact ⟨hD.store.congr fun z => by rw [hfresh], hD.buffer_eq⟩
  · intro L x rest m hT hD hnone
    have hx : x ∈ fresh w S := by
      have hxS : x ∈ S := by
        refine hperm.mem_iff.1 ?_
        rw [hT]
        exact List.mem_append_right _ (List.mem_cons_self ..)
      refine mem_fresh.2 ⟨hxS, ?_⟩
      cases hb : w.blockchain.getBlock x.hash with
      | none => rfl
      | some b =>
          have hne : ∀ z ∈ fresh w L, z.hash ≠ x.hash := by
            intro z hz hzx
            rw [← hzx, (mem_fresh.1 hz).2] at hb
            simp at hb
          rw [(hD.store.old _ hne).1, hb] at hnone
          simp at hnone
    rw [hT] at hperm hsorted
    exact allAttached_step hS hno hrank hperm hsorted hD hx

end

/-! ### Blocks left behind -/

section

variable {w : Worker} {S : List Block} {x u v : Block}

omit [Crypto] in
/-- What the search finds in a buffer in which `u` stands right before `v`, for a hash that no other
block of the buffer has for its parent. -/
theorem findChild_pair {A R : List Block} {h : H256} (hA : ∀ z ∈ A ++ R, z.getParent ≠ h) :
    findChild h 0 (A ++ u :: v :: R) =
      if u.getParent = h then some (A.length, u)
      else if v.getParent = h then some (A.length + 1, v) else none := by
  rw [findChild_append fun z hz => hA z (List.mem_append_left _ hz), findChild, findChild,
    findChild_eq_none.2 fun z hz => hA z (List.mem_append_right _ hz), Nat.zero_add]

/-- **The cleanup keeps `v`**, when the search from `x` finds `u` right before `v` and can find no other
block: either the search does not see `v`, or `v` is a child of `u`, and its position is wrong once `u`
is removed. -/
theorem mem_of_removeAll {A R B : List Block} {fuel : ℕ} {path : List (ℕ × Block)}
    (hA : ∀ z ∈ A ++ R, z.getParent ≠ x.hash ∧ z.getParent ≠ u.hash ∧ z.getParent ≠ v.hash)
    (hu : u.getParent = x.hash)
    (hux : u.hash ≠ x.hash) (hvx : v.hash ≠ x.hash) (hvu : v.hash ≠ u.hash)
    (hpath : searchPath fuel x.hash (A ++ u :: v :: R) = some path)
    (hremove : removeAll (path.map Prod.fst) (A ++ u :: v :: R) = .done B ()) : v ∈ B := by
  have hlt : A.length < (A ++ u :: v :: R).length := by
    rw [List.length_append, List.length_cons]
    omega
  have herase : (A ++ u :: v :: R).eraseIdx A.length = A ++ v :: R := by
    rw [List.eraseIdx_append_of_length_le (Nat.le_refl _), Nat.sub_self, List.eraseIdx_cons_zero]
  -- the first round finds `u`
  have hfirst := findChild_pair (u := u) (v := v) fun z hz => (hA z hz).1
  rw [if_pos hu] at hfirst
  obtain ⟨k, path₁, hpath₁, rfl⟩ := exists_tail_of_searchPath hpath hfirst
  rw [List.map_cons, removeAll, if_pos hlt, herase] at hremove
  have hsecond := findChild_pair (u := u) (v := v) fun z hz => (hA z hz).2.1
  rw [if_neg (hu.trans_ne hux.symm)] at hsecond
  by_cases hvpar : v.getParent = u.hash
  · -- the second round finds a grandchild, whose position is wrong by now
    rw [if_pos hvpar] at hsecond
    obtain ⟨l, path₂, hpath₂, rfl⟩ := exists_tail_of_searchPath hpath₁ hsecond
    have hthird := findChild_pair (u := u) (v := v) fun z hz => (hA z hz).2.2
    rw [if_neg (hu.trans_ne hvx.symm), if_neg (hvpar.trans_ne hvu.symm)] at hthird
    rw [eq_nil_of_searchPath hpath₂ hthird, List.map_cons, List.map_nil, removeAll] at hremove
    split at hremove
    · have hone : A.length + 1 - A.length = 0 + 1 := by omega
      rw [removeAll, Exec.done.injEq, List.eraseIdx_append_of_length_le (Nat.le_succ _),
        Nat.succ_eq_add_one, hone, List.eraseIdx_cons_succ] at hremove
      rw [← hremove.1]
      exact List.mem_append_right _ (List.mem_cons_self ..)
    · simp at hremove
  · -- a second child is not found
    rw [if_neg hvpar] at hsecond
    rw [eq_nil_of_searchPath hpath₁ hsecond, List.map_nil, removeAll, Exec.done.injEq] at hremove
    rw [← hremove.1]
    exact List.mem_append_right _ (List.mem_cons_self ..)

/-- Two new blocks whose parents are new are parked when they come first. -/
theorem parks_two (hS : Admissible w S) (hu : u ∈ fresh w S) (hv : v ∈ fresh w S)
    (hupar : w.blockchain.getBlock u.getParent = none)
    (hvpar : w.blockchain.getBlock v.getParent = none) :
    (w.onBlocks [u, v] []).Ensures fun m _ =>
      m.blockchain = w.blockchain ∧ m.orphanBuffer = w.orphanBuffer ++ [u, v] := by
  have hlen := fun {x} (hx : x ∈ fresh w S) => hS.length_ne_one (mem_fresh.1 hx).1
  rw [Worker.onBlocks, (mem_fresh.1 hu).2]
  simp only
  rw [Exec.ensures_bind]
  refine (Worker.handleNewBlock_park hupar (hlen hu)).ensures.mono fun m₁ _ h₁ => ?_
  obtain ⟨hchain₁, hbuf₁⟩ := h₁
  rw [Worker.onBlocks, hchain₁, (mem_fresh.1 hv).2]
  simp only
  rw [Exec.ensures_bind]
  refine (Worker.handleNewBlock_park (hchain₁ ▸ hvpar) (hlen hv)).ensures.mono fun m₂ _ h₂ => ?_
  obtain ⟨hchain₂, hbuf₂⟩ := h₂
  rw [Worker.onBlocks, Exec.ensures_done]
  exact ⟨hchain₂.trans hchain₁, by rw [hbuf₂, hbuf₁, List.append_assoc]; rfl⟩

/-- What the treatment of `x` leaves in the buffer: `v` stays, and nothing comes in but `x`. -/
theorem keeps_second {A R : List Block} {m : Worker}
    (hA : ∀ z ∈ A ++ R, z.getParent ≠ x.hash ∧ z.getParent ≠ u.hash ∧ z.getParent ≠ v.hash)
    (hu : u.getParent = x.hash) (hux : u.hash ≠ x.hash) (hvx : v.hash ≠ x.hash)
    (hvu : v.hash ≠ u.hash) (hlen : x.length ≠ 1) (hbuf : m.orphanBuffer = A ++ u :: v :: R)
    (hs : List H256) :
    (m.onBlocks [x] hs).Ensures fun m' _ =>
      v ∈ m'.orphanBuffer ∧ (∀ z ∈ m'.orphanBuffer, z ∈ m.orphanBuffer ∨ z = x) ∧
        ∀ h, (m.blockchain.getBlock h).isSome → (m'.blockchain.getBlock h).isSome := by
  have hv : v ∈ m.orphanBuffer := by
    rw [hbuf]
    exact List.mem_append_right _ (List.mem_cons_of_mem _ (List.mem_cons_self ..))
  rw [Worker.onBlocks]
  cases hb : m.blockchain.getBlock x.hash with
  | some b =>
      simp only
      rw [Worker.onBlocks, Exec.ensures_done]
      exact ⟨hv, fun z hz => Or.inl hz, fun _ h => h⟩
  | none =>
      simp only
      rw [Exec.ensures_bind]
      refine (Worker.handleNewBlock_ensures hlen).mono fun m' _ h => ?_
      rw [Worker.onBlocks, Exec.ensures_done]
      rcases h with ⟨-, hchain, hbuf'⟩ | ⟨p, path, c₁, -, hsettle, hpath, hall, hremove⟩
      · rw [hchain, hbuf']
        refine ⟨List.mem_append_left _ hv, fun z hz => ?_, fun _ h => h⟩
        exact (List.mem_append.1 hz).imp id List.mem_singleton.1
      · refine ⟨?_, fun z hz => Or.inl ?_, fun h hs => hall.isSome (hsettle.isSome hs)⟩
        · rw [hbuf] at hpath hremove
          exact mem_of_removeAll hA hu hux hvx hvu hpath hremove
        · have hsub := (removeAll_sublist (path.map Prod.fst) m.orphanBuffer).subset
          rw [hremove] at hsub
          exact hsub hz

/-- `u` is a new child of the new block `x`, and `v` is a second child or a grandchild. -/
structure Entangled (w : Worker) (S : List Block) (x u v : Block) : Prop where
  mem : x ∈ fresh w S
  mem_child : u ∈ fresh w S
  mem_second : v ∈ fresh w S
  ne : u ≠ v
  child : u.getParent = x.hash
  second : v.getParent = x.hash ∨ v.getParent = u.hash

namespace Entangled

variable {rank : H256 → ℕ}

theorem rank_lt (h : Entangled w S x u v) (hrank : ∀ x ∈ S, rank x.getParent < rank x.hash) :
    rank x.hash < rank u.hash ∧ rank x.hash < rank v.hash := by
  have hu := hrank u (mem_fresh.1 h.mem_child).1
  have hv := hrank v (mem_fresh.1 h.mem_second).1
  rw [h.child] at hu
  refine ⟨hu, ?_⟩
  rcases h.second with hvx | hvu
  · rwa [hvx] at hv
  · rw [hvu] at hv
    omega

/-- Neither `u` nor `v` is a child of another new block. -/
theorem not_child (h : Entangled w S x u v) (hS : Admissible w S) {y : Block} (hy : y ∈ fresh w S)
    (hyx : y ≠ x) (hyu : y ≠ u) : u.getParent ≠ y.hash ∧ v.getParent ≠ y.hash := by
  refine ⟨fun huy => hyx (hS.fresh_inj hy h.mem (huy.symm.trans h.child)), fun hvy => ?_⟩
  rcases h.second with hvx | hvu
  · exact hyx (hS.fresh_inj hy h.mem (hvy.symm.trans hvx))
  · exact hyu (hS.fresh_inj hy h.mem_child (hvy.symm.trans hvu))

/-- The delivery brings `u` and `v` first, and then the other blocks, parents before children. -/
theorem exists_delivery (h : Entangled w S x u v) (hS : Admissible w S)
    (hrank : ∀ x ∈ S, rank x.getParent < rank x.hash) :
    ∃ L₁ L₂, (u :: v :: (L₁ ++ x :: L₂)).Perm S ∧ Sorted rank (L₁ ++ x :: L₂) ∧
      (∀ y ∈ L₁, y ≠ x ∧ y ≠ u) ∧ ∀ y ∈ L₂, y ≠ x ∧ y ≠ u := by
  obtain ⟨L, hperm, hsorted⟩ := exists_sorted rank ((S.erase u).erase v)
  have hvS : v ∈ S.erase u := (List.mem_erase_of_ne h.ne.symm).2 (mem_fresh.1 h.mem_second).1
  have hT : (u :: v :: L).Perm S :=
    ((hperm.cons v).trans (List.perm_cons_erase hvS).symm).cons u |>.trans
      (List.perm_cons_erase (mem_fresh.1 h.mem_child).1).symm
  have hnodup : (u :: v :: L).Nodup := hT.nodup_iff.2 hS.distinct.of_map
  obtain ⟨hlt, hlt'⟩ := h.rank_lt hrank
  have hxL : x ∈ L := by
    rcases List.mem_cons.1 (hT.mem_iff.2 (mem_fresh.1 h.mem).1) with rfl | hmem
    · exact absurd hlt (Nat.lt_irrefl _)
    · rcases List.mem_cons.1 hmem with rfl | hmem
      · exact absurd hlt' (Nat.lt_irrefl _)
      · exact hmem
  obtain ⟨L₁, L₂, rfl⟩ := List.append_of_mem hxL
  obtain ⟨huL, hnodup⟩ := List.nodup_cons.1 hnodup
  have hmiddle := (List.perm_middle.nodup_iff).1 (List.nodup_cons.1 hnodup).2
  have hx := (List.nodup_cons.1 hmiddle).1
  refine ⟨L₁, L₂, hT, hsorted, fun y hy => ⟨?_, ?_⟩, fun y hy => ⟨?_, ?_⟩⟩
  · rintro rfl
    exact hx (List.mem_append_left _ hy)
  · rintro rfl
    exact huL (List.mem_cons_of_mem _ (List.mem_append_left _ hy))
  · rintro rfl
    exact hx (List.mem_append_right _ hy)
  · rintro rfl
    exact huL (List.mem_cons_of_mem _ (List.mem_append_right _ (List.mem_cons_of_mem _ hy)))

/-- Delivering blocks other than `x` and `u` is calm, when the buffer holds `u`, `v` and blocks of a
smaller rank besides those that were parked before. -/
theorem calm (h : Entangled w S x u v) (hS : Admissible w S) (hno : NoParkedChild w S)
    (hrank : ∀ x ∈ S, rank x.getParent < rank x.hash) {m : Worker} {L K : List Block}
    (hL : ∀ y ∈ L, y ∈ S) (hne : ∀ y ∈ L, y ≠ x ∧ y ≠ u)
    (hkeep : ∀ hash, (w.blockchain.getBlock hash).isSome → (m.blockchain.getBlock hash).isSome)
    (hbuf : ∀ z ∈ m.orphanBuffer, z ∈ w.orphanBuffer ∨ z = u ∨ z = v ∨ z ∈ K)
    (hK : ∀ z ∈ K, z ∈ S ∧ ∀ y ∈ L, rank z.hash ≤ rank y.hash) : Calm m L := by
  intro z hz y hy hnone
  have hyF : y ∈ fresh w S := by
    refine mem_fresh.2 ⟨hL y hy, ?_⟩
    rw [← Option.not_isSome_iff_eq_none] at hnone ⊢
    exact fun hs => hnone (hkeep _ hs)
  obtain ⟨huy, hvy⟩ := h.not_child hS hyF (hne y hy).1 (hne y hy).2
  rcases hbuf z hz with hz | rfl | rfl | hz
  · exact hno z hz y hyF
  · exact huy
  · exact hvy
  · obtain ⟨hzS, hle⟩ := hK z hz
    intro hzy
    have hlt := hrank z hzS
    rw [hzy] at hlt
    exact absurd (hle y hy) (Nat.not_le.2 hlt)

/-- **A second child, or a grandchild, is left in the buffer**, when it is delivered before `x`. -/
theorem strands (h : Entangled w S x u v) (hS : Admissible w S) (hno : NoParkedChild w S) :
    ∃ T, T.Perm S ∧ (w.onBlocks T []).Ensures fun m _ => v ∈ m.orphanBuffer := by
  obtain ⟨rank, hrank⟩ := hS.acyclic
  obtain ⟨L₁, L₂, hT, hsorted, hne₁, hne₂⟩ := h.exists_delivery hS hrank
  obtain ⟨hsorted₁, hsorted₂, hcross⟩ := List.pairwise_append.1 hsorted
  obtain ⟨hxL₂, hsorted₂⟩ := List.pairwise_cons.1 hsorted₂
  have hmem : ∀ y ∈ L₁ ++ x :: L₂, y ∈ S :=
    fun y hy => hT.mem_iff.1 (List.mem_cons_of_mem _ (List.mem_cons_of_mem _ hy))
  have hL₁ : ∀ y ∈ L₁, y ∈ S := fun y hy => hmem y (List.mem_append_left _ hy)
  have hL₂ : ∀ y ∈ L₂, y ∈ S :=
    fun y hy => hmem y (List.mem_append_right _ (List.mem_cons_of_mem _ hy))
  refine ⟨[u, v] ++ (L₁ ++ ([x] ++ L₂)), hT, ?_⟩
  -- `u` and `v` are parked
  rw [Worker.onBlocks_append, Exec.ensures_bind]
  have hupar : w.blockchain.getBlock u.getParent = none := by
    rw [h.child]
    exact (mem_fresh.1 h.mem).2
  have hvpar : w.blockchain.getBlock v.getParent = none := by
    rcases h.second with hvx | hvu
    · rw [hvx]
      exact (mem_fresh.1 h.mem).2
    · rw [hvu]
      exact (mem_fresh.1 h.mem_child).2
  refine (parks_two hS h.mem_child h.mem_second hupar hvpar).mono fun m₂ hs₂ h₂ => ?_
  obtain ⟨hchain₂, hbuf₂⟩ := h₂
  -- the blocks before `x` leave them there
  have hcalm₁ : Calm m₂ L₁ := by
    refine h.calm (K := []) hS hno hrank hL₁ hne₁ (fun _ hs => hchain₂ ▸ hs) (fun z hz => ?_)
      fun z hz => absurd hz List.not_mem_nil
    rw [hbuf₂] at hz
    simpa using hz
  rw [Worker.onBlocks_append, Exec.ensures_bind]
  refine (calm_run L₁ hs₂ m₂ (fun y hy => hrank y (hL₁ y hy))
    (fun y hy => hS.length_ne_one (hL₁ y hy)) hsorted₁ hcalm₁).mono fun m₃ hs₃ h₃ => ?_
  obtain ⟨⟨R, hbuf₃, hRL₁⟩, hkeep₃⟩ := h₃
  have hbuf₃' : m₃.orphanBuffer = w.orphanBuffer ++ u :: v :: R := by
    rw [hbuf₃, hbuf₂, List.append_assoc]
    rfl
  -- no other block of the buffer is a child of `x`, `u` or `v`
  obtain ⟨hxu, hxv⟩ := h.rank_lt hrank
  have hA : ∀ z ∈ w.orphanBuffer ++ R,
      z.getParent ≠ x.hash ∧ z.getParent ≠ u.hash ∧ z.getParent ≠ v.hash := by
    intro z hz
    rcases List.mem_append.1 hz with hz | hz
    · exact ⟨hno z hz x h.mem, hno z hz u h.mem_child, hno z hz v h.mem_second⟩
    · have hle := hcross z (hRL₁ hz) x (List.mem_cons_self ..)
      have hlt := hrank z (hL₁ z (hRL₁ hz))
      refine ⟨fun h => ?_, fun h => ?_, fun h => ?_⟩ <;> rw [h] at hlt <;> omega
  -- `x` leaves `v` there
  have hne : ∀ {y z : Block}, rank y.hash < rank z.hash → z.hash ≠ y.hash := by
    intro y z hlt heq
    rw [heq] at hlt
    exact absurd hlt (Nat.lt_irrefl _)
  rw [Worker.onBlocks_append, Exec.ensures_bind]
  refine (keeps_second hA h.child (hne hxu) (hne hxv)
    (fun heq => h.ne (hS.fresh_inj h.mem_child h.mem_second heq.symm))
    (hS.length_ne_one (mem_fresh.1 h.mem).1) hbuf₃' hs₃).mono fun m₄ hs₄ h₄ => ?_
  obtain ⟨hv₄, hsub₄, hkeep₄⟩ := h₄
  -- and so do the blocks after it
  have hcalm₂ : Calm m₄ L₂ := by
    refine h.calm (K := x :: R) hS hno hrank hL₂ hne₂
      (fun hash hs => hkeep₄ hash (hkeep₃ hash (hchain₂ ▸ hs))) (fun z hz => ?_) fun z hz => ?_
    · rw [hbuf₃'] at hsub₄
      have hfrom := hsub₄ z hz
      simp only [List.mem_append, List.mem_cons] at hfrom ⊢
      rcases hfrom with (hz | hz | hz | hz) | hz <;> simp [hz]
    · rcases List.mem_cons.1 hz with rfl | hz
      · exact ⟨(mem_fresh.1 h.mem).1, hxL₂⟩
      · exact ⟨hL₁ z (hRL₁ hz), fun y hy => hcross z (hRL₁ hz) y (List.mem_cons_of_mem _ hy)⟩
  refine (calm_run L₂ hs₄ m₄ (fun y hy => hrank y (hL₂ y hy))
    (fun y hy => hS.length_ne_one (hL₂ y hy)) hsorted₂ hcalm₂).mono fun m₅ _ h₅ => ?_
  obtain ⟨⟨R', hbuf₅, -⟩, -⟩ := h₅
  rw [hbuf₅]
  exact List.mem_append_left _ hv₄

end Entangled

/-! ### When the order matters -/

/-- What order independence says about a single message. -/
theorem OrderIndependent.onBlocks (hP : OrderIndependent w S) {T : List Block} (hperm : T.Perm S) :
    (w.onBlocks T []).Ends fun m _ => ∀ z ∈ S, z ∉ m.orphanBuffer := by
  have hflat : [T].flatten.Perm S := by
    rw [List.flatten_singleton]
    exact hperm
  obtain ⟨w₁, _, hd, -, -, hleft⟩ := hP [T] [T] hflat hflat
  have hends : (w.deliver [T]).Ends fun m _ => m = w₁ := ⟨w₁, (), hd, rfl⟩
  rw [Worker.deliver, Exec.ends_bind, Worker.blocksMessage, Exec.ends_bind] at hends
  refine hends.mono fun m hs h => ?_
  rw [Exec.ends_done, Worker.deliver, Exec.ends_done] at h
  intro z hz
  rw [← (Worker.announce_store Message.newBlockHashes hs).2, h]
  exact (hleft z hz).1

/-- When the order does not matter, no new block has a second child or a grandchild. -/
theorem OrderIndependent.not_entangled (hP : OrderIndependent w S) (hS : Admissible w S)
    (hno : NoParkedChild w S) : ¬ Entangled w S x u v := by
  intro h
  obtain ⟨T, hperm, hstrand⟩ := h.strands hS hno
  obtain ⟨m, hs, hd, hleft⟩ := hP.onBlocks hperm
  exact hleft v (mem_fresh.1 h.mem_second).1 (hstrand m hs hd)

/-- What makes blocks unentangled when no parked block is a child of a new one: a new block has one
new child and no new grandchild, and a delivery with the parents first ends. -/
theorem unentangled_of_sorted (hS : Admissible w S) (hno : NoParkedChild w S) {rank : H256 → ℕ}
    (hrank : ∀ x ∈ S, rank x.getParent < rank x.hash) {T : List Block} (hperm : T.Perm S)
    (hsorted : Sorted rank T)
    (hends : (w.onBlocks T []).Ends fun m _ => ∀ z ∈ S, z ∉ m.orphanBuffer)
    (hone : ∀ x ∈ fresh w S, ((fresh w S).filter fun z => z.getParent = x.hash).length ≤ 1)
    (hshort : ∀ x ∈ fresh w S, ∀ y ∈ fresh w S, y.getParent = x.hash → ∀ z ∈ fresh w S,
      z.getParent ≠ y.hash) : Unentangled w S := by
  have hvisit := fun {z} (h : Visited w S z) => fresh_of_visited hno h
  obtain ⟨m, hs, hd, hleft⟩ := hends
  obtain ⟨hstore, hbuf⟩ := sorted_run hS hno hrank hperm hsorted m hs hd
  have hapart : ∀ z ∈ S, z ∉ w.orphanBuffer := hbuf ▸ hleft
  refine ⟨?_, hshort, ?_, hapart, ?_, ?_, ?_, ?_⟩
  · intro x hx
    have hnil : w.orphanBuffer.filter (fun z => z.getParent = x.hash) = [] :=
      List.filter_eq_nil_iff.2 fun q hq => by simpa using hno q hq x (hvisit hx)
    rw [List.filter_append, hnil, List.append_nil]
    exact hone x (hvisit hx)
  · refine List.pairwise_of_forall_mem_list fun a ha b _ hvisited _ => ?_
    exact hapart a (mem_fresh.1 (hvisit hvisited)).1 ha
  · exact fun z hz => (mem_fresh.1 (hvisit hz)).2
  · exact fun y z hy hz h => hS.fresh_inj (hvisit hy) (hvisit hz) h
  · intro z hz
    obtain ⟨hzS, hnone⟩ := mem_fresh.1 (hvisit hz.visited)
    obtain ⟨l, s, hout, -⟩ := hstore.new z (mem_fresh.2 ⟨hperm.mem_iff.2 hzS, hnone⟩)
    exact ⟨l, s, hout⟩
  · exact fun y hy _ z hz hzy => absurd hzy (hno z hz y (hvisit hy))

/-- **Blocks that may arrive in any order are unentangled**, when no parked block is a child of a new
one. -/
theorem unentangled_of_orderIndependent (hS : Admissible w S) (hno : NoParkedChild w S)
    (hP : OrderIndependent w S) : Unentangled w S := by
  obtain ⟨rank, hrank⟩ := hS.acyclic
  obtain ⟨T, hperm, hsorted⟩ := exists_sorted rank S
  refine unentangled_of_sorted hS hno hrank hperm hsorted (hP.onBlocks hperm) ?_ ?_
  · intro x hx
    have hnodup : ((fresh w S).filter fun z => z.getParent = x.hash).Nodup :=
      (hS.distinct.of_map.filter _).filter _
    have hmem : ∀ z ∈ (fresh w S).filter fun z => z.getParent = x.hash,
        z ∈ fresh w S ∧ z.getParent = x.hash := fun z hz => by simpa using List.mem_filter.1 hz
    cases hlist : (fresh w S).filter fun z => z.getParent = x.hash with
    | nil => exact Nat.zero_le 1
    | cons u list =>
        cases list with
        | nil => exact Nat.le_refl 1
        | cons v list =>
            rw [hlist] at hnodup hmem
            obtain ⟨hu, hux⟩ := hmem u (List.mem_cons_self ..)
            obtain ⟨hv, hvx⟩ := hmem v (List.mem_cons_of_mem _ (List.mem_cons_self ..))
            have huv : u ≠ v := by
              rintro rfl
              exact (List.nodup_cons.1 hnodup).1 (List.mem_cons_self ..)
            exact absurd ⟨hx, hu, hv, huv, hux, Or.inl hvx⟩ (hP.not_entangled hS hno)
  · intro x hx y hy hyx z hz hzy
    have hyz : y ≠ z := by
      rintro rfl
      have hlt := hrank y (mem_fresh.1 hy).1
      rw [hzy] at hlt
      exact Nat.lt_irrefl _ hlt
    exact hP.not_entangled hS hno ⟨hx, hy, hz, hyz, hyx, Or.inr hzy⟩

/-- **When the arrival order of blocks does not matter.** -/
theorem arrival_order_iff (hS : Admissible w S) :
    (Unentangled w S → OrderIndependent w S) ∧
      (NoParkedChild w S → OrderIndependent w S → Unentangled w S) :=
  ⟨orderIndependent_of_unentangled hS, unentangled_of_orderIndependent hS⟩

end

/-- A chain of three blocks on the genesis block of `sampleGenesis`. -/
def sampleChain : List Block :=
  [sampleBlock 1 2 2 [], sampleBlock 2 3 3 [], sampleBlock 3 4 4 []]

omit [Crypto] in
/-- The first two blocks of the chain may arrive in any order at a new node. -/
theorem arrival_order_iff_pair :
    @OrderIndependent sampleCrypto (@Node.init sampleCrypto sampleGenesis).toWorker
      (sampleChain.take 2) := by
  have hS := @Admissible.of_checks sampleCrypto (@Node.init sampleCrypto sampleGenesis).toWorker
    (sampleChain.take 2) BitVec.toNat (by decide +kernel) (by decide +kernel) (by decide +kernel)
    (by decide +kernel) (by decide +kernel)
  refine (@arrival_order_iff sampleCrypto _ _ hS).1 ?_
  exact @unentangled_of_sorted sampleCrypto _ _ hS (fun _ hq => absurd hq List.not_mem_nil)
    BitVec.toNat (by decide +kernel) (sampleChain.take 2) (List.Perm.refl _) (by decide +kernel)
    (by decide +kernel) (by decide +kernel) (by decide +kernel)

omit [Crypto] in
/-- **Arrival order matters**: when the second and the third block of the chain are delivered before
the first one, the worker panics. -/
theorem arrival_order_matters :
    @Admissible sampleCrypto (@Node.init sampleCrypto sampleGenesis).toWorker sampleChain ∧
      ¬ @OrderIndependent sampleCrypto (@Node.init sampleCrypto sampleGenesis).toWorker
        sampleChain := by
  refine ⟨@Admissible.of_checks sampleCrypto _ _ BitVec.toNat (by decide +kernel)
    (by decide +kernel) (by decide +kernel) (by decide +kernel) (by decide +kernel), fun hP => ?_⟩
  obtain ⟨w₁, _, hd, -⟩ := hP [sampleChain.rotate 1] [sampleChain] (by decide +kernel)
    (by decide +kernel)
  have hnot : ¬ (@Worker.deliver sampleCrypto [sampleChain.rotate 1]
      (@Node.init sampleCrypto sampleGenesis).toWorker).Ends fun _ _ => True := by
    decide +kernel
  exact hnot ⟨w₁, (), hd, trivial⟩

end BitcoinClient
