/-
**The life of a position.**

A position is opened at the next index, for one owner and one asset, which stay what they are until it is
closed; its amounts change in between.  `closePosition` deletes it, and an index is not used again.  A
registered asset keeps its entry for good.

Main definitions:

* `Synthetics.Position.Adjusts` — the same position, possibly with other amounts;
* `Synthetics.Evolves` — what later states have to do with a state;
* `Synthetics.Filed` — a position stands at its index, below the counter, for a registered asset;
* `Synthetics.Opens`, `Synthetics.OpenedInOrder` — the openings of a run.

Main results:

* `Synthetics.position_of_call` — what a call does to one position;
* `Synthetics.openedInOrder_of_run` — an index is opened at most once, in increasing order;
* `Synthetics.positions_live_once` — **the life of a position, in every run**.
-/

import BitcoinClient.CollateralRatio

set_option relaxedAutoImplicit false
set_option autoImplicit false

namespace Synthetics

variable {T : Type} [ERC20 T] {mintAddr s : Address} {w w' w₀ : World T}

/-! ### One position in one call -/

/-- The same position, possibly with other amounts. -/
structure Position.Adjusts (p p' : Position) : Prop where
  idx : p'.idx = p.idx
  owner : p'.owner = p.owner
  assetToken : p'.assetToken = p.assetToken

theorem Position.Adjusts.refl (p : Position) : p.Adjusts p := ⟨rfl, rfl, rfl⟩

theorem Position.Adjusts.trans {p p' p'' : Position} (h : p.Adjusts p') (h' : p'.Adjusts p'') :
    p.Adjusts p'' :=
  ⟨h'.idx.trans h.idx, h'.owner.trans h.owner, h'.assetToken.trans h.assetToken⟩

/-- A position after a call: it is closed, it has other amounts at most, or it is the one that the call has
opened. -/
inductive PositionCase (w w' : World T) (i : ℕ) : Prop
  | closed : w'.position i = .empty → PositionCase w w' i
  | adjusted : (w.position i).Adjusts (w'.position i) → PositionCase w w' i
  | opened : i = w.minting.currentPositionIndex → (w'.position i).idx = i →
      w.checkRegistered (w'.position i).assetToken = true → PositionCase w w' i

omit [ERC20 T] in
theorem PositionCase.of_eq {i : ℕ} (h : w'.position i = w.position i) : PositionCase w w' i :=
  .adjusted (h ▸ .refl _)

omit [ERC20 T] in
/-- A call that writes one position. -/
theorem PositionCase.of_setPosition {w₁ : World T} {i : ℕ} {p : Position} (hw₁ : w₁.minting = w.minting)
    (hp : p = .empty ∨ (w.position i).Adjusts p) (j : ℕ) : PositionCase w (w₁.setPosition i p) j := by
  rcases eq_or_ne j i with rfl | hj
  · rw [← World.position_setPosition_self w₁ j p] at hp
    exact hp.elim .closed .adjusted
  · refine .of_eq ?_
    rw [World.position_setPosition_of_ne w₁ p hj, World.position, hw₁, World.position]

/-- **What a call does to one position.** -/
theorem position_of_callPosition {a : Account mintAddr} {prices : Prices} {c : PositionCall}
    (h : w.callPosition a prices c = some w') (j : ℕ) : PositionCase w w' j := by
  cases c with
  | openPosition collateralAmount assetToken ratio =>
      simp only [World.callPosition, World.openPosition, Option.bind_eq_bind, Option.bind_eq_some_iff,
        require_eq_some, Option.some.injEq] at h
      obtain ⟨-, hreg, -, -, eusd, -, assetAmount, -, w₁, hissue, next, -, rfl⟩ := h
      obtain ⟨hminting, -, -⟩ := withAsset_keeps hissue
      rw [World.minting_setEusd] at hminting
      have hidx : w₁.minting.currentPositionIndex = w.minting.currentPositionIndex := by rw [hminting]
      rcases eq_or_ne j w₁.minting.currentPositionIndex with rfl | hj
      · refine .opened hidx ?_ ?_ <;>
          rw [World.position_setCurrentPositionIndex, World.position_setPosition_self]
        exact hreg
      · refine .of_eq ?_
        rw [World.position_setCurrentPositionIndex, World.position_setPosition_of_ne _ _ hj,
          World.position, hminting, World.position]
  | closePosition i =>
      obtain ⟨-, eusd, w₁, -, hissue, rfl⟩ := closePosition_eq_some.1 h
      have hminting := (withAsset_keeps hissue).1
      rw [World.minting_setEusd] at hminting
      exact .of_setPosition hminting (Or.inl rfl) j
  | deposit i collateralAmount =>
      simp only [World.callPosition, World.deposit, Option.bind_eq_bind, Option.bind_eq_some_iff,
        Option.some.injEq] at h
      obtain ⟨-, -, eusd, -, amount, -, rfl⟩ := h
      refine .of_setPosition (World.minting_setEusd w eusd) (Or.inr ?_) j
      exact ⟨rfl, rfl, rfl⟩
  | withdraw i withdrawAmount =>
      simp only [World.callPosition, World.withdraw, Option.bind_eq_bind, Option.bind_eq_some_iff,
        Option.some.injEq] at h
      obtain ⟨-, -, share, -, rest, -, -, -, eusd, -, amount, -, rfl⟩ := h
      refine .of_setPosition (World.minting_setEusd w eusd) (Or.inr ?_) j
      exact ⟨rfl, rfl, rfl⟩
  | mint i mintAmount =>
      simp only [World.callPosition, World.mint, Option.bind_eq_bind, Option.bind_eq_some_iff,
        Option.some.injEq] at h
      obtain ⟨-, -, total, -, ratio, -, -, -, w₁, hissue, amount, -, rfl⟩ := h
      obtain ⟨hminting, -, -⟩ := withAsset_keeps hissue
      have hpos : w₁.position i = w.position i := by rw [World.position, hminting, World.position]
      rw [hpos]
      refine .of_setPosition hminting (Or.inr ?_) j
      exact ⟨rfl, rfl, rfl⟩
  | burn i burnAmount =>
      simp only [World.callPosition, World.burn, Option.bind_eq_bind, Option.bind_eq_some_iff,
        Option.some.injEq] at h
      obtain ⟨-, -, w₁, hissue, amount, -, rfl⟩ := h
      obtain ⟨hminting, -, -⟩ := withAsset_keeps hissue
      have hpos : w₁.position i = w.position i := by rw [World.position, hminting, World.position]
      rw [hpos]
      refine .of_setPosition hminting (Or.inr ?_) j
      exact ⟨rfl, rfl, rfl⟩

omit [ERC20 T] in
/-- A registration, of an asset that is not registered. -/
theorem registerAsset_assetMap {sender a priceFeed : Address} {ratio : ℕ}
    (h : w.registerAsset sender a ratio priceFeed = some w') (b : Address) (hb : b = 0 ∨ w.Registered b) :
    w'.minting.assetMap b = w.minting.assetMap b := by
  simp only [World.registerAsset, Option.bind_eq_bind, Option.bind_eq_some_iff, require_eq_some,
    Option.some.injEq] at h
  obtain ⟨-, -, -, hne, -, -, -, hnew, rfl⟩ := h
  refine Function.update_of_ne ?_ _ _
  rintro rfl
  exact hb.elim hne fun hb => hb hnew

theorem position_of_call {a : Account mintAddr} {prices : Prices} {c : Call}
    (h : w.call a prices c = some w') (j : ℕ) : PositionCase w w' j := by
  cases c with
  | registerAsset => exact .of_eq ((registerAsset_keeps h).1 j)
  | position => exact position_of_callPosition h j
  | eusd =>
      obtain ⟨eusd, -, rfl⟩ := Option.map_eq_some_iff.1 h
      exact .of_eq rfl
  | sAsset | sAssetMint | sAssetBurn =>
      refine .of_eq ?_
      rw [World.position, (withAsset_keeps h).1, World.position]

theorem assetMap_of_call {a : Account mintAddr} {prices : Prices} {c : Call}
    (h : w.call a prices c = some w') (b : Address) (hb : b = 0 ∨ w.Registered b) :
    w'.minting.assetMap b = w.minting.assetMap b := by
  cases c with
  | registerAsset => exact registerAsset_assetMap h b hb
  | position => rw [assetMap_callPosition h]
  | eusd =>
      obtain ⟨eusd, -, rfl⟩ := Option.map_eq_some_iff.1 h
      rfl
  | sAsset | sAssetMint | sAssetBurn => rw [assetMap_withAsset h]

/-- The counter goes at most one further. -/
theorem index_of_call [ERC20.Standard T] {a : Account mintAddr} {prices : Prices} {c : Call}
    (hw : Consistent mintAddr w) (h : w.call a prices c = some w') :
    w'.minting.currentPositionIndex = w.minting.currentPositionIndex ∨
      w'.minting.currentPositionIndex = w.minting.currentPositionIndex + 1 := by
  cases c with
  | registerAsset => exact Or.inl (registerAsset_keeps h).2.1
  | position =>
      obtain ⟨paidIn, paidOut, a, issued, retired, -, -, hwrites⟩ := settles_of_callPosition hw h
      rcases hwrites.index with ⟨-, hi, hnext⟩ | ⟨-, hnext⟩
      · rw [hi] at hnext
        exact Or.inr hnext
      · exact Or.inl hnext
  | eusd =>
      obtain ⟨eusd, -, rfl⟩ := Option.map_eq_some_iff.1 h
      exact Or.inl rfl
  | sAsset | sAssetMint | sAssetBurn => exact Or.inl (by rw [(withAsset_keeps h).1])

/-! ### Runs -/

/-- What later states have to do with a state: a position that was opened is closed or the same, a closed
one stays closed, and a registered asset keeps its entry. -/
structure Evolves (w w' : World T) : Prop where
  index : w.minting.currentPositionIndex ≤ w'.minting.currentPositionIndex
  closed : ∀ i < w.minting.currentPositionIndex, w.position i = .empty → w'.position i = .empty
  kept : ∀ i < w.minting.currentPositionIndex,
    w'.position i = .empty ∨ (w.position i).Adjusts (w'.position i)
  assets : ∀ a, a = 0 ∨ w.Registered a → w'.minting.assetMap a = w.minting.assetMap a

omit [ERC20 T] in
theorem Evolves.refl (w : World T) : Evolves w w :=
  ⟨Nat.le_refl _, fun _ _ h => h, fun _ _ => Or.inr (.refl _), fun _ _ => rfl⟩

omit [ERC20 T] in
theorem Evolves.trans {w'' : World T} (h : Evolves w w') (h' : Evolves w' w'') : Evolves w w'' where
  index := h.index.trans h'.index
  closed i hi hempty := h'.closed i (hi.trans_le h.index) (h.closed i hi hempty)
  kept i hi := by
    rcases h.kept i hi with hempty | hadjusts
    · exact Or.inl (h'.closed i (hi.trans_le h.index) hempty)
    · exact (h'.kept i (hi.trans_le h.index)).imp id hadjusts.trans
  assets a ha := by
    have hmap := h.assets a ha
    refine (h'.assets a (ha.imp id fun hreg => ?_)).trans hmap
    rwa [World.Registered, hmap]

variable [ERC20.Standard T] {tr tr' : List (World T × Tx mintAddr)}

theorem evolves_call {a : Account mintAddr} {prices : Prices} {c : Call} (hw : Consistent mintAddr w)
    (h : w.call a prices c = some w') : Evolves w w' where
  index := by
    have hindex := index_of_call hw h
    omega
  closed i hi hempty := by
    cases position_of_call h i with
    | closed hclosed => exact hclosed
    | adjusted hadjusts =>
        refine (consistent_call hw h).vacant i ?_
        rw [hadjusts.owner, hempty]
        rfl
    | opened hnext => exact absurd hi (hnext ▸ Nat.lt_irrefl _)
  kept i hi := by
    cases position_of_call h i with
    | closed hclosed => exact Or.inl hclosed
    | adjusted hadjusts => exact Or.inr hadjusts
    | opened hnext => exact absurd hi (hnext ▸ Nat.lt_irrefl _)
  assets := assetMap_of_call h

/-- A position is stored at its index, below the counter, and its asset is registered. -/
def Filed (w : World T) : Prop :=
  ∀ i, (w.position i).owner ≠ 0 → i < w.minting.currentPositionIndex ∧
    (w.position i).idx = i ∧ w.checkRegistered (w.position i).assetToken = true

omit [ERC20.Standard T] in
theorem checkRegistered_of_call {a : Account mintAddr} {prices : Prices} {c : Call}
    (h : w.call a prices c = some w') {b : Address} (hb : w.checkRegistered b = true) :
    w'.checkRegistered b = true := by
  rw [World.checkRegistered, decide_eq_true_eq] at hb ⊢
  rw [assetMap_of_call h b ?_]
  · exact hb
  · rw [World.Registered, hb]
    exact em _

omit [ERC20.Standard T] in
theorem Consistent.lt_index (hw : Consistent mintAddr w) {i : ℕ} (h : w.position i ≠ .empty) :
    i < w.minting.currentPositionIndex :=
  Nat.lt_of_not_le fun hle => h (hw.beyond i hle)

theorem filed_call {a : Account mintAddr} {prices : Prices} {c : Call} (hw : Consistent mintAddr w)
    (hfiled : Filed w) (h : w.call a prices c = some w') : Filed w' := by
  intro i howner
  refine ⟨(consistent_call hw h).lt_index fun hempty => howner (by rw [hempty]; rfl), ?_⟩
  cases position_of_call h i with
  | closed hclosed =>
      rw [hclosed] at howner
      exact absurd rfl howner
  | adjusted hadjusts =>
      rw [hadjusts.owner] at howner
      rw [hadjusts.idx, hadjusts.assetToken]
      exact (hfiled i howner).2.imp id (checkRegistered_of_call h)
  | opened _ hidx hreg => exact ⟨hidx, checkRegistered_of_call h hreg⟩

/-! ### Openings -/

/-- The transaction opens the position `i`. -/
def Opens (x : World T × Tx mintAddr) (i : ℕ) : Prop :=
  x.1.position i = .empty ∧ (x.1.exec x.2).position i ≠ .empty

/-- A position is opened at the counter, which goes one further; and of two openings the later one has the larger
index. -/
structure OpenedInOrder (tr : List (World T × Tx mintAddr)) : Prop where
  next : ∀ x ∈ tr, ∀ i, Opens x i → i = x.1.minting.currentPositionIndex ∧
    (x.1.exec x.2).minting.currentPositionIndex = i + 1
  order : tr.Pairwise fun x y => ∀ i j, Opens x i → Opens y j → i < j

/-- Where a position is opened. -/
theorem next_of_opens (hw : Consistent mintAddr w) {tx : Tx mintAddr} {i : ℕ} (h : Opens (w, tx) i) :
    i = w.minting.currentPositionIndex ∧ (w.exec tx).minting.currentPositionIndex = i + 1 := by
  obtain ⟨hempty, hopen⟩ := h
  rcases exec_cases w tx with hcall | hexec
  · have hw' := consistent_call hw hcall
    have hi : i = w.minting.currentPositionIndex := by
      cases position_of_call hcall i with
      | closed hclosed => exact absurd hclosed hopen
      | adjusted hadjusts =>
          refine absurd (hw'.vacant i ?_) hopen
          rw [hadjusts.owner, hempty]
          rfl
      | opened hi => exact hi
    have hlt := hw'.lt_index hopen
    have hindex := index_of_call hw hcall
    exact ⟨hi, by omega⟩
  · rw [hexec] at hopen
    exact absurd hempty hopen

/-- Positions are opened in order, and below the counter. -/
theorem openedInOrder_of_run (hdeployed : World.Deployed mintAddr w₀) (hrun : World.Run w₀ tr w) :
    OpenedInOrder tr ∧ ∀ x ∈ tr, ∀ i, Opens x i → i < w.minting.currentPositionIndex := by
  induction hrun with
  | nil => exact ⟨⟨fun _ hx => absurd hx List.not_mem_nil, .nil⟩, fun _ hx => absurd hx List.not_mem_nil⟩
  | @snoc tr w _ tx hrun hs ih =>
      obtain rfl := hs
      obtain ⟨hordered, hbelow⟩ := ih
      have hw := consistent_of_run hdeployed hrun
      have hlast : ∀ i, Opens (w, tx) i → i = w.minting.currentPositionIndex ∧
          (w.exec tx).minting.currentPositionIndex = i + 1 := fun _ => next_of_opens hw
      have hle : w.minting.currentPositionIndex ≤ (w.exec tx).minting.currentPositionIndex := by
        rcases exec_cases w tx with hcall | hexec
        · have hindex := index_of_call hw hcall
          omega
        · rw [hexec]
      refine ⟨⟨?_, List.pairwise_append.2 ⟨hordered.order, List.pairwise_singleton _ _, ?_⟩⟩, ?_⟩
      · refine List.forall_mem_append.2 ⟨hordered.next, List.forall_mem_singleton.2 fun i hi => ?_⟩
        exact hlast i hi
      · intro x hx y hy i j hi hj
        rw [List.mem_singleton.1 hy] at hj
        rw [(hlast j hj).1]
        exact hbelow x hx i hi
      · refine List.forall_mem_append.2 ⟨fun x hx i hi => (hbelow x hx i hi).trans_le hle, ?_⟩
        refine List.forall_mem_singleton.2 fun i hi => ?_
        rw [(hlast i hi).2]
        exact Nat.lt_succ_self i

/-- **The life of a position.**  From any state that transactions lead to, any further transactions keep the
owner and the asset of each position until it is closed; a closed position stays closed; a registered asset
keeps its entry; each position that exists is stored at its own index, below the counter, with a registered
asset; and an index is opened at most once, in increasing order. -/
theorem positions_live_once (hdeployed : World.Deployed mintAddr w₀) (hrun : World.Run w₀ tr w)
    (hrun' : World.Run w tr' w') : Evolves w w' ∧ Filed w' ∧ OpenedInOrder (tr ++ tr') := by
  have hfiled₀ : Filed w₀ := by
    intro i howner
    obtain ⟨deployer, hminting⟩ := hdeployed.minting
    rw [World.position, hminting] at howner
    exact absurd rfl howner
  refine ⟨?_, (invariant_of_run hdeployed hfiled₀ (fun _ _ _ _ _ => filed_call) (hrun.trans hrun')).2,
    (openedInOrder_of_run hdeployed (hrun.trans hrun')).1⟩
  refine hrun'.relation (I := Consistent mintAddr) (C := fun _ _ => True)
    (consistent_of_run hdeployed hrun) ?_ Evolves.refl (fun _ _ _ => Evolves.trans) ?_ fun _ _ => trivial
  · rintro w₁ tx _ hw₁ - rfl
    exact consistent_exec hw₁ tx
  · rintro w₁ tx _ hw₁ - rfl
    rcases exec_cases w₁ tx with hcall | hexec
    · exact evolves_call hw₁ hcall
    · rw [hexec]
      exact .refl w₁

omit [ERC20 T] [ERC20.Standard T] in
/-- The account 1 has opened a position, and closes it. -/
theorem positions_live_once_closed :
    let w := sampleTxs.foldl World.exec sampleWorld
    let w' := w.exec (sampleTx 0 (.position (.closePosition 0)))
    (w.position 0).owner = 1 ∧ w'.position 0 = .empty ∧
      (w'.position 0 = .empty ∨ (w.position 0).Adjusts (w'.position 0)) ∧
      ∃ tr : List (World Ledger × Tx 100), World.Run sampleWorld tr w' ∧ OpenedInOrder tr := by
  intro w w'
  obtain ⟨tr, hrun⟩ := World.exists_run sampleTxs sampleWorld
  have hclose : World.Run w [(w, sampleTx 0 (.position (.closePosition 0)))] w' := .single rfl
  obtain ⟨hevolves, -, hordered⟩ := positions_live_once deployed_sampleWorld hrun hclose
  exact ⟨by decide +kernel, by decide +kernel, hevolves.kept 0 (by decide +kernel), _, hrun.trans hclose,
    hordered⟩

end Synthetics
