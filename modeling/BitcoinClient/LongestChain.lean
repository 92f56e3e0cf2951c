/-
**The longest chain of a growing store.**

Blocks are inserted one after the other, each with a new hash and a stored parent.  The depth of a block
is 1 for the genesis block and one more than the depth of the parent for the others; this module says
when the store knows it: when the lengths of the stored blocks are their depths, the tip is a block of
maximal depth, and the longest chain, listed from the tip, has as many blocks.

`insert` recomputes the length of a block only when the block says that it is longer than 1, so a block
that says 1, such as a randomly generated one, keeps that length wherever it stands.

Main definitions:

* `BitcoinClient.Blockchain.insertAll`, `BitcoinClient.Blockchain.allBlocksInLongestChain`;
* `BitcoinClient.Grows` — every block has a new hash and a stored parent;
* `BitcoinClient.depth` — the depths in the tree of blocks;
* `BitcoinClient.TracksDepth` — what the store should know about the depths.

Main results:

* `BitcoinClient.insertAll_lengths` — the stored lengths are the depths when they are recomputed;
* `BitcoinClient.tracksDepth_iff`, `BitcoinClient.random_block_length` — when the store tracks the
  depths, and a random block on the genesis block.
-/

import BitcoinClient.Lengths
import BitcoinClient.StoredStates

set_option relaxedAutoImplicit false
set_option autoImplicit false

namespace BitcoinClient

variable [Crypto]

/-! ### The store -/

namespace Blockchain

/-- Several insertions. -/
def insertAll (chain : Blockchain) (blocks : List Block) : Option Blockchain :=
  blocks.foldlM insert chain

/-- The loop of `allBlocksInLongestChain` from `curr` on; `none` when it has not ended after `fuel`
rounds. -/
def chainFrom (chain : Blockchain) : ℕ → H256 → Option (List H256)
  | 0, _ => none
  | fuel + 1, curr =>
    match chain.getBlock curr with
    | none => some []
    | some block => (chainFrom chain fuel block.getParent).map fun longestChain => curr :: longestChain

/-- All blocks' hashes of the longest chain, from the tip on. -/
def allBlocksInLongestChain (chain : Blockchain) (order : List H256) (fuel : ℕ) :
    Option (List H256) :=
  chain.chainFrom fuel (chain.tip order)

omit [Crypto] in
theorem chainFrom_eq (c : Blockchain) : ∀ (fuel : ℕ) (h : H256),
    c.chainFrom fuel h = Pointers.path c.parentAt fuel h := by
  intro fuel
  induction fuel with
  | zero => intro h; rfl
  | succ fuel ih =>
      intro h
      rw [chainFrom, Pointers.path, parentAt]
      cases c.getBlock h with
      | none => rfl
      | some b => simp only [Option.map_some, ih]

end Blockchain

/-! ### The tree -/

/-- Every block of the list has a hash that is not stored yet and a stored parent. -/
def Grows : List H256 → List Block → Prop
  | _, [] => True
  | stored, b :: rest => b.hash ∉ stored ∧ b.getParent ∈ stored ∧ Grows (b.hash :: stored) rest

instance : (stored : List H256) → (blocks : List Block) → Decidable (Grows stored blocks)
  | _, [] => isTrue trivial
  | stored, b :: rest =>
    let _ : Decidable (Grows (b.hash :: stored) rest) := instDecidableGrows (b.hash :: stored) rest
    inferInstanceAs (Decidable (_ ∧ _ ∧ _))

/-- A block is one deeper than its parent. -/
def deepen (depth : H256 → ℕ) (b : Block) : H256 → ℕ :=
  Function.update depth b.hash (depth b.getParent + 1)

/-- The depths when the blocks of the list have been added to the genesis block; 0 stands for a hash
without a block. -/
def depth (genesis : Block) (blocks : List Block) : H256 → ℕ :=
  blocks.foldl deepen (Function.update (fun _ => 0) genesis.hash 1)

namespace Grows

variable {stored : List H256} {blocks : List Block}

theorem hash_ne : ∀ {blocks : List Block} {stored : List H256}, Grows stored blocks →
    ∀ h ∈ stored, ∀ b ∈ blocks, h ≠ b.hash := by
  intro blocks
  induction blocks with
  | nil => intro stored _ h _ b hb; exact absurd hb List.not_mem_nil
  | cons x rest ih =>
      rintro stored ⟨hnew, -, hrest⟩ h hh b hb
      rcases List.mem_cons.1 hb with rfl | hb
      · rintro rfl
        exact hnew hh
      · exact ih hrest h (List.mem_cons_of_mem _ hh) b hb

/-- The depth of a stored block stays. -/
theorem foldl_deepen : ∀ {blocks : List Block} {d : H256 → ℕ} {h : H256},
    (∀ b ∈ blocks, h ≠ b.hash) → blocks.foldl deepen d h = d h := by
  intro blocks
  induction blocks with
  | nil => intro d h _; rfl
  | cons x rest ih =>
      intro d h hne
      rw [List.foldl_cons, ih fun b hb => hne b (List.mem_cons_of_mem _ hb), deepen,
        Function.update_of_ne (hne x (List.mem_cons_self ..))]

/-- **A block of the list is one deeper than its parent.** -/
theorem depth_hash : ∀ {blocks : List Block} {stored : List H256} {d : H256 → ℕ},
    Grows stored blocks → ∀ b ∈ blocks,
      blocks.foldl deepen d b.hash = blocks.foldl deepen d b.getParent + 1 := by
  intro blocks
  induction blocks with
  | nil => intro stored d _ b hb; exact absurd hb List.not_mem_nil
  | cons x rest ih =>
      rintro stored d ⟨hnew, hpar, hrest⟩ b hb
      rcases List.mem_cons.1 hb with rfl | hb
      · have hne : b.getParent ≠ b.hash := fun heq => hnew (heq ▸ hpar)
        have hself := hrest.hash_ne b.hash (List.mem_cons_self ..)
        have hparent := hrest.hash_ne b.getParent (List.mem_cons_of_mem _ hpar)
        rw [List.foldl_cons, foldl_deepen hself, foldl_deepen hparent, deepen, Function.update_self,
          Function.update_of_ne hne]
      · exact ih hrest b hb

/-- The parent of a block of the list is stored, or it is in the list. -/
theorem parent_mem : ∀ {blocks : List Block} {stored : List H256}, Grows stored blocks →
    ∀ b ∈ blocks, b.getParent ∈ stored ∨ ∃ a ∈ blocks, a.hash = b.getParent := by
  intro blocks
  induction blocks with
  | nil => intro stored _ b hb; exact absurd hb List.not_mem_nil
  | cons x rest ih =>
      rintro stored ⟨-, hpar, hrest⟩ b hb
      rcases List.mem_cons.1 hb with rfl | hb
      · exact Or.inl hpar
      · rcases ih hrest b hb with hmem | ⟨a, ha, hab⟩
        · rcases List.mem_cons.1 hmem with heq | hmem
          · exact Or.inr ⟨x, List.mem_cons_self .., heq.symm⟩
          · exact Or.inl hmem
        · exact Or.inr ⟨a, List.mem_cons_of_mem _ ha, hab⟩

end Grows

/-! ### Insertions -/

section Insertions

variable {g : GenesisDraw}

/-- What several insertions leave in the store. -/
structure Inserted (c : Blockchain) (blocks : List Block) (c' : Blockchain) : Prop where
  kept : ∀ h b, c.getBlock h = some b → c'.getBlock h = some b
  stored : ∀ b ∈ blocks, ∃ length, c'.getBlock b.hash = some { b with length := length } ∧
    (b.length ≤ 1 → length = b.length)
  only : ∀ h b, c'.getBlock h = some b →
    c.getBlock h = some b ∨ ∃ a ∈ blocks, a.hash = h ∧ b.header = a.header

/-- **What several insertions leave in the store.** -/
theorem inserted_of_insertAll : ∀ {blocks : List Block} {stored : List H256} {c c' : Blockchain},
    (∀ h, h ∈ c.blocks ↔ h ∈ stored) → Grows stored blocks → c.insertAll blocks = some c' →
      Inserted c blocks c' := by
  intro blocks
  induction blocks with
  | nil =>
      intro stored c c' _ _ h
      rw [Blockchain.insertAll, List.foldlM_nil, Option.pure_def, Option.some_inj] at h
      subst h
      exact ⟨fun _ _ hb => hb, fun b hb => absurd hb List.not_mem_nil, fun _ _ hb => Or.inl hb⟩
  | cons x rest ih =>
      rintro stored c c' hstored ⟨hnew, hpar, hrest⟩ h
      rw [Blockchain.insertAll, List.foldlM_cons] at h
      obtain ⟨c₁, h₁, h₂⟩ := Option.bind_eq_some_iff.1 h
      obtain ⟨length, hlen, rfl⟩ := Blockchain.insert_eq_some_iff.1 h₁
      have hnew' : c.getBlock x.hash = none :=
        not_mem_blocks_iff.1 fun hmem => hnew ((hstored _).1 hmem)
      have hstored' : ∀ h, h ∈ (c.put x length).blocks ↔ h ∈ x.hash :: stored := by
        intro h
        rw [mem_blocks_put, List.mem_cons, hstored]
      have hins := ih hstored' hrest h₂
      have hself : (c.put x length).getBlock x.hash = some { x with length := length } := by
        rw [Blockchain.getBlock_put, if_pos rfl]
      refine ⟨fun h b hb => ?_, fun b hb => ?_, fun h b hb => ?_⟩
      · refine hins.kept h b ?_
        rw [Blockchain.getBlock_put, if_neg (Ne.symm (Blockchain.ne_of_getBlock hb hnew'))]
        exact hb
      · rcases List.mem_cons.1 hb with rfl | hb
        · refine ⟨length, hins.kept _ _ hself, fun hle => ?_⟩
          rcases hlen with ⟨-, hlen⟩ | ⟨hlt, -⟩
          · exact hlen
          · exact absurd hle (UInt32.not_le.2 hlt)
        · exact hins.stored b hb
      · rcases hins.only h b hb with hb | ⟨a, ha, hah, hhead⟩
        · rw [Blockchain.getBlock_put] at hb
          split at hb
          · rename_i hh
            rw [← Option.some_inj.1 hb]
            exact Or.inr ⟨x, List.mem_cons_self .., hh.symm, rfl⟩
          · exact Or.inl hb
        · exact Or.inr ⟨a, List.mem_cons_of_mem _ ha, hah, hhead⟩

/-- **Recomputed lengths are depths**: the insertions return, and the store knows the depths. -/
theorem insertAll_lengths : ∀ {blocks : List Block} {stored : List H256} {c : Blockchain}
    {d : H256 → ℕ}, (∀ h, h ∈ c.blocks ↔ h ∈ stored) → (∀ h, c.lengthAt h = d h) →
      Grows stored blocks → (∀ b ∈ blocks, 1 < b.length ∧ blocks.foldl deepen d b.hash < 2 ^ 32) →
        ∃ c', c.insertAll blocks = some c' ∧ ∀ h, c'.lengthAt h = blocks.foldl deepen d h := by
  intro blocks
  induction blocks with
  | nil => intro stored c d _ hd _ _; exact ⟨c, rfl, hd⟩
  | cons x rest ih =>
      rintro stored c d hstored hd ⟨hnew, hpar, hrest⟩ hall
      obtain ⟨hlt, hbound⟩ := hall x (List.mem_cons_self ..)
      obtain ⟨p, hp⟩ := mem_blocks_iff.1 ((hstored _).2 hpar)
      have hself : (x :: rest).foldl deepen d x.hash = d x.getParent + 1 := by
        rw [List.foldl_cons, Grows.foldl_deepen (hrest.hash_ne _ (List.mem_cons_self ..)), deepen,
          Function.update_self]
      have hdp : p.length.toNat = d x.getParent := by
        rw [← hd, Blockchain.lengthAt_of_getBlock hp]
      -- the length of the parent has a successor
      have hfit : p.length.toNat + (1 : UInt32).toNat < 2 ^ 32 := by
        rw [hself, ← hdp] at hbound
        exact hbound
      have hadd : checkedAdd p.length 1 = some (p.length + 1) := by rw [checkedAdd, if_pos hfit]
      have hins : c.insert x = some (c.put x (p.length + 1)) :=
        Blockchain.insert_eq_some_iff.2 ⟨_, Or.inr ⟨hlt, p, hp, hadd⟩, rfl⟩
      have hstored' : ∀ h, h ∈ (c.put x (p.length + 1)).blocks ↔ h ∈ x.hash :: stored := by
        intro h
        rw [mem_blocks_put, List.mem_cons, hstored]
      have hd' : ∀ h, (c.put x (p.length + 1)).lengthAt h = deepen d x h := by
        intro h
        rw [Blockchain.lengthAt_put, deepen, Function.update_apply, toNat_of_checkedAdd hadd, hdp, hd]
        rfl
      obtain ⟨c', hc', hlengths⟩ := ih hstored' hd' hrest fun b hb =>
        hall b (List.mem_cons_of_mem _ hb)
      refine ⟨c', ?_, hlengths⟩
      rw [Blockchain.insertAll, List.foldlM_cons, hins]
      exact hc'

end Insertions

/-! ### The longest chain -/

/-- The insertions return, every stored length is the depth, and whatever the iteration order the tip is
a stored block of maximal depth and the longest chain, listed from it, has as many blocks. -/
def TracksDepth (g : GenesisDraw) (blocks : List Block) : Prop :=
  ∃ c, (Blockchain.new g).insertAll blocks = some c ∧
    (∀ h b, c.getBlock h = some b → b.length.toNat = depth g.block blocks h) ∧
    ∀ order, Blockchain.IterOrder c.blocks order →
      c.tip order ∈ c.blocks ∧
      (∀ h ∈ c.blocks, depth g.block blocks h ≤ depth g.block blocks (c.tip order)) ∧
      ∃ fuel longestChain, c.allBlocksInLongestChain order fuel = some longestChain ∧
        longestChain.length = depth g.block blocks (c.tip order)

section LongestChain

variable {g : GenesisDraw} {blocks : List Block}

theorem mem_blocks_new (h : H256) : h ∈ (Blockchain.new g).blocks ↔ h ∈ [g.block.hash] := by
  rw [mem_blocks_iff, List.mem_singleton]
  simp only [Blockchain.getBlock_new_eq_some]
  exact ⟨fun ⟨_, hh, _⟩ => hh, fun hh => ⟨_, hh, rfl⟩⟩

theorem depth_genesis (hgrow : Grows [g.block.hash] blocks) :
    depth g.block blocks g.block.hash = 1 := by
  rw [depth, Grows.foldl_deepen (hgrow.hash_ne _ (List.mem_singleton.2 rfl)), Function.update_self]

/-- The parents of the stored blocks. -/
theorem parentAt_cases {c : Blockchain} (hins : Inserted (Blockchain.new g) blocks c) {h k : H256}
    (hpar : c.parentAt h = some k) :
    ∃ b ∈ g.block :: blocks, b.hash = h ∧ b.getParent = k := by
  rw [Blockchain.parentAt, Option.map_eq_some_iff] at hpar
  obtain ⟨b, hb, rfl⟩ := hpar
  rcases hins.only h b hb with hgen | ⟨a, ha, hah, hhead⟩
  · obtain ⟨rfl, rfl⟩ := Blockchain.getBlock_new_eq_some.1 hgen
    exact ⟨_, List.mem_cons_self .., rfl, rfl⟩
  · exact ⟨a, List.mem_cons_of_mem _ ha, hah, (Block.getParent_congr hhead).symm⟩

/-- Every block of the tree is stored. -/
theorem mem_blocks_of_inserted {c : Blockchain} (hins : Inserted (Blockchain.new g) blocks c) :
    ∀ b ∈ g.block :: blocks, b.hash ∈ c.blocks := by
  intro b hb
  rcases List.mem_cons.1 hb with rfl | hb
  · exact mem_blocks_of_getBlock (hins.kept _ _ (Blockchain.getBlock_new_self g))
  · obtain ⟨length, hl, -⟩ := hins.stored b hb
    exact mem_blocks_of_getBlock hl

/-- The walk ends after as many blocks as the depth says when the parent of the genesis block is not
stored. -/
theorem exists_chainFrom {c : Blockchain} (hgrow : Grows [g.block.hash] blocks)
    (hins : Inserted (Blockchain.new g) blocks c)
    (hlengths : ∀ h, c.lengthAt h = depth g.block blocks h)
    (hparent : ∀ b ∈ g.block :: blocks, b.hash ≠ g.block.getParent) (h : H256) :
    ∃ fuel l, c.chainFrom fuel h = some l ∧ l.length = depth g.block blocks h := by
  have hzero : ∀ k, c.parentAt k = none → depth g.block blocks k = 0 := by
    intro k hk
    rw [Blockchain.parentAt, Option.map_eq_none_iff] at hk
    rw [← hlengths, Blockchain.lengthAt_of_none hk]
  have hsucc : ∀ k k', c.parentAt k = some k' →
      depth g.block blocks k = depth g.block blocks k' + 1 := by
    intro k k' hk
    obtain ⟨b, hb, rfl, rfl⟩ := parentAt_cases hins hk
    rcases List.mem_cons.1 hb with rfl | hb
    · -- the parent of the genesis block has depth 0
      have hnone : c.parentAt g.block.getParent = none := by
        cases hp : c.parentAt g.block.getParent with
        | none => rfl
        | some k =>
            obtain ⟨b, hb, hbh, -⟩ := parentAt_cases hins hp
            exact absurd hbh (hparent b hb)
      rw [hzero _ hnone, depth_genesis hgrow]
    · exact hgrow.depth_hash b hb
  obtain ⟨l, hl, hlen⟩ := Pointers.exists_path hzero hsucc (Nat.lt_succ_self (depth g.block blocks h))
  exact ⟨_, l, by rw [Blockchain.chainFrom_eq, hl], hlen⟩

/-- The walk never ends when the parent of the genesis block is stored: every block has a stored parent
then. -/
theorem chainFrom_eq_none {c : Blockchain} (hgrow : Grows [g.block.hash] blocks)
    (hins : Inserted (Blockchain.new g) blocks c) {x : Block} (hx : x ∈ g.block :: blocks)
    (hparent : x.hash = g.block.getParent) {h : H256} (hh : h ∈ c.blocks) (fuel : ℕ) :
    c.chainFrom fuel h = none := by
  have hsome : ∀ k, k ∈ c.blocks → (c.parentAt k).isSome := by
    intro k hk
    obtain ⟨b, hb⟩ := mem_blocks_iff.1 hk
    rw [Blockchain.parentAt_of_getBlock hb]
    rfl
  rw [Blockchain.chainFrom_eq]
  refine Pointers.path_eq_none (fun k k' hk => hsome k' ?_) (hsome h hh)
  obtain ⟨b, hb, rfl, rfl⟩ := parentAt_cases hins hk
  rcases List.mem_cons.1 hb with rfl | hb
  · rw [← hparent]
    exact mem_blocks_of_inserted hins x hx
  · rcases hgrow.parent_mem b hb with hgen | ⟨a, ha, hab⟩
    · rw [List.mem_singleton.1 hgen]
      exact mem_blocks_of_inserted hins _ (List.mem_cons_self ..)
    · rw [← hab]
      exact mem_blocks_of_inserted hins a (List.mem_cons_of_mem _ ha)

/-- **When the store tracks the depths**: for every sequence of blocks with new hashes and stored
parents, if and only if every block has a length field greater than 1 and a depth that is a `u32`, and no
block has the hash of the parent of the genesis block. -/
theorem tracksDepth_iff (hgrow : Grows [g.block.hash] blocks) :
    TracksDepth g blocks ↔
      (∀ b ∈ blocks, 1 < b.length ∧ depth g.block blocks b.hash < 2 ^ 32) ∧
        ∀ b ∈ g.block :: blocks, b.hash ≠ g.block.getParent := by
  constructor
  · rintro ⟨c, hc, hlengths, htip⟩
    have hins := inserted_of_insertAll mem_blocks_new hgrow hc
    refine ⟨fun b hb => ?_, fun x hx hparent => ?_⟩
    · obtain ⟨length, hl, hsame⟩ := hins.stored b hb
      have hdepth : length.toNat = depth g.block blocks b.hash := hlengths _ _ hl
      refine ⟨?_, hdepth ▸ length.toNat_lt⟩
      by_contra hle
      rw [UInt32.not_lt] at hle
      -- the parent is stored with a positive depth
      have hpos : 0 < depth g.block blocks b.getParent := by
        rcases hgrow.parent_mem b hb with hgen | ⟨a, ha, hab⟩
        · rw [List.mem_singleton.1 hgen, depth_genesis hgrow]
          exact Nat.one_pos
        · have hda : depth g.block blocks a.hash = _ := hgrow.depth_hash a ha
          rw [← hab, hda]
          exact Nat.succ_pos _
      have hdb : depth g.block blocks b.hash = depth g.block blocks b.getParent + 1 :=
        hgrow.depth_hash b hb
      rw [hsame hle] at hdepth
      rw [UInt32.le_iff_toNat_le] at hle
      have hone : (1 : UInt32).toNat = 1 := rfl
      omega
    · obtain ⟨hmem, -, fuel, l, hl, -⟩ := htip _ (Blockchain.iterOrder_keys c.blocks)
      rw [Blockchain.allBlocksInLongestChain, chainFrom_eq_none hgrow hins hx hparent hmem] at hl
      simp at hl
  · rintro ⟨hall, hparent⟩
    have hstart : ∀ h, (Blockchain.new g).lengthAt h =
        Function.update (fun _ => 0) g.block.hash 1 h := by
      intro h
      rw [Blockchain.lengthAt, Blockchain.getBlock_new, Function.update_apply]
      split
      · rfl
      · rfl
    obtain ⟨c, hc, hlengths⟩ := insertAll_lengths mem_blocks_new hstart hgrow hall
    have hins := inserted_of_insertAll mem_blocks_new hgrow hc
    have hlengths' : ∀ h b, c.getBlock h = some b → b.length.toNat = depth g.block blocks h := by
      intro h b hb
      rw [← Blockchain.lengthAt_of_getBlock hb]
      exact hlengths h
    refine ⟨c, hc, hlengths', fun order horder => ?_⟩
    obtain ⟨b, hb, hmax⟩ := Blockchain.tip_spec horder (hins.kept _ _ (Blockchain.getBlock_new_self g))
    refine ⟨mem_blocks_of_getBlock hb, fun h hh => ?_, ?_⟩
    · obtain ⟨b', hb'⟩ := mem_blocks_iff.1 hh
      rw [← hlengths' h b' hb', ← hlengths' _ b hb]
      exact hmax h b' hb'
    · exact exists_chainFrom hgrow hins hlengths hparent _

end LongestChain

omit [Crypto]

/-- **A random block on the genesis block is stored with length 1**, so the genesis block may stay the
tip, and the longest chain has one block. -/
theorem random_block_length :
    letI := sampleCrypto
    let block := doGenerateRandomBlock 1 2 0 0
    Grows [sampleGenesis.block.hash] [block] ∧
      depth sampleGenesis.block [block] block.hash = 2 ∧
      ∃ c ∈ (Blockchain.new sampleGenesis).insertAll [block],
        (c.getBlock block.hash).map Block.length = some 1 ∧
        Blockchain.IterOrder c.blocks [2, 1] ∧ c.tip [2, 1] = 1 ∧
        c.allBlocksInLongestChain [2, 1] 2 = some [1] := by
  decide +kernel

/-- A chain of three blocks with lengths that are too large. -/
theorem tracksDepth_iff_chain :
    letI := sampleCrypto
    TracksDepth sampleGenesis [sampleBlock 1 2 7 [], sampleBlock 2 3 2 []] :=
  (@tracksDepth_iff sampleCrypto _ _ (by decide +kernel)).2 (by decide +kernel)

end BitcoinClient
