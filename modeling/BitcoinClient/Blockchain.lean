/-
**The block store.**

`src/blockchain/mod.rs`: the blocks received or mined so far, the state after each of them, the
tip of the longest chain, and the insertion of a block.  The iteration order of a hash map is not
fixed, so `tip` takes the order in which the keys are visited as an argument.

Main definitions:

* `BitcoinClient.Blockchain`, `BitcoinClient.Blockchain.new` — the store and its initial value,
  which holds the genesis block and the initial coin offering;
* `BitcoinClient.Blockchain.insert` — the insertion, which recomputes the length of a non-genesis
  block and panics when its parent is not stored;
* `BitcoinClient.Blockchain.tip`, `BitcoinClient.Blockchain.walk` — the tip, and the walk along
  parent hashes from a block;
* `BitcoinClient.Blockchain.attach` — executing a block on the state of its parent and inserting
  it, as the network worker does for a new block and for a released orphan.

Main results:

* `BitcoinClient.Blockchain.insert_eq_some_iff`, `BitcoinClient.Blockchain.attach_cases` — what
  an insertion and an attachment write;
* `BitcoinClient.Blockchain.tip_spec` — the tip is a stored block of maximal length.
-/

import BitcoinClient.Exec
import BitcoinClient.ExecuteTx

set_option relaxedAutoImplicit false
set_option autoImplicit false

namespace BitcoinClient

variable [Crypto]

/-! ### The initial coin offering -/

/-- The account that holds the initial coin offering. -/
def icoAddr : Address := Address.fromPublicKeyBytes (toBeBytes 0)

/-- The state after a genesis block: one account with 100 coins. -/
def icoState : State := (∅ : State).insert icoAddr (0, 100)

/-! ### The store -/

structure Blockchain where
  blocks : Finmap fun _ : H256 => Block
  blockStates : Finmap fun _ : H256 => State
  deriving DecidableEq

/-- The values drawn by `Blockchain::new` for the genesis block. -/
structure GenesisDraw where
  parent : H256
  nonce : UInt32
  timestamp : BitVec 128
  merkleRoot : H256
  deriving DecidableEq

/-- The genesis block of a node. -/
def GenesisDraw.block (g : GenesisDraw) : Block :=
  { doGenerateRandomBlock g.parent g.nonce g.timestamp g.merkleRoot with length := 1 }

/-- A genesis block with hash 1 under `sampleCrypto`. -/
def sampleGenesis : GenesisDraw := { parent := 99, nonce := 1, timestamp := 0, merkleRoot := 0 }

namespace Blockchain

/-- A new blockchain, only containing the genesis block. -/
def new (g : GenesisDraw) : Blockchain where
  blocks := (∅ : Finmap fun _ : H256 => Block).insert g.block.hash g.block
  blockStates := (∅ : Finmap fun _ : H256 => State).insert g.block.hash icoState

def getBlock (chain : Blockchain) (h : H256) : Option Block := chain.blocks.lookup h

def getBlockState (chain : Blockchain) (h : H256) : Option State := chain.blockStates.lookup h

def getParentBlock (chain : Blockchain) (block : Block) : Option Block :=
  chain.getBlock block.getParent

/-- Storing a block with a given length. -/
def put (chain : Blockchain) (block : Block) (length : UInt32) : Blockchain :=
  { chain with blocks := chain.blocks.insert block.hash { block with length := length } }

/-- Storing the state after a block. -/
def putState (chain : Blockchain) (h : H256) (s : State) : Blockchain :=
  { chain with blockStates := chain.blockStates.insert h s }

/-- Insert a block into the blockchain.  `none` is a panic: the parent of a non-genesis block is
not stored, or its length has no successor. -/
def insert (chain : Blockchain) (block : Block) : Option Blockchain :=
  if 1 < block.length then
    match chain.getBlock block.getParent with
    | none => none
    | some parent =>
      match checkedAdd parent.length 1 with
      | none => none
      | some length => some (chain.put block length)
  else some (chain.put block block.length)

/-- An order in which a hash map may be iterated: every key once. -/
def IterOrder {β : Type} (m : Finmap fun _ : H256 => β) (order : List H256) : Prop :=
  order.Nodup ∧ ∀ h, h ∈ order ↔ h ∈ m

instance {β : Type} (m : Finmap fun _ : H256 => β) (order : List H256) :
    Decidable (IterOrder m order) :=
  decidable_of_iff (order.Nodup ∧ order.toFinset = m.keys) <| by
    simp only [IterOrder, Finset.ext_iff, List.mem_toFinset, Finmap.mem_keys]

omit [Crypto] in
theorem iterOrder_keys {β : Type} (m : Finmap fun _ : H256 => β) : IterOrder m m.keys.toList :=
  ⟨Finset.nodup_toList _, fun h => by rw [Finset.mem_toList, Finmap.mem_keys]⟩

/-- The last block's hash of the longest chain, the blocks being visited in the given order. -/
def tip (chain : Blockchain) (order : List H256) : H256 :=
  (order.foldl
    (fun (best : UInt32 × H256) hash =>
      match chain.getBlock hash with
      | none => best
      | some block => if best.1 ≤ block.length then (block.length, hash) else best)
    (0, 0)).2

/-- The walk from `curr` along parent hashes through the stored blocks, in at most `fuel` rounds
of the loop. -/
def walk (chain : Blockchain) : ℕ → H256 → List H256
  | 0, _ => []
  | fuel + 1, curr =>
    match chain.getBlock curr with
    | none => []
    | some block => curr :: walk chain fuel block.getParent

/-- Execute a block on the state of its parent, store the new state, and insert the block. -/
def attach (chain : Blockchain) (block : Block) : Exec Blockchain Unit :=
  match chain.getBlockState block.getParent with
  | none => .panicked chain
  | some parentState =>
    match executeTx parentState block.data with
    | none => .panicked chain
    | some (newState, _) =>
      match (chain.putState block.hash newState).insert block with
      | none => .panicked (chain.putState block.hash newState)
      | some chain => .done chain ()

/-! ### Lookups after a write -/

omit [Crypto] in
theorem getBlockState_putState (chain : Blockchain) (h' : H256) (s : State) (h : H256) :
    (chain.putState h' s).getBlockState h = if h = h' then some s else chain.getBlockState h := by
  by_cases hh : h = h'
  · rw [if_pos hh, hh]
    exact Finmap.lookup_insert _
  · rw [if_neg hh]
    exact Finmap.lookup_insert_of_ne _ hh

omit [Crypto] in
@[simp] theorem getBlock_putState (chain : Blockchain) (h' : H256) (s : State) (h : H256) :
    (chain.putState h' s).getBlock h = chain.getBlock h := rfl

omit [Crypto] in
/-- A hash that is not stored is not one that is. -/
theorem ne_of_getBlock {c : Blockchain} {h h' : H256} {b : Block} (hb : c.getBlock h = some b)
    (hnone : c.getBlock h' = none) : h' ≠ h := by
  rintro rfl
  rw [hb] at hnone
  simp at hnone

omit [Crypto] in
theorem ext_get {c d : Blockchain} (hb : ∀ h, c.getBlock h = d.getBlock h)
    (hs : ∀ h, c.getBlockState h = d.getBlockState h) : c = d := by
  obtain ⟨cb, cs⟩ := c
  obtain ⟨db, ds⟩ := d
  congr
  · exact Finmap.ext_lookup hb
  · exact Finmap.ext_lookup hs

theorem getBlock_put (chain : Blockchain) (block : Block) (length : UInt32) (h : H256) :
    (chain.put block length).getBlock h =
      if h = block.hash then some { block with length := length } else chain.getBlock h := by
  by_cases hh : h = block.hash
  · rw [if_pos hh, hh]
    exact Finmap.lookup_insert _
  · rw [if_neg hh]
    exact Finmap.lookup_insert_of_ne _ hh

@[simp] theorem getBlockState_put (chain : Blockchain) (block : Block) (length : UInt32) (h : H256) :
    (chain.put block length).getBlockState h = chain.getBlockState h := rfl

/-- Storing what is stored already. -/
theorem put_eq_self {c : Blockchain} {x : Block} {l : UInt32}
    (h : c.getBlock x.hash = some { x with length := l }) : c.put x l = c := by
  refine ext_get (fun h' => ?_) fun _ => rfl
  rw [getBlock_put]
  split
  · rename_i hh
    rw [hh, h]
  · rfl

theorem getBlock_new (g : GenesisDraw) (h : H256) :
    (new g).getBlock h = if h = g.block.hash then some g.block else none := by
  by_cases hh : h = g.block.hash
  · rw [if_pos hh, hh]
    exact Finmap.lookup_insert _
  · rw [if_neg hh]
    exact Finmap.lookup_insert_of_ne _ hh

theorem getBlockState_new (g : GenesisDraw) (h : H256) :
    (new g).getBlockState h = if h = g.block.hash then some icoState else none := by
  by_cases hh : h = g.block.hash
  · rw [if_pos hh, hh]
    exact Finmap.lookup_insert _
  · rw [if_neg hh]
    exact Finmap.lookup_insert_of_ne _ hh

/-- At the start the genesis block is the only one that is stored. -/
theorem getBlock_new_eq_some {g : GenesisDraw} {h : H256} {b : Block} :
    (new g).getBlock h = some b ↔ h = g.block.hash ∧ g.block = b := by
  rw [getBlock_new, Option.ite_none_right_eq_some, Option.some_inj]

theorem getBlockState_new_eq_some {g : GenesisDraw} {h : H256} {s : State} :
    (new g).getBlockState h = some s ↔ h = g.block.hash ∧ icoState = s := by
  rw [getBlockState_new, Option.ite_none_right_eq_some, Option.some_inj]

theorem getBlock_new_self (g : GenesisDraw) : (new g).getBlock g.block.hash = some g.block :=
  getBlock_new_eq_some.2 ⟨rfl, rfl⟩

/-! ### What an insertion writes -/

/-- `insert` stores the block with the length `length`: a genesis block keeps its own, any other
one gets the successor of its parent's. -/
def StoredLength (chain : Blockchain) (block : Block) (length : UInt32) : Prop :=
  (block.length ≤ 1 ∧ length = block.length) ∨
    (1 < block.length ∧ ∃ parent, chain.getBlock block.getParent = some parent ∧
      checkedAdd parent.length 1 = some length)

/-- **The specification of `insert`.** -/
theorem insert_eq_some_iff {chain chain' : Blockchain} {block : Block} :
    chain.insert block = some chain' ↔
      ∃ length, StoredLength chain block length ∧ chain' = chain.put block length := by
  rw [insert]
  by_cases hlen : 1 < block.length
  · have hnot : ¬ block.length ≤ 1 := UInt32.not_le.2 hlen
    rw [if_pos hlen]
    cases hp : chain.getBlock block.getParent with
    | none => simp [StoredLength, hp, hnot]
    | some parent =>
        cases hc : checkedAdd parent.length 1 with
        | none => simp [StoredLength, hp, hnot, hc]
        | some length => simp [StoredLength, hp, hnot, hc, hlen, eq_comm]
  · have hle : block.length ≤ 1 := UInt32.not_lt.1 hlen
    rw [if_neg hlen]
    simp [StoredLength, hlen, hle, eq_comm]

omit [Crypto] in
@[simp] theorem storedLength_putState {chain : Blockchain} {h : H256} {s : State} {block : Block}
    {length : UInt32} :
    StoredLength (chain.putState h s) block length ↔ StoredLength chain block length := Iff.rfl

omit [Crypto] in
/-- A block of length 1 keeps its length. -/
theorem storedLength_of_eq_one {chain : Blockchain} {block : Block} (h : block.length = 1) :
    StoredLength chain block block.length := by
  refine Or.inl ⟨?_, rfl⟩
  rw [h]
  exact UInt32.le_refl 1

/-- **What `attach` can do.**  It panics before writing anything, or after storing the state, or
it stores the state and the block. -/
theorem attach_cases (chain : Blockchain) (block : Block) :
    chain.attach block = .panicked chain ∨
      ∃ parentState newState validTx, chain.getBlockState block.getParent = some parentState ∧
        executeTx parentState block.data = some (newState, validTx) ∧
        (chain.attach block = .panicked (chain.putState block.hash newState) ∨
          ∃ length, StoredLength chain block length ∧
            chain.attach block = .done ((chain.putState block.hash newState).put block length) ()) := by
  rw [attach]
  cases hs : chain.getBlockState block.getParent with
  | none => exact Or.inl rfl
  | some parentState =>
      cases he : executeTx parentState block.data with
      | none => exact Or.inl (by simp only [he])
      | some r =>
          obtain ⟨newState, validTx⟩ := r
          refine Or.inr ⟨parentState, newState, validTx, rfl, he, ?_⟩
          simp only [he]
          cases hi : (chain.putState block.hash newState).insert block with
          | none => exact Or.inl rfl
          | some chain₁ =>
              obtain ⟨length, hlen, rfl⟩ := insert_eq_some_iff.1 hi
              exact Or.inr ⟨length, hlen, rfl⟩

/-- What `attach` has stored when it is done. -/
theorem of_attach_done {chain chain' : Blockchain} {block : Block}
    (h : chain.attach block = .done chain' ()) :
    ∃ parentState newState validTx length, chain.getBlockState block.getParent = some parentState ∧
      executeTx parentState block.data = some (newState, validTx) ∧ StoredLength chain block length ∧
      chain' = (chain.putState block.hash newState).put block length := by
  rcases attach_cases chain block with hp | ⟨p, s, v, hs, he, hp | ⟨l, hl, hd⟩⟩
  · rw [h] at hp
    cases hp
  · rw [h] at hp
    cases hp
  · rw [h] at hd
    exact ⟨p, s, v, l, hs, he, hl, (Exec.done.inj hd).1⟩

/-- `attach` is done when the state of the parent is stored, the transactions can be executed and
the length can be computed. -/
theorem attach_eq_done {chain : Blockchain} {block : Block} {parentState newState : State}
    {validTx : List SignedTransaction} {length : UInt32}
    (hs : chain.getBlockState block.getParent = some parentState)
    (he : executeTx parentState block.data = some (newState, validTx))
    (hlen : StoredLength chain block length) :
    chain.attach block = .done ((chain.putState block.hash newState).put block length) () := by
  have hi : (chain.putState block.hash newState).insert block =
      some ((chain.putState block.hash newState).put block length) :=
    insert_eq_some_iff.2 ⟨length, hlen, rfl⟩
  rw [attach, hs]
  simp only [he, hi]

/-! ### The tip -/

omit [Crypto] in
/-- What one pass over the keys keeps: the best length bounds the lengths seen so far, and the best
hash is the starting one or that of a stored block. -/
theorem foldl_tip (chain : Blockchain) : ∀ (order : List H256) (best : UInt32 × H256),
    (∀ h ∈ order, (chain.getBlock h).isSome) →
      let r := order.foldl
        (fun (best : UInt32 × H256) hash =>
          match chain.getBlock hash with
          | none => best
          | some block => if best.1 ≤ block.length then (block.length, hash) else best) best
      best.1.toNat ≤ r.1.toNat ∧
        (∀ h ∈ order, ∀ c, chain.getBlock h = some c → c.length.toNat ≤ r.1.toNat) ∧
        (r = best ∨ ∃ c, chain.getBlock r.2 = some c ∧ c.length = r.1) := by
  intro order
  induction order with
  | nil => intro best _; simp
  | cons h order ih =>
      intro best hall
      obtain ⟨block, hb⟩ := Option.isSome_iff_exists.1 (hall h (List.mem_cons_self ..))
      have hall' : ∀ h' ∈ order, (chain.getBlock h').isSome :=
        fun h' hh' => hall h' (List.mem_cons_of_mem _ hh')
      simp only [List.foldl_cons, hb]
      by_cases hle : best.1 ≤ block.length
      · rw [if_pos hle]
        obtain ⟨h₁, h₂, h₃⟩ := ih (block.length, h) hall'
        refine ⟨le_trans (UInt32.le_iff_toNat_le.1 hle) h₁, ?_, Or.inr ?_⟩
        · intro h' hh' c hc
          rcases List.mem_cons.1 hh' with rfl | hh'
          · rw [hb, Option.some_inj] at hc
            rw [← hc]
            exact h₁
          · exact h₂ h' hh' c hc
        · rcases h₃ with h₃ | h₃
          · rw [h₃]
            exact ⟨block, hb, rfl⟩
          · exact h₃
      · rw [if_neg hle]
        obtain ⟨h₁, h₂, h₃⟩ := ih best hall'
        refine ⟨h₁, ?_, h₃⟩
        intro h' hh' c hc
        rcases List.mem_cons.1 hh' with rfl | hh'
        · rw [hb, Option.some_inj] at hc
          have hlt : block.length.toNat < best.1.toNat :=
            Nat.not_le.1 fun h => hle (UInt32.le_iff_toNat_le.2 h)
          rw [← hc]
          omega
        · exact h₂ h' hh' c hc

omit [Crypto] in
/-- **The tip is a stored block of maximal length**, whatever the iteration order. -/
theorem tip_spec {chain : Blockchain} {order : List H256} (horder : IterOrder chain.blocks order)
    {h₀ : H256} {b₀ : Block} (h₀b : chain.getBlock h₀ = some b₀) :
    ∃ b, chain.getBlock (chain.tip order) = some b ∧
      ∀ h c, chain.getBlock h = some c → c.length.toNat ≤ b.length.toNat := by
  have hstored : ∀ h ∈ order, (chain.getBlock h).isSome :=
    fun h hh => Finmap.lookup_isSome.2 ((horder.2 h).1 hh)
  have hmem : ∀ h c, chain.getBlock h = some c → h ∈ order :=
    fun h c hc => (horder.2 h).2 (Finmap.mem_of_lookup_eq_some hc)
  rw [tip]
  cases order with
  | nil => exact absurd (hmem h₀ b₀ h₀b) List.not_mem_nil
  | cons h order =>
      obtain ⟨block, hb⟩ := Option.isSome_iff_exists.1 (hstored h (List.mem_cons_self ..))
      obtain ⟨-, hbound, -⟩ := foldl_tip chain (h :: order) (0, 0) hstored
      have hzero : (0 : UInt32) ≤ block.length := UInt32.le_iff_toNat_le.2 (Nat.zero_le _)
      obtain ⟨-, -, hbest⟩ := foldl_tip chain order (block.length, h)
        fun h' hh' => hstored h' (List.mem_cons_of_mem _ hh')
      simp only [List.foldl_cons, hb, hzero, if_true] at hbound ⊢
      rcases hbest with hbest | ⟨c, hc, hlen⟩
      · rw [hbest] at hbound ⊢
        exact ⟨block, hb, fun h' c hc => hbound h' (hmem h' c hc) c hc⟩
      · exact ⟨c, hc, fun h' c' hc' => hlen ▸ hbound h' (hmem h' c' hc') c' hc'⟩

omit [Crypto] in
/-- The tip of a store with a block of length 1 has a positive length. -/
theorem one_le_length_tip {chain : Blockchain} {order : List H256}
    (horder : IterOrder chain.blocks order) {h : H256} {g tipBlock : Block}
    (hg : chain.getBlock h = some g) (hone : g.length = 1)
    (htip : chain.getBlock (chain.tip order) = some tipBlock) : 1 ≤ tipBlock.length.toNat := by
  obtain ⟨b, hb, hmax⟩ := tip_spec horder hg
  rw [htip, Option.some_inj] at hb
  have hle := hmax _ _ hg
  rw [hone] at hle
  rw [hb]
  exact hle

end Blockchain

end BitcoinClient
