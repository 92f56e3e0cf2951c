/-
**Hashes, addresses, transactions and blocks.**

The data types of `src/types`, with the functions on them that the rest of the client calls.
A hash is a 256-bit word and an address a 160-bit word, both read big endian; the `u32` and
`u128` fields are machine words of that width.  The client is built in the debug profile, so an
overflowing addition panics: `checkedAdd` is that addition, with `none` for the panic.

SHA-256, Ed25519 and the JSON text of a value come from other crates.  They are the fields of
`Crypto`, over which everything below is generic.

Main definitions:

* `BitcoinClient.H256.cmp` — the order of two hashes, by their upper and lower halves;
* `BitcoinClient.Crypto` — the primitives that come from other crates;
* `BitcoinClient.Header.hash`, `BitcoinClient.Block.hash`, `BitcoinClient.SignedTransaction.hash`;
* `BitcoinClient.verify`, `BitcoinClient.Address.fromPublicKeyBytes`;
* `BitcoinClient.doGenerateRandomBlock` — a block with random nonce and Merkle root;
* `BitcoinClient.sampleCrypto`, `BitcoinClient.sampleBlock`, `BitcoinClient.sampleTransaction` — a
  small instance of the primitives, and values to evaluate examples with.

Main results:

* `BitcoinClient.H256.cmp_eq` — comparing by halves is comparing the 256-bit numbers.
-/

import Mathlib.Data.Finmap
import Mathlib.Order.Basic
import Mathlib.Tactic.Common

set_option relaxedAutoImplicit false
set_option autoImplicit false

namespace BitcoinClient

/-! ### Machine integers -/

/-- Addition of two `u32` in the debug profile; `none` is the overflow panic. -/
def checkedAdd (a b : UInt32) : Option UInt32 :=
  if a.toNat + b.toNat < 2 ^ 32 then some (a + b) else none

theorem toNat_of_checkedAdd {a b c : UInt32} (h : checkedAdd a b = some c) :
    c.toNat = a.toNat + b.toNat := by
  rw [checkedAdd] at h
  split at h
  · rename_i hlt
    rw [← Option.some_inj.1 h, UInt32.toNat_add, Nat.mod_eq_of_lt hlt]
  · simp at h

theorem checkedAdd_eq_none {a b : UInt32} :
    checkedAdd a b = none ↔ 2 ^ 32 ≤ a.toNat + b.toNat := by
  simp [checkedAdd]

/-- The bytes of a `u32`, most significant first. -/
def toBeBytes (n : UInt32) : List UInt8 :=
  [(n >>> 24).toUInt8, (n >>> 16).toUInt8, (n >>> 8).toUInt8, n.toUInt8]

/-! ### Hashes and addresses -/

/-- A SHA-256 hash, a big endian 256-bit number. -/
abbrev H256 := BitVec 256

/-- A 20-byte address. -/
abbrev Address := BitVec 160

/-- The upper 128 bits of a hash. -/
def H256.higher (h : H256) : BitVec 128 := h.extractLsb' 128 128

/-- The lower 128 bits of a hash. -/
def H256.lower (h : H256) : BitVec 128 := h.extractLsb' 0 128

/-- `Ord::cmp` of two hashes: the upper halves decide, and the lower ones when these are equal. -/
def H256.cmp (self other : H256) : Ordering :=
  match compare (H256.higher self).toNat (H256.higher other).toNat with
  | .eq => compare (H256.lower self).toNat (H256.lower other).toNat
  | higher => higher

/-- **Comparing by halves is comparing the numbers.** -/
theorem H256.cmp_eq (a b : H256) : H256.cmp a b = compare a.toNat b.toNat := by
  have hsplit (h : H256) : h.toNat = (H256.higher h).toNat * 2 ^ 128 + (H256.lower h).toNat := by
    have hlt := h.isLt
    simp only [H256.higher, H256.lower, BitVec.extractLsb'_toNat, Nat.shiftRight_eq_div_pow]
    omega
  have hlower (h : H256) : (H256.lower h).toNat < 2 ^ 128 := (H256.lower h).isLt
  have ha := hsplit a
  have hb := hsplit b
  have hla := hlower a
  have hlb := hlower b
  rw [H256.cmp]
  rcases Nat.lt_trichotomy (H256.higher a).toNat (H256.higher b).toNat with h | h | h
  · rw [compare_lt_iff_lt.2 h, eq_comm, compare_lt_iff_lt]
    omega
  · rw [compare_eq_iff_eq.2 h]
    have hdiff : a.toNat < b.toNat ↔ (H256.lower a).toNat < (H256.lower b).toNat := by omega
    have heq : a.toNat = b.toNat ↔ (H256.lower a).toNat = (H256.lower b).toNat := by omega
    simp only [compare, compareOfLessAndEq, hdiff, heq]
  · rw [compare_gt_iff_gt.2 h, eq_comm, compare_gt_iff_gt]
    omega

/-- One hash compares as greater than another when its number is greater. -/
theorem H256.cmp_gt_iff {a b : H256} : H256.cmp a b = .gt ↔ b < a := by
  rw [H256.cmp_eq, compare_gt_iff_gt, BitVec.lt_def]

/-! ### Transactions -/

structure Transaction where
  sender : Address
  receiver : Address
  accountNonce : UInt32
  value : UInt32
  deriving DecidableEq

structure SignedTransaction where
  transaction : Transaction
  signature : List UInt8
  publicKey : List UInt8
  deriving DecidableEq

/-! ### Blocks -/

structure Header where
  parent : H256
  nonce : UInt32
  difficulty : H256
  timestamp : BitVec 128
  merkleRoot : H256
  deriving DecidableEq

/-- A block; `length` counts from the genesis block, and is not part of the header. -/
structure Block where
  length : UInt32
  header : Header
  data : List SignedTransaction
  deriving DecidableEq

def Block.getParent (b : Block) : H256 := b.header.parent

def Block.getDifficulty (b : Block) : H256 := b.header.difficulty

@[simp] theorem getParent_mk (l : UInt32) (h : Header) (d : List SignedTransaction) :
    (Block.mk l h d).getParent = h.parent := rfl

@[simp] theorem getDifficulty_mk (l : UInt32) (h : Header) (d : List SignedTransaction) :
    (Block.mk l h d).getDifficulty = h.difficulty := rfl

theorem Block.getParent_congr {a b : Block} (h : a.header = b.header) :
    a.getParent = b.getParent := by
  rw [Block.getParent, Block.getParent, h]

/-! ### Primitives from other crates -/

/-- The primitives that come from `ring` and `serde_json`. -/
class Crypto where
  /-- `digest::digest(&digest::SHA256, _)`. -/
  sha256 : List UInt8 → H256
  /-- Ed25519 verification of a signature under a public key: key, message, signature. -/
  ed25519Verify : List UInt8 → List UInt8 → List UInt8 → Bool
  /-- `serde_json::to_string` of a header. -/
  headerToString : Header → List UInt8
  /-- `serde_json::to_string` of a transaction. -/
  transactionToString : Transaction → List UInt8
  /-- `serde_json::to_string` of a signed transaction. -/
  signedTransactionToString : SignedTransaction → List UInt8

/-- A small instance of the primitives, to evaluate examples with: a text of at most 32 bytes is its
own hash, the text of a header is its nonce, and a signature is the public key itself. -/
@[reducible] def sampleCrypto : Crypto where
  sha256 bytes := BitVec.ofNat 256 (bytes.foldl (fun n b => 256 * n + b.toNat) 0)
  ed25519Verify publicKey _ signature := publicKey = signature
  headerToString h := toBeBytes h.nonce
  transactionToString t := toBeBytes t.accountNonce ++ toBeBytes t.value
  signedTransactionToString tx :=
    toBeBytes tx.transaction.accountNonce ++ toBeBytes tx.transaction.value ++
      toBeBytes (UInt32.ofNat tx.transaction.sender.toNat) ++
      toBeBytes (UInt32.ofNat tx.transaction.receiver.toNat)

variable [Crypto]

def Header.hash (h : Header) : H256 := Crypto.sha256 (Crypto.headerToString h)

/-- The hash of a block covers its header only. -/
def Block.hash (b : Block) : H256 := b.header.hash

def SignedTransaction.hash (tx : SignedTransaction) : H256 :=
  Crypto.sha256 (Crypto.signedTransactionToString tx)

/-- The last 20 bytes of the hash of a public key. -/
def Address.fromPublicKeyBytes (bytes : List UInt8) : Address :=
  (Crypto.sha256 bytes).truncate 160

/-- Verification of the signature of a transaction. -/
def verify (t : Transaction) (publicKey signature : List UInt8) : Bool :=
  Crypto.ed25519Verify publicKey (Crypto.transactionToString t) signature

/-- The difficulty that every block starts from. -/
def fixedDifficulty : H256 :=
  0x0000800000000000000000000000000000000000000000000000000000000000

/-- A block on `parent` with no transactions; nonce, timestamp and Merkle root are the values
drawn from the random generator and the clock. -/
def doGenerateRandomBlock (parent : H256) (nonce : UInt32) (timestamp : BitVec 128)
    (merkleRoot : H256) : Block where
  header :=
    { parent := parent, nonce := nonce, difficulty := fixedDifficulty, timestamp := timestamp,
      merkleRoot := merkleRoot }
  length := 1
  data := []

/-- A block of the fixed difficulty, to evaluate examples with. -/
def sampleBlock (parent : H256) (nonce length : UInt32) (data : List SignedTransaction) : Block where
  header :=
    { parent := parent, nonce := nonce, difficulty := fixedDifficulty, timestamp := 0,
      merkleRoot := 0 }
  length := length
  data := data

/-- A transaction without a signature, to evaluate examples with. -/
def sampleTransaction (sender receiver : Address) (accountNonce value : UInt32) :
    SignedTransaction where
  transaction :=
    { sender := sender, receiver := receiver, accountNonce := accountNonce, value := value }
  signature := []
  publicKey := []

@[simp] theorem hash_mk (l : UInt32) (h : Header) (d : List SignedTransaction) :
    (Block.mk l h d).hash = h.hash := rfl

/-- Blocks with one header have one hash. -/
theorem Block.hash_congr {a b : Block} (h : a.header = b.header) : a.hash = b.hash := by
  rw [Block.hash, Block.hash, h]

end BitcoinClient
