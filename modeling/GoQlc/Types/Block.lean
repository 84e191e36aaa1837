import GoQlc.Lib.Bytes

/-!
# State blocks

The fields of a block, the byte string its hash commits to, and the derived
values the verifier reads.
-/

namespace GoQlc

/-! ## Balances -/

def maxUint64 : ℕ := 2 ^ 64 - 1

def safeAdd (x y : ℕ) : ℕ × Bool := ((x + y) % 2 ^ 64, decide (maxUint64 - x < y))

def safeSub (x y : ℕ) : ℕ × Bool := ((2 ^ 64 + x - y) % 2 ^ 64, decide (x < y))

namespace Balance

def uint64 (b : ℕ) : ℕ := b % 2 ^ 64

def add (b n : ℕ) : ℕ :=
  let sum := safeAdd (uint64 b) (uint64 n)
  if sum.2 then 0 else sum.1

def sub (b n : ℕ) : ℕ :=
  let difference := safeSub (uint64 b) (uint64 n)
  if difference.2 then 0 else difference.1

theorem uint64_lt (b : ℕ) : uint64 b < 2 ^ 64 := Nat.mod_lt _ (by decide)

theorem uint64_of_lt {b : ℕ} (h : b < 2 ^ 64) : uint64 b = b := Nat.mod_eq_of_lt h

theorem add_eq (b n : ℕ) :
    add b n = if uint64 b + uint64 n < 2 ^ 64 then uint64 b + uint64 n else 0 := by
  have hb := uint64_lt b
  have hn := uint64_lt n
  have hover : maxUint64 - uint64 b < uint64 n ↔ ¬ uint64 b + uint64 n < 2 ^ 64 := by
    unfold maxUint64
    omega
  simp only [add, safeAdd, decide_eq_true_eq, hover]
  split_ifs with h
  · exact Nat.mod_eq_of_lt h
  · rfl

theorem sub_eq (b n : ℕ) : sub b n = uint64 b - uint64 n := by
  have hb := uint64_lt b
  have hn := uint64_lt n
  simp only [sub, safeSub, decide_eq_true_eq]
  split_ifs with h
  · omega
  · have hadd : 2 ^ 64 + uint64 b - uint64 n = uint64 b - uint64 n + 2 ^ 64 := by omega
    rw [hadd, Nat.add_mod_right, Nat.mod_eq_of_lt (by omega)]

theorem add_of_lt {b n : ℕ} (h : b + n < 2 ^ 64) : add b n = b + n := by
  rw [add_eq, uint64_of_lt (by omega), uint64_of_lt (by omega), if_pos h]

theorem sub_of_lt {b n : ℕ} (hb : b < 2 ^ 64) (hn : n < 2 ^ 64) : sub b n = b - n := by
  rw [sub_eq, uint64_of_lt hb, uint64_of_lt hn]

theorem add_lt (b n : ℕ) : add b n < 2 ^ 64 := by
  rw [add_eq]
  split_ifs with h
  · exact h
  · decide

end Balance

open Bytes

abbrev Hash := BitVec 256
abbrev Address := BitVec 256

instance : LawfulBEq Hash := inferInstance
abbrev Signature := BitVec 512

def hashBytes (h : Hash) : Bytes := beBytes 32 h.toNat

@[simp] theorem hashBytes_length (h : Hash) : (hashBytes h).length = 32 :=
  beBytes_length _ _

theorem hashBytes_injective : Function.Injective hashBytes := by
  intro g h heq
  exact BitVec.eq_of_toNat_eq (beBytes_inj g.isLt h.isLt heq)

inductive BlockType where
  | state
  | send
  | receive
  | change
  | open_
  | contractReward
  | contractSend
  | contractRefund
  | contractError
  | smartContract
  | online
  | invalid
deriving DecidableEq, Repr

namespace BlockType

def toByte : BlockType → UInt8
  | state => 0
  | send => 1
  | receive => 2
  | change => 3
  | open_ => 4
  | contractReward => 5
  | contractSend => 6
  | contractRefund => 7
  | contractError => 8
  | smartContract => 9
  | online => 10
  | invalid => 11

theorem toByte_injective : Function.Injective toByte := by
  intro a b
  cases a <;> cases b <;> decide

end BlockType

/-- A block of one (address, token) chain. A weight is `none` where the
source holds no integer; the last three fields never leave the node. -/
structure StateBlock where
  type : BlockType
  token : Hash
  address : Address
  balance : ℕ
  vote : Option ℕ := none
  network : Option ℕ := none
  storage : Option ℕ := none
  oracle : Option ℕ := none
  previous : Hash
  link : Hash
  sender : Bytes := []
  receiver : Bytes := []
  message : Hash := 0
  data : Bytes := []
  povHeight : UInt64 := 0
  timestamp : Int64 := 0
  extra : Hash := 0
  representative : Address
  privateFrom : Bytes := []
  privateFor : List Bytes := []
  privateGroupID : Bytes := []
  work : UInt64 := 0
  signature : Signature := 0
  flag : UInt64 := 0
  privateRecvRsp : Bool := false
  privatePayload : Bytes := []
deriving DecidableEq, Repr

namespace StateBlock

def getVote (b : StateBlock) : ℕ := b.vote.getD 0
def getNetwork (b : StateBlock) : ℕ := b.network.getD 0
def getStorage (b : StateBlock) : ℕ := b.storage.getD 0
def getOracle (b : StateBlock) : ℕ := b.oracle.getD 0

/-- The bytes that are hashed and signed: fixed-width and variable-width
fields, written one after another with no separator. -/
def buildHashData (b : StateBlock) : Bytes :=
  [b.type.toByte] ++ hashBytes b.token ++ hashBytes b.address ++
  natBytes b.balance ++ natBytes b.getVote ++ natBytes b.getNetwork ++
  natBytes b.getStorage ++ natBytes b.getOracle ++
  hashBytes b.previous ++ hashBytes b.link ++ b.sender ++ b.receiver ++
  hashBytes b.message ++ b.data ++
  beBytes 8 b.timestamp.toUInt64.toNat ++ beBytes 8 b.povHeight.toNat ++
  hashBytes b.extra ++ hashBytes b.representative ++
  b.privateFrom ++ b.privateFor.flatten ++ b.privateGroupID

theorem exists_buildHashData (b : StateBlock) :
    ∃ rest, b.buildHashData = b.type.toByte :: (hashBytes b.token ++ rest) := by
  unfold buildHashData
  simp only [List.append_assoc, List.cons_append, List.nil_append]
  exact ⟨_, rfl⟩

/-- The block hash under the hash function `hashData`. -/
def getHash (hashData : Bytes → Hash) (b : StateBlock) : Hash := hashData b.buildHashData

theorem getHash_signature (hashData : Bytes → Hash) (b : StateBlock) (s : Signature) :
    getHash hashData { b with signature := s } = b.getHash hashData := rfl

def addWeight (total : ℕ) : Option ℕ → ℕ
  | none => total
  | some w => Balance.add total w

def totalBalance (b : StateBlock) : ℕ :=
  addWeight (addWeight (addWeight (addWeight b.balance b.vote) b.network) b.oracle) b.storage

def isOpen (b : StateBlock) : Bool := b.previous == 0

def root (b : StateBlock) : Hash := if b.isOpen then b.address else b.previous

def parent (b : StateBlock) : Hash := if b.isOpen then b.link else b.previous

def isPrivate (b : StateBlock) : Bool := !b.privateFrom.isEmpty

def isRecipient (b : StateBlock) : Bool := !(b.isPrivate && b.privatePayload.isEmpty)

def getPayload (b : StateBlock) : Bytes := if b.isPrivate then b.privatePayload else b.data

def isHidden (b : StateBlock) : Bool := b.isPrivate && !b.isRecipient

def isReceiveBlock (b : StateBlock) : Bool :=
  b.type == .receive || b.type == .open_ || b.type == .contractReward

def isSendBlock (b : StateBlock) : Bool := b.type == .send || b.type == .contractSend

/-- `BlockFlagSync`. -/
def blockFlagSync : UInt64 := 1

def isFromSync (b : StateBlock) : Bool := b.flag &&& blockFlagSync == blockFlagSync

def clone (b : StateBlock) : StateBlock :=
  { b with
    vote := some b.getVote, network := some b.getNetwork
    storage := some b.getStorage, oracle := some b.getOracle }

end StateBlock

/-- The primitives outside the source: the blake2b hash, ed25519 signature
verification of a message under an address, and the proof-of-work test. -/
structure Crypto where
  hashData : Bytes → Hash
  verify : Address → Bytes → Signature → Bool
  isValidWork : UInt64 → Hash → Bool

namespace StateBlock

def isValid (crypto : Crypto) (b : StateBlock) : Bool := crypto.isValidWork b.work b.root

/-- The signature is one of the block hash under the key in `address`. -/
def isSigned (crypto : Crypto) (b : StateBlock) : Bool :=
  crypto.verify b.address (hashBytes (b.getHash crypto.hashData)) b.signature

end StateBlock
end GoQlc
