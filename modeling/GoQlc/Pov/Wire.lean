import GoQlc.Lib.Result
import GoQlc.Lib.Merkle
import GoQlc.Types.Block

/-!
# PoV blocks as they are received

A decoded block has a pointer, or none, wherever the source has one: the auxiliary header, the
coinbase transaction, its inputs and outputs, the hashes of the merkle branches and the
transactions.
-/

namespace GoQlc.Pov.Wire

open Halt List Bytes Merkle

structure PovBaseHeader where
  version : UInt32
  previous : Hash
  merkleRoot : Hash
  timestamp : UInt32
  bits : UInt32
  nonce : UInt32
  hash : Hash
  height : UInt64
deriving DecidableEq, Repr

structure PovBtcHeader where
  version : UInt32
  previous : Hash
  merkleRoot : Hash
  timestamp : UInt32
  bits : UInt32
  nonce : UInt32
deriving DecidableEq, Repr

structure PovBtcOutPoint where
  hash : Hash
  index : UInt32
deriving DecidableEq, Repr

structure PovBtcTxIn where
  previousOutPoint : PovBtcOutPoint
  signatureScript : Bytes
  sequence : UInt32
deriving DecidableEq, Repr

structure PovBtcTxOut where
  value : Int64
  pkScript : Bytes
deriving DecidableEq, Repr

structure PovBtcTx where
  version : Int32
  txIn : List (Option PovBtcTxIn)
  txOut : List (Option PovBtcTxOut)
  lockTime : UInt32
deriving DecidableEq, Repr

structure PovAuxHeader where
  auxMerkleBranch : List (Option Hash)
  auxMerkleIndex : ℤ
  parCoinBaseTx : PovBtcTx
  parCoinBaseMerkle : List (Option Hash)
  parMerkleIndex : ℤ
  parBlockHeader : PovBtcHeader
deriving DecidableEq, Repr

structure PovCoinBaseTxIn where
  prevTxHash : Hash
  prevTxIdx : UInt32
  extra : Bytes
  sequence : UInt32
deriving DecidableEq, Repr

/-- The value is `none` where the message had none. -/
structure PovCoinBaseTxOut where
  value : Option ℕ
  address : Address
deriving DecidableEq, Repr

structure PovCoinBaseTx where
  version : UInt32
  txIns : List (Option PovCoinBaseTxIn)
  txOuts : List (Option PovCoinBaseTxOut)
  stateHash : Hash
  txNum : UInt32
deriving DecidableEq, Repr

structure PovHeader where
  basHdr : PovBaseHeader
  auxHdr : Option PovAuxHeader
  cbTx : Option PovCoinBaseTx
deriving DecidableEq, Repr

structure PovBlock where
  header : PovHeader
  txs : List (Option Hash)
deriving DecidableEq, Repr

def leUint32ToBytes (i : UInt32) : Bytes := leBytes 4 i.toNat

def leEncodeVarInt (val : ℕ) : Bytes :=
  if val < 0xfd then [UInt8.ofNat val]
  else if val ≤ 0xffff then 0xfd :: leBytes 2 val
  else if val ≤ 0xffffffff then 0xfe :: leBytes 4 val
  else 0xff :: leBytes 8 val

def balanceBytes (value : Option ℕ) : Bytes := natBytes (value.getD 0)

def hashToBig (h : Hash) : ℕ := leValue (hashBytes h)

def reverseByte (h : Hash) : Hash := BitVec.ofNat 256 (hashToBig h)

section Base

def PovBaseHeader.buildHashData (h : PovBaseHeader) : Bytes :=
  leUint32ToBytes h.version ++ hashBytes h.previous ++ hashBytes h.merkleRoot ++
  leUint32ToBytes h.timestamp ++ leUint32ToBytes h.bits ++ leUint32ToBytes h.nonce

def PovBtcHeader.buildHashData (h : PovBtcHeader) : Bytes :=
  leUint32ToBytes h.version ++ hashBytes h.previous ++ hashBytes h.merkleRoot ++
  leUint32ToBytes h.timestamp ++ leUint32ToBytes h.bits ++ leUint32ToBytes h.nonce

def PovBtcTxIn.buildHashData (ti : PovBtcTxIn) : Bytes :=
  hashBytes ti.previousOutPoint.hash ++ leUint32ToBytes ti.previousOutPoint.index ++
  leEncodeVarInt ti.signatureScript.length ++ ti.signatureScript ++ leUint32ToBytes ti.sequence

def PovBtcTxOut.buildHashData (txOut : PovBtcTxOut) : Bytes :=
  leBytes 8 txOut.value.toUInt64.toNat ++
  leEncodeVarInt txOut.pkScript.length ++ txOut.pkScript

variable {ε : Type}

def PovBtcTx.buildHashData (tx : PovBtcTx) : Except (Halt ε) Bytes := do
  let txIn ← derefAll tx.txIn
  let txOut ← derefAll tx.txOut
  return leUint32ToBytes tx.version.toUInt32 ++
    leEncodeVarInt txIn.length ++ txIn.flatMap PovBtcTxIn.buildHashData ++
    leEncodeVarInt txOut.length ++ txOut.flatMap PovBtcTxOut.buildHashData ++
    leUint32ToBytes tx.lockTime

end Base

namespace PovCoinBaseTx

variable {ε : Type} (cbtx : PovCoinBaseTx)

def outputBytes (cbto : PovCoinBaseTxOut) : Bytes :=
  hashBytes cbto.address ++ balanceBytes cbto.value

def getCoinBaseData1 (ti : PovCoinBaseTxIn) : Bytes :=
  leUint32ToBytes cbtx.version ++ leEncodeVarInt 1 ++
  hashBytes ti.prevTxHash ++ leUint32ToBytes ti.prevTxIdx

def getCoinBaseData2 (ti : PovCoinBaseTxIn) (txOuts : List PovCoinBaseTxOut) : Bytes :=
  leUint32ToBytes ti.sequence ++
  leEncodeVarInt txOuts.length ++ txOuts.flatMap outputBytes ++
  hashBytes cbtx.stateHash ++ leUint32ToBytes cbtx.txNum

def buildHashData : Except (Halt ε) Bytes := do
  let ti ← index cbtx.txIns 0
  let ti ← deref ti
  let txOuts ← derefAll cbtx.txOuts
  return cbtx.getCoinBaseData1 ti ++ leEncodeVarInt ti.extra.length ++ ti.extra ++
    cbtx.getCoinBaseData2 ti txOuts

end PovCoinBaseTx

section Merkle

variable {ε : Type} (sha256d : Bytes → Hash)

def nextPowerOfTwo (n : ℕ) : ℕ := if n &&& (n - 1) = 0 then n else 2 ^ (n.log2 + 1)

def hashMerkleBranches (left right : Hash) : Hash := sha256d (hashBytes left ++ hashBytes right)

/-- The array of `BuildMerkleTreeStore`, without the entries that have been read. -/
def buildMerkleTreeStore (txHashs : List Hash) : List (Option Hash) :=
  let nextPoT := nextPowerOfTwo txHashs.length
  fill (hashMerkleBranches sha256d) (nextPoT - 1)
    (txHashs.map some ++ List.replicate (nextPoT - txHashs.length) none)

def calcMerkleTreeRootHash (txHashs : List Hash) : Except (Halt ε) Hash :=
  if txHashs = [] then return 0
  else
    match (buildMerkleTreeStore sha256d txHashs).getLast? with
    | none => return 0
    | some calculatedMerkleRoot => deref calculatedMerkleRoot

/-- The loop of `CalcMerkleRootByIndex`: the lowest bit of the index says on which side the next
hash of the branch goes. -/
def climbBranch (hash : Hash) : List (Option Hash) → ℤ → Except (Halt ε) Hash
  | [], _ => return hash
  | it :: branch, index => do
    let it ← deref it
    if index % 2 = 1 then
      climbBranch (hashMerkleBranches sha256d it hash) branch (index / 2)
    else
      climbBranch (hashMerkleBranches sha256d hash it) branch (index / 2)

def calcMerkleRootByIndex (hash : Hash) (merkleBranch : List (Option Hash)) (index : ℤ) :
    Except (Halt ε) Hash :=
  if index = -1 then return 0 else climbBranch sha256d hash merkleBranch index

def shiftedOne (h : ℕ) : UInt32 := UInt32.ofNat (2 ^ h)

def calcAuxPowExpectedIndex (nonce : UInt32) (chainID : ℕ) (h : ℕ) : Except (Halt ε) ℤ := do
  let rand := nonce
  let rand := rand * 1103515245 + 12345
  let rand := rand + UInt32.ofNat chainID
  let rand := rand * 1103515245 + 12345
  let rand ← rem rand (shiftedOne h)
  return rand.toNat

theorem exists_nextPowerOfTwo {n : ℕ} (hn : n ≠ 0) :
    ∃ d, nextPowerOfTwo n = 2 ^ d ∧ n ≤ 2 ^ d := by
  unfold nextPowerOfTwo
  split_ifs with h
  · obtain ⟨d, hd⟩ := (Nat.and_sub_one_eq_zero_iff_isPowerOfTwo hn).mp h
    exact ⟨d, hd, hd.le⟩
  · exact ⟨n.log2 + 1, rfl, Nat.lt_log2_self.le⟩

theorem leaves_eq_range {txHashs : List Hash} {d : ℕ} (hd : txHashs.length ≤ 2 ^ d) :
    txHashs.map some ++ List.replicate (2 ^ d - txHashs.length) none =
      (List.range (2 ^ d)).map (node (hashMerkleBranches sha256d) txHashs 0) := by
  apply ext_getElem
  · simp only [length_append, length_map, length_replicate, length_range]
    omega
  · intro i hi hi'
    rw [getElem_append]
    split_ifs with hlt
    · rw [length_map] at hlt
      simp [node, hlt]
    · rw [length_map, Nat.not_lt] at hlt
      simp [node, hlt]

theorem calcMerkleTreeRootHash_eq {txHashs : List Hash} (hne : txHashs ≠ []) {d : ℕ}
    (hpow : nextPowerOfTwo txHashs.length = 2 ^ d) (hd : txHashs.length ≤ 2 ^ d) :
    (calcMerkleTreeRootHash sha256d txHashs : Except (Halt ε) Hash) =
      deref (node (hashMerkleBranches sha256d) txHashs d 0) := by
  have hstore : buildMerkleTreeStore sha256d txHashs =
      [node (hashMerkleBranches sha256d) txHashs d 0] := by
    unfold buildMerkleTreeStore
    dsimp only
    rw [hpow, leaves_eq_range sha256d hd, fill_eq_root, Nat.zero_add]
  unfold calcMerkleTreeRootHash
  rw [if_neg hne, hstore]
  rfl

theorem exists_calcMerkleTreeRootHash (txHashs : List Hash) :
    ∃ root, (calcMerkleTreeRootHash sha256d txHashs : Except (Halt ε) Hash) = .ok root := by
  by_cases hne : txHashs = []
  · exact ⟨0, by rw [calcMerkleTreeRootHash, if_pos hne]; rfl⟩
  · obtain ⟨d, hpow, hd⟩ := exists_nextPowerOfTwo (mt eq_nil_of_length_eq_zero hne)
    obtain ⟨root, hroot⟩ := @Merkle.node_isSome _ (hashMerkleBranches sha256d) _ hne d
    exact ⟨root, by rw [calcMerkleTreeRootHash_eq sha256d hne hpow hd, hroot]; rfl⟩

end Merkle

end GoQlc.Pov.Wire

/-! ## The merkle branch of the coinbase -/

namespace GoQlc.Pov.Wire

open Halt List Merkle

variable (sha256d : Bytes → Hash)

/-- One round of the inner loop. -/
def mergeAt (merkles : List Hash) (i : ℕ) : List Hash :=
  match merkles[i * 2 + 1]?, merkles[i * 2 + 2]? with
  | some left, some right => merkles.set i (hashMerkleBranches sha256d left right)
  | _, _ => merkles

/-- A slice of even length gets its last element once more, because the coinbase that stands
before it is not in the slice. -/
def padEven (merkles : List Hash) : List Hash :=
  if merkles.length % 2 = 0 then merkles ++ merkles.getLast?.toList else merkles

/-- One level of `BuildCoinbaseMerkleBranch`, in place. -/
def collapse (merkles : List Hash) : List Hash :=
  let merkles := padEven merkles
  let mklLen := (merkles.length - 1) / 2
  ((List.range mklLen).foldl (mergeAt sha256d) merkles).take mklLen

def branchLoop : ℕ → List Hash → List Hash
  | fuel + 1, first :: second :: rest =>
    first :: branchLoop fuel (collapse sha256d (first :: second :: rest))
  | _, merkles => merkles

def buildCoinbaseMerkleBranch (txHashes : List Hash) : List Hash :=
  branchLoop sha256d txHashes.length txHashes

def calcCoinbaseMerkleRoot (coinbaseHash : Hash) (merkleBranch : List Hash) : Hash :=
  merkleBranch.foldl (hashMerkleBranches sha256d) coinbaseHash

/-! ## One level -/

variable {sha256d}

variable {merkles : List Hash}

theorem mergeAt_eq {i : ℕ} {left right : Hash} (hl : merkles[i * 2 + 1]? = some left)
    (hr : merkles[i * 2 + 2]? = some right) :
    mergeAt sha256d merkles i = merkles.set i (hashMerkleBranches sha256d left right) := by
  unfold mergeAt
  rw [hl, hr]

theorem getElem?_mergeAt {k : ℕ} (hk : k * 2 < merkles.length) (i : ℕ) :
    ((List.range k).foldl (mergeAt sha256d) merkles)[i]? =
      if i < k then
        parent (hashMerkleBranches sha256d) merkles[i * 2 + 1]? merkles[i * 2 + 2]?
      else merkles[i]? := by
  induction k generalizing i with
  | zero => simp
  | succ k ih =>
    have hkeep : ∀ j, k ≤ j → ((List.range k).foldl (mergeAt sha256d) merkles)[j]? = merkles[j]? := by
      intro j hj
      rw [ih (by omega), if_neg (by omega)]
    have hl : merkles[k * 2 + 1]? = some merkles[k * 2 + 1] := List.getElem?_eq_getElem (by omega)
    have hr : merkles[k * 2 + 2]? = some merkles[k * 2 + 2] := List.getElem?_eq_getElem (by omega)
    rw [range_succ, foldl_append, foldl_cons, foldl_nil,
      mergeAt_eq ((hkeep _ (by omega)).trans hl) ((hkeep _ (by omega)).trans hr),
      List.getElem?_set]
    have hlen : k < ((List.range k).foldl (mergeAt sha256d) merkles).length := by
      by_contra hge
      have hnone := hkeep k (le_refl k)
      rw [List.getElem?_eq_none (by omega), eq_comm, List.getElem?_eq_none_iff] at hnone
      omega
    by_cases hi : k = i
    · rw [if_pos hi, if_pos (hi ▸ hlen), if_pos (by omega), ← hi, hl, hr]
      rfl
    · rw [if_neg hi, ih (by omega)]
      split_ifs <;> first | rfl | omega

theorem getElem?_collapse (hne : merkles ≠ []) (i : ℕ) :
    (collapse sha256d merkles)[i]? =
      parent (hashMerkleBranches sha256d) merkles[i * 2 + 1]? merkles[i * 2 + 2]? := by
  have hlast : merkles.getLast? = merkles[merkles.length - 1]? := List.getLast?_eq_getElem?
  have hpos : 0 < merkles.length := length_pos_of_ne_nil hne
  have hsome : merkles[merkles.length - 1]? = some merkles[merkles.length - 1] :=
    List.getElem?_eq_getElem (by omega)
  unfold collapse padEven
  dsimp only
  rw [hlast, hsome]
  split_ifs with heven
  · rw [List.getElem?_take, getElem?_mergeAt (by simp; omega)]
    simp only [Option.toList_some, length_append, length_singleton]
    split_ifs with hi
    · rw [List.getElem?_append_left (by omega)]
      by_cases hright : i * 2 + 2 < merkles.length
      · rw [List.getElem?_append_left hright]
      · have hend : i * 2 + 2 = merkles.length := by omega
        have hleft : merkles[i * 2 + 1]? = some merkles[merkles.length - 1] := by
          rw [← hsome]
          congr 1
          omega
        rw [hend, List.getElem?_concat_length, List.getElem?_eq_none (le_refl _), hleft]
        rfl
    · rw [List.getElem?_eq_none (by omega)]
      rfl
  · rw [List.getElem?_take, getElem?_mergeAt (by omega)]
    split_ifs with hi
    · rfl
    · rw [List.getElem?_eq_none (by omega)]
      rfl

theorem length_collapse_lt (hlen : 2 ≤ merkles.length) :
    (collapse sha256d merkles).length < merkles.length := by
  apply Nat.lt_of_le_of_lt (length_take_le _ _)
  have hpad : (padEven merkles).length ≤ merkles.length + 1 := by
    unfold padEven
    split_ifs
    · rw [length_append]
      have hone : merkles.getLast?.toList.length ≤ 1 := Option.length_toList_le
      omega
    · omega
  omega

/-! ## The whole branch -/

def IsRest (sha256d : Bytes → Hash) (xs : List Hash) (h : ℕ) (merkles : List Hash) : Prop :=
  ∀ i, merkles[i]? = node (hashMerkleBranches sha256d) xs h (i + 1)

variable {xs merkles : List Hash} {h : ℕ}

theorem IsRest.collapse (hrest : IsRest sha256d xs h merkles) (hne : merkles ≠ []) :
    IsRest sha256d xs (h + 1) (collapse sha256d merkles) := by
  intro i
  rw [getElem?_collapse hne, hrest, hrest]
  show _ = parent _ (node _ xs h (2 * (i + 1))) (node _ xs h (2 * (i + 1) + 1))
  rw [show i * 2 + 1 + 1 = 2 * (i + 1) by omega]

theorem IsRest.node_succ {acc first : Hash} {rest : List Hash}
    (hrest : IsRest sha256d xs h (first :: rest))
    (hacc : node (hashMerkleBranches sha256d) xs h 0 = some acc) :
    node (hashMerkleBranches sha256d) xs (h + 1) 0 =
      some (hashMerkleBranches sha256d acc first) := by
  have hfirst := hrest 0
  simp only [List.getElem?_cons_zero, Nat.zero_add] at hfirst
  simp only [node, Nat.mul_zero, Nat.zero_add, hacc, ← hfirst]
  rfl

theorem branchLoop_spec {fuel : ℕ} {acc : Hash} (hfuel : merkles.length ≤ fuel)
    (hne : merkles ≠ []) (hrest : IsRest sha256d xs h merkles)
    (hacc : node (hashMerkleBranches sha256d) xs h 0 = some acc) :
    ∃ d, node (hashMerkleBranches sha256d) xs (d + 1) 0 =
        some (calcCoinbaseMerkleRoot sha256d acc (branchLoop sha256d fuel merkles)) ∧
      2 ^ d < xs.length ∧ xs.length ≤ 2 ^ (d + 1) := by
  induction fuel generalizing merkles h acc with
  | zero => exact absurd (eq_nil_of_length_eq_zero (Nat.le_zero.mp hfuel)) hne
  | succ fuel ih =>
    cases merkles with
    | nil => exact absurd rfl hne
    | cons first rest =>
      have hnext := hrest.node_succ hacc
      cases rest with
      | nil =>
        -- the first node and the one in the slice are all nodes of this height
        have hone := hrest 0
        have htwo := hrest 1
        rw [eq_comm] at hone htwo
        have hlt : ¬ xs.length ≤ (0 + 1) * 2 ^ h := by
          rw [← node_eq_none, hone]
          simp
        have hle : xs.length ≤ (1 + 1) * 2 ^ h := node_eq_none.mp htwo
        refine ⟨h, hnext, by omega, ?_⟩
        rw [pow_succ]
        omega
      | cons second rest =>
        have hlen : 2 ≤ (first :: second :: rest).length := by simp
        have hhalf := @length_collapse_lt sha256d _ hlen
        have hcollapse := hrest.collapse hne
        have hnonempty : collapse sha256d (first :: second :: rest) ≠ [] := by
          intro hnil
          have hget := @getElem?_collapse sha256d _ hne 0
          rw [hnil] at hget
          cases rest <;> cases hget
        exact ih (by omega) hnonempty hcollapse hnext

theorem nextPowerOfTwo_lt {n : ℕ} (hn : n ≠ 0) : nextPowerOfTwo n < 2 * n := by
  unfold nextPowerOfTwo
  split_ifs with h
  · omega
  · have hle := Nat.log2_self_le hn
    have hne : 2 ^ n.log2 ≠ n := by
      intro heq
      exact h ((Nat.and_sub_one_eq_zero_iff_isPowerOfTwo hn).mpr ⟨_, heq.symm⟩)
    rw [pow_succ]
    omega

theorem nextPowerOfTwo_eq {n d : ℕ} (hlt : 2 ^ d < n) (hle : n ≤ 2 ^ (d + 1)) :
    nextPowerOfTwo n = 2 ^ (d + 1) := by
  have hn : n ≠ 0 := by omega
  obtain ⟨e, he, hne⟩ := exists_nextPowerOfTwo hn
  have htwice := nextPowerOfTwo_lt hn
  rw [he] at htwice ⊢
  have hde : d < e := (Nat.pow_lt_pow_iff_right (le_refl 2)).mp (hlt.trans_le hne)
  have hed : e < d + 2 := by
    apply (Nat.pow_lt_pow_iff_right (le_refl 2)).mp
    rw [pow_succ 2 (d + 1)]
    omega
  rw [show e = d + 1 by omega]

/-- The branch of the coinbase leads to the merkle root of the block. -/
theorem calcMerkleTreeRootHash_cons {ε : Type} (sha256d : Bytes → Hash) (coinbaseHash : Hash)
    (txHashes : List Hash) :
    (calcMerkleTreeRootHash sha256d (coinbaseHash :: txHashes) : Except (Halt ε) Hash) =
      .ok (calcCoinbaseMerkleRoot sha256d coinbaseHash
        (buildCoinbaseMerkleBranch sha256d txHashes)) := by
  have hcons : coinbaseHash :: txHashes ≠ [] := cons_ne_nil _ _
  by_cases hne : txHashes = []
  · subst hne
    have hone : nextPowerOfTwo 1 = 2 ^ 0 := by decide
    rw [@calcMerkleTreeRootHash_eq ε sha256d _ hcons 0 hone (le_refl 1)]
    rfl
  · have hrest : IsRest sha256d (coinbaseHash :: txHashes) 0 txHashes := fun i => rfl
    obtain ⟨d, hroot, hlt, hle⟩ := branchLoop_spec (le_refl _) hne hrest rfl
    rw [calcMerkleTreeRootHash_eq sha256d hcons (nextPowerOfTwo_eq hlt hle) hle, hroot]
    rfl

/-! ## The root fixes the list -/

def HashedPair (sha256d : Bytes → Hash) (txHashs : List Hash) (left right : Hash) : Prop :=
  ∃ d, nextPowerOfTwo txHashs.length = 2 ^ d ∧
    Merkle.Joins (hashMerkleBranches sha256d) txHashs d 0 left right

def NoCollision (sha256d : Bytes → Hash) (xs ys : List Hash) : Prop :=
  Merkle.Apart (hashMerkleBranches sha256d) fun left right =>
    HashedPair sha256d xs left right ∨ HashedPair sha256d ys left right

theorem calcMerkleTreeRootHash_inj {ε : Type} {sha256d : Bytes → Hash} {xs ys : List Hash}
    (hlen : xs.length = ys.length) (hfree : NoCollision sha256d xs ys)
    (heq : (calcMerkleTreeRootHash sha256d xs : Except (Halt ε) Hash) =
      calcMerkleTreeRootHash sha256d ys) : xs = ys := by
  by_cases hne : xs = []
  · rw [hne, eq_comm] at hlen ⊢
    exact eq_nil_of_length_eq_zero hlen
  · have hne' : ys ≠ [] := by
      intro hnil
      rw [hnil] at hlen
      exact hne (eq_nil_of_length_eq_zero hlen)
    obtain ⟨d, hpow, hd⟩ := exists_nextPowerOfTwo (mt eq_nil_of_length_eq_zero hne)
    have hpow' : nextPowerOfTwo ys.length = 2 ^ d := hlen ▸ hpow
    obtain ⟨root, hroot⟩ := @Merkle.node_isSome _ (hashMerkleBranches sha256d) _ hne d
    rw [calcMerkleTreeRootHash_eq sha256d hne hpow hd,
      calcMerkleTreeRootHash_eq sha256d hne' hpow' (hlen ▸ hd), hroot, eq_comm] at heq
    apply root_inj hlen hfree hd (fun l r h => .inl ⟨d, hpow, h⟩)
      (fun l r h => .inr ⟨d, hpow', h⟩)
    rw [hroot, deref_eq_ok.mp heq]

def byteSum (bs : Bytes) : Hash := BitVec.ofNat 256 (bs.map UInt8.toNat).sum

/-- Three hashes, so that the last one is joined with itself. -/
theorem root_of_three_inj :
    NoCollision byteSum [1, 2, 3] [1, 2, 3] ∧ [1, 2, 3] = ([1, 2, 3] : List Hash) := by
  have hpairs : ∀ l r, HashedPair byteSum [1, 2, 3] l r →
      l = 1 ∧ r = 2 ∨ l = 3 ∧ r = 3 ∨ l = 3 ∧ r = 6 := by
    rintro l r ⟨d, hd, hjoins⟩
    have hthree : nextPowerOfTwo 3 = 2 ^ 2 := by decide
    obtain rfl : 2 = d := Nat.pow_right_injective (le_refl 2) (hthree.symm.trans hd)
    have hleft : hashMerkleBranches byteSum 1#256 2#256 = 3 := by decide +kernel
    have hright : hashMerkleBranches byteSum 3#256 3#256 = 6 := by decide +kernel
    simp [Merkle.Joins, node, parent, hleft, hright] at hjoins
    rcases hjoins with ⟨rfl, rfl⟩ | ⟨rfl, rfl⟩ | ⟨rfl, rfl⟩ <;> decide
  have hfree : NoCollision byteSum [1, 2, 3] [1, 2, 3] := by
    intro l r l' r' h h' heq
    have hmem := hpairs l r (or_self_iff.mp h)
    have hmem' := hpairs l' r' (or_self_iff.mp h')
    rcases hmem with ⟨rfl, rfl⟩ | ⟨rfl, rfl⟩ | ⟨rfl, rfl⟩ <;>
      rcases hmem' with ⟨rfl, rfl⟩ | ⟨rfl, rfl⟩ | ⟨rfl, rfl⟩ <;>
      revert heq <;> decide +kernel
  exact ⟨hfree, @calcMerkleTreeRootHash_inj Unit _ _ _ rfl hfree rfl⟩

end GoQlc.Pov.Wire
