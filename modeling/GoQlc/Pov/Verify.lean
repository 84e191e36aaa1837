import Mathlib.Data.List.Sort
import GoQlc.Pov.State
import GoQlc.Pov.Wire

/-!
# Verification of a PoV block

`VerifyFull` runs seven stages in turn, each of which refuses the block with a result and an error.
-/

namespace GoQlc.Pov.Wire

open Config Halt

inductive PovResult where
  | progress
  | badConsensus
  | badHash
  | invalidTime
  | gapPrevious
  | invalidHeight
  | badAuxHeader
  | invalidTxNum
  | badMerkleRoot
  | badCoinbase
  | gapTransaction
  | invalidTxOrder
  | badStateHash
deriving DecidableEq, Repr

inductive ConsensusError where
  | badNonce
  | noPreviousHeader
  | unknownAncestor
  | target (bits expected : UInt32)
  | powHash (pow target : UInt32)
  | noStateTrie
  | noRepState
  | pledgeNotEnough
deriving DecidableEq, Repr

inductive VerifyError (ε : Type) where
  | unknownAlgo (algo : UInt32)
  | genesisHash (hash : Hash)
  | hash (computed hash : Hash)
  | zeroTimestamp
  | futureTimestamp (timestamp : UInt32)
  | previousMissing
  | height (height previous : UInt64)
  | medianTime (timestamp median : UInt32)
  | parentMerkleRoot (calculated root : Hash)
  | auxMagic
  | auxRootHash
  | scriptSize
  | branchHeight
  | merkleIndex
  | consensus (error : ConsensusError)
  | txNum (txNum : UInt32) (txs : ℕ)
  | noCoinbase
  | zeroMerkleRoot
  | merkleRoot (calculated root : Hash)
  | minerAddress
  | repAddress
  | minerReward (reward calculated : ℕ)
  | repReward (reward calculated : ℕ)
  | coinbaseHash
  | gapTxs (hashes : List Hash)
  | txOrder
  | transit (error : ε)
  | stateHash (calculated stateHash : Hash)
deriving DecidableEq, Repr

def VerifyError.result {ε : Type} : VerifyError ε → PovResult
  | unknownAlgo _ | consensus _ => .badConsensus
  | genesisHash _ | hash _ _ | coinbaseHash => .badHash
  | zeroTimestamp | futureTimestamp _ | medianTime _ _ => .invalidTime
  | previousMissing => .gapPrevious
  | height _ _ => .invalidHeight
  | parentMerkleRoot _ _ | auxMagic | auxRootHash | scriptSize | branchHeight | merkleIndex =>
    .badAuxHeader
  | txNum _ _ | noCoinbase => .invalidTxNum
  | zeroMerkleRoot | merkleRoot _ _ => .badMerkleRoot
  | minerAddress | repAddress | minerReward _ _ | repReward _ _ => .badCoinbase
  | gapTxs _ => .gapTransaction
  | txOrder => .invalidTxOrder
  | transit _ | stateHash _ _ => .badStateHash

structure ChainHeader extends PovBaseHeader where
  stateHash : Hash
deriving DecidableEq, Repr

inductive ConsensusMode where
  | fake
  | pow
deriving DecidableEq, Repr

/-- What the verifier reads. -/
structure PovVerifier (γ ε : Type) where
  sha256d : Bytes → Hash
  scrypt : Bytes → Hash
  x11 : Bytes → Hash
  hashData : Bytes → Hash
  now : ℕ
  genesisHash : Hash
  mode : ConsensusMode
  minerPledge : ℕ
  getHeaderByHash : Hash → Option ChainHeader
  relativeAncestor : ChainHeader → ℕ → Option ChainHeader
  getStateBlockConfirmed : Hash → Option StateBlock
  hasTrie : Hash → Bool
  newStateDB : Hash → PovStateDB γ
  getCurHash : PovStateDB γ → Hash
  updateContractState : ℕ → γ → PovTransaction → Except ε γ

abbrev Verify (ε : Type) := Except (Halt (VerifyError ε))

section Algo

def algoSha256d : UInt32 := 0
def algoScrypt : UInt32 := 0x0100
def algoNist5 : UInt32 := 0x0200
def algoLyra2z : UInt32 := 0x0300
def algoX11 : UInt32 := 0x0400
def algoX16r : UInt32 := 0x0500
def algoHybrid : UInt32 := 0xfe00

def getAlgoType (version : UInt32) : UInt32 := version &&& 0xff00

def povIsAlgoSupported (algo : UInt32) : Bool :=
  algo == algoSha256d || algo == algoScrypt || algo == algoX11

def getAlgoEfficiency (version : UInt32) : ℕ :=
  let algo := getAlgoType version
  if algo = algoSha256d then 1
  else if algo = algoScrypt then 12984
  else if algo = algoNist5 then 513
  else if algo = algoLyra2z then 1973648
  else if algo = algoX11 then 513
  else if algo = algoX16r then 257849
  else if algo = algoHybrid then 1000000000
  else 1

def compactToBig (compact : UInt32) : ℤ :=
  let mantissa := compact.toNat % 2 ^ 23
  let exponent := compact.toNat / 2 ^ 24
  let bn : ℕ :=
    if exponent ≤ 3 then mantissa / 256 ^ (3 - exponent) else mantissa * 256 ^ (exponent - 3)
  if compact.toNat.testBit 23 then -bn else bn

def bigToCompact (n : ℤ) : UInt32 :=
  if n = 0 then 0
  else
    let exponent := (Bytes.natBytes n.natAbs).length
    let mantissa :=
      if exponent ≤ 3 then n.natAbs * 256 ^ (3 - exponent)
      else (n / 256 ^ (exponent - 3)).natAbs
    let (mantissa, exponent) :=
      if mantissa.testBit 23 then (mantissa / 256, exponent + 1) else (mantissa, exponent)
    let compact := UInt32.ofNat (exponent * 2 ^ 24) ||| UInt32.ofNat mantissa
    if n < 0 then compact ||| 0x00800000 else compact

def getNormTargetInt (h : PovBaseHeader) : ℤ := compactToBig h.bits / getAlgoEfficiency h.version

def povChainTargetCycle : ℕ := 20
def povChainRetargetTimespan : ℕ := 60 * povChainTargetCycle
def povPowLimitInt : ℤ := 2 ^ 224 - 1

end Algo

def povMaxAllowedFutureTimeSec : ℕ := 300
def povMinerVerifyHeightStart : UInt64 := 1440
def medianTimeBlocks : ℕ := 11
def povAuxPowChainID : ℕ := 1688
def povAuxPowHeaderMagic : Bytes := [0xfa, 0xbe, 109, 109]

def calcBlockReward : ℕ × ℕ := (570776255 * 60 / 100, 570776255 * 40 / 100)

def hexDigits (bs : Bytes) : List UInt8 := bs.flatMap fun b => [b / 16, b % 16]

/-- The first position at which `sub` occurs. -/
def indexOf (sub : List UInt8) : List UInt8 → Option ℕ
  | [] => if sub = [] then some 0 else none
  | b :: s => if sub <+: b :: s then some 0 else (indexOf sub s).map (· + 1)

namespace PovVerifier

variable {γ ε : Type} (pv : PovVerifier γ ε) (block : PovBlock)

def verifyDataIntegrity : Verify ε Unit := do
  let h := block.header.basHdr
  require (povIsAlgoSupported (getAlgoType h.version) = true) (.unknownAlgo (getAlgoType h.version))
  require (h.height = 0 → h.hash = pv.genesisHash) (.genesisHash h.hash)
  let computedHash := pv.sha256d h.buildHashData
  require (h.hash ≠ 0 ∧ computedHash = h.hash) (.hash computedHash h.hash)

def verifyTimestamp : Verify ε Unit := do
  let timestamp := block.header.basHdr.timestamp
  require (timestamp ≠ 0) .zeroTimestamp
  require (timestamp ≤ UInt32.ofNat (pv.now + povMaxAllowedFutureTimeSec))
    (.futureTimestamp timestamp)

/-- The timestamps of the last `n` headers. -/
def pastTimestamps : ℕ → ChainHeader → List UInt32
  | 0, _ => []
  | n + 1, h =>
    h.timestamp ::
      match pv.getHeaderByHash h.previous with
      | none => []
      | some previous => pastTimestamps n previous

def calcPastMedianTime (prevHeader : ChainHeader) : Verify ε UInt32 :=
  let timestamps := (pv.pastTimestamps medianTimeBlocks prevHeader).insertionSort (· ≤ ·)
  index timestamps (timestamps.length / 2)

def verifyReferred : Verify ε ChainHeader := do
  let h := block.header.basHdr
  match pv.getHeaderByHash h.previous with
  | none => throw (.reject .previousMissing)
  | some prevHeader =>
    require (h.height = prevHeader.height + 1) (.height h.height prevHeader.height)
    let medianTime ← pv.calcPastMedianTime prevHeader
    require (medianTime ≤ h.timestamp) (.medianTime h.timestamp medianTime)
    return prevHeader

/-- Where the script of the parent coinbase has the root of the auxiliary tree: the position in
its hexadecimal text behind the root. -/
def findAuxRoot (script : Bytes) (auxRootHash : Hash) : Verify ε ℕ := do
  let scriptStr := hexDigits script
  let rootStr := hexDigits (hashBytes (reverseByte auxRootHash))
  let magicStr := hexDigits povAuxPowHeaderMagic
  match indexOf magicStr scriptStr, indexOf rootStr scriptStr with
  | none, _ => throw (.reject .auxMagic)
  | some _, none => throw (.reject .auxRootHash)
  | some headerIndex, some rootHashIndex =>
    let rest ← slice scriptStr (headerIndex + 2) scriptStr.length
    require (indexOf magicStr rest = none) .auxMagic
    require (headerIndex + magicStr.length = rootHashIndex) .auxRootHash
    let rootHashIndex := rootHashIndex + rootStr.length
    require (8 ≤ scriptStr.length - rootHashIndex) .scriptSize
    return rootHashIndex

def calcParentRoot (ap : PovAuxHeader) : Verify ε Hash := do
  let data ← ap.parCoinBaseTx.buildHashData
  calcMerkleRootByIndex pv.sha256d (pv.sha256d data) ap.parCoinBaseMerkle ap.parMerkleIndex

def calcAuxRoot (ap : PovAuxHeader) : Verify ε Hash :=
  calcMerkleRootByIndex pv.sha256d (reverseByte block.header.basHdr.hash) ap.auxMerkleBranch
    ap.auxMerkleIndex

/-- The size and the nonce behind the root, against the branch and the index of the header. -/
def verifyAuxTree (ap : PovAuxHeader) (script : Bytes) (rootHashIndex : ℕ) : Verify ε Unit := do
  let size ← slice script (rootHashIndex / 2) (rootHashIndex / 2 + 4)
  let merkleHeight := ap.auxMerkleBranch.length
  require (UInt32.ofNat (Bytes.leValue size) = shiftedOne merkleHeight) .branchHeight
  let nonce ← slice script (rootHashIndex / 2 + 4) (rootHashIndex / 2 + 8)
  let expected ←
    calcAuxPowExpectedIndex (UInt32.ofNat (Bytes.leValue nonce)) povAuxPowChainID merkleHeight
  require (ap.auxMerkleIndex = expected) .merkleIndex

def verifyAuxHeader : Verify ε Unit := do
  match block.header.auxHdr with
  | none => return ()
  | some ap =>
    let calcParMR ← pv.calcParentRoot ap
    require (calcParMR = ap.parBlockHeader.merkleRoot)
      (.parentMerkleRoot calcParMR ap.parBlockHeader.merkleRoot)
    let auxRootHash ← pv.calcAuxRoot block ap
    let txIn ← index ap.parCoinBaseTx.txIn 0
    let txIn ← deref txIn
    let rootHashIndex ← findAuxRoot txIn.signatureScript auxRootHash
    verifyAuxTree ap txIn.signatureScript rootHashIndex

def powHashOf (algo : UInt32) (data : Bytes) : Hash :=
  if algo = algoSha256d then pv.sha256d data
  else if algo = algoScrypt then pv.scrypt data
  else if algo = algoX11 then pv.x11 data
  else BitVec.allOnes 256

def computePowHash : Hash :=
  let algo := getAlgoType block.header.basHdr.version
  match block.header.auxHdr with
  | some ap => pv.powHashOf algo ap.parBlockHeader.buildHashData
  | none => pv.powHashOf algo block.header.basHdr.buildHashData

/-- `none` if the chain does not have the first header of the cycle. -/
def calcNextRequiredTarget (lastHeader : ChainHeader) (version : UInt32) : Option UInt32 :=
  if (lastHeader.height + 1).toNat % povChainTargetCycle ≠ 0 then
    some (bigToCompact (getNormTargetInt lastHeader.toPovBaseHeader * getAlgoEfficiency version))
  else
    match pv.relativeAncestor lastHeader (povChainTargetCycle - 1) with
    | none => none
    | some firstHeader =>
      let actualTimespan :=
        if firstHeader.timestamp < lastHeader.timestamp then
          lastHeader.timestamp.toNat - firstHeader.timestamp.toNat
        else 1
      let actualTimespan :=
        min (max actualTimespan (povChainRetargetTimespan / 4)) (povChainRetargetTimespan * 4)
      let nextTargetInt :=
        getNormTargetInt lastHeader.toPovBaseHeader * actualTimespan / povChainRetargetTimespan
      some (bigToCompact (min nextTargetInt povPowLimitInt * getAlgoEfficiency version))

def verifyTarget : Verify ε Unit := do
  let h := block.header.basHdr
  match pv.getHeaderByHash h.previous with
  | none => throw (.reject (.consensus .noPreviousHeader))
  | some prevHeader =>
    match pv.calcNextRequiredTarget prevHeader h.version with
    | none => throw (.reject (.consensus .unknownAncestor))
    | some expectedTarget =>
      require (expectedTarget = h.bits) (.consensus (.target h.bits expectedTarget))
      let powInt : ℤ := hashToBig (pv.computePowHash block)
      require (powInt ≤ compactToBig h.bits)
        (.consensus (.powHash (bigToCompact powInt) (bigToCompact (compactToBig h.bits))))

def getMinerAddr : Verify ε Address := do
  let cbTx ← deref block.header.cbTx
  let txOut ← index cbTx.txOuts 0
  let txOut ← deref txOut
  return txOut.address

def checksProducer : Bool :=
  pv.minerPledge ≠ 0 && povMinerVerifyHeightStart ≤ block.header.basHdr.height

def verifyProducer : Verify ε Unit := do
  if pv.checksProducer block then
    match pv.getHeaderByHash block.header.basHdr.previous with
    | none => throw (.reject (.consensus .noPreviousHeader))
    | some prevHeader =>
      require (pv.hasTrie prevHeader.stateHash = true) (.consensus .noStateTrie)
      let minerAddr ← getMinerAddr block
      match (pv.newStateDB prevHeader.stateHash).reps.get minerAddr with
      | none => throw (.reject (.consensus .noRepState))
      | some rs => require (pv.minerPledge ≤ rs.benefit.vote) (.consensus .pledgeNotEnough)
  else return ()

def verifyConsensus : Verify ε Unit :=
  match pv.mode with
  | .fake =>
    require (block.header.basHdr.nonce = block.header.basHdr.timestamp) (.consensus .badNonce)
  | .pow => do
    pv.verifyTarget block
    pv.verifyProducer block

def verifyCoinBaseTx (cbTx : PovCoinBaseTx) : Verify ε Unit := do
  let minerTxOut ← index cbTx.txOuts 0
  match minerTxOut with
  | none => throw (.reject .minerAddress)
  | some minerTxOut =>
    require (minerTxOut.address ≠ 0) .minerAddress
    let repTxOut ← index cbTx.txOuts 1
    match repTxOut with
    | none => throw (.reject .repAddress)
    | some repTxOut =>
      require (repTxOut.address ≠ 0) .repAddress
      let minerReward ← deref minerTxOut.value
      require (minerReward ≤ calcBlockReward.1) (.minerReward minerReward calcBlockReward.1)
      let repReward ← deref repTxOut.value
      require (repReward ≤ calcBlockReward.2) (.repReward repReward calcBlockReward.2)

def loadTxs (hashes : List Hash) : Verify ε (List PovTransaction) := do
  let gapTxs := (hashes.filter fun h => (pv.getStateBlockConfirmed h).isNone).dedup
  require (gapTxs = []) (.gapTxs gapTxs)
  return hashes.filterMap fun h => (pv.getStateBlockConfirmed h).map (PovTransaction.mk h)

def stateHead (sdb : PovStateDB γ) (address : Address) (token : Hash) : Hash :=
  match sdb.accounts.get address with
  | none => 0
  | some as =>
    match as.getTokenState token with
    | none => 0
    | some ts => ts.hash

/-- The last loop of `verifyTransactions`, with its map `addrTokenPrevHashes`. -/
def verifyOrder (sdb : PovStateDB γ) :
    Table (Address × Hash) Hash → List PovTransaction → Verify ε Unit
  | _, [] => return ()
  | prevHashes, tx :: txs => do
    let isCA := isContractAddress tx.block.address
    let addrToken := (tx.block.address, tx.block.token)
    let prevHashWant :=
      match prevHashes.get addrToken with
      | some h => h
      | none => if isCA then 0 else stateHead sdb tx.block.address tx.block.token
    require (prevHashWant = tx.block.previous) .txOrder
    -- the blocks of a contract address are all independent
    verifyOrder sdb
      (if isCA then prevHashes else prevHashes.put addrToken (tx.block.getHash pv.hashData)) txs

def verifyTransactions (sdb : PovStateDB γ) : Verify ε (List PovTransaction) := do
  let cbTx ← deref block.header.cbTx
  require (cbTx.txNum = UInt32.ofNat block.txs.length) (.txNum cbTx.txNum block.txs.length)
  require (1 ≤ block.txs.length) .noCoinbase
  let txHashList ← derefAll block.txs
  let merkleRoot ← calcMerkleTreeRootHash pv.sha256d txHashList
  require (merkleRoot ≠ 0) .zeroMerkleRoot
  require (merkleRoot = block.header.basHdr.merkleRoot)
    (.merkleRoot merkleRoot block.header.basHdr.merkleRoot)
  let data ← cbTx.buildHashData
  verifyCoinBaseTx cbTx
  require (txHashList.head? = some (pv.sha256d data)) .coinbaseHash
  let accTxs ← pv.loadTxs txHashList.tail
  pv.verifyOrder sdb ∅ accTxs
  return accTxs

def verifyState (txs : List PovTransaction) (sdb : PovStateDB γ) : Verify ε (PovStateDB γ) := do
  match transitStateDB pv.updateContractState block.header.basHdr.height.toNat txs sdb with
  | .error e => throw (.reject (.transit e))
  | .ok sdb =>
    let cbTx ← deref block.header.cbTx
    require (pv.getCurHash sdb = cbTx.stateHash) (.stateHash (pv.getCurHash sdb) cbTx.stateHash)
    return sdb

def verifyStages : Verify ε (PovStateDB γ) := do
  pv.verifyDataIntegrity block
  pv.verifyTimestamp block
  let prevHeader ← pv.verifyReferred block
  pv.verifyAuxHeader block
  pv.verifyConsensus block
  let sdb := pv.newStateDB prevHeader.stateHash
  let txs ← pv.verifyTransactions block sdb
  pv.verifyState block txs sdb

end PovVerifier

/-- The statistic of a verification: the result, the error, and the state if there is none. -/
structure PovVerifyStat (γ ε : Type) where
  result : PovResult
  error : Option (VerifyError ε) := none
  stateDB : Option (PovStateDB γ) := none

def PovVerifier.verifyFull {γ ε : Type} (pv : PovVerifier γ ε) (block : PovBlock) :
    Except Panic (PovVerifyStat γ ε) :=
  match pv.verifyStages block with
  | .ok sdb => .ok { result := .progress, stateDB := some sdb }
  | .error (.reject e) => .ok { result := e.result, error := some e }
  | .error (.panic fault) => .error fault

end GoQlc.Pov.Wire
