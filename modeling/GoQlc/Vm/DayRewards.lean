import GoQlc.Vm.Contract

/-!
# Rewards by day statistics

Miners and representatives are paid for whole days of the proof-of-value chain.
-/

namespace GoQlc.DayRewards

open Abi Config

/-- `POVChainBlocksPerDay`: a block each minute. -/
def blocksPerDay : UInt64 := 1440

def rewardHeightStart : UInt64 := blocksPerDay
def rewardHeightGapToLatest : UInt64 := blocksPerDay
def maxRewardBlocksPerCall : UInt64 := blocksPerDay * 7
def rewardHeightRound : UInt64 := blocksPerDay

structure PovMinerStatItem where
  blockNum : UInt32
  rewardAmount : ℕ
  repBlockNum : UInt32
  repReward : ℕ
deriving DecidableEq, Repr

structure PovMinerDayStat where
  minerStats : Address → Option PovMinerStatItem

abbrev DayStats := UInt32 → Option PovMinerDayStat

inductive Kind where
  | miner
  | rep
deriving DecidableEq, Repr

def rewardInputs : List AbiType := [.address, .address, .uint64, .uint64, .uint64, .uint256]

def rewardInfoInputs : List AbiType := [.uint64, .uint64, .int64, .uint256]

namespace Kind

def contractAddress : Kind → Address
  | miner => minerAddress
  | rep => repAddress

def method : Kind → Method
  | miner => { name := "MinerReward", inputs := rewardInputs }
  | rep => { name := "RepReward", inputs := rewardInputs }

def blockNum : Kind → PovMinerStatItem → UInt32
  | miner => PovMinerStatItem.blockNum
  | rep => PovMinerStatItem.repBlockNum

def reward : Kind → PovMinerStatItem → ℕ
  | miner => PovMinerStatItem.rewardAmount
  | rep => PovMinerStatItem.repReward

def storageError : Kind → ContractError
  | miner => .other "failed to get storage for Miner"
  | rep => .other "failed to get storage for repReward"

end Kind

structure RewardParam where
  account : Address
  beneficial : Address
  startHeight : UInt64
  endHeight : UInt64
  rewardBlocks : UInt64
  rewardAmount : ℕ
deriving DecidableEq, Repr

structure RewardInfo where
  endHeight : UInt64
  rewardBlocks : UInt64
  timestamp : Int64
  rewardAmount : ℕ
deriving DecidableEq, Repr

def parseRewardParam (crypto : Crypto) : Kind → Bytes → Option RewardParam
  | .miner, data =>
    (unpackMethod crypto.hashData [Kind.miner.method] Kind.miner.method data).map
      fun (account, beneficial, startHeight, endHeight, rewardBlocks, rewardAmount, _) =>
        { account, beneficial, startHeight, endHeight, rewardBlocks, rewardAmount }
  | .rep, data =>
    (unpackMethod crypto.hashData [Kind.rep.method] Kind.rep.method data).map
      fun (account, beneficial, startHeight, endHeight, rewardBlocks, rewardAmount, _) =>
        { account, beneficial, startHeight, endHeight, rewardBlocks, rewardAmount }

def RewardParam.toABI (crypto : Crypto) (p : RewardParam) : Kind → Bytes
  | .miner => packMethod crypto.hashData Kind.miner.method
      (p.account, p.beneficial, p.startHeight, p.endHeight, p.rewardBlocks, p.rewardAmount, ())
  | .rep => packMethod crypto.hashData Kind.rep.method
      (p.account, p.beneficial, p.startHeight, p.endHeight, p.rewardBlocks, p.rewardAmount, ())

def RewardInfo.toABI (i : RewardInfo) : Bytes :=
  pack rewardInfoInputs (i.endHeight, i.rewardBlocks, i.timestamp, i.rewardAmount, ())

def parseRewardInfo (data : Bytes) : Option RewardInfo :=
  (unpackVariable rewardInfoInputs data).map
    fun (endHeight, rewardBlocks, timestamp, rewardAmount, _) =>
      { endHeight, rewardBlocks, timestamp, rewardAmount }

def RewardParam.verify (p : RewardParam) : Bool :=
  if p.account = 0 then false
  else if p.beneficial = 0 then false
  else if p.startHeight < rewardHeightStart then false
  else if p.endHeight < p.startHeight then false
  else if maxRewardBlocksPerCall < p.endHeight - p.startHeight + 1 then false
  else true

/-- The last height at or below `height` that ends a round; heights count from zero. -/
def roundPovHeight (height round : UInt64) : UInt64 :=
  let roundCount := (height + 1) / round * round
  if roundCount = 0 then 0 else roundCount - 1

def getNodeRewardHeight (ctx : VmContext) : Option UInt64 :=
  ctx.view.latestPovHeight.map fun nodeHeight =>
    if nodeHeight < rewardHeightStart then 0
    else if nodeHeight < rewardHeightGapToLatest then 0
    else
      let nodeHeight := roundPovHeight (nodeHeight - rewardHeightGapToLatest) rewardHeightRound
      if nodeHeight < rewardHeightStart then 0 else nodeHeight

def getRewardHistory (kind : Kind) (ctx : VmContext) (account : Address) :
    Except ContractError (Option RewardInfo) :=
  match ctx.getStorage (hashBytes kind.contractAddress) (hashBytes account) with
  | none => .ok none
  | some data =>
    match parseRewardInfo data with
    | none => .error .unpack
    | some info => .ok (some info)

def checkParamExistInOldRewardInfos (kind : Kind) (ctx : VmContext) (p : RewardParam) :
    Except ContractError Unit :=
  match getRewardHistory kind ctx p.account with
  | .error _ => .error kind.storageError
  | .ok info =>
    let lastRewardHeight := info.elim 0 RewardInfo.endHeight
    if p.startHeight ≤ lastRewardHeight then
      .error (.other ("start height[" ++ toString p.startHeight ++ "] err, last height[" ++
        toString lastRewardHeight ++ "]"))
    else .ok ()

/-- Adds up the days from `dayIndex` to `endDayIndex`. The index is a 32-bit counter that wraps
around, so the loop need not end: `none` stands for a loop still running when the fuel is spent. -/
def sumDays (kind : Kind) (dayStat : DayStats) (account : Address) (endDayIndex : UInt32) :
    ℕ → UInt32 → UInt64 → ℕ → Option (Except ContractError (UInt64 × ℕ))
  | 0, _, _, _ => none
  | fuel + 1, dayIndex, rewardBlocks, rewardAmount =>
    if dayIndex ≤ endDayIndex then
      match dayStat dayIndex with
      | none => some (.error (.other ("get pov miner state err[" ++ toString dayIndex ++ "]")))
      | some day =>
        match day.minerStats account with
        | none =>
          sumDays kind dayStat account endDayIndex fuel (dayIndex + 1) rewardBlocks rewardAmount
        | some item =>
          sumDays kind dayStat account endDayIndex fuel (dayIndex + 1)
            (rewardBlocks + (kind.blockNum item).toUInt64)
            (Balance.add rewardAmount (kind.reward item))
    else some (.ok (rewardBlocks, rewardAmount))

def dayLoopFuel : ℕ := 2 ^ 32 + 1

def calcRewardBlocksByDayStats (kind : Kind) (dayStat : DayStats) (account : Address)
    (startHeight endHeight : UInt64) : Option (Except ContractError (UInt64 × ℕ)) :=
  let startHeight := if startHeight < rewardHeightStart then rewardHeightStart else startHeight
  if startHeight % blocksPerDay ≠ 0 then
    some (.error (.other "start height is not integral multiple of blocks per day"))
  else if (endHeight + 1) % blocksPerDay ≠ 0 then
    some (.error (.other "end height is not integral multiple of blocks per day"))
  else
    sumDays kind dayStat account (endHeight / blocksPerDay).toUInt32 dayLoopFuel
      (startHeight / blocksPerDay).toUInt32 0 0

def checkClaim (kind : Kind) (ctx : VmContext) (block : StateBlock) (p : RewardParam) :
    Except ContractError Unit :=
  if p.verify = false then .error (.other "check param err")
  else if p.account ≠ block.address then .error (.other "invalid account")
  else if block.token ≠ chainToken then .error (.other "token err")
  else if (ctx.getAccountMeta p.account).isNone then .error (.other "account not exist")
  else
    match getNodeRewardHeight ctx with
    | none => .error (.other "get node height err")
    | some nodeRewardHeight =>
      if nodeRewardHeight < p.endHeight then .error (.other "invalid claim end height")
      else
        match checkParamExistInOldRewardInfos kind ctx p with
        | .error _ => .error (.other "claim reward repeatedly")
        | .ok () => .ok ()

def newInfo (p : RewardParam) (block : StateBlock) (oldInfo : Option RewardInfo) : RewardInfo where
  endHeight := p.endHeight
  rewardBlocks := p.rewardBlocks + oldInfo.elim 0 RewardInfo.rewardBlocks
  timestamp := block.timestamp
  rewardAmount := p.rewardAmount + oldInfo.elim 0 RewardInfo.rewardAmount

def payClaim (crypto : Crypto) (kind : Kind) (ctx : VmContext) (block : StateBlock)
    (p : RewardParam) : SendOutcome :=
  let block := { block with data := p.toABI crypto kind }
  { data := block.data
    result :=
      match getRewardHistory kind ctx p.account with
      | .error _ => .error (.other "get reward history err")
      | .ok oldInfo =>
        .ok (some ({ address := p.beneficial, hash := block.getHash crypto.hashData },
            { source := block.link, amount := p.rewardAmount, type := gasToken }),
          ctx.setStorage (hashBytes kind.contractAddress) (hashBytes p.account)
            (newInfo p block oldInfo).toABI) }

/-- The send of a claim; `none` if the call does not return. -/
def processSend (crypto : Crypto) (kind : Kind) (dayStat : DayStats) (ctx : VmContext)
    (block : StateBlock) : Option SendOutcome :=
  match parseRewardParam crypto kind block.data with
  | none => some ⟨block.data, .error .unpack⟩
  | some p =>
    match checkClaim kind ctx block p with
    | .error e => some ⟨block.data, .error e⟩
    | .ok () =>
      (calcRewardBlocksByDayStats kind dayStat p.account p.startHeight p.endHeight).map fun sum =>
        match sum with
        | .error _ => ⟨block.data, .error .calcAmount⟩
        | .ok (calcRewardBlocks, calcRewardAmount) =>
          if calcRewardBlocks ≠ p.rewardBlocks ∨ calcRewardAmount ≠ p.rewardAmount then
            ⟨block.data, .error (.other "check param err")⟩
          else payClaim crypto kind ctx block p

/-- `MinerReward.ProcessSend`. -/
def minerReward (crypto : Crypto) :
    DayStats → VmContext → StateBlock → Option SendOutcome := processSend crypto .miner

/-- `RepReward.ProcessSend`. -/
def repReward (crypto : Crypto) :
    DayStats → VmContext → StateBlock → Option SendOutcome := processSend crypto .rep

end GoQlc.DayRewards
