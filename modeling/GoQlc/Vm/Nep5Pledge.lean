import GoQlc.Vm.Mintage

/-!
# The pledge contract

A pledge of the chain token adds a weight of the chosen class to its
beneficial account; a withdrawal returns the pledged coins.
-/

namespace GoQlc.Nep5Pledge

open Abi Config

def nep5PledgeMethod : Method :=
  { name := "NEP5Pledge", inputs := [.address, .address, .uint8, .string] }

def withdrawNep5PledgeMethod : Method :=
  { name := "WithdrawNEP5Pledge", inputs := [.address, .uint256, .uint8, .string] }

def methods : List Method := [nep5PledgeMethod, withdrawNep5PledgeMethod]

def pledgeInfoInputs : List AbiType := [.uint8, .uint256, .int64, .address, .address, .string]

inductive PledgeType where
  | network
  | vote
  | storage
  | oracle
deriving DecidableEq, Repr

def PledgeType.ofByte : UInt8 → Option PledgeType
  | 0 => some .network
  | 1 => some .vote
  | 2 => some .storage
  | 3 => some .oracle
  | _ => none

structure PledgeConfig where
  days : Int64
  pledgeAmount : ℕ

def config : PledgeType → Option PledgeConfig
  | .network => some ⟨90, 200000000000⟩
  | .vote => some ⟨10, 100000000⟩
  | .oracle => some ⟨90, 300000000000000⟩
  | .storage => none

def configOf (pType : UInt8) : Option PledgeConfig := (PledgeType.ofByte pType).bind config

structure PledgeParam where
  beneficial : Address
  pledgeAddress : Address
  pType : UInt8
  nep5TxId : Bytes
deriving DecidableEq, Repr

structure WithdrawPledgeParam where
  beneficial : Address
  amount : ℕ
  pType : UInt8
  nep5TxId : Bytes
deriving DecidableEq, Repr

structure PledgeInfo where
  pType : UInt8
  amount : ℕ
  withdrawTime : Int64
  beneficial : Address
  pledgeAddress : Address
  nep5TxId : Bytes
deriving DecidableEq, Repr

def parsePledgeParam (crypto : Crypto) (data : Bytes) : Option PledgeParam :=
  (unpackMethod crypto.hashData methods nep5PledgeMethod data).map
    fun (beneficial, pledgeAddress, pType, nep5TxId, _) =>
      { beneficial, pledgeAddress, pType, nep5TxId }

def PledgeParam.toABI (crypto : Crypto) (p : PledgeParam) : Bytes :=
  packMethod crypto.hashData nep5PledgeMethod
    (p.beneficial, p.pledgeAddress, p.pType, p.nep5TxId, ())

def parseWithdrawPledgeParam (crypto : Crypto) (data : Bytes) : Option WithdrawPledgeParam :=
  (unpackMethod crypto.hashData methods withdrawNep5PledgeMethod data).map
    fun (beneficial, amount, pType, nep5TxId, _) => { beneficial, amount, pType, nep5TxId }

def WithdrawPledgeParam.toABI (crypto : Crypto) (p : WithdrawPledgeParam) : Bytes :=
  packMethod crypto.hashData withdrawNep5PledgeMethod
    (p.beneficial, p.amount, p.pType, p.nep5TxId, ())

def parsePledgeInfo (data : Bytes) : Option PledgeInfo :=
  (unpackVariable pledgeInfoInputs data).map
    fun (pType, amount, withdrawTime, beneficial, pledgeAddress, nep5TxId, _) =>
      { pType, amount, withdrawTime, beneficial, pledgeAddress, nep5TxId }

def PledgeInfo.toABI (i : PledgeInfo) : Bytes :=
  pack pledgeInfoInputs
    (i.pType, i.amount, i.withdrawTime, i.beneficial, i.pledgeAddress, i.nep5TxId, ())

def getPledgeKey (addr beneficial : Address) (neoTxId : Bytes) : Bytes :=
  hashBytes beneficial ++ hashBytes addr ++ neoTxId

def doSend (crypto : Crypto) (ctx : VmContext) (block : StateBlock) :
    Except ContractError Bytes :=
  match ctx.calculateAmount crypto block with
  | none => .error .calcAmount
  | some amount =>
    if !ctx.isUserAccount block.address then .error (.userAccount block.address)
    else if block.token ≠ chainToken ∨ amount = 0 then .error .invalidBlockData
    else
      match parsePledgeParam crypto block.data with
      | none => .error .invalidBeneficial
      | some p =>
        match configOf p.pType with
        | none => .error (.unsupportedType p.pType)
        | some info =>
          if amount < info.pledgeAmount then .error (.notEnoughPledge amount)
          else if p.pledgeAddress ≠ block.address then
            .error (.invalidPledgeAddress p.pledgeAddress block.address)
          else .ok (p.toABI crypto)

def doPending (crypto : Crypto) (block : StateBlock) :
    Except ContractError (Option (PendingKey × PendingInfo)) :=
  match parsePledgeParam crypto block.data with
  | none => .error .invalidBeneficial
  | some p => .ok (some
      ({ address := p.beneficial, hash := block.getHash crypto.hashData },
       { source := block.link, amount := 0, type := block.token }))

/-- The account fields a reward block for `beneficial` starts from. -/
def rewardBase (ctx : VmContext) (beneficial : Address) (block input : StateBlock) : StateBlock :=
  match ctx.getAccountMeta beneficial with
  | some am =>
    let block :=
      { block with
        balance := am.getBalance, vote := am.coinVote, network := am.coinNetwork
        oracle := am.coinOracle, storage := am.coinStorage }
    match am.token chainToken with
    | some tm => { block with previous := tm.header, representative := tm.representative }
    | none => { block with previous := 0, representative := input.representative }
  | none =>
    { block with
      vote := some 0, network := some 0, oracle := some 0, storage := some 0
      previous := 0, representative := input.representative }

def addPledge (pType : UInt8) (amount : ℕ) (block : StateBlock) : StateBlock :=
  match PledgeType.ofByte pType with
  | some .network => { block with network := some (Balance.add block.getNetwork amount) }
  | some .oracle => { block with oracle := some (Balance.add block.getOracle amount) }
  | some .storage => { block with storage := some (Balance.add block.getStorage amount) }
  | some .vote => { block with vote := some (Balance.add block.getVote amount) }
  | none => block

def doReceive (crypto : Crypto) (ctx : VmContext) (block input : StateBlock) :
    Except ContractError (List ContractBlock) :=
  match parsePledgeParam crypto input.data with
  | none => .error .unpack
  | some p =>
    let amount := (ctx.calculateAmount crypto input).getD 0
    match configOf p.pType with
    | none => .error (.unsupportedType p.pType)
    | some cfg =>
      if (ctx.getStorage (hashBytes nep5PledgeAddress) p.nep5TxId).isSome then
        .error (.invalidPledgeTxId p.nep5TxId)
      else
        let pledgeData := PledgeInfo.toABI
          { pType := p.pType, amount, beneficial := p.beneficial
            withdrawTime := Mintage.calculateDays cfg.days input.timestamp
            pledgeAddress := p.pledgeAddress, nep5TxId := p.nep5TxId }
        let ctx := ctx.setStorage (hashBytes nep5PledgeAddress) p.nep5TxId []
        let ctx := ctx.setStorage (hashBytes nep5PledgeAddress)
          (getPledgeKey input.address p.beneficial p.nep5TxId) pledgeData
        let block :=
          { rewardBase ctx p.beneficial block input with
            type := .contractReward, address := p.beneficial, token := input.token
            link := input.getHash crypto.hashData, data := pledgeData }
        .ok [{ vmContext := some ctx, block := addPledge p.pType amount block,
               toAddress := p.beneficial, amount, token := input.token, data := pledgeData }]

def withdrawDoSend (crypto : Crypto) (ctx : VmContext) (block : StateBlock) :
    Except ContractError Bytes :=
  match ctx.calculateAmount crypto block with
  | none => .error .calcAmount
  | some amount =>
    if block.type ≠ .contractSend ∨ amount = 0 then .error .invalidBlock
    else
      match parseWithdrawPledgeParam crypto block.data with
      | none => .error .invalidInputData
      | some p => .ok (p.toABI crypto)

/-- The stored pledges of the contract that match a withdrawal; the keys of
several matches run together. -/
def searchBeneficialPledgeInfoByTxId (ctx : VmContext) (p : WithdrawPledgeParam) :
    Option (Bytes × PledgeInfo) :=
  ctx.ledger.vmStorage.entries.foldl (fun result e =>
    let key := e.1.drop 32
    if (hashBytes ctx.contractAddr ++ hashBytes nep5PledgeAddress).isPrefixOf e.1 ∧
        64 < key.length ∧ (hashBytes p.beneficial).isPrefixOf (key.drop 32) ∧ !e.2.isEmpty then
      match parsePledgeInfo e.2 with
      | some info =>
        if info.pType = p.pType ∧ info.amount = p.amount ∧ info.withdrawTime ≤ ctx.view.timeNow ∧
            info.nep5TxId = p.nep5TxId then
          some ((result.map Prod.fst).getD [] ++ key, info)
        else result
      | none => result
    else result) none

def withdrawDoReceive (crypto : Crypto) (ctx : VmContext) (block input : StateBlock) :
    Except ContractError (List ContractBlock) :=
  match parseWithdrawPledgeParam crypto input.data with
  | none => .error .unpack
  | some p =>
    match searchBeneficialPledgeInfoByTxId ctx p with
    | none => .error .pledgeNotReady
    | some (key, info) =>
      let amount := (ctx.calculateAmount crypto input).getD 0
      let pledgeData := (ctx.getStorage [] key).getD []
      if pledgeData.isEmpty then .error .invalidPledgeData
      else
        match parsePledgeInfo pledgeData with
        | none => .error .unpack
        | some oldPledge =>
          if oldPledge.pledgeAddress ≠ info.pledgeAddress ∨
              oldPledge.withdrawTime ≠ info.withdrawTime ∨
              oldPledge.beneficial ≠ info.beneficial ∨ oldPledge.pType ≠ info.pType ∨
              oldPledge.nep5TxId ≠ info.nep5TxId then
            .error .invalidSavedInfo
          else
            let ctx := ctx.setStorage [] key []
            match ctx.getAccountMeta info.pledgeAddress with
            | none => .error .accountNotFound
            | some am =>
              match am.token chainToken with
              | none => .error .chainTokenNotFound
              | some tm =>
                let block :=
                  { block with
                    type := .contractReward, address := info.pledgeAddress, token := input.token
                    link := input.getHash crypto.hashData, data := pledgeData
                    vote := am.coinVote, network := am.coinNetwork, oracle := am.coinOracle
                    storage := am.coinStorage, previous := tm.header
                    representative := tm.representative
                    balance := Balance.add am.getBalance amount }
                .ok [{ vmContext := some ctx, block, toAddress := info.pledgeAddress, amount,
                       token := input.token, data := pledgeData }]

def nep5Pledge (crypto : Crypto) : Contract where
  describe := { specVer := 1, signature := true, work := true }
  doSend := doSend crypto
  doPending := doPending crypto
  doReceive := doReceive crypto

def withdrawNep5Pledge (crypto : Crypto) : Contract where
  describe := { specVer := 1, signature := true, work := true }
  doSend := withdrawDoSend crypto
  doPending := fun _ => .error .notImplemented
  doReceive := withdrawDoReceive crypto

end GoQlc.Nep5Pledge
