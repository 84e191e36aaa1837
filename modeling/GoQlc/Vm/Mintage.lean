import GoQlc.Vm.Contract

/-!
# The mintage contract

Issues a token against a pledge of the chain token, and returns the pledge.
-/

namespace GoQlc.Mintage

open Abi Config

def mintageMethod : Method :=
  { name := "Mintage"
    inputs := [.tokenId, .string, .string, .uint256, .uint8, .address, .string] }

def withdrawMethod : Method := { name := "Withdraw", inputs := [.tokenId] }

def methods : List Method := [mintageMethod, withdrawMethod]

def tokenInputs : List AbiType :=
  [.tokenId, .string, .string, .uint256, .uint8, .address, .uint256, .int64, .address, .string]

def minPledgeAmount : ℕ := 50000000000000
def tokenNameLengthMax : ℕ := 40
def tokenSymbolLengthMax : ℕ := 10

def calculateDays (days : Int64) (t : Int64) : Int64 := t + 86400 * days

structure ParamMintage where
  tokenId : Hash
  tokenName : Bytes
  tokenSymbol : Bytes
  totalSupply : ℕ
  decimals : UInt8
  beneficial : Address
  nep5TxId : Bytes
deriving DecidableEq, Repr

structure TokenInfo where
  tokenId : Hash
  tokenName : Bytes
  tokenSymbol : Bytes
  totalSupply : ℕ
  decimals : UInt8
  owner : Address
  pledgeAmount : ℕ
  withdrawTime : Int64
  pledgeAddress : Address
  nep5TxId : Bytes
deriving DecidableEq, Repr

def parseParam (crypto : Crypto) (data : Bytes) : Option ParamMintage :=
  (unpackMethod crypto.hashData methods mintageMethod data).map
    fun (tokenId, tokenName, tokenSymbol, totalSupply, decimals, beneficial, nep5TxId, _) =>
      { tokenId, tokenName, tokenSymbol, totalSupply, decimals, beneficial, nep5TxId }

def ParamMintage.toABI (crypto : Crypto) (p : ParamMintage) : Bytes :=
  packMethod crypto.hashData mintageMethod
    (p.tokenId, p.tokenName, p.tokenSymbol, p.totalSupply, p.decimals, p.beneficial, p.nep5TxId, ())

def parseWithdraw (crypto : Crypto) (data : Bytes) : Option Hash :=
  (unpackMethod crypto.hashData methods withdrawMethod data).map fun (tokenId, _) => tokenId

def parseTokenInfo (data : Bytes) : Option TokenInfo :=
  (unpackVariable tokenInputs data).map
    fun (tokenId, tokenName, tokenSymbol, totalSupply, decimals, owner, pledgeAmount,
        withdrawTime, pledgeAddress, nep5TxId, _) =>
      { tokenId, tokenName, tokenSymbol, totalSupply, decimals, owner, pledgeAmount,
        withdrawTime, pledgeAddress, nep5TxId }

def parseGenesisTokenInfo (data : Bytes) : Option TokenInfo :=
  (unpackVariable genesisTokenInputs data).map
    fun (tokenId, tokenName, tokenSymbol, totalSupply, decimals, owner, pledgeAmount,
        withdrawTime, pledgeAddress, _) =>
      { tokenId, tokenName, tokenSymbol, totalSupply, decimals, owner, pledgeAmount,
        withdrawTime, pledgeAddress, nep5TxId := [] }

def TokenInfo.toABI (i : TokenInfo) : Bytes :=
  pack tokenInputs
    (i.tokenId, i.tokenName, i.tokenSymbol, i.totalSupply, i.decimals, i.owner, i.pledgeAmount,
      i.withdrawTime, i.pledgeAddress, i.nep5TxId, ())

def newTokenHash (crypto : Crypto) (address : Address) (previous : Hash) (tokenName : Bytes) :
    Hash :=
  crypto.hashData (hashBytes address ++ hashBytes previous ++ tokenName)

/-- The tokens in the storage of the mintage contract; empty entries only
mark a used transaction id. -/
def listTokens (l : Ledger) : List TokenInfo :=
  l.vmStorage.entries.filterMap fun e =>
    let key := e.1.drop 64
    if (hashBytes mintageAddress).isPrefixOf e.1 && !e.2.isEmpty then
      if isGenesisToken (BitVec.ofNat 256 (Bytes.toNat key)) then parseGenesisTokenInfo e.2
      else (parseTokenInfo e.2).map fun i =>
        { i with totalSupply := i.totalSupply * 10 ^ i.decimals.toNat }
    else none

def isNameChar (c : UInt8) : Bool :=
  (97 ≤ c && c ≤ 122) || (65 ≤ c && c ≤ 90) || c == 95

/-- The pattern of token names: words of letters and underscores with single
spaces between them. -/
def matchName : Bytes → Bool
  | [] => false
  | [c] => isNameChar c
  | c :: 32 :: cs => isNameChar c && matchName cs
  | c :: d :: cs => isNameChar c && matchName (d :: cs)

def verifyToken (p : ParamMintage) : Except ContractError Unit :=
  if 2 ^ 256 - 1 < p.totalSupply ∨
      p.tokenName.length = 0 ∨ tokenNameLengthMax < p.tokenName.length ∨
      p.tokenSymbol.length = 0 ∨ tokenSymbolLengthMax < p.tokenSymbol.length then
    .error .invalidTokenParam
  else if !matchName p.tokenName then .error .invalidTokenName
  else if !matchName p.tokenSymbol then .error .invalidTokenSymbol
  else .ok ()

/-- Checks the parameters and writes the token id they determine into the call data. -/
def doSend (crypto : Crypto) (ctx : VmContext) (block : StateBlock) :
    Except ContractError Bytes :=
  match parseParam crypto block.data with
  | none => .error .unpack
  | some p => do
    verifyToken p
    let tokenId := newTokenHash crypto block.address block.previous p.tokenName
    let infos := listTokens ctx.ledger
    if infos.any fun i => i.tokenId == tokenId then
      throw (.tokenIdExists tokenId)
    if infos.any fun i => i.tokenName == p.tokenName || i.tokenSymbol == p.tokenSymbol then
      throw (.tokenNameOrSymbolUsed p.tokenName p.tokenSymbol)
    return ParamMintage.toABI crypto { p with tokenId }

/-- The pending of an issue: the supply as a number of units of the token the
pledge was paid in. -/
def doPending (crypto : Crypto) (block : StateBlock) :
    Except ContractError (Option (PendingKey × PendingInfo)) :=
  match parseParam crypto block.data with
  | none => .error .unpack
  | some p => .ok (some
      ({ address := p.beneficial, hash := block.getHash crypto.hashData },
       { source := block.link, amount := p.totalSupply, type := block.token }))

def doReceive (crypto : Crypto) (ctx : VmContext) (block input : StateBlock) :
    Except ContractError (List ContractBlock) :=
  let amount := (ctx.calculateAmount crypto input).getD 0
  if 0 < amount ∧ minPledgeAmount ≤ amount ∧ input.token = chainToken then
    match parseParam crypto input.data with
    | none => .error .nilPointer
    | some p =>
      let tokenInfo := TokenInfo.toABI
        { tokenId := p.tokenId, tokenName := p.tokenName, tokenSymbol := p.tokenSymbol
          totalSupply := p.totalSupply, decimals := p.decimals, owner := p.beneficial
          pledgeAmount := amount, withdrawTime := calculateDays 180 input.timestamp
          pledgeAddress := input.address, nep5TxId := p.nep5TxId }
      if (ctx.getStorage (hashBytes mintageAddress) p.nep5TxId).isSome then
        .error (.invalidMintageTxId p.nep5TxId)
      else
        let ctx := ctx.setStorage (hashBytes mintageAddress) p.nep5TxId []
        let totalSupply := p.totalSupply * 10 ^ p.decimals.toNat
        let block :=
          { block with
            type := .contractReward, address := p.beneficial, representative := p.beneficial
            token := p.tokenId, link := input.getHash crypto.hashData, data := tokenInfo
            previous := 0, balance := totalSupply
            vote := some 0, storage := some 0, network := some 0, oracle := some 0 }
        if (ctx.getStorage (hashBytes mintageAddress) (hashBytes p.tokenId)).isSome then
          .error .invalidToken
        else
          let ctx := ctx.setStorage (hashBytes mintageAddress) (hashBytes p.tokenId) tokenInfo
          .ok [{ vmContext := some ctx, block, toAddress := p.beneficial, amount := totalSupply,
                 token := p.tokenId, data := tokenInfo }]
  else
    .error (.invalidBlockAmount amount)

def withdrawDoSend (crypto : Crypto) (ctx : VmContext) (block : StateBlock) :
    Except ContractError Bytes :=
  if block.type ≠ .contractSend ∨ ctx.calculateAmount crypto block ≠ some 0 then
    .error .invalidBlock
  else
    match parseWithdraw crypto block.data with
    | none => .error .invalidInputData
    | some _ => .ok block.data

def withdrawDoPending (crypto : Crypto) (block : StateBlock) :
    Except ContractError (Option (PendingKey × PendingInfo)) :=
  match parseWithdraw crypto block.data with
  | none => .error .unpack
  | some _ => .ok (some
      ({ address := block.address, hash := block.getHash crypto.hashData },
       { source := block.link, amount := 0, type := block.token }))

/-- Returns the pledge once its time is over. The saved information is read a
second time and compared with the first reading. -/
def withdrawDoReceive (crypto : Crypto) (ctx : VmContext) (block input : StateBlock) :
    Except ContractError (List ContractBlock) :=
  match parseWithdraw crypto input.data with
  | none => .error .unpack
  | some tokenId =>
    match ctx.getStorage (hashBytes mintageAddress) (hashBytes tokenId) with
    | none => .error .storageNotFound
    | some tokenInfoData =>
      match parseTokenInfo tokenInfoData with
      | none => .error .unpack
      | some info =>
        if info.pledgeAddress ≠ input.address ∨ info.pledgeAmount = 0 ∨
            ctx.view.timeNow < info.withdrawTime then
          .error .withdrawStatus
        else
          let newTokenInfo := TokenInfo.toABI { info with pledgeAmount := 0, withdrawTime := 0 }
          match ctx.getAccountMeta info.pledgeAddress with
          | none => .error .accountNotFound
          | some am =>
            match am.token chainToken with
            | none => .error .chainTokenNotFound
            | some tm =>
              let block :=
                { block with
                  type := .contractReward, address := info.pledgeAddress
                  representative := tm.representative, token := tm.type
                  link := input.getHash crypto.hashData, data := newTokenInfo
                  balance := Balance.add tm.balance info.pledgeAmount
                  vote := am.coinVote, oracle := am.coinOracle
                  storage := am.coinStorage, network := am.coinNetwork, previous := tm.header }
              match parseTokenInfo tokenInfoData with
              | none => .error .unpack
              | some oldPledge =>
                if oldPledge.pledgeAddress ≠ info.pledgeAddress ∨
                    oldPledge.withdrawTime ≠ info.withdrawTime ∨
                    oldPledge.tokenId ≠ info.tokenId ∨ oldPledge.owner ≠ info.owner ∨
                    oldPledge.decimals ≠ info.decimals ∨
                    oldPledge.totalSupply ≠ info.totalSupply ∨
                    oldPledge.tokenSymbol ≠ info.tokenSymbol ∨
                    oldPledge.tokenName ≠ info.tokenName ∨
                    oldPledge.pledgeAmount ≠ info.pledgeAmount then
                  .error .invalidSavedInfo
                else
                  let ctx := ctx.setStorage (hashBytes mintageAddress) (hashBytes tokenId)
                    newTokenInfo
                  .ok [{ vmContext := some ctx, block, toAddress := info.pledgeAddress,
                         amount := info.pledgeAmount, token := chainToken, data := newTokenInfo }]

def mintage (crypto : Crypto) : Contract where
  describe := { specVer := 1, signature := true, work := true }
  doSend := doSend crypto
  doPending := doPending crypto
  doReceive := doReceive crypto

def withdrawMintage (crypto : Crypto) : Contract where
  describe := { specVer := 1, signature := true, work := true }
  doSend := withdrawDoSend crypto
  doPending := withdrawDoPending crypto
  doReceive := withdrawDoReceive crypto

end GoQlc.Mintage
