import GoQlc.Config.Genesis
import GoQlc.Ledger.Store

/-!
# Contract interface

The context a chain contract runs in and the operations the verifier calls.
-/

namespace GoQlc

namespace Ledger

/-- Replaces the cached head of each token by a confirmed one that is further on. -/
def mergeTokens (confirmed : AccountMeta) : List TokenMeta → AccountMeta → AccountMeta
  | [], am => am
  | v :: vs, am =>
    mergeTokens confirmed vs <|
      match am.token v.type with
      | some temp =>
        if temp.blockCount < v.blockCount then
          let am := { am with tokens := AccountMeta.updateToken (fun _ => v) v.type am.tokens }
          if v.type = Config.chainToken then
            { am with
              coinBalance := some confirmed.getBalance, coinOracle := some confirmed.getOracle
              coinNetwork := some confirmed.getNetwork, coinVote := some confirmed.getVote
              coinStorage := some confirmed.getStorage }
          else am
        else am
      | none => { am with tokens := am.tokens ++ [v] }

/-- The account as the unconfirmed cache and the confirmed table together show it. -/
def getAccountMeta (l : Ledger) (v : View) (address : Address) : Option AccountMeta :=
  match v.accountCache address, l.getAccountMetaConfirmed address with
  | some am, none => some am
  | none, some confirmed => some confirmed
  | some am, some confirmed => some (mergeTokens confirmed confirmed.tokens am)
  | none, none => none

def calculateAmount (crypto : Crypto) (v : View) (l : Ledger) (block : StateBlock) : Option ℕ :=
  match block.type with
  | .open_ => some block.totalBalance
  | .send =>
    (l.getStateBlock v block.previous).map fun prev =>
      Balance.sub prev.totalBalance block.totalBalance
  | .receive =>
    (l.getStateBlock v block.previous).map fun prev =>
      Balance.sub block.totalBalance prev.totalBalance
  | .change | .online => some 0
  | .contractReward =>
    if block.previous = 0 then some block.totalBalance
    else (l.getStateBlock v block.previous).map fun prev =>
      Balance.sub block.totalBalance prev.totalBalance
  | .contractSend =>
    if Config.isGenesisBlock crypto.hashData block then some block.balance
    else (l.getStateBlock v block.previous).map fun prev =>
      Balance.sub prev.totalBalance block.totalBalance
  | _ => none

def contractAddress (v : View) (l : Ledger) (block : StateBlock) : Option Address :=
  if block.isSendBlock then some block.link
  else if block.isReceiveBlock then (l.getStateBlock v block.link).map fun send => send.link
  else none

end Ledger

structure VmContext where
  ledger : Ledger
  view : View
  contractAddr : Address
  povHeight : UInt64
  cache : Table Bytes Bytes := ∅

namespace VmContext

/-- A context needs the latest proof-of-value header, the header at the
block's height and the contract address. -/
def newVMContextWithBlock (v : View) (l : Ledger) (block : StateBlock) : Option VmContext := do
  let latest ← v.latestPovHeight
  let povHeight := if latest < block.povHeight then latest else block.povHeight
  if v.hasPovHeader povHeight then
    let contractAddr ← l.contractAddress v block
    return { ledger := l, view := v, contractAddr, povHeight }
  else
    none

theorem reads_of_newVMContextWithBlock {v : View} {l : Ledger} {block : StateBlock}
    {ctx : VmContext} (h : newVMContextWithBlock v l block = some ctx) :
    ctx.ledger = l ∧ ctx.view = v := by
  unfold newVMContextWithBlock at h
  obtain ⟨latest, -, h⟩ := Option.bind_eq_some_iff.mp h
  dsimp only at h
  generalize (if latest < block.povHeight then latest else block.povHeight) = povHeight at h
  split at h
  · obtain ⟨contractAddr, -, h⟩ := Option.bind_eq_some_iff.mp h
    cases h
    exact ⟨rfl, rfl⟩
  · cases h

def rawStorageKey (ctx : VmContext) (key : Bytes) : Bytes := hashBytes ctx.contractAddr ++ key

def getStorage (ctx : VmContext) (pre key : Bytes) : Option Bytes :=
  (ctx.cache.get (pre ++ key)).or (ctx.ledger.vmStorage.get (ctx.rawStorageKey (pre ++ key)))

def setStorage (ctx : VmContext) (pre key value : Bytes) : VmContext :=
  { ctx with cache := ctx.cache.put (pre ++ key) value }

def toCache (ctx : VmContext) : List (Bytes × Bytes) :=
  ctx.cache.entries.map fun e => (ctx.rawStorageKey e.1, e.2)

def calculateAmount (crypto : Crypto) (ctx : VmContext) (block : StateBlock) : Option ℕ :=
  ctx.ledger.calculateAmount crypto ctx.view block

def getAccountMeta (ctx : VmContext) (address : Address) : Option AccountMeta :=
  ctx.ledger.getAccountMeta ctx.view address

def isUserAccount (ctx : VmContext) (address : Address) : Bool :=
  (ctx.ledger.getAccountMetaConfirmed address).isSome

end VmContext

inductive ContractError where
  | notImplemented
  | storageNotFound
  | unpack
  | calcAmount
  | nilPointer
  | invalidTokenParam
  | invalidTokenName
  | invalidTokenSymbol
  | tokenIdExists (tokenId : Hash)
  | tokenNameOrSymbolUsed (name symbol : Bytes)
  | invalidBlockAmount (amount : ℕ)
  | invalidMintageTxId (txId : Bytes)
  | invalidToken
  | invalidBlock
  | invalidInputData
  | withdrawStatus
  | chainTokenNotFound
  | accountNotFound
  | invalidSavedInfo
  | userAccount (address : Address)
  | invalidBlockData
  | invalidBeneficial
  | unsupportedType (pType : UInt8)
  | notEnoughPledge (amount : ℕ)
  | invalidPledgeAddress (found expected : Address)
  | invalidPledgeTxId (txId : Bytes)
  | pledgeNotReady
  | invalidPledgeData
  | invalidParam
  | invalidSign
  | invalidAccount
  | invalidPrevious
  | invalidTokenToDestroy
  | invalidAmount
  | amountMismatch (expected actual : ℕ)
  | invalidSendBlockData (input : Hash)
  | invalidTokenOrAmount (token : Hash) (amount : ℕ)
  | other (text : String)
deriving DecidableEq, Repr

inductive ContractGapType where
  | noGap
  | rewardGapPov
  | dpkiGapPublish
  | doDOrderState
deriving DecidableEq, Repr

structure Describe where
  specVer : ℕ
  signature : Bool := false
  pending : Bool := false
  work : Bool := false
deriving DecidableEq, Repr

structure ContractBlock where
  vmContext : Option VmContext
  block : StateBlock
  toAddress : Address
  amount : ℕ
  token : Hash
  data : Bytes

/-- What a version-2 send leaves behind: the call data it wrote into the
block, and the pending and the context when it succeeded. -/
structure SendOutcome where
  data : Bytes
  result : Except ContractError (Option (PendingKey × PendingInfo) × VmContext)

/-- The operations of a contract method. -/
structure Contract where
  describe : Describe
  doSend : VmContext → StateBlock → Except ContractError Bytes := fun _ _ => .error .notImplemented
  doPending : StateBlock → Except ContractError (Option (PendingKey × PendingInfo)) :=
    fun _ => .ok none
  doReceive : VmContext → StateBlock → StateBlock → Except ContractError (List ContractBlock) :=
    fun _ _ _ => .error .notImplemented
  processSend : VmContext → StateBlock → SendOutcome :=
    fun _ block => ⟨block.data, .error .notImplemented⟩
  doGap : VmContext → StateBlock → Except ContractError ContractGapType := fun _ _ => .ok .noGap

end GoQlc
