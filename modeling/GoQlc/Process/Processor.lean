import GoQlc.Process.Check

/-!
# Block processing

`BlockProcess` applies an accepted block to the ledger in one batch.
-/

namespace GoQlc

open Config Ledger VmContext

inductive Stage where
  | stateBlock
  | pending
  | frontier
  | contractData
  | accountMeta
  | representative
deriving DecidableEq, Repr

structure ProcessError where
  stage : Stage
  error : LedgerError
deriving DecidableEq, Repr

namespace Env

variable (env : Env)

def sendPending (preBlk block : StateBlock) : PendingInfo where
  source := block.address
  amount := Balance.sub preBlk.balance block.balance
  type := block.token

def sendPendingKey (block : StateBlock) : PendingKey where
  address := block.link
  hash := block.getHash env.hashData

def addContractPending (result : Except ContractError (Option (PendingKey × PendingInfo)))
    (c : Ledger) : Ledger :=
  match result with
  | .ok (some (key, info)) => addPending key info c
  | _ => c

def updateContractSendPending (v : View) (l : Ledger) (block : StateBlock) (c : Ledger) :
    Except LedgerError (StateBlock × Ledger) :=
  if block.isHidden then .ok (block, c)
  else
    match env.getChainContract block.link block.getPayload with
    | none => .ok (block, c)
    | some contract =>
      match contract.describe.specVer with
      | 1 => .ok (block, addContractPending (contract.doPending block) c)
      | 2 =>
        match newVMContextWithBlock v l block with
        | none => .error (.noVmContext (block.getHash env.hashData))
        | some vmCtx =>
          let outcome := contract.processSend vmCtx block
          .ok ({ block with data := outcome.data },
            addContractPending (outcome.result.map Prod.fst) c)
      | version => .error (.unsupportedVersion version)

def updatePending (v : View) (l : Ledger) (block : StateBlock) (c : Ledger) :
    Except LedgerError (StateBlock × Ledger) :=
  match block.type with
  | .send =>
    match l.getStateBlockConfirmed block.previous with
    | none => .error (.previousNotFound block.previous)
    | some preBlk =>
      .ok (block, addPending (env.sendPendingKey block) (sendPending preBlk block) c)
  | .open_ | .receive | .contractReward => .ok (block, l.deletePending (pendingKeyOf block) c)
  | .contractSend => env.updateContractSendPending v l block c
  | _ => .ok (block, c)

def updateFrontier (l : Ledger) (tm : Option TokenMeta) (block : StateBlock) (c : Ledger) :
    Except LedgerError Ledger :=
  let hash := block.getHash env.hashData
  match tm with
  | some tm =>
    match l.frontiers.get tm.header with
    | none => .error (.frontierNotFound tm.header)
    | some _ => .ok (addFrontier hash tm.openBlock (deleteFrontier tm.header c))
  | none => .ok (addFrontier hash hash c)

def updateRewardData (v : View) (l : Ledger) (block : StateBlock) (c : Ledger) :
    Except LedgerError Ledger :=
  if block.isHidden then .ok c
  else
    match l.getStateBlockConfirmed block.link with
    | none => .error (.sourceNotFound block.link)
    | some input =>
      if input.isHidden then .ok c
      else
        match env.getChainContract input.link input.getPayload with
        | none => .error (.invalidContract input.link)
        | some contract =>
          match newVMContextWithBlock v l block with
          | none => .error (.noVmContext (block.getHash env.hashData))
          | some vmCtx =>
            match contract.doReceive vmCtx block.clone input with
            | .error _ => .error .doReceive
            | .ok [] => .error .invalidContractData
            | .ok (g :: _) =>
              match g.vmContext with
              | none => .error .invalidContractData
              | some ctx => .ok (saveStorage ctx.toCache c)

def updateSendData (v : View) (l : Ledger) (block : StateBlock) (c : Ledger) :
    Except LedgerError (StateBlock × Ledger) :=
  if block.isHidden then .ok (block, c)
  else
    match env.getChainContract block.link block.getPayload with
    | none => .ok (block, c)
    | some contract =>
      if contract.describe.specVer = 2 then
        match newVMContextWithBlock v l block with
        | none => .error (.noVmContext (block.getHash env.hashData))
        | some vmCtx =>
          let outcome := contract.processSend vmCtx block
          let block := { block with data := outcome.data }
          match outcome.result with
          | .ok (_, ctx) => .ok (block, saveStorage ctx.toCache c)
          | .error _ => .ok (block, c)
      else .ok (block, c)

def updateContractData (v : View) (l : Ledger) (block : StateBlock) (c : Ledger) :
    Except LedgerError (StateBlock × Ledger) :=
  if env.isGenesisBlock block then .ok (block, c)
  else
    match block.type with
    | .contractReward => (env.updateRewardData v l block c).map fun c => (block, c)
    | .contractSend => env.updateSendData v l block c
    | _ => .ok (block, c)

/-- The token meta of a chain that starts with `block`. -/
def newTokenMeta (block : StateBlock) : TokenMeta where
  type := block.token
  header := block.getHash env.hashData
  representative := block.representative
  openBlock := block.getHash env.hashData
  balance := block.balance
  belongTo := block.address
  blockCount := 1

/-- Moves a token meta on to `block`. -/
def nextTokenMeta (block : StateBlock) (tm : TokenMeta) : TokenMeta :=
  { tm with
    header := block.getHash env.hashData, representative := block.representative
    balance := block.balance, blockCount := tm.blockCount + 1 }

def setCoins (block : StateBlock) (am : AccountMeta) : AccountMeta :=
  if block.token = chainToken then
    { am with
      coinBalance := some block.balance, coinOracle := some block.getOracle
      coinNetwork := some block.getNetwork, coinVote := some block.getVote
      coinStorage := some block.getStorage }
  else am

/-- The account after `block`, where it exists before. -/
def nextAccountMeta (block : StateBlock) (am : AccountMeta) : AccountMeta :=
  let am' := setCoins block am
  match am.token block.token with
  | some _ =>
    { am' with
      tokens := AccountMeta.updateToken (env.nextTokenMeta block) block.token am.tokens }
  | none => { am' with tokens := am.tokens ++ [env.newTokenMeta block] }

/-- The account `block` opens. -/
def newAccountMeta (block : StateBlock) : AccountMeta :=
  setCoins block { address := block.address, tokens := [env.newTokenMeta block] }

def updateAccountMeta (l : Ledger) (am : Option AccountMeta) (block : StateBlock) (c : Ledger) :
    Except LedgerError Ledger :=
  let hash := block.getHash env.hashData
  match am with
  | some am =>
    let tm := ((am.token block.token).map (env.nextTokenMeta block)).getD (env.newTokenMeta block)
    .ok (Ledger.updateAccountMeta (env.nextAccountMeta block am)
      (Ledger.addAccountMetaHistory tm hash block.povHeight c))
  | none =>
    addAccountMeta l (env.newAccountMeta block)
      (Ledger.addAccountMetaHistory (env.newTokenMeta block) hash block.povHeight c)

def oldBenefit (am : AccountMeta) : Benefit where
  balance := am.getBalance
  vote := am.getVote
  network := am.getNetwork
  storage := am.getStorage
  oracle := am.getOracle
  total := am.totalBalance

def newBenefit (block : StateBlock) : Benefit where
  balance := block.balance
  vote := block.getVote
  network := block.getNetwork
  storage := block.getStorage
  oracle := block.getOracle
  total := block.totalBalance

def updateRepresentative (am : Option AccountMeta) (tm : Option TokenMeta) (block : StateBlock)
    (c : Ledger) : Except LedgerError Ledger :=
  if block.token = chainToken then
    let removed : Except LedgerError Ledger :=
      match am, tm with
      | some am, some tm =>
        if tm.representative ≠ 0 then
          subRepresentation tm.representative (oldBenefit am) c
        else .ok c
      | _, _ => .ok c
    removed.map fun c => addRepresentation block.representative (newBenefit block) c
  else .ok c

def atStage {α : Type} (stage : Stage) (r : Except LedgerError α) : Except ProcessError α :=
  r.mapError fun error => { stage, error }

def processStateBlock (v : View) (l : Ledger) (block : StateBlock) (c : Ledger) :
    Except ProcessError Ledger := do
  let am := l.getAccountMetaConfirmed block.address
  let tm := l.getTokenMetaConfirmed block.address block.token
  let c ← atStage .stateBlock
    (updateStateBlock env.hashData (env.isGenesisBlock block) v l block c)
  let (block, c) ← atStage .pending (env.updatePending v l block c)
  let c ← atStage .frontier (env.updateFrontier l tm block c)
  let (block, c) ← atStage .contractData (env.updateContractData v l block c)
  let c ← atStage .accountMeta (env.updateAccountMeta l am block c)
  atStage .representative (updateRepresentative am tm block c)

def blockProcess (v : View) (l : Ledger) (block : StateBlock) : Except ProcessError Ledger :=
  env.processStateBlock v l block l

/-! ## The genesis ledger -/

def emptyView : View where
  blockCache := fun _ => none
  accountCache := fun _ => none
  latestPovHeight := none
  hasPovHeader := fun _ => false
  hasSmartContractBlock := fun _ => false
  timeNow := 0

def storeIssue (mb : StateBlock) (l : Ledger) : Ledger :=
  if l.hasStateBlockConfirmed (mb.getHash env.hashData) then l
  else
    ((updateStateBlock env.hashData (env.isGenesisBlock mb) emptyView l mb l).toOption).getD l

/-- Stores the issue block `mb` and processes the first account block `gb`,
each if it is missing. -/
def initToken (mb gb : StateBlock) (l : Ledger) : Ledger :=
  let l := env.storeIssue mb l
  if l.hasStateBlockConfirmed (gb.getHash env.hashData) then l
  else ((env.blockProcess emptyView l gb).toOption).getD l

def genesisStorage (gb : StateBlock) : Bytes × Bytes :=
  (hashBytes mintageAddress ++ hashBytes mintageAddress ++ hashBytes gb.token, gb.data)

def genesisLedger : Ledger :=
  saveStorage [genesisStorage genesisBlock, genesisStorage gasBlock]
    (env.initToken gasMintageBlock gasBlock (env.initToken genesisMintageBlock genesisBlock {}))

end Env
end GoQlc
