import GoQlc.Vm.Registry

/-!
# Block validation

The validators `BlockCheck` runs on a block against the confirmed ledger, in the order the source
runs them.
-/

namespace GoQlc

open Config

inductive ProcessResult where
  | progress
  | badWork
  | badSignature
  | old
  | fork
  | gapPrevious
  | gapSource
  | gapSmartContract
  | gapTokenInfo
  | gapPovHeight
  | gapPublish
  | gapDoDSettleState
  | receiveRepeated
  | balanceMismatch
  | unReceivable
  | invalidData
  | other
deriving DecidableEq, Repr

inductive CheckDetail where
  | notHeader (previous header : Hash)
  | openTokenExists
  | balance (previous block : ℕ)
  | weightNotEqual
  | weightNotZero
  | pendingAmount (pending transfer : ℕ)
  | pendingKey (key : PendingKey)
  | tokenMeta
  | noChainContract (address : Address)
  | noVmContext
  | calcAmount
  | contractData (data : Bytes) (token : Hash) (amount : ℕ) (toAddress : Address)
  | noReceiveBlock
  | doReceive (error : ContractError)
  | dataNotEqual (block contract : Bytes)
  | doSend (error : ContractError)
  | doGap (error : ContractError)
  | processSend (error : ContractError)
  | unsupportedVersion (version : ℕ)
  | invalidBlockType (type : BlockType)
  | openPreviousNotZero
  | invalidLink
  | invalidToken (token : Hash)
  | unsupportedBlockType (type : BlockType)
deriving DecidableEq, Repr

structure CheckError where
  result : ProcessResult
  detail : Option CheckDetail := none
deriving DecidableEq, Repr

abbrev CheckM := Except CheckError

def errorP {α : Type} (result : ProcessResult) (detail : Option CheckDetail := none) : CheckM α :=
  .error { result, detail }

namespace Env

variable (env : Env)

/-- The contract a contract block runs: its own for a send, that of the send it
receives for a reward. -/
def descriptorOf (l : Ledger) (block : StateBlock) : CheckM (Option Contract) :=
  match block.type with
  | .contractSend => .ok (env.getChainContract block.link block.getPayload)
  | .contractReward =>
    match l.getStateBlockConfirmed block.link with
    | none => errorP .gapSource
    | some linkBlk => .ok (env.getChainContract linkBlk.link linkBlk.getPayload)
  | _ => .ok none

def needsWork (c : Option Contract) : Bool := (c.map fun c => c.describe.work).getD true

def needsSignature (c : Option Contract) : Bool := (c.map fun c => c.describe.signature).getD true

def checkWorkSign (block : StateBlock) (c : Option Contract) : CheckM Unit :=
  if needsWork c && !block.isValid env.toCrypto then errorP .badWork
  else if needsSignature c && !block.isSigned env.toCrypto then errorP .badSignature
  else .ok ()

def isHiddenContract (block : StateBlock) : Prop :=
  (block.type = .contractSend ∨ block.type = .contractReward) ∧ block.isHidden = true

instance (block : StateBlock) : Decidable (isHiddenContract block) :=
  inferInstanceAs (Decidable (_ ∧ _))

def baseInfo (l : Ledger) (block : StateBlock) : CheckM Unit :=
  if l.hasStateBlockConfirmed (block.getHash env.hashData) then errorP .old
  else if isHiddenContract block then .ok ()
  else env.descriptorOf l block >>= env.checkWorkSign block

/-- The predecessor is confirmed, and is the header of the block's own chain
where that chain exists. -/
def forkPrevious (l : Ledger) (block : StateBlock) : CheckM Unit :=
  match l.getStateBlockConfirmed block.previous with
  | none => errorP .gapPrevious
  | some previous =>
    match l.getTokenMetaConfirmed block.address block.token with
    | none => .ok ()
    | some tm =>
      let hash := previous.getHash env.hashData
      if hash ≠ tm.header then errorP .fork (some (.notHeader hash tm.header)) else .ok ()

def forkOpen (l : Ledger) (block : StateBlock) : CheckM Unit :=
  match l.getTokenMetaConfirmed block.address block.token with
  | none => .ok ()
  | some _ => errorP .fork (some .openTokenExists)

def fork (l : Ledger) (block : StateBlock) : CheckM Unit :=
  match block.type with
  | .send | .receive | .change | .online | .contractSend => env.forkPrevious l block
  | .open_ => forkOpen l block
  | .contractReward => if block.isOpen then forkOpen l block else env.forkPrevious l block
  | t => errorP .other (some (.invalidBlockType t))

def sameWeights (previous block : StateBlock) : Prop :=
  previous.getVote = block.getVote ∧ previous.getNetwork = block.getNetwork ∧
  previous.getStorage = block.getStorage ∧ previous.getOracle = block.getOracle

instance (previous block : StateBlock) : Decidable (sameWeights previous block) :=
  inferInstanceAs (Decidable (_ ∧ _))

def balance (l : Ledger) (block : StateBlock) : CheckM Unit :=
  match block.type with
  | .send =>
    match l.getStateBlockConfirmed block.previous with
    | none => errorP .gapPrevious
    | some previous =>
      if ¬ block.balance < previous.balance then
        errorP .balanceMismatch (some (.balance previous.balance block.balance))
      else if ¬ sameWeights previous block then
        errorP .balanceMismatch (some .weightNotEqual)
      else .ok ()
  | .contractSend =>
    match l.getStateBlockConfirmed block.previous with
    | none => errorP .gapPrevious
    | some previous =>
      if previous.totalBalance < block.totalBalance then
        errorP .balanceMismatch (some (.balance previous.totalBalance block.totalBalance))
      else .ok ()
  | .change | .online =>
    match l.getStateBlockConfirmed block.previous with
    | none => errorP .gapPrevious
    | some previous =>
      if block.balance ≠ previous.balance then
        errorP .balanceMismatch (some (.balance previous.balance block.balance))
      else if ¬ sameWeights previous block then
        errorP .balanceMismatch (some .weightNotEqual)
      else .ok ()
  | t => errorP .other (some (.invalidBlockType t))

def pendingKeyOf (block : StateBlock) : PendingKey := { address := block.address, hash := block.link }

def checkContractPending (l : Ledger) (block : StateBlock) : CheckM Unit :=
  match l.getStateBlockConfirmed block.link with
  | none => errorP .gapSource
  | some input =>
    if input.isHidden then .ok ()
    else
      match env.getChainContract input.link input.getPayload with
      | none => errorP .other (some (.noChainContract input.link))
      | some c =>
        if c.describe.pending && (l.getPending (pendingKeyOf block)).isNone then
          errorP .unReceivable (some (.pendingKey (pendingKeyOf block)))
        else .ok ()

def pendingReceive (l : Ledger) (block : StateBlock) : CheckM Unit :=
  match l.getStateBlockConfirmed block.previous with
  | none => errorP .gapPrevious
  | some previous =>
    match l.getPending (pendingKeyOf block) with
    | none => errorP .unReceivable (some (.pendingKey (pendingKeyOf block)))
    | some pending =>
      match l.getTokenMetaConfirmed block.address block.token with
      | none => errorP .other (some .tokenMeta)
      | some tm =>
        let transferAmount := Balance.sub block.balance tm.balance
        if pending.amount ≠ transferAmount ∨ pending.type ≠ block.token then
          errorP .balanceMismatch (some (.pendingAmount pending.amount transferAmount))
        else if ¬ sameWeights previous block then
          errorP .balanceMismatch (some .weightNotEqual)
        else .ok ()

def pendingOpen (l : Ledger) (block : StateBlock) : CheckM Unit :=
  match l.getPending (pendingKeyOf block) with
  | none => errorP .unReceivable (some (.pendingKey (pendingKeyOf block)))
  | some pending =>
    if pending.amount ≠ block.balance ∨ pending.type ≠ block.token then
      errorP .balanceMismatch (some (.pendingAmount pending.amount block.balance))
    else if block.getVote ≠ 0 ∨ block.getNetwork ≠ 0 ∨ block.getStorage ≠ 0 ∨
        block.getOracle ≠ 0 then
      errorP .balanceMismatch (some .weightNotZero)
    else .ok ()

def pending (l : Ledger) (block : StateBlock) : CheckM Unit :=
  match block.type with
  | .receive => pendingReceive l block
  | .open_ => pendingOpen l block
  | .contractReward => env.checkContractPending l block
  | t => errorP .other (some (.invalidBlockType t))

def source (l : Ledger) (block : StateBlock) : CheckM Unit :=
  match block.type with
  | .receive | .open_ =>
    if !l.hasStateBlockConfirmed block.link then errorP .gapSource else .ok ()
  | .contractReward => .ok ()
  | t => errorP .other (some (.invalidBlockType t))

def checkSendData (v : View) (l : Ledger) (block : StateBlock) (c : Contract) : CheckM Unit :=
  let clone := block.clone
  match VmContext.newVMContextWithBlock v l block with
  | none => errorP .other (some .noVmContext)
  | some vmCtx =>
    match c.describe.specVer with
    | 1 =>
      match c.doSend vmCtx clone with
      | .error e => errorP .other (some (.doSend e))
      | .ok data =>
        if env.equalFold block.data data then .ok ()
        else errorP .invalidData (some (.dataNotEqual block.data data))
    | 2 =>
      match c.doGap vmCtx clone with
      | .error e => errorP .other (some (.doGap e))
      | .ok .rewardGapPov => errorP .gapPovHeight
      | .ok .dpkiGapPublish => errorP .gapPublish
      | .ok .doDOrderState => errorP .gapDoDSettleState
      | .ok .noGap =>
        let outcome := c.processSend vmCtx clone
        match outcome.result with
        | .error e => errorP .other (some (.processSend e))
        | .ok _ =>
          if env.equalFold block.data outcome.data then .ok ()
          else errorP .invalidData (some (.dataNotEqual block.data outcome.data))
    | version => errorP .other (some (.unsupportedVersion version))

def checkContractSendBlock (v : View) (l : Ledger) (block : StateBlock) : CheckM Unit :=
  if !env.isChainContract block.link && !v.hasSmartContractBlock block.link then
    errorP .gapSmartContract
  else if block.isHidden then .ok ()
  else
    match env.getChainContract block.link block.getPayload with
    | none => errorP .other (some (.noChainContract block.link))
    | some c => env.checkSendData v l block c

def doReceiveError (input : StateBlock) (e : ContractError) : CheckError :=
  if input.link = mintageAddress ∧ e = .storageNotFound then { result := .gapTokenInfo }
  else { result := .other, detail := some (.doReceive e) }

/-- A reward is compared with the first block its contract generates: data,
token, amount and receiver, and nothing else of it. -/
def checkContractReward (v : View) (l : Ledger) (block : StateBlock) : CheckM Unit :=
  match l.getStateBlockConfirmed block.link with
  | none => errorP .gapSource
  | some input =>
    if input.isHidden then .ok ()
    else
      match env.getChainContract input.link input.getPayload with
      | none => errorP .other (some (.noChainContract input.link))
      | some c =>
        match VmContext.newVMContextWithBlock v l block with
        | none => errorP .other (some .noVmContext)
        | some vmCtx =>
          match c.doReceive vmCtx block.clone input with
          | .error e => .error (doReceiveError input e)
          | .ok [] => errorP .other (some .noReceiveBlock)
          | .ok (g :: _) =>
            match l.calculateAmount env.toCrypto v block with
            | none => errorP .other (some .calcAmount)
            | some amount =>
              if env.equalFold g.block.data block.data ∧ g.token = block.token ∧
                  g.amount = amount ∧ g.toAddress = block.address then .ok ()
              else
                errorP .invalidData
                  (some (.contractData g.block.data g.token g.amount g.toAddress))

def contract (v : View) (l : Ledger) (block : StateBlock) : CheckM Unit :=
  if block.isHidden then .ok ()
  else
    match block.type with
    | .contractSend => env.checkContractSendBlock v l block
    | .contractReward => env.checkContractReward v l block
    | t => errorP .other (some (.invalidBlockType t))

def sendBlockCheck (l : Ledger) (block : StateBlock) : CheckM Unit := do
  env.baseInfo l block
  env.fork l block
  balance l block

def contractSendBlockCheck (v : View) (l : Ledger) (block : StateBlock) : CheckM Unit :=
  if env.isGenesisBlock block then .ok ()
  else do
    env.baseInfo l block
    env.fork l block
    balance l block
    env.contract v l block

def receiveBlockCheck (l : Ledger) (block : StateBlock) : CheckM Unit := do
  env.baseInfo l block
  env.fork l block
  source l block
  env.pending l block

def contractReceiveBlockCheck (v : View) (l : Ledger) (block : StateBlock) : CheckM Unit :=
  if env.isGenesisBlock block then .ok ()
  else do
    env.baseInfo l block
    env.fork l block
    env.pending l block
    source l block
    env.contract v l block

def openBlockCheck (l : Ledger) (block : StateBlock) : CheckM Unit :=
  if block.previous ≠ 0 then errorP .other (some .openPreviousNotZero)
  else do
    env.baseInfo l block
    source l block
    env.fork l block
    env.pending l block

def changeBlockCheck (l : Ledger) (block : StateBlock) : CheckM Unit :=
  if block.link ≠ 0 then errorP .other (some .invalidLink)
  else if block.token ≠ chainToken then errorP .other (some (.invalidToken block.token))
  else do
    env.baseInfo l block
    env.fork l block
    balance l block

def onlineBlockCheck (l : Ledger) (block : StateBlock) : CheckM Unit := env.changeBlockCheck l block

def checkByType (v : View) (l : Ledger) (block : StateBlock) : CheckM Unit :=
  match block.type with
  | .open_ => env.openBlockCheck l block
  | .send => env.sendBlockCheck l block
  | .receive => env.receiveBlockCheck l block
  | .change => env.changeBlockCheck l block
  | .online => env.onlineBlockCheck l block
  | .contractSend => env.contractSendBlockCheck v l block
  | .contractReward => env.contractReceiveBlockCheck v l block
  | t => errorP .other (some (.unsupportedBlockType t))

def blockCheck (v : View) (l : Ledger) (block : StateBlock) : CheckM Unit :=
  match env.checkByType v l block with
  | .ok () => .ok ()
  | .error e =>
    if e.result = .unReceivable ∧ env.isVerifiedData (block.getHash env.hashData) then .ok ()
    else .error e

end Env
end GoQlc
