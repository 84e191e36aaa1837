import GoQlc.Lib.Walk
import GoQlc.Process.Processor

/-!
# Rollback

`Rollback` removes a confirmed block with everything that rests on it.
-/

namespace GoQlc

open Config

inductive RollbackError where
  | blockNotFound (hash : Hash)
  | accountNotFound (address : Address)
  | tokenNotFound (address : Address) (token : Hash)
  | linkNotFound (hash : Hash)
  | cannotCompare (a b : Hash)
  | notInChain
  | nilPointer
  | frontierNotFound (hash : Hash)
  | noVmContext (hash : Hash)
  | processSend
  | unsupportedVersion (version : ℕ)
  | storageNotFound
  | invalidContractData
  | ledger (error : LedgerError)
  | endless
deriving DecidableEq, Repr

structure MapOrder where
  arrange : List StateBlock → List StateBlock
  perm : ∀ blocks, (arrange blocks).Perm blocks

/-- What a call depends on besides the confirmed tables: the rest of the node, the
contract data under each trie root, the order of the map and the room in the queue. -/
structure RollbackView extends View where
  trie : Hash → List (Bytes × Bytes)
  order : MapOrder
  capacity : ℕ
  roomy : 0 < capacity := by decide

/-- The blocks still to look at and the oldest block of each chain found so far;
`refused` notes that the queue has dropped a block, which the source does not notice. -/
structure Related where
  queue : List Hash
  rollbackMap : Table Hash StateBlock
  refused : Bool
deriving DecidableEq

namespace Related

def put (capacity : ℕ) (hash : Hash) (w : Related) : Related :=
  if w.queue.length < capacity then { w with queue := w.queue ++ [hash] }
  else { w with refused := true }

end Related

namespace Env

variable (env : Env)

/-! ## The blocks to remove -/

def chainKey (block : StateBlock) : Hash :=
  env.hashData (hashBytes block.address ++ hashBytes block.token)

def compareFrom (l : Ledger) (aBlock bBlock : StateBlock) :
    ℕ → Hash → Except RollbackError Bool
  | 0, _ => .error .endless
  | fuel + 1, curHash =>
    match l.getStateBlockConfirmed curHash with
    | none => .error (.blockNotFound curHash)
    | some curBlock =>
      if curBlock.getHash env.hashData = aBlock.getHash env.hashData then .ok false
      else if curBlock.getHash env.hashData = bBlock.getHash env.hashData then .ok true
      else if curBlock.previous = 0 then .error .notInChain
      else compareFrom l aBlock bBlock fuel curBlock.previous

/-- Whether `aBlock` comes before `bBlock` in their chain. -/
def blockOrderCompare (fuel : ℕ) (l : Ledger) (aBlock bBlock : StateBlock) :
    Except RollbackError Bool :=
  if aBlock.address ≠ bBlock.address ∨ aBlock.token ≠ bBlock.token then
    .error (.cannotCompare (aBlock.getHash env.hashData) (bBlock.getHash env.hashData))
  else
    match l.getTokenMetaConfirmed aBlock.address aBlock.token with
    | none => .error .nilPointer
    | some tm => env.compareFrom l aBlock bBlock fuel tm.header

def recordOldest (fuel : ℕ) (l : Ledger) (oldestBlock : StateBlock)
    (rollbackMap : Table Hash StateBlock) : Except RollbackError (Table Hash StateBlock) :=
  match rollbackMap.get (env.chainKey oldestBlock) with
  | some rBlock =>
    (env.blockOrderCompare fuel l oldestBlock rBlock).map fun earlier =>
      if earlier then rollbackMap.put (env.chainKey oldestBlock) oldestBlock else rollbackMap
  | none => .ok (rollbackMap.put (env.chainKey oldestBlock) oldestBlock)

/-- Queues the receiver of a send. `GetBlockLink` reports a send that nobody has
received with an error of its own, not with the one that is let through here. -/
def relateLink (capacity fuel : ℕ) (l : Ledger) (curBlock : StateBlock) (w : Related) :
    Except RollbackError Related :=
  if curBlock.isSendBlock then
    match l.links.get (curBlock.getHash env.hashData) with
    | none => .error (.linkNotFound (curBlock.getHash env.hashData))
    | some linkHash =>
      if linkHash = 0 then .ok w
      else
        match l.getStateBlockConfirmed linkHash with
        | none => .error (.blockNotFound linkHash)
        | some linkBlock =>
          match w.rollbackMap.get (env.chainKey linkBlock) with
          | some rBlock =>
            (env.blockOrderCompare fuel l linkBlock rBlock).map fun earlier =>
              if earlier then w.put capacity (linkBlock.getHash env.hashData) else w
          | none => .ok (w.put capacity (linkBlock.getHash env.hashData))
  else .ok w

/-- Walks the blocks of a chain from the header down to `oldest`. -/
def walkDown {S : Type} (fuel : ℕ) (l : Ledger) (oldest : Hash)
    (step : StateBlock → S → Except RollbackError S) (header : Hash) (s : S) :
    Except RollbackError S :=
  Walk.foldWalk l.getStateBlockConfirmed StateBlock.previous
    (fun _ curBlock => curBlock.getHash env.hashData == oldest) .blockNotFound .endless step fuel
    header s

def relateBlock (capacity fuel : ℕ) (l : Ledger) (oldestHash : Hash) (w : Related) :
    Except RollbackError Related :=
  match l.getStateBlockConfirmed oldestHash with
  | none => .error (.blockNotFound oldestHash)
  | some oldestBlock => do
    let rollbackMap ← env.recordOldest fuel l oldestBlock w.rollbackMap
    match l.getTokenMetaConfirmed oldestBlock.address oldestBlock.token with
    | none => .error (.tokenNotFound oldestBlock.address oldestBlock.token)
    | some tm =>
      env.walkDown fuel l oldestHash (env.relateLink capacity fuel l) tm.header
        { w with rollbackMap := rollbackMap }

def relateAll (capacity fuel : ℕ) (l : Ledger) : ℕ → Related → Except RollbackError Related
  | 0, _ => .error .endless
  | n + 1, w =>
    match w.queue with
    | [] => .ok w
    | oldestHash :: queue => do
      let w ← env.relateBlock capacity fuel l oldestHash { w with queue := queue }
      relateAll capacity fuel l n w

/-- The oldest block to remove of each chain that the removal of `hash` reaches. -/
def relatedBlocks (capacity fuel : ℕ) (l : Ledger) (hash : Hash) : Except RollbackError Related :=
  env.relateAll capacity fuel l fuel
    (Related.put capacity hash { queue := [], rollbackMap := ∅, refused := false })

/-! ## Undoing one block -/

def blankBlock : StateBlock where
  type := .state
  token := 0
  address := 0
  balance := 0
  previous := 0
  link := 0
  representative := 0

/-- Moves a token meta back to `pre`. -/
def previousTokenMeta (pre : StateBlock) (tm : TokenMeta) : TokenMeta :=
  { tm with
    balance := pre.balance, header := pre.getHash env.hashData
    representative := pre.representative, blockCount := tm.blockCount - 1 }

def rollBackToken (token : TokenMeta) (pre : StateBlock) (c : Ledger) :
    Except RollbackError Ledger :=
  match c.getAccountMetaConfirmed token.belongTo with
  | none => .error (.accountNotFound token.belongTo)
  | some ac =>
    match (setCoins pre ac).token pre.token with
    | none => .error (.tokenNotFound ac.address pre.token)
    | some _ =>
      .ok (Ledger.updateAccountMeta
        { setCoins pre ac with
          tokens := AccountMeta.updateToken (env.previousTokenMeta pre) pre.token ac.tokens } c)

def deleteTokenMetaConfirmed (l : Ledger) (address : Address) (tokenType : Hash) (c : Ledger) :
    Except RollbackError Ledger :=
  match l.getAccountMetaConfirmed address with
  | none => .error (.accountNotFound address)
  | some am =>
    .ok (Ledger.updateAccountMeta
      { am with tokens := am.tokens.eraseP fun tm => tm.type == tokenType } c)

def rollBackTokenDel (l : Ledger) (tm : TokenMeta) (c : Ledger) : Except RollbackError Ledger := do
  let c ← deleteTokenMetaConfirmed l tm.belongTo tm.type c
  match c.getAccountMetaConfirmed tm.belongTo with
  | none => .error (.accountNotFound tm.belongTo)
  | some ac =>
    if ac.tokens.length = 0 then .ok { c with accounts := c.accounts.delete tm.belongTo }
    else .ok c

def rollBackFrontier (pre cur : Hash) (c : Ledger) : Except RollbackError Ledger :=
  match c.frontiers.get cur with
  | none => .error (.frontierNotFound cur)
  | some openBlock =>
    let c := Ledger.deleteFrontier cur c
    if pre ≠ 0 then .ok (Ledger.addFrontier pre openBlock c) else .ok c

/-- Takes back what a block gave to its representative; an opening block has no `blockPre`. -/
def rollBackRep (representative : Address) (blockCur : StateBlock) (blockPre : Option StateBlock)
    (isSend : Bool) (token : Hash) (c : Ledger) : Except RollbackError Ledger :=
  if token = chainToken then
    match blockPre, isSend with
    | some pre, true =>
      .ok (Ledger.addRepresentation representative
        (Benefit.zipWith Balance.sub (newBenefit pre) (newBenefit blockCur)) c)
    | some pre, false =>
      (Ledger.subRepresentation representative
        (Benefit.zipWith Balance.sub (newBenefit blockCur) (newBenefit pre)) c).mapError .ledger
    | none, false =>
      (Ledger.subRepresentation representative (newBenefit blockCur) c).mapError .ledger
    | none, true => .error .nilPointer
  else .ok c

def rollBackRepChange (preRepresentation curRepresentation : Address) (blockCur : StateBlock)
    (c : Ledger) : Except RollbackError Ledger :=
  (Ledger.subRepresentation curRepresentation (newBenefit blockCur)
    (Ledger.addRepresentation preRepresentation (newBenefit blockCur) c)).mapError .ledger

/-- Files the pending of a contract call again. Only for a version-2 contract is a
failure an error. -/
def rollBackContractPendingAdd (v : View) (l : Ledger) (blockLink : StateBlock) (c : Ledger) :
    Except RollbackError Ledger :=
  match env.getChainContract blockLink.link blockLink.getPayload with
  | none => .ok c
  | some contract =>
    match contract.describe.specVer with
    | 1 => .ok (addContractPending (contract.doPending blockLink) c)
    | 2 =>
      match VmContext.newVMContextWithBlock v l blockLink with
      | none => .error (.noVmContext (blockLink.getHash env.hashData))
      | some vmCtx =>
        match (contract.processSend vmCtx blockLink).result with
        | .ok (some (pendingKey, pendingInfo), _) => .ok (Ledger.addPending pendingKey pendingInfo c)
        | _ => .error .processSend
    | version => .error (.unsupportedVersion version)

def rollBackPendingAdd (v : View) (l : Ledger) (blockCur : StateBlock) (amount : ℕ) (token : Hash)
    (c : Ledger) : Except RollbackError Ledger :=
  match l.getStateBlockConfirmed blockCur.link with
  | none => .error (.blockNotFound blockCur.link)
  | some blockLink =>
    if blockLink.isHidden then .ok c
    else if blockCur.type = .contractReward then
      env.rollBackContractPendingAdd v l blockLink c
    else
      .ok (Ledger.addPending
        { address := blockCur.address, hash := blockLink.getHash env.hashData }
        { source := blockLink.address, amount := amount, type := token } c)

def rollBackContractPendingDel (v : View) (l : Ledger) (blockCur : StateBlock) (c : Ledger) :
    Except RollbackError Ledger :=
  match env.getChainContract blockCur.link blockCur.getPayload with
  | none => .ok c
  | some contract =>
    match contract.describe.specVer with
    | 1 =>
      match contract.doPending blockCur with
      | .ok (some (pendingKey, _)) => .ok (l.deletePending pendingKey c)
      | _ => .ok c
    | 2 =>
      match VmContext.newVMContextWithBlock v l blockCur with
      | none => .error (.noVmContext (blockCur.getHash env.hashData))
      | some vmCtx =>
        match (contract.processSend vmCtx blockCur).result with
        | .ok (some (pendingKey, _), _) => .ok (l.deletePending pendingKey c)
        | _ => .ok c
    | version => .error (.unsupportedVersion version)

def rollBackPendingDel (v : View) (l : Ledger) (blockCur : StateBlock) (c : Ledger) :
    Except RollbackError Ledger :=
  if blockCur.isHidden then .ok c
  else if blockCur.type = .contractSend then env.rollBackContractPendingDel v l blockCur c
  else .ok (l.deletePending (env.sendPendingKey blockCur) c)

def removeStorage : List (Bytes × Bytes) → Ledger → Except RollbackError Ledger
  | [], c => .ok c
  | (key, value) :: entries, c =>
    match c.vmStorage.get key with
    | none => .error .storageNotFound
    | some contractData =>
      if contractData ≠ value then .error .invalidContractData
      else removeStorage entries { c with vmStorage := c.vmStorage.delete key }

/-- Goes back from `preHash` to the latest block with the type and link of `block`
and saves what its trie holds. -/
def restoreStorage (v : RollbackView) (l : Ledger) (block : StateBlock) :
    ℕ → Hash → Ledger → Except RollbackError Ledger
  | 0, _, _ => .error .endless
  | fuel + 1, preHash, c =>
    if preHash = 0 then .ok c
    else
      match l.getStateBlockConfirmed preHash with
      | none => .error (.blockNotFound preHash)
      | some preBlock =>
        if preBlock.type = block.type ∧ preBlock.link = block.link then
          .ok (Ledger.saveStorage (v.trie preBlock.extra) c)
        else restoreStorage v l block fuel preBlock.previous c

def rollBackContractData (fuel : ℕ) (v : RollbackView) (l : Ledger) (block : StateBlock)
    (c : Ledger) : Except RollbackError Ledger :=
  if block.extra = 0 then .ok c
  else do
    let c ← removeStorage (v.trie block.extra) c
    if isRewardContractAddress block.link then
      restoreStorage v l block fuel block.previous c
    else .ok c

def deleteStateBlock (l : Ledger) (key : Hash) (c : Ledger) : Except RollbackError Ledger :=
  match l.getStateBlockConfirmed key with
  | none => .error (.blockNotFound key)
  | some blk =>
    .ok { c with
      blocks := c.blocks.delete key
      childs := if blk.parent = 0 then c.childs else c.childs.delete blk.parent
      links := c.links.delete blk.link }

/-- Takes back everything a block did to its account and to the other tables. The token
meta `tm` of its chain is that of the committed ledger; `isSent` says which sends go too. -/
def rollBackBlock (fuel : ℕ) (v : RollbackView) (l : Ledger) (isSent : Hash → Bool)
    (tm : TokenMeta) (blockCur blockPre : StateBlock) (c : Ledger) :
    Except RollbackError Ledger :=
  let hash := blockCur.getHash env.hashData
  let preHash := blockPre.getHash env.hashData
  match blockCur.type with
  | .open_ => do
    let c ← rollBackTokenDel l tm c
    let c ← rollBackRep blockCur.representative blockCur none false blockCur.token c
    let c ← rollBackFrontier 0 hash c
    if isSent blockCur.link then .ok c
    else env.rollBackPendingAdd v.toView l blockCur tm.balance blockCur.token c
  | .send => do
    let c ← env.rollBackToken tm blockPre c
    let c ← rollBackFrontier preHash hash c
    let c ← rollBackRep blockCur.representative blockCur (some blockPre) true blockCur.token c
    env.rollBackPendingDel v.toView l blockCur c
  | .receive => do
    let c ← env.rollBackToken tm blockPre c
    let c ← rollBackFrontier preHash hash c
    let c ← rollBackRep blockCur.representative blockCur (some blockPre) false blockCur.token c
    if isSent blockCur.link then .ok c
    else
      env.rollBackPendingAdd v.toView l blockCur (Balance.sub blockCur.balance blockPre.balance)
        blockCur.token c
  | .change | .online => do
    let c ← env.rollBackToken tm blockPre c
    let c ← rollBackFrontier preHash hash c
    rollBackRepChange blockPre.representative blockCur.representative blockCur c
  | .contractReward => do
    let c ← (if blockCur.previous = 0
      then rollBackTokenDel l tm c >>= rollBackFrontier 0 hash
      else env.rollBackToken tm blockPre c >>= rollBackFrontier preHash hash)
    let c ← (if isSent blockCur.link then .ok c
      else env.rollBackPendingAdd v.toView l blockCur 0 0 c)
    rollBackContractData fuel v l blockCur c
  | .contractSend => do
    let c ← env.rollBackToken tm blockPre c
    let c ← rollBackFrontier preHash hash c
    let c ← env.rollBackPendingDel v.toView l blockCur c
    rollBackContractData fuel v l blockCur c
  | _ => .ok c

def undoBlock (fuel : ℕ) (v : RollbackView) (l : Ledger) (isSent : Hash → Bool)
    (tm : TokenMeta) (blockCur : StateBlock) (c : Ledger) : Except RollbackError Ledger := do
  let blockPre ← (if blockCur.isOpen then .ok blankBlock
    else
      match l.getStateBlockConfirmed blockCur.previous with
      | none => .error (.blockNotFound blockCur.previous)
      | some blockPre => .ok blockPre)
  let c ← env.rollBackBlock fuel v l isSent tm blockCur blockPre c
  deleteStateBlock l (blockCur.getHash env.hashData) c

/-! ## Undoing all chains -/

def sendBlocksInRollback (fuel : ℕ) (l : Ledger) :
    List StateBlock → Except RollbackError (List Hash)
  | [] => .ok []
  | oldestBlock :: blocks =>
    match l.getTokenMetaConfirmed oldestBlock.address oldestBlock.token with
    | none => .error (.tokenNotFound oldestBlock.address oldestBlock.token)
    | some tm => do
      let sends ← env.walkDown fuel l (oldestBlock.getHash env.hashData)
        (fun curBlock sends => .ok (if curBlock.isSendBlock
          then curBlock.getHash env.hashData :: sends else sends)) tm.header []
      let rest ← sendBlocksInRollback fuel l blocks
      return sends ++ rest

def undoChain (fuel : ℕ) (v : RollbackView) (l : Ledger) (isSent : Hash → Bool)
    (oldestBlock : StateBlock) (c : Ledger) : Except RollbackError Ledger :=
  match l.getTokenMetaConfirmed oldestBlock.address oldestBlock.token with
  | none => .error (.tokenNotFound oldestBlock.address oldestBlock.token)
  | some tm =>
    env.walkDown fuel l (oldestBlock.getHash env.hashData) (env.undoBlock fuel v l isSent tm)
      tm.header c

def rollbackBlocks (fuel : ℕ) (v : RollbackView) (l : Ledger) (blocks : List StateBlock) :
    Except RollbackError Ledger := do
  let sends ← env.sendBlocksInRollback fuel l blocks
  blocks.foldlM (fun c oldestBlock => env.undoChain fuel v l sends.contains oldestBlock c) l

/-- The removal of `hash`. An unconfirmed block is removed from the tables of unconfirmed
blocks only, also if it is confirmed as well. -/
def rollback (fuel : ℕ) (v : RollbackView) (l : Ledger) (hash : Hash) :
    Except RollbackError Ledger :=
  if (v.blockCache hash).isSome then .ok l
  else if !l.hasStateBlockConfirmed hash then .ok l
  else do
    let related ← env.relatedBlocks v.capacity fuel l hash
    env.rollbackBlocks fuel v l
      (v.order.arrange related.rollbackMap.values)

end Env
end GoQlc
