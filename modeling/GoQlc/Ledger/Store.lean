import GoQlc.Lib.Table
import GoQlc.Types.Account

/-!
# The confirmed ledger

The tables of the confirmed store and the operations block processing uses.
-/

namespace GoQlc

structure Ledger where
  blocks : Table Hash StateBlock := ∅
  childs : Table Hash Hash := ∅
  links : Table Hash Hash := ∅
  frontiers : Table Hash Hash := ∅
  pendings : Table PendingKey PendingInfo := ∅
  accounts : Table Address AccountMeta := ∅
  representations : Table Address Benefit := ∅
  accountBlockHash : Table Hash TokenMeta := ∅
  accountPovHeight : Table (Address × UInt64 × Hash) TokenMeta := ∅
  vmStorage : Table Bytes Bytes := ∅
deriving DecidableEq

/-- What a node reads besides the confirmed tables: the caches of unconfirmed
blocks and accounts, the proof-of-value headers, other contract code, the clock. -/
structure View where
  blockCache : Hash → Option StateBlock
  accountCache : Address → Option AccountMeta
  latestPovHeight : Option UInt64
  hasPovHeader : UInt64 → Bool
  hasSmartContractBlock : Hash → Bool
  timeNow : Int64

inductive LedgerError where
  | privateRecvRsp
  | parentNotFound (child parent : Hash)
  | childExists (parent : Hash)
  | accountExists
  | frontierNotFound (header : Hash)
  | representationNotFound (address : Address)
  | previousNotFound (previous : Hash)
  | noVmContext (block : Hash)
  | unsupportedVersion (version : ℕ)
  | sourceNotFound (link : Hash)
  | invalidContract (address : Address)
  | doReceive
  | invalidContractData
deriving DecidableEq, Repr

namespace Ledger

def getStateBlockConfirmed (l : Ledger) (hash : Hash) : Option StateBlock := l.blocks.get hash

def hasStateBlockConfirmed (l : Ledger) (hash : Hash) : Bool := (l.blocks.get hash).isSome

def getStateBlock (l : Ledger) (v : View) (hash : Hash) : Option StateBlock :=
  (v.blockCache hash).or (l.getStateBlockConfirmed hash)

def getAccountMetaConfirmed (l : Ledger) (address : Address) : Option AccountMeta :=
  l.accounts.get address

def getTokenMetaConfirmed (l : Ledger) (address : Address) (token : Hash) : Option TokenMeta :=
  (l.getAccountMetaConfirmed address).bind fun am => am.token token

def getPending (l : Ledger) (key : PendingKey) : Option PendingInfo := l.pendings.get key

/-- Records `block` as the child of its parent; a parent has one child. -/
def setBlockChild (hashData : Bytes → Hash) (isGenesis : Bool) (v : View) (l : Ledger)
    (block : StateBlock) (c : Ledger) : Except LedgerError Ledger :=
  let pHash := block.parent
  let cHash := block.getHash hashData
  if !isGenesis && pHash != 0 && !block.isOpen then
    if (v.blockCache pHash).isNone && !l.hasStateBlockConfirmed pHash then
      .error (.parentNotFound cHash pHash)
    else if (c.childs.get pHash).isSome then
      .error (.childExists pHash)
    else
      .ok { c with childs := c.childs.put pHash cHash }
  else
    .ok c

def setBlockLink (hashData : Bytes → Hash) (block : StateBlock) (c : Ledger) : Ledger :=
  if block.isReceiveBlock then
    { c with links := c.links.put block.link (block.getHash hashData) }
  else
    c

def updateStateBlock (hashData : Bytes → Hash) (isGenesis : Bool) (v : View) (l : Ledger)
    (block : StateBlock) (c : Ledger) : Except LedgerError Ledger :=
  if block.isPrivate && !block.privateRecvRsp then
    .error .privateRecvRsp
  else
    (setBlockChild hashData isGenesis v l block c).map fun c =>
      let c := setBlockLink hashData block c
      { c with blocks := c.blocks.put (block.getHash hashData) block.clone }

def addPending (key : PendingKey) (info : PendingInfo) (c : Ledger) : Ledger :=
  { c with pendings := c.pendings.put key info }

def deletePending (l : Ledger) (key : PendingKey) (c : Ledger) : Ledger :=
  if (l.getPending key).isSome then { c with pendings := c.pendings.delete key } else c

def addFrontier (header openBlock : Hash) (c : Ledger) : Ledger :=
  { c with frontiers := c.frontiers.put header openBlock }

def deleteFrontier (header : Hash) (c : Ledger) : Ledger :=
  { c with frontiers := c.frontiers.delete header }

def addAccountMeta (l : Ledger) (am : AccountMeta) (c : Ledger) : Except LedgerError Ledger :=
  if (l.getAccountMetaConfirmed am.address).isSome then
    .error .accountExists
  else
    .ok { c with accounts := c.accounts.put am.address am }

def updateAccountMeta (am : AccountMeta) (c : Ledger) : Ledger :=
  { c with accounts := c.accounts.put am.address am }

def addAccountMetaHistory (tm : TokenMeta) (hash : Hash) (povHeight : UInt64) (c : Ledger) :
    Ledger :=
  { c with
    accountBlockHash := c.accountBlockHash.put hash tm
    accountPovHeight := c.accountPovHeight.put (tm.belongTo, povHeight, tm.type) tm }

def getRepresentation (c : Ledger) (address : Address) : Option Benefit :=
  c.representations.get address

def addRepresentation (address : Address) (diff : Benefit) (c : Ledger) : Ledger :=
  let value := (c.getRepresentation address).getD Benefit.zero
  { c with
    representations := c.representations.put address (Benefit.zipWith Balance.add value diff) }

def subRepresentation (address : Address) (diff : Benefit) (c : Ledger) :
    Except LedgerError Ledger :=
  match c.getRepresentation address with
  | none => .error (.representationNotFound address)
  | some value => .ok { c with
      representations := c.representations.put address (Benefit.zipWith Balance.sub value diff) }

def saveStorage (entries : List (Bytes × Bytes)) (c : Ledger) : Ledger :=
  { c with vmStorage := entries.foldl (fun t e => t.put e.1 e.2) c.vmStorage }

end Ledger
end GoQlc
