import GoQlc.Pov.Chain

/-!
# One call of `InsertBlock`

The tables are written in a batch that is committed at the end of the call, but the latest block,
the blocks cached by height and the notifications change at once.
-/

namespace GoQlc.Pov

structure TxLookup where
  blockHash : Hash
  blockHeight : ℕ
  txIndex : ℕ
deriving DecidableEq, Repr

/-- The operations of a call that the storage may fail. -/
inductive Op where
  | getBestTD
  | getPreviousTD
  | addPovBlock
  | commitToDB
  | addPovBestHash (b : PovBlock)
  | addPovTxLookup (b : PovBlock)
  | deletePovBestHash (b : PovBlock)
  | deletePovTxLookup (b : PovBlock)
  | setPovLatestHeight (b : PovBlock)
  | commit
  | getPovTxlScanCursor
  | setPovTxlScanCursor (height : ℕ)
  | putTxLookups (height : ℕ)
deriving DecidableEq, Repr

inductive InsertError where
  | pov (error : PovError)
  | storage (op : Op)
deriving DecidableEq, Repr

/-- The tables of the chain, the look-ups and the height up to which they are written. -/
structure Tables where
  store : Store
  lookups : Table Hash TxLookup
  cursor : Option ℕ
deriving DecidableEq

inductive Event where
  -- to the listeners of the chain
  | connectPovBlock (b : PovBlock)
  | disconnectPovBlock (b : PovBlock)
  -- on the event bus
  | connectBestBlock (b : PovBlock)
  | disconnectBestBlock (b : PovBlock)
deriving DecidableEq, Repr

structure Memory where
  latest : PovBlock
  heightBlockCache : Table ℕ PovBlock
  events : List Event
deriving DecidableEq

structure Session where
  batch : Tables
  mem : Memory
deriving DecidableEq

abbrev InsertM := EStateM InsertError Session

namespace Tables

def addPovBlock (t : Tables) (b : PovBlock) (td : ℕ) : Tables :=
  { t with store := { t.store with toFiles := t.store.toFiles.addPovBlock b td } }

def getPovBlockByHeight (t : Tables) (height : ℕ) : Option PovBlock :=
  (t.store.bestHash.get height).bind fun hash => t.store.headers.get (height, hash)

def addTxLookups (t : Tables) (b : PovBlock) (txs : List Hash) : Tables :=
  { t with
    lookups := txs.zipIdx.foldl (fun lookups (tx, i) => lookups.put tx ⟨b.hash, b.height, i⟩)
      t.lookups }

def getPovTxLookup (t : Tables) (tx : Hash) : Option TxLookup :=
  (t.lookups.get tx).filter fun lookup =>
    t.store.bestHash.get lookup.blockHeight == some lookup.blockHash

def hasPovTxLookup (t : Tables) (tx : Hash) : Bool := (t.getPovTxLookup tx).isSome

end Tables

namespace Memory

def storeLatestBlock (m : Memory) (b : PovBlock) : Memory :=
  { m with latest := b, heightBlockCache := m.heightBlockCache.put b.height b }

def announce (m : Memory) (event : Event) : Memory := { m with events := m.events ++ [event] }

end Memory

namespace Session

-- The hashes of the transactions in the body of each block, the coinbase first; and what the
-- storage fails in this call.
variable (txs : PovBlock → List Hash) (fails : Op → Bool)

def throwIf (p : Prop) [Decidable p] (e : InsertError) : InsertM Unit :=
  if p then throw e else pure ()

def dbWrite (op : Op) (write : Tables → Tables) : InsertM Unit := do
  throwIf (fails op) (.storage op)
  modify fun s => { s with batch := write s.batch }

def announce (event : Event) : InsertM Unit :=
  modify fun s => { s with mem := s.mem.announce event }

def liftPov {α : Type} : Except PovError α → InsertM α
  | .ok a => pure a
  | .error e => throw (.pov e)

def getPovTD (op : Op) (td : Option ℕ) : InsertM ℕ := do
  throwIf (fails op) (.storage op)
  liftPov (td.elim (.error .tdNotFound) .ok)

def writeCoinbase (op : Op) (b : PovBlock) (write : Hash → Table Hash TxLookup → Table Hash TxLookup) :
    InsertM Unit :=
  match (txs b).head? with
  | none => pure ()
  | some coinbase => dbWrite fails op fun t => { t with lookups := write coinbase t.lookups }

def connectTransactions (b : PovBlock) : InsertM Unit := do
  writeCoinbase txs fails (.addPovTxLookup b) b fun coinbase lookups =>
    lookups.put coinbase ⟨b.hash, b.height, 0⟩
  announce (.connectPovBlock b)

def disconnectTransactions (b : PovBlock) : InsertM Unit := do
  writeCoinbase txs fails (.deletePovTxLookup b) b fun coinbase lookups => lookups.delete coinbase
  announce (.disconnectPovBlock b)

def setPovLatestHeight (b : PovBlock) : InsertM Unit :=
  dbWrite fails (.setPovLatestHeight b) fun t =>
    { t with store := { t.store with latestHeight := b.height } }

def connectBestBlock (b : PovBlock) : InsertM Unit := do
  let s ← get
  throwIf (b.height ≠ s.mem.latest.height + 1) (.pov .invalidHeight)
  dbWrite fails (.addPovBestHash b) fun t =>
    { t with store := { t.store with bestHash := t.store.bestHash.put b.height b.hash } }
  connectTransactions txs fails b
  setPovLatestHeight fails b
  modify fun s => { s with mem := s.mem.storeLatestBlock b }
  announce (.connectBestBlock b)

/-- The parent is read from `db`, the blocks as they were before the batch. -/
def disconnectBestBlock (db : Files) (b : PovBlock) : InsertM Unit := do
  let s ← get
  throwIf (s.mem.latest.hash ≠ b.hash) (.pov .invalidHash)
  disconnectTransactions txs fails b
  dbWrite fails (.deletePovBestHash b) fun t =>
    { t with store := { t.store with bestHash := t.store.bestHash.delete b.height } }
  let prev ← liftPov ((db.getBlockByHash b.previous).elim (.error .invalidPrevious) .ok)
  setPovLatestHeight fails prev
  modify fun s =>
    { s with
      mem := { s.mem with
        heightBlockCache := s.mem.heightBlockCache.delete b.height }.storeLatestBlock prev }
  announce (.disconnectBestBlock b)

def forkPoint (g : Genesis) (db : Files) (latest new : PovBlock) :
    Except PovError (ForkPoint × PovBlock) := do
  let point ← branches db latest new
  let fork ← forkBlock g db point.forkHash
  if poVMaxForkHeight < point.detach.length then .error .invalidFork
  else return (point, fork)

def processFork (g : Genesis) (db : Files) (new : PovBlock) : InsertM PovBlock := do
  let s ← get
  let (point, fork) ← liftPov (forkPoint g db s.mem.latest new)
  point.detach.forM (disconnectBestBlock txs fails db)
  point.attach.reverse.forM (connectBestBlock txs fails)
  return fork

/-- `AddPovBlock` is not called for a block that is there. -/
def savePovBlock (b : PovBlock) (td : ℕ) : InsertM Unit := do
  let s ← get
  if (s.batch.store.headers.get (b.height, b.hash)).isSome then pure ()
  else dbWrite fails .addPovBlock fun t => t.addPovBlock b td

/-- The end of `insertBlock`: the block is filed, and may be the best one. -/
def growChain (g : Genesis) (coin : Bool) (db : Files) (bestTD blockTD : ℕ) (latest b : PovBlock) :
    InsertM (ChainState × Option PovBlock) := do
  if isBest coin blockTD bestTD b latest then
    if b.previous = latest.hash then
      connectBestBlock txs fails b
      return (.main, none)
    else
      let fork ← processFork txs fails g db b
      return (.main, some fork)
  else return (.side, none)

/-- The state of the chain is committed with the batch; it is not in the tables here. -/
def insertBlock (g : Genesis) (coin : Bool) (db : Files) (b : PovBlock) :
    InsertM (ChainState × Option PovBlock) := do
  let s ← get
  let bestTD ← getPovTD fails .getBestTD
    (s.batch.store.td.get (s.mem.latest.height, s.mem.latest.hash))
  let prevTD ← getPovTD fails .getPreviousTD (s.batch.store.previousTD b)
  let blockTD := prevTD + b.work
  savePovBlock fails b blockTD
  dbWrite fails .commitToDB id
  growChain txs fails g coin db bestTD blockTD s.mem.latest b

end Session

structure Node where
  db : Tables
  mem : Memory
deriving DecidableEq

namespace Node

variable (txs : PovBlock → List Hash) (fails : Op → Bool)

def getBlockByHeight (n : Node) (height : ℕ) : Option PovBlock :=
  (n.mem.heightBlockCache.get height).or (n.db.getPovBlockByHeight height)

def cacheBlock (n : Node) (height : ℕ) (b : PovBlock) : Node :=
  { n with mem := { n.mem with heightBlockCache := n.mem.heightBlockCache.put height b } }

def setPovTxlScanCursor (n : Node) (height : ℕ) : Node :=
  { n with db := { n.db with cursor := some height } }

def addTxLookups (n : Node) (b : PovBlock) : Node :=
  { n with db := n.db.addTxLookups b (txs b) }

/-- The loop of `batchUpdateTxLookupInSync` over the heights from `height` on. The caller drops
the error, and what has been written stays. -/
def updateTxLookups : ℕ → ℕ → Node → Node
  | 0, _, n => n
  | count + 1, height, n =>
    match n.getBlockByHeight height with
    | none => n
    | some b =>
      let n := n.cacheBlock height b
      if fails (.putTxLookups height) then n
      else
        let n := n.addTxLookups txs b
        if fails (.setPovTxlScanCursor height) then n
        else updateTxLookups count (height + 1) (n.setPovTxlScanCursor height)

def batchUpdateTxLookupInSync (fork : Option PovBlock) (n : Node) : Node :=
  match fork with
  | some fork =>
    if fails (.setPovTxlScanCursor fork.height) then n
    else
      updateTxLookups txs fails (n.mem.latest.height - fork.height) (fork.height + 1)
        (n.setPovTxlScanCursor fork.height)
  | none =>
    if fails .getPovTxlScanCursor then n
    else
      let last := n.db.cursor.getD 0
      updateTxLookups txs fails (n.mem.latest.height - last) (last + 1) n

/-- `InsertBlock`. The memory is that of the batch whether or not the batch is committed, and
the look-ups are updated after an error too. -/
def insertBlock (g : Genesis) (coin : Bool) (n : Node) (b : PovBlock) :
    Option InsertError × Node :=
  match Session.insertBlock txs fails g coin n.db.store.toFiles b ⟨n.db, n.mem⟩ with
  | .error e s => (some e, batchUpdateTxLookupInSync txs fails none { db := n.db, mem := s.mem })
  | .ok (_, fork) s =>
    if fails .commit then
      (some (.storage .commit),
        batchUpdateTxLookupInSync txs fails fork { db := n.db, mem := s.mem })
    else (none, batchUpdateTxLookupInSync txs fails fork { db := s.batch, mem := s.mem })

def resetWithGenesisBlock (g : Genesis) : Node where
  db :=
    Tables.addTxLookups ⟨(Pov.resetWithGenesisBlock g).store, ∅, some g.block.height⟩ g.block
      (txs g.block)
  mem := { latest := g.block, heightBlockCache := Table.put ∅ g.block.height g.block, events := [] }

end Node

end GoQlc.Pov
