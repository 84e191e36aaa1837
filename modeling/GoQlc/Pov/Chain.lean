import GoQlc.Lib.Table
import GoQlc.Lib.Result
import GoQlc.Types.Block

/-!
# The PoV block chain

`InsertBlock` files a block below its parent, and makes it the latest block if its branch has more
work.
-/

namespace GoQlc.Pov

/-- A proof-of-value block: the hash in its header, the hash and the height of its place in
the chain, and the work its target stands for. -/
structure PovBlock where
  hash : Hash
  previous : Hash
  height : ℕ
  work : ℕ
deriving DecidableEq, Repr

/-- The block of `GenesisPovBlock`. -/
structure Genesis where
  block : PovBlock
  height_eq : block.height = 0
  previous_eq : block.previous = 0
  hash_ne : block.hash ≠ 0

inductive ChainState where
  | main
  | side
deriving DecidableEq, Repr

inductive PovError where
  | invalidHash
  | invalidHeight
  | invalidPrevious
  | invalidFork
  | tdNotFound
  -- the walk to the fork point did not end within its bound
  | endless
deriving DecidableEq, Repr

def poVMaxForkHeight : ℕ := 3600 / 60 * 23

/-- The blocks in the ledger: their headers, the height of each hash, and the work of the chain
up to each block. -/
structure Files where
  headers : Table (ℕ × Hash) PovBlock
  heights : Table Hash ℕ
  td : Table (ℕ × Hash) ℕ
deriving DecidableEq

structure Store extends Files where
  bestHash : Table ℕ Hash
  latestHeight : ℕ
deriving DecidableEq

namespace Files

/-- `AddPovBlock`, unless the block is there. Where only the hash is filed already, at another
height, the header has been written when `ErrBlockExists` comes back, and the caller goes on. -/
def addPovBlock (f : Files) (b : PovBlock) (td : ℕ) : Files :=
  if (f.headers.get (b.height, b.hash)).isSome then f
  else
    let headers := f.headers.put (b.height, b.hash) b
    if (f.heights.get b.hash).isSome then { f with headers }
    else
      { headers
        heights := f.heights.put b.hash b.height
        td := f.td.put (b.height, b.hash) td }

def getPovBlockByHash (f : Files) (hash : Hash) : Option PovBlock :=
  (f.heights.get hash).bind fun height => f.headers.get (height, hash)

def getBlockByHash (f : Files) (hash : Hash) : Option PovBlock :=
  if hash = 0 then none else f.getPovBlockByHash hash

/-- `GetPovTD` of the parent. `GetHeight()-1` of height 0 is a height that no block has. -/
def previousTD (f : Files) (b : PovBlock) : Option ℕ :=
  if b.height = 0 then none else f.td.get (b.height - 1, b.previous)

end Files

/-- The store, or a batch over it, with the block that `LatestBlock` returns. -/
structure Chain where
  store : Store
  latest : PovBlock
deriving DecidableEq

def Chain.addPovBlock (c : Chain) (b : PovBlock) (td : ℕ) : Chain :=
  { c with store := { c.store with toFiles := c.store.toFiles.addPovBlock b td } }

def resetWithGenesisBlock (g : Genesis) : Chain where
  store :=
    { headers := Table.put ∅ (g.block.height, g.block.hash) g.block
      heights := Table.put ∅ g.block.hash g.block.height
      td := Table.put ∅ (g.block.height, g.block.hash) g.block.work
      bestHash := Table.put ∅ g.block.height g.block.hash
      latestHeight := g.block.height }
  latest := g.block

def connectBestBlock (c : Chain) (b : PovBlock) : Except PovError Chain :=
  if b.height ≠ c.latest.height + 1 then .error .invalidHeight
  else .ok
    { store :=
        { c.store with
          bestHash := c.store.bestHash.put b.height b.hash
          latestHeight := b.height }
      latest := b }

/-- The parent is read from `db`, the blocks as they were before the batch. -/
def disconnectBestBlock (db : Files) (c : Chain) (b : PovBlock) : Except PovError Chain :=
  if c.latest.hash ≠ b.hash then .error .invalidHash
  else
    match db.getBlockByHash b.previous with
    | none => .error .invalidPrevious
    | some prev => .ok
        { store :=
            { c.store with
              bestHash := c.store.bestHash.delete b.height
              latestHeight := prev.height }
          latest := prev }

/-- The first loops of `processFork`: the `n` blocks from `b` down, and the block below them. -/
def collectBlocks (db : Files) : ℕ → PovBlock → Except PovError (List PovBlock × PovBlock)
  | 0, b => .ok ([], b)
  | n + 1, b =>
    if b.previous = 0 then .ok ([b], b)
    else
      match db.getBlockByHash b.previous with
      | none => .error .invalidPrevious
      | some prev => do
        let (blocks, last) ← collectBlocks db n prev
        return (b :: blocks, last)

/-- The blocks to attach, the blocks to detach and the hash they both stand on. -/
structure ForkPoint where
  attach : List PovBlock
  detach : List PovBlock
  forkHash : Hash
deriving DecidableEq

/-- The loop of `processFork` that goes down both branches until they meet. -/
def findForkPoint (db : Files) : ℕ → PovBlock → PovBlock → Except PovError ForkPoint
  | 0, _, _ => .error .endless
  | fuel + 1, attach, detach =>
    if attach.previous = detach.previous then
      .ok { attach := [attach], detach := [detach], forkHash := attach.previous }
    else
      match db.getBlockByHash attach.previous, db.getBlockByHash detach.previous with
      | some prevAttach, some prevDetach => do
        let point ← findForkPoint db fuel prevAttach prevDetach
        return { point with attach := attach :: point.attach, detach := detach :: point.detach }
      | _, _ => .error .invalidPrevious

def forkBlock (g : Genesis) (db : Files) (forkHash : Hash) : Except PovError PovBlock :=
  if forkHash = 0 then .ok g.block
  else
    match db.getBlockByHash forkHash with
    | none => .error .invalidHash
    | some b => .ok b

def branches (db : Files) (oldHead new : PovBlock) : Except PovError ForkPoint := do
  let (attach, attachBlock) ← collectBlocks db (new.height - oldHead.height) new
  let (detach, detachBlock) ← collectBlocks db (oldHead.height - new.height) oldHead
  if attachBlock.height ≠ detachBlock.height then .error .invalidHeight
  else
    let point ← findForkPoint db (attachBlock.height + 1) attachBlock detachBlock
    return { point with attach := attach ++ point.attach, detach := detach ++ point.detach }

def processFork (g : Genesis) (db : Files) (c : Chain) (new : PovBlock) :
    Except PovError (PovBlock × Chain) := do
  let point ← branches db c.latest new
  let fork ← forkBlock g db point.forkHash
  if poVMaxForkHeight < point.detach.length then .error .invalidFork
  else
    let c ← point.detach.foldlM (disconnectBestBlock db) c
    let c ← point.attach.reverse.foldlM connectBestBlock c
    return (fork, c)

/-- More work wins; of two branches with the same work the lower one wins, and `rand.Float64`
chooses between two of one height. -/
def isBest (coin : Bool) (blockTD bestTD : ℕ) (b current : PovBlock) : Bool :=
  bestTD < blockTD ||
    blockTD == bestTD && (b.height < current.height || b.height == current.height && coin)

/-- One call of `InsertBlock`. The batch starts as a copy of the store and replaces it. -/
def insertBlock (g : Genesis) (coin : Bool) (c : Chain) (b : PovBlock) :
    Except PovError (ChainState × Option PovBlock × Chain) :=
  match c.store.td.get (c.latest.height, c.latest.hash), c.store.previousTD b with
  | some bestTD, some prevTD =>
    let blockTD := prevTD + b.work
    let batch := c.addPovBlock b blockTD
    if isBest coin blockTD bestTD b c.latest then
      if b.previous = c.latest.hash then do
        let c' ← connectBestBlock batch b
        return (.main, none, c')
      else do
        let (fork, c') ← processFork g c.store.toFiles batch b
        return (.main, some fork, c')
    else .ok (.side, none, batch)
  | _, _ => .error .tdNotFound

def insertAll (g : Genesis) (c : Chain) (blocks : List (PovBlock × Bool)) : Except PovError Chain :=
  blocks.foldlM (fun c call => do
    let (_, _, c') ← insertBlock g call.2 c call.1
    return c') c

end GoQlc.Pov
