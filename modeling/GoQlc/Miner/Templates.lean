import GoQlc.Lib.Table
import GoQlc.Types.Block

/-!
# Mining templates

The worker keeps one block template for each miner and algorithm, and forgets them when the height
of the latest header is not that of the request before.
-/

namespace GoQlc.Miner

structure PovHeader where
  hash : Hash
  height : UInt64
deriving DecidableEq, Repr

structure PovMineBlock where
  version : UInt32
  previous : Hash
  height : UInt64
  miner : Address
  workHash : Hash
deriving DecidableEq, Repr

structure PovMinerAlgoBlock where
  curMineBlock : Option PovMineBlock
  lastMineTime : ℕ
deriving DecidableEq, Repr

structure PovWorker where
  mineBlockPool : Table Hash PovMineBlock
  minerAlgoBlocks : Table (Address × UInt32) PovMinerAlgoBlock
  lastMineHeight : UInt64
deriving DecidableEq

/-- A call of `generateBlock`, and the time in nanoseconds. -/
structure WorkRequest where
  minerAddr : Address
  algoType : UInt32
  now : ℕ
deriving DecidableEq, Repr

def newPovWorker : PovWorker := ⟨∅, ∅, 0⟩

section Worker

-- The transactions, the state, the target and the reward of a template give its work hash or an
-- error.
variable (fill : PovHeader → WorkRequest → Option Hash)

def newBlockTemplate (latest : PovHeader) (r : WorkRequest) : Option PovMineBlock :=
  (fill latest r).map fun workHash =>
    { version := 0x20000000 ||| r.algoType
      previous := latest.hash
      height := latest.height + 1
      miner := r.minerAddr
      workHash }

def generateBlock (w : PovWorker) (latest : PovHeader) (r : WorkRequest) :
    Option PovMineBlock × PovWorker :=
  -- reset all pending blocks when the best chain changed
  let w := if w.lastMineHeight ≠ latest.height then ⟨∅, ∅, latest.height⟩ else w
  let cur := (w.minerAlgoBlocks.get (r.minerAddr, r.algoType)).getD ⟨none, 0⟩
  let keep (cur : PovMinerAlgoBlock) := w.minerAlgoBlocks.put (r.minerAddr, r.algoType) cur
  if cur.curMineBlock = none ∨ cur.lastMineTime + 30 * 10 ^ 9 < r.now then
    match newBlockTemplate fill latest r with
    | none => (none, { w with minerAlgoBlocks := keep ⟨none, cur.lastMineTime⟩ })
    | some t =>
      (some t,
        { w with
          minerAlgoBlocks := keep ⟨some t, r.now⟩
          mineBlockPool := w.mineBlockPool.put t.workHash t })
  else (cur.curMineBlock, { w with minerAlgoBlocks := keep cur })

def findBlockInPool (w : PovWorker) (workHash : Hash) : Option PovMineBlock :=
  w.mineBlockPool.get workHash

/-- Every template that the worker keeps, by its work hash or for a miner, extends a header. -/
structure Extends (hash : Hash) (w : PovWorker) : Prop where
  pool : ∀ workHash t, findBlockInPool w workHash = some t → t.previous = hash
  kept : ∀ key cur t, w.minerAlgoBlocks.get key = some cur → cur.curMineBlock = some t →
    t.previous = hash

variable {w : PovWorker} {hash : Hash}

theorem extends_empty (height : UInt64) : Extends hash ⟨∅, ∅, height⟩ :=
  ⟨by simp [findBlockInPool], by simp⟩

theorem Extends.keep (h : Extends hash w) (cur : PovMinerAlgoBlock)
    (hcur : ∀ t, cur.curMineBlock = some t → t.previous = hash) (key : Address × UInt32) :
    Extends hash { w with minerAlgoBlocks := w.minerAlgoBlocks.put key cur } := by
  refine ⟨h.pool, ?_⟩
  intro key' cur' t hget ht
  rw [Table.get_put] at hget
  split_ifs at hget
  · exact hcur t (Option.some.inj hget ▸ ht)
  · exact h.kept key' cur' t hget ht

theorem Extends.add (h : Extends hash w) {t : PovMineBlock} (ht : t.previous = hash) :
    Extends hash { w with mineBlockPool := w.mineBlockPool.put t.workHash t } := by
  refine ⟨?_, h.kept⟩
  intro workHash t' hget
  unfold findBlockInPool at hget
  rw [Table.get_put] at hget
  split_ifs at hget
  · exact Option.some.inj hget ▸ ht
  · exact h.pool workHash t' hget

theorem generateBlock_extends {latest : PovHeader} (r : WorkRequest)
    (hw : w.lastMineHeight = latest.height → Extends latest.hash w) :
    (∀ t, (generateBlock fill w latest r).1 = some t → t.previous = latest.hash) ∧
      Extends latest.hash (generateBlock fill w latest r).2 ∧
      (generateBlock fill w latest r).2.lastMineHeight = latest.height := by
  obtain ⟨w', hw', hextends, hheight⟩ : ∃ w' : PovWorker,
      (if w.lastMineHeight ≠ latest.height then ⟨∅, ∅, latest.height⟩ else w) = w' ∧
        Extends latest.hash w' ∧ w'.lastMineHeight = latest.height := by
    by_cases hne : w.lastMineHeight = latest.height
    · exact ⟨w, if_neg (not_not.mpr hne), hw hne, hne⟩
    · exact ⟨_, if_pos hne, extends_empty _, rfl⟩
  have hcur : ∀ t, ((w'.minerAlgoBlocks.get (r.minerAddr, r.algoType)).getD
      ⟨none, 0⟩).curMineBlock = some t → t.previous = latest.hash := by
    intro t ht
    cases hget : w'.minerAlgoBlocks.get (r.minerAddr, r.algoType) with
    | none => simp [hget] at ht
    | some cur => exact hextends.kept _ cur t hget (by simpa [hget] using ht)
  unfold generateBlock
  rw [hw']
  dsimp only
  split_ifs
  · cases htemplate : newBlockTemplate fill latest r with
    | none => exact ⟨by simp, hextends.keep _ (by simp) _, hheight⟩
    | some t =>
      have ht : t.previous = latest.hash := by
        obtain ⟨workHash, -, rfl⟩ := Option.map_eq_some_iff.mp htemplate
        rfl
      have hadded := (hextends.add ht).keep ⟨some t, r.now⟩ (by simpa using ht)
      exact ⟨by simpa using ht, hadded _, hheight⟩
  · exact ⟨hcur, hextends.keep _ hcur _, hheight⟩

end Worker

/-- The worker and the head of the chain, and the header that the last request saw. -/
structure Node where
  latestHeader : PovHeader
  worker : PovWorker
  asked : Option PovHeader
deriving DecidableEq

inductive Event where
  | head (header : PovHeader)
  | getWork (r : WorkRequest)

section Run

variable (fill : PovHeader → WorkRequest → Option Hash)

def Event.apply (n : Node) : Event → Node
  | .head header => { n with latestHeader := header }
  | .getWork r =>
    { n with worker := (generateBlock fill n.worker n.latestHeader r).2, asked := n.latestHeader }

def Node.Told (n : Node) : Event → Prop
  | .head _ => True
  | .getWork _ => ∀ header ∈ n.asked, header.height = n.latestHeader.height →
      header.hash = n.latestHeader.hash

inductive Reaches (P : Node → Event → Prop) : Node → Prop
  | start (header : PovHeader) : Reaches P ⟨header, newPovWorker, none⟩
  | step {n : Node} {e : Event} (before : Reaches P n) (meets : P n e) : Reaches P (e.apply fill n)

variable {fill} {n : Node}

def Node.Current (n : Node) : Prop :=
  match n.asked with
  | none => ∀ hash, Extends hash n.worker
  | some header => Extends header.hash n.worker ∧ n.worker.lastMineHeight = header.height

theorem Node.Current.of_told (h : n.Current) {r : WorkRequest} (htold : n.Told (.getWork r))
    (hheight : n.worker.lastMineHeight = n.latestHeader.height) :
    Extends n.latestHeader.hash n.worker := by
  unfold Node.Current at h
  cases hasked : n.asked with
  | none =>
    rw [hasked] at h
    exact h _
  | some header =>
    rw [hasked] at h
    have heq := htold header hasked (h.2.symm.trans hheight)
    exact heq ▸ h.1

theorem current_of_reaches (h : Reaches fill Node.Told n) : n.Current := by
  induction h with
  | start header => exact fun _ => extends_empty _
  | @step n e before meets ih =>
    cases e with
    | head header => exact ih
    | getWork r => exact (generateBlock_extends fill r (ih.of_told meets)).2

end Run

def plainFill (latest : PovHeader) (_ : WorkRequest) : Option Hash := some latest.hash

end GoQlc.Miner
