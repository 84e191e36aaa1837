import GoQlc.Lib.Table
import GoQlc.Types.Block

/-!
# The delivery of blocks in a sync session

Blocks of a sync peer are kept by their height until the timer hands them on.
-/

namespace GoQlc.Pov.Sync

open List Option

/-- Of a block the syncer reads the height and the hashes of its transactions. -/
structure PovBlock where
  height : ℕ
  txs : List Hash
deriving DecidableEq, Repr

structure PovSyncBlock where
  block : PovBlock
  checkTxIndex : ℕ
deriving DecidableEq, Repr

structure PovSyncer where
  inSyncing : Bool
  waitLocatorRsp : Bool
  syncToHeight : ℕ
  syncCurHeight : ℕ
  syncRcvHeight : ℕ
  syncBlocks : Table ℕ PovSyncBlock
  published : List PovBlock

def syncWithPeer (currentHeight : ℕ) : PovSyncer :=
  { inSyncing := true, waitLocatorRsp := true, syncToHeight := currentHeight
    syncCurHeight := 0, syncRcvHeight := 0, syncBlocks := ∅, published := [] }

def addSyncBlock (ss : PovSyncer) (block : PovBlock) : PovSyncer :=
  let syncBlk : PovSyncBlock := ⟨block, 0⟩
  if !ss.inSyncing then ss
  else if ss.waitLocatorRsp then
    { ss with
      waitLocatorRsp := false
      syncCurHeight := block.height
      syncRcvHeight := block.height
      syncBlocks := ss.syncBlocks.put block.height syncBlk }
  -- no need to process blocks of a lower height
  else if block.height < ss.syncCurHeight then ss
  else
    { ss with
      syncRcvHeight :=
        if block.height = ss.syncRcvHeight + 1 then block.height else ss.syncRcvHeight
      syncBlocks := ss.syncBlocks.put block.height syncBlk }

/-- The first transaction from an index on that is not confirmed; the coinbase is not looked at. -/
def pendTx (confirmed : Hash → Bool) (syncBlk : PovSyncBlock) : Option ℕ :=
  (List.range' syncBlk.checkTxIndex (syncBlk.block.txs.length - syncBlk.checkTxIndex)).find?
    fun i => i ≠ 0 ∧ !(syncBlk.block.txs[i]?.elim false confirmed)

/-- The rounds of the timer: the height of a round is the current height of the syncer. -/
def checkSyncBlocks (confirmed : Hash → Bool) : ℕ → PovSyncer → PovSyncer
  | 0, ss => ss
  | rounds + 1, ss =>
    match ss.syncBlocks.get ss.syncCurHeight with
    | none => ss
    | some syncBlk =>
      match pendTx confirmed syncBlk with
      | some i =>
        { ss with syncBlocks := ss.syncBlocks.put ss.syncCurHeight ⟨syncBlk.block, i⟩ }
      | none =>
        checkSyncBlocks confirmed rounds
          { ss with
            published := ss.published ++ [syncBlk.block]
            syncCurHeight := ss.syncCurHeight + 1
            syncBlocks := ss.syncBlocks.delete ss.syncCurHeight }

def onCheckSyncBlockTimer (confirmed : Hash → Bool) (ss : PovSyncer) : PovSyncer :=
  if ss.inSyncing then
    checkSyncBlocks confirmed (ss.syncRcvHeight + 1 - ss.syncCurHeight) ss
  else ss

def onCheckChainTimer (latestHeight : ℕ) (ss : PovSyncer) : PovSyncer :=
  if ss.inSyncing ∧ ss.syncToHeight ≤ ss.syncCurHeight ∧ ss.syncToHeight ≤ latestHeight then
    { ss with inSyncing := false }
  else ss

/-- What happens in a session: a response of the peer, and the two timers that change its state. -/
inductive Event where
  | bulkPullRsp (blocks : List PovBlock)
  | checkSyncBlock (confirmed : Hash → Bool)
  | checkChain (latestHeight : ℕ)

def Event.apply (ss : PovSyncer) : Event → PovSyncer
  | .bulkPullRsp blocks => if ss.inSyncing then blocks.foldl addSyncBlock ss else ss
  | .checkSyncBlock confirmed => onCheckSyncBlockTimer confirmed ss
  | .checkChain latestHeight => onCheckChainTimer latestHeight ss

def run (currentHeight : ℕ) (events : List Event) : PovSyncer :=
  events.foldl Event.apply (syncWithPeer currentHeight)

def received (events : List Event) : List PovBlock :=
  events.flatMap fun
    | .bulkPullRsp blocks => blocks
    | _ => []

/-- The state of a session by the height at which it started, once that is known. -/
structure Delivers (first : Option ℕ) (ss : PovSyncer) : Prop where
  stored : ∀ height syncBlk, ss.syncBlocks.get height = some syncBlk →
    syncBlk.block.height = height
  waiting : ss.waitLocatorRsp = true → ss.syncBlocks = ∅ ∧ ss.published = []
  unanswered : ss.inSyncing = true → ss.waitLocatorRsp = true → first = none
  started : ss.waitLocatorRsp = false → ∃ h, first = some h ∧
    ss.syncCurHeight = h + ss.published.length ∧
    ss.published.map PovBlock.height = List.range' h ss.published.length

namespace Delivers

variable {first : Option ℕ} {ss : PovSyncer} (h : Delivers first ss)

include h

theorem put {height : ℕ} {syncBlk : PovSyncBlock} (hheight : syncBlk.block.height = height) :
    ∀ k blk, (ss.syncBlocks.put height syncBlk).get k = some blk → blk.block.height = k := by
  intro k blk hget
  rw [Table.get_put] at hget
  split_ifs at hget with hk
  · cases hget
    rw [hheight, hk]
  · exact h.stored k blk hget

theorem stopped (hin : ss.inSyncing = false) (next : Option ℕ) : Delivers (first.or next) ss := by
  refine ⟨h.stored, h.waiting, by simp [hin], ?_⟩
  intro hwait
  obtain ⟨start, rfl, hrest⟩ := h.started hwait
  exact ⟨start, rfl, hrest⟩

theorem addSyncBlock (block : PovBlock) :
    Delivers (first.or (some block.height)) (addSyncBlock ss block) := by
  unfold Sync.addSyncBlock
  cases hin : ss.inSyncing with
  | false => exact h.stopped hin _
  | true =>
    cases hwait : ss.waitLocatorRsp with
    | true =>
      have hpublished := (h.waiting hwait).2
      obtain rfl := h.unanswered hin hwait
      exact ⟨h.put rfl, by simp, by simp, fun _ => ⟨block.height, rfl, by simp [hpublished]⟩⟩
    | false =>
      obtain ⟨start, rfl, hrest⟩ := h.started hwait
      by_cases hlow : block.height < ss.syncCurHeight
      · simpa [hlow] using h
      · simp only [Bool.not_true, Bool.false_eq_true, if_false, if_neg hlow]
        exact ⟨h.put rfl, by simp, by simp, fun _ => ⟨start, rfl, hrest⟩⟩

theorem foldl_addSyncBlock (blocks : List PovBlock) :
    Delivers (first.or (blocks.head?.map PovBlock.height)) (blocks.foldl Sync.addSyncBlock ss) := by
  induction blocks generalizing first ss with
  | nil => simpa using h
  | cons block blocks ih => simpa [Option.or_assoc] using ih (h.addSyncBlock block)

theorem checkSyncBlocks (confirmed : Hash → Bool) (rounds : ℕ) :
    Delivers first (checkSyncBlocks confirmed rounds ss) := by
  induction rounds generalizing ss with
  | zero => exact h
  | succ rounds ih =>
    unfold Sync.checkSyncBlocks
    cases hget : ss.syncBlocks.get ss.syncCurHeight with
    | none => exact h
    | some syncBlk =>
      have hheight := h.stored _ _ hget
      have hwait : ss.waitLocatorRsp = false := by
        by_contra hwait
        rw [(h.waiting (by simpa using hwait)).1] at hget
        simp at hget
      dsimp only
      cases pendTx confirmed syncBlk with
      | some i => exact ⟨h.put hheight, by simp [hwait], by simp [hwait], h.started⟩
      | none =>
        obtain ⟨start, hstart, hcur, hmap⟩ := h.started hwait
        refine ih ⟨?_, by simp [hwait], by simp [hwait], fun _ => ⟨start, hstart, ?_, ?_⟩⟩
        · intro k blk hk
          rw [Table.get_delete] at hk
          split_ifs at hk
          exact h.stored k blk hk
        · simp [hcur, Nat.add_assoc]
        · simp [hmap, hheight, hcur, range'_concat]

theorem apply (e : Event) :
    Delivers (first.or ((received [e]).head?.map PovBlock.height)) (e.apply ss) := by
  cases e with
  | bulkPullRsp blocks =>
    unfold Event.apply
    split_ifs with hin
    · simpa [received] using h.foldl_addSyncBlock blocks
    · exact h.stopped (by simpa using hin) _
  | checkSyncBlock confirmed =>
    simp only [Event.apply, onCheckSyncBlockTimer, received, flatMap_cons, flatMap_nil,
      append_nil, List.head?_nil, map_none, or_none]
    split_ifs
    · exact h.checkSyncBlocks confirmed _
    · exact h
  | checkChain latestHeight =>
    simp only [Event.apply, onCheckChainTimer, received, flatMap_cons, flatMap_nil,
      append_nil, List.head?_nil, map_none, or_none]
    split_ifs
    · exact ⟨h.stored, h.waiting, by simp, h.started⟩
    · exact h

end Delivers

theorem delivers_run (currentHeight : ℕ) (events : List Event) :
    Delivers ((received events).head?.map PovBlock.height) (run currentHeight events) := by
  induction events using List.reverseRecOn with
  | nil => exact ⟨by simp [run, syncWithPeer], by simp [run, syncWithPeer], by simp [received], by
      simp [run, syncWithPeer]⟩
  | append_singleton events e ih =>
    simpa [run, received, List.head?_append, map_or] using ih.apply e

/-- The blocks that a session hands on have consecutive heights, from that of the first block
received. -/
theorem published_consecutive (currentHeight : ℕ) (events : List Event) :
    (run currentHeight events).published = [] ∨
      ∃ first ∈ (received events).head?,
        (run currentHeight events).published.map PovBlock.height =
          List.range' first.height (run currentHeight events).published.length := by
  have h := delivers_run currentHeight events
  cases hwait : (run currentHeight events).waitLocatorRsp with
  | true => exact Or.inl (h.waiting hwait).2
  | false =>
    obtain ⟨start, hstart, -, hmap⟩ := h.started hwait
    obtain ⟨first, hfirst, rfl⟩ := map_eq_some_iff.mp hstart
    exact Or.inr ⟨first, hfirst, hmap⟩

end GoQlc.Pov.Sync
