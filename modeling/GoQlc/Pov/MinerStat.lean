import Mathlib.Algebra.BigOperators.Intervals
import Mathlib.Algebra.Group.Action.Defs
import Mathlib.Algebra.Order.BigOperators.Group.Finset
import GoQlc.Lib.Shares
import GoQlc.Pov.State

/-!
# The miner statistics of a day

At the end of each online period the rewards for representatives of its blocks are divided, block by
block, over the representatives that were online, in proportion to their weights.
-/

namespace GoQlc.Pov.MinerStat

open Config Balance Finset Option Table

def povChainBlocksPerDay : ℕ := 1440

def povMinerRewardHeightGapToLatest : ℕ := povChainBlocksPerDay

def dPosOnlinePeriod : ℕ := 120

def minVoteWeight : ℕ := genesisBlock.balance / 200

def int64 (z : ℤ) : ℤ := z.bmod (2 ^ 64)

structure TxOut where
  address : Address
  value : ℕ

/-- What the statistics read of a header. The second output is for the representatives. -/
structure PovHeader where
  minerOut : TxOut
  repOut : Option TxOut := none

namespace PovHeader

def getMinerAddr (h : PovHeader) : Address := h.minerOut.address

def getMinerReward (h : PovHeader) : ℕ := h.minerOut.value

def getRepReward (h : PovHeader) : ℕ := h.repOut.elim 0 TxOut.value

end PovHeader

def calcTotal (rs : PovRepState) : ℕ :=
  Balance.add (Balance.add (Balance.add (Balance.add rs.benefit.balance rs.benefit.vote)
    rs.benefit.network) rs.benefit.oracle) rs.benefit.storage

/-- The representatives in the state of the header, in the order of the trie, that count as
online. -/
def getAllOnlineRepStates (reps : List (Address × PovRepState)) (height : ℕ) :
    List (Address × PovRepState) :=
  reps.filter fun rep => rep.2.status = .online ∧
    ¬(height < rep.2.height ∨ rep.2.height < height + 1 - dPosOnlinePeriod) ∧
    ¬calcTotal rep.2 < minVoteWeight

structure PovMinerStatItem where
  firstHeight : ℕ := 0
  lastHeight : ℕ := 0
  isMiner : Bool := false
  blockNum : ℕ := 0
  rewardAmount : ℕ := 0
  repBlockNum : ℕ := 0
  repReward : ℕ := 0
deriving DecidableEq

abbrev MinerStats := Table Address PovMinerStatItem

def item (stats : MinerStats) (a : Address) : PovMinerStatItem := (stats.get a).getD {}

/-- The amount may be negative; `Add` takes the low word of its absolute value. -/
def PovMinerStatItem.addRep (i : PovMinerStatItem) (amount : ℤ) : PovMinerStatItem :=
  { i with
    repBlockNum := i.repBlockNum + 1
    repReward := Balance.add i.repReward amount.natAbs }

def PovMinerStatItem.addBlock (i : PovMinerStatItem) (height reward : ℕ) : PovMinerStatItem :=
  { i with
    firstHeight := if i.isMiner then i.firstHeight else height
    lastHeight := height
    isMiner := true
    blockNum := i.blockNum + 1
    rewardAmount := Balance.add i.rewardAmount reward }

def totalWeight (reps : List (Address × PovRepState)) : ℕ :=
  reps.foldl (fun sum rep => Balance.add sum (calcTotal rep.2)) 0

def share (repWeightTotal : ℕ) (weight reward : ℕ) : ℤ :=
  int64 (int64 weight * reward / int64 repWeightTotal)

def divide (repWeightTotal : ℕ) (reward : ℕ) (reps : List (Address × PovRepState))
    (stats : MinerStats) : Option MinerStats :=
  reps.foldlM (fun stats rep =>
    if int64 repWeightTotal = 0 then none
    else
      let amount := share repWeightTotal (calcTotal rep.2) reward
      some (stats.put rep.1 ((item stats rep.1).addRep amount))) stats

variable {stats : MinerStats}

section Day

variable (headers : ℕ → Option PovHeader) (reps : ℕ → List (Address × PovRepState))

/-- The blocks of the period that ends at the height, from the last to the first. -/
def dividePeriod (height : ℕ) (stats : MinerStats) : Option MinerStats :=
  let repStates := getAllOnlineRepStates (reps height) height
  (List.range dPosOnlinePeriod).foldlM (fun stats i => do
    let povHead ← headers (height - i)
    divide (totalWeight repStates) povHead.getRepReward repStates stats) stats

def calcRepReward (height : ℕ) (stats : MinerStats) : Option MinerStats :=
  if height % dPosOnlinePeriod = dPosOnlinePeriod - 1 then dividePeriod headers reps height stats
  else some stats

def visit (stats : MinerStats) (height : ℕ) : Option MinerStats := do
  let header ← headers height
  let stats ← calcRepReward headers reps height stats
  let addr := header.getMinerAddr
  some (stats.put addr ((item stats addr).addBlock height header.getMinerReward))

/-- The statistic of a day; `none` when a header is missing. Unfolding it would run the day. -/
@[irreducible] def dayStat (curDayIndex : ℕ) : Option MinerStats :=
  (List.range povChainBlocksPerDay).foldlM
    (fun stats i => visit headers reps stats (curDayIndex * povChainBlocksPerDay + i)) ∅

/-- The loop over the days that lie a day behind the latest block. It ends before the fuel, which is
one more than the height of the latest block. -/
def minerDayLoop (latest : ℕ) : ℕ → ℕ → Table ℕ MinerStats → Table ℕ MinerStats
  | 0, _, stored => stored
  | fuel + 1, curDayIndex, stored =>
    let dayEndHeight := curDayIndex * povChainBlocksPerDay + povChainBlocksPerDay - 1
    if latest < dayEndHeight + povMinerRewardHeightGapToLatest then stored
    else
      match dayStat headers reps curDayIndex with
      | none => stored
      | some stats => minerDayLoop latest fuel (curDayIndex + 1) (stored.put curDayIndex stats)

def onMinerDayStatTimer (latest : ℕ) (latestDayStat : Option ℕ) (stored : Table ℕ MinerStats) :
    Table ℕ MinerStats :=
  minerDayLoop headers reps latest (latest + 1) (latestDayStat.elim 0 (· + 1)) stored

theorem minerDayLoop_new {latest day : ℕ} (fuel cur : ℕ) (stored : Table ℕ MinerStats)
    (h : (minerDayLoop headers reps latest fuel cur stored).get day = some stats) :
    stored.get day = some stats ∨ dayStat headers reps day = some stats := by
  induction fuel generalizing cur stored with
  | zero =>
    rw [minerDayLoop] at h
    exact Or.inl h
  | succ fuel ih =>
    rw [minerDayLoop] at h
    split_ifs at h with hdue
    · exact Or.inl h
    · cases hday : dayStat headers reps cur with
      | none => exact Or.inl (by rwa [hday] at h)
      | some stats' =>
        rw [hday] at h
        rcases ih _ _ h with hput | hnew
        · rw [get_put] at hput
          split_ifs at hput with hd
          · exact Or.inr (by rw [hd, hday, hput])
          · exact Or.inl hput
        · exact Or.inr hnew

end Day

/-! ## One round -/

def given (f : PovMinerStatItem → ℕ) (stats : MinerStats) : ℕ := Table.total (fun _ i => f i) stats

theorem item_put (stats : MinerStats) (a b : Address) (i : PovMinerStatItem) :
    item (stats.put a i) b = if b = a then i else item stats b := by
  unfold item
  rw [get_put]
  split_ifs <;> rfl

theorem given_put {f : PovMinerStatItem → ℕ} (hf : f {} = 0) (stats : MinerStats) (a : Address)
    (i : PovMinerStatItem) : given f (stats.put a i) + f (item stats a) = given f stats + f i := by
  have hput := total_put_add (fun _ i => f i) stats a i
  have hweight : Table.weight (fun _ i => f i) stats a = f (item stats a) := by
    unfold Table.weight item
    cases stats.get a <;> simp [hf]
  rwa [hweight] at hput

theorem item_le_given {f : PovMinerStatItem → ℕ} (hf : f {} = 0) (stats : MinerStats)
    (a : Address) : f (item stats a) ≤ given f stats := by
  unfold item
  cases hget : stats.get a with
  | none => exact hf.le.trans (Nat.zero_le _)
  | some i => exact le_total (f := fun _ i => f i) hget

theorem int64_of_lt {n : ℕ} (h : n < 2 ^ 63) : int64 n = n :=
  Int.bmod_eq_of_le (by omega) (by omega)

theorem natAbs_share {total weight reward : ℕ} (htotal : total < 2 ^ 63) (hweight : weight ≤ total)
    (hreward : reward < 2 ^ 63) : (share total weight reward).natAbs = weight * reward / total := by
  have hle : weight * reward / total ≤ reward := by
    apply Nat.div_le_of_le_mul
    exact Nat.mul_le_mul_right reward hweight
  unfold share
  rw [int64_of_lt htotal, int64_of_lt (hweight.trans_lt htotal)]
  rw [← Int.natCast_mul, ← Int.natCast_ediv, int64_of_lt (hle.trans_lt hreward),
    Int.natAbs_natCast]

variable {reps : List (Address × PovRepState)}

theorem totalWeight_eq (h : (reps.map fun rep => calcTotal rep.2).sum < 2 ^ 64) :
    totalWeight reps = (reps.map fun rep => calcTotal rep.2).sum := by
  suffices hfold : ∀ sum, sum + (reps.map fun rep => calcTotal rep.2).sum < 2 ^ 64 →
      reps.foldl (fun sum rep => Balance.add sum (calcTotal rep.2)) sum =
        sum + (reps.map fun rep => calcTotal rep.2).sum by
    exact (hfold 0 (by omega)).trans (Nat.zero_add _)
  clear h
  induction reps with
  | nil => simp
  | cons rep reps ih =>
    intro sum hsum
    rw [List.map_cons, List.sum_cons] at hsum ⊢
    rw [List.foldl_cons, add_of_lt (by omega), ih _ (by omega), Nat.add_assoc]

theorem divide_spec {total reward : ℕ} (hpos : 0 < total) (htotal : total < 2 ^ 63)
    (hreward : reward < 2 ^ 63) (hweights : ∀ rep ∈ reps, calcTotal rep.2 ≤ total)
    (stats : MinerStats) (hsum : given (·.repReward) stats +
      (reps.map fun rep => calcTotal rep.2 * reward / total).sum < 2 ^ 64) :
    ∃ stats', divide total reward reps stats = some stats' ∧
      given (·.repReward) stats' = given (·.repReward) stats +
        (reps.map fun rep => calcTotal rep.2 * reward / total).sum ∧
      ∀ a, (item stats' a).rewardAmount = (item stats a).rewardAmount := by
  induction reps generalizing stats with
  | nil => exact ⟨stats, rfl, rfl, fun _ => rfl⟩
  | cons rep reps ih =>
    rw [List.map_cons, List.sum_cons] at hsum ⊢
    set amount := calcTotal rep.2 * reward / total with hamount
    set next := stats.put rep.1 ((item stats rep.1).addRep (share total (calcTotal rep.2) reward))
      with hnext
    have hshare : (share total (calcTotal rep.2) reward).natAbs = amount :=
      natAbs_share htotal (hweights rep List.mem_cons_self) hreward
    have hone : given (·.repReward) next = given (·.repReward) stats + amount := by
      have hput := given_put (f := (·.repReward)) rfl stats rep.1
        ((item stats rep.1).addRep (share total (calcTotal rep.2) reward))
      have hle := item_le_given (f := (·.repReward)) rfl stats rep.1
      have hadd : ((item stats rep.1).addRep (share total (calcTotal rep.2) reward)).repReward =
          (item stats rep.1).repReward + amount := by
        unfold PovMinerStatItem.addRep
        rw [hshare]
        exact add_of_lt (by omega)
      rw [← hnext] at hput
      omega
    obtain ⟨stats', hdivide, hgiven, hminers⟩ :=
      ih (fun r hr => hweights r (List.mem_cons_of_mem rep hr)) next (by omega)
    refine ⟨stats', ?_, by omega, fun a => ?_⟩
    · unfold divide at hdivide ⊢
      rw [List.foldlM_cons, if_neg (by rw [int64_of_lt htotal]; omega)]
      exact hdivide
    · rw [hminers, hnext, item_put]
      split_ifs with ha
      · rw [ha]; rfl
      · rfl

/-- The weights of representatives, whose sum is positive and a signed word. -/
structure Weighted (reps : List (Address × PovRepState)) : Prop where
  pos : 0 < (reps.map fun rep => calcTotal rep.2).sum
  lt : (reps.map fun rep => calcTotal rep.2).sum < 2 ^ 63

theorem Weighted.divide (h : Weighted reps) (reward : ℕ) (stats : MinerStats)
    (hsum : given (·.repReward) stats + reward < 2 ^ 63) :
    ∃ stats', divide (totalWeight reps) reward reps stats = some stats' ∧
      given (·.repReward) stats' ≤ given (·.repReward) stats + reward ∧
      given (·.repReward) stats + reward ≤ given (·.repReward) stats' + (reps.length - 1) ∧
      ∀ a, (item stats' a).rewardAmount = (item stats a).rewardAmount := by
  have htotal : totalWeight reps = (reps.map fun rep => calcTotal rep.2).sum :=
    totalWeight_eq (h.lt.trans (by omega))
  have hpos : 0 < totalWeight reps := htotal ▸ h.pos
  have hlt : totalWeight reps < 2 ^ 63 := htotal ▸ h.lt
  have hle : (reps.map fun rep => calcTotal rep.2 * reward / totalWeight reps).sum ≤ reward := by
    simpa [htotal, Function.comp_def] using Shares.sum_le h.pos reward
  have hloss : reward <
      (reps.map fun rep => calcTotal rep.2 * reward / totalWeight reps).sum + reps.length := by
    simpa [htotal, Function.comp_def] using Shares.lt_sum_add_length h.pos reward
  have hweights : ∀ rep ∈ reps, calcTotal rep.2 ≤ totalWeight reps := by
    intro rep hrep
    rw [htotal]
    exact List.le_sum_of_mem (List.mem_map.mpr ⟨rep, hrep, rfl⟩)
  have hreward : reward < 2 ^ 63 := by omega
  obtain ⟨stats', hdivide, hgiven, hminers⟩ :=
    divide_spec hpos hlt hreward hweights stats (by omega)
  exact ⟨stats', hdivide, by omega, by omega, hminers⟩

section Rounds

variable {headers : ℕ → Option PovHeader} {header : ℕ → PovHeader}

theorem Weighted.rounds {repStates : List (Address × PovRepState)} (h : Weighted repStates)
    (height : ℕ) (blocks : List ℕ)
    (hheaders : ∀ i ∈ blocks, headers (height - i) = some (header (height - i)))
    (stats : MinerStats) (hsum : given (·.repReward) stats +
      (blocks.map fun i => (header (height - i)).getRepReward).sum < 2 ^ 63) :
    ∃ stats', blocks.foldlM (fun stats i => do
        let povHead ← headers (height - i)
        MinerStat.divide (totalWeight repStates) povHead.getRepReward repStates stats) stats =
          some stats' ∧
      given (·.repReward) stats' ≤ given (·.repReward) stats +
        (blocks.map fun i => (header (height - i)).getRepReward).sum ∧
      given (·.repReward) stats + (blocks.map fun i => (header (height - i)).getRepReward).sum ≤
        given (·.repReward) stats' + blocks.length * (repStates.length - 1) ∧
      ∀ a, (item stats' a).rewardAmount = (item stats a).rewardAmount := by
  induction blocks generalizing stats with
  | nil => exact ⟨stats, rfl, le_rfl, by simp, fun _ => rfl⟩
  | cons i blocks ih =>
    rw [List.map_cons, List.sum_cons] at hsum ⊢
    obtain ⟨next, hdivide, hle, hloss, hminers⟩ :=
      h.divide (header (height - i)).getRepReward stats (by omega)
    obtain ⟨stats', hrest, hle', hloss', hminers'⟩ :=
      ih (fun j hj => hheaders j (List.mem_cons_of_mem i hj)) next (by omega)
    refine ⟨stats', ?_, by omega, ?_, fun a => (hminers' a).trans (hminers a)⟩
    · rw [List.foldlM_cons, hheaders i List.mem_cons_self]
      simp only [bind_eq_bind, bind_some, hdivide]
      exact hrest
    · rw [List.length_cons, Nat.succ_mul]
      omega

end Rounds

/-! ## A day -/

section Split

variable {headers : ℕ → Option PovHeader} {reps : ℕ → List (Address × PovRepState)}
  {header : ℕ → PovHeader} {day : ℕ}

/-- The representatives over which the reward of a block is divided: those online at the end of its
period. -/
def roundReps (reps : ℕ → List (Address × PovRepState)) (height : ℕ) :
    List (Address × PovRepState) :=
  let last := height / dPosOnlinePeriod * dPosOnlinePeriod + (dPosOnlinePeriod - 1)
  getAllOnlineRepStates (reps last) last

def dayHeights (day : ℕ) : Finset ℕ :=
  Finset.Ico (day * povChainBlocksPerDay) ((day + 1) * povChainBlocksPerDay)

/-- A day whose headers are stored, with weights and outputs that are signed words in sum. -/
structure Regular (headers : ℕ → Option PovHeader) (reps : ℕ → List (Address × PovRepState))
    (header : ℕ → PovHeader) (day : ℕ) : Prop where
  stored : ∀ k ∈ dayHeights day, headers k = some (header k)
  weighted : ∀ k ∈ dayHeights day, Weighted (roundReps reps k)
  repOutputs : ∑ k ∈ dayHeights day, (header k).getRepReward < 2 ^ 63
  minerOutputs : ∑ k ∈ dayHeights day, (header k).getMinerReward < 2 ^ 64

/-- The statistic before a height: the periods that have ended are divided, and the miners of all
blocks are credited. -/
structure Divided (reps : ℕ → List (Address × PovRepState)) (header : ℕ → PovHeader)
    (day height : ℕ) (stats : MinerStats) : Prop where
  le : given (·.repReward) stats ≤
    ∑ k ∈ Finset.Ico (day * povChainBlocksPerDay) (height / dPosOnlinePeriod * dPosOnlinePeriod),
      (header k).getRepReward
  loss : ∑ k ∈ Finset.Ico (day * povChainBlocksPerDay)
      (height / dPosOnlinePeriod * dPosOnlinePeriod), (header k).getRepReward ≤
    given (·.repReward) stats + ∑ k ∈ Finset.Ico (day * povChainBlocksPerDay)
      (height / dPosOnlinePeriod * dPosOnlinePeriod), ((roundReps reps k).length - 1)
  miners : ∀ a, (item stats a).rewardAmount =
    ∑ k ∈ Finset.Ico (day * povChainBlocksPerDay) height,
      if (header k).getMinerAddr = a then (header k).getMinerReward else 0

theorem sum_map_range (f : ℕ → ℕ) (n : ℕ) :
    ((List.range n).map f).sum = ∑ i ∈ Finset.range n, f i := by
  induction n with
  | zero => rfl
  | succ n ih => simp [List.range_succ, sum_range_succ, ih]

variable {height : ℕ}

theorem sum_period (f : ℕ → ℕ) (h : height % dPosOnlinePeriod = dPosOnlinePeriod - 1) :
    ((List.range dPosOnlinePeriod).map fun i => f (height - i)).sum =
      ∑ k ∈ Finset.Ico (height / dPosOnlinePeriod * dPosOnlinePeriod) (height + 1), f k := by
  have hstart : height / dPosOnlinePeriod * dPosOnlinePeriod + dPosOnlinePeriod = height + 1 := by
    unfold dPosOnlinePeriod at *
    omega
  rw [sum_map_range, sum_Ico_eq_sum_range, ← hstart, Nat.add_sub_cancel_left,
    ← sum_range_reflect]
  apply sum_congr rfl
  intro i hi
  rw [mem_range] at hi
  congr 1
  omega

section
variable (hday : Regular headers reps header day) (hheight : height ∈ dayHeights day)
  (h : Divided reps header day height stats)

include hday hheight h

theorem Divided.calcRepReward :
    ∃ mid, MinerStat.calcRepReward headers reps height stats = some mid ∧
      (given (·.repReward) mid ≤ ∑ k ∈ Finset.Ico (day * povChainBlocksPerDay)
        ((height + 1) / dPosOnlinePeriod * dPosOnlinePeriod), (header k).getRepReward) ∧
      (∑ k ∈ Finset.Ico (day * povChainBlocksPerDay)
          ((height + 1) / dPosOnlinePeriod * dPosOnlinePeriod), (header k).getRepReward ≤
        given (·.repReward) mid + ∑ k ∈ Finset.Ico (day * povChainBlocksPerDay)
          ((height + 1) / dPosOnlinePeriod * dPosOnlinePeriod),
            ((roundReps reps k).length - 1)) ∧
      ∀ a, (item mid a).rewardAmount = (item stats a).rewardAmount := by
  obtain ⟨hlow, hhigh⟩ := mem_Ico.mp hheight
  unfold MinerStat.calcRepReward
  by_cases hend : height % dPosOnlinePeriod = dPosOnlinePeriod - 1
  · have hnext : (height + 1) / dPosOnlinePeriod * dPosOnlinePeriod = height + 1 := by
      unfold dPosOnlinePeriod at *
      omega
    have hq : day * povChainBlocksPerDay ≤ height / dPosOnlinePeriod * dPosOnlinePeriod := by
      unfold povChainBlocksPerDay dPosOnlinePeriod at *
      omega
    have hle₁ : height / dPosOnlinePeriod * dPosOnlinePeriod ≤ height + 1 :=
      (Nat.div_mul_le_self height dPosOnlinePeriod).trans (Nat.le_succ height)
    -- Every block of the period has the representatives of its end.
    have hround : ∀ k ∈ Finset.Ico (height / dPosOnlinePeriod * dPosOnlinePeriod) (height + 1),
        roundReps reps k = getAllOnlineRepStates (reps height) height := by
      intro k hk
      obtain ⟨hk₁, hk₂⟩ := mem_Ico.mp hk
      have hlast : k / dPosOnlinePeriod * dPosOnlinePeriod + (dPosOnlinePeriod - 1) = height := by
        unfold dPosOnlinePeriod at *
        omega
      simp only [roundReps, hlast]
    have hloss : ∑ k ∈ Finset.Ico (height / dPosOnlinePeriod * dPosOnlinePeriod) (height + 1),
        ((roundReps reps k).length - 1) =
        dPosOnlinePeriod * ((getAllOnlineRepStates (reps height) height).length - 1) := by
      rw [sum_congr rfl fun k hk => by rw [hround k hk], sum_const, Nat.card_Ico,
        smul_eq_mul]
      congr 1
      unfold dPosOnlinePeriod at *
      omega
    have hweighted := hday.weighted height hheight
    rw [hround height (mem_Ico.mpr ⟨Nat.div_mul_le_self _ _, Nat.lt_succ_self _⟩)]
      at hweighted
    have hbelow : ∑ k ∈ Finset.Ico (day * povChainBlocksPerDay) (height + 1),
        (header k).getRepReward ≤ ∑ k ∈ dayHeights day, (header k).getRepReward :=
      sum_le_sum_of_subset (Ico_subset_Ico_right hhigh)
    have hsum := sum_Ico_consecutive (fun k => (header k).getRepReward) hq hle₁
    have hlosses := sum_Ico_consecutive (fun k => (roundReps reps k).length - 1) hq hle₁
    have hrounds := sum_period (fun k => (header k).getRepReward) hend
    have hreps := hday.repOutputs
    have hle := h.le
    have hbound := h.loss
    have hstored : ∀ i ∈ List.range dPosOnlinePeriod,
        headers (height - i) = some (header (height - i)) := by
      intro i hi
      apply hday.stored
      rw [List.mem_range] at hi
      unfold dayHeights povChainBlocksPerDay dPosOnlinePeriod at *
      rw [mem_Ico]
      omega
    obtain ⟨mid, hdivide, hmid, hmidloss, hminers⟩ :=
      hweighted.rounds height (List.range dPosOnlinePeriod) hstored stats (by omega)
    rw [List.length_range] at hmidloss
    rw [if_pos hend, hnext]
    exact ⟨mid, hdivide, by omega, by omega, hminers⟩
  · have hsame : (height + 1) / dPosOnlinePeriod * dPosOnlinePeriod =
        height / dPosOnlinePeriod * dPosOnlinePeriod := by
      unfold dPosOnlinePeriod at *
      omega
    rw [if_neg hend, hsame]
    exact ⟨stats, rfl, h.le, h.loss, fun _ => rfl⟩

theorem Divided.visit :
    ∃ stats', MinerStat.visit headers reps stats height = some stats' ∧
      Divided reps header day (height + 1) stats' := by
  obtain ⟨hlow, hhigh⟩ := mem_Ico.mp hheight
  obtain ⟨mid, hmid, hle, hloss, hminers⟩ := h.calcRepReward hday hheight
  set addr := (header height).getMinerAddr with haddr
  set reward := (header height).getMinerReward with hreward
  refine ⟨mid.put addr ((item mid addr).addBlock height reward), ?_, ?_⟩
  · unfold MinerStat.visit
    simp only [hday.stored height hheight, bind_eq_bind, bind_some, hmid]
    rfl
  have hrep : given (·.repReward) (mid.put addr ((item mid addr).addBlock height reward)) =
      given (·.repReward) mid :=
    Nat.add_right_cancel (given_put (f := (·.repReward)) rfl mid addr
      ((item mid addr).addBlock height reward))
  refine ⟨hrep.trans_le hle, hrep.symm ▸ hloss, fun a => ?_⟩
  rw [sum_Ico_succ_top hlow, ← h.miners a, ← hminers a, item_put]
  by_cases ha : a = addr
  · have hbelow : (item mid a).rewardAmount + reward ≤
        ∑ k ∈ dayHeights day, (header k).getMinerReward := by
      calc (item mid a).rewardAmount + reward
          ≤ ∑ k ∈ Finset.Ico (day * povChainBlocksPerDay) height, (header k).getMinerReward +
              reward := by
            rw [hminers, h.miners]
            gcongr
            split_ifs <;> omega
        _ = ∑ k ∈ Finset.Ico (day * povChainBlocksPerDay) (height + 1),
              (header k).getMinerReward := (sum_Ico_succ_top hlow _).symm
        _ ≤ _ := sum_le_sum_of_subset (Ico_subset_Ico_right hhigh)
    rw [if_pos ha, if_pos ha.symm, ← ha]
    exact add_of_lt (hbelow.trans_lt hday.minerOutputs)
  · rw [if_neg ha, if_neg (Ne.symm ha), Nat.add_zero]

end

theorem Divided.heights (hday : Regular headers reps header day) (n : ℕ)
    (hn : n ≤ povChainBlocksPerDay) :
    ∃ stats, (List.range n).foldlM
        (fun stats i => MinerStat.visit headers reps stats (day * povChainBlocksPerDay + i)) ∅ =
          some stats ∧
      Divided reps header day (day * povChainBlocksPerDay + n) stats := by
  induction n with
  | zero =>
    have hstart : day * povChainBlocksPerDay / dPosOnlinePeriod * dPosOnlinePeriod =
        day * povChainBlocksPerDay := by
      unfold povChainBlocksPerDay dPosOnlinePeriod
      omega
    refine ⟨∅, rfl, ?_, ?_, fun a => ?_⟩
    · exact Nat.zero_le _
    · simp [hstart]
    · simp [item, get_empty]
  | succ n ih =>
    obtain ⟨stats, hstats, h⟩ := ih (by omega)
    have hheight : day * povChainBlocksPerDay + n ∈ dayHeights day := by
      rw [dayHeights, mem_Ico, Nat.add_mul, Nat.one_mul]
      omega
    obtain ⟨stats', hvisit, h'⟩ := h.visit hday hheight
    rw [← Nat.add_assoc]
    refine ⟨stats', ?_, h'⟩
    rw [List.range_succ, List.foldlM_append, hstats]
    simpa using hvisit

end Split

/-! ## Two representatives -/

def unitHeader : PovHeader where
  minerOut := ⟨4, 3⟩
  repOut := some ⟨0, 1⟩

def onlineRep (balance height : ℕ) : PovRepState where
  benefit := { Benefit.zero with balance }
  status := .online
  height := height

def twoReps (first second height : ℕ) : List (Address × PovRepState) :=
  [(1, onlineRep first height), (2, onlineRep second height)]

theorem calcTotal_onlineRep {balance : ℕ} (height : ℕ) (h : balance < 2 ^ 64) :
    calcTotal (onlineRep balance height) = balance := by
  have hadd : Balance.add balance 0 = balance := add_of_lt (by omega)
  simp only [calcTotal, onlineRep, Benefit.zero, hadd]

theorem getAllOnlineRepStates_twoReps {first second : ℕ} (height : ℕ)
    (hfirst : minVoteWeight ≤ first ∧ first < 2 ^ 64)
    (hsecond : minVoteWeight ≤ second ∧ second < 2 ^ 64) :
    getAllOnlineRepStates (twoReps first second height) height = twoReps first second height := by
  apply List.filter_eq_self.mpr
  intro rep hrep
  have hwindow : ¬(height < height ∨ height < height + 1 - dPosOnlinePeriod) := by
    unfold dPosOnlinePeriod
    omega
  rcases List.mem_pair.mp hrep with rfl | rfl
  · rw [decide_eq_true_eq, calcTotal_onlineRep _ hfirst.2]
    exact ⟨rfl, hwindow, hfirst.1.not_gt⟩
  · rw [decide_eq_true_eq, calcTotal_onlineRep _ hsecond.2]
    exact ⟨rfl, hwindow, hsecond.1.not_gt⟩

theorem regular_twoReps :
    Regular (fun _ => some unitHeader) (twoReps 600000000000000 300000000000000)
      (fun _ => unitHeader) 0 := by
  refine ⟨fun _ _ => rfl, fun k _ => ?_, ?_, ?_⟩
  · rw [roundReps, getAllOnlineRepStates_twoReps _ (by decide) (by decide)]
    constructor <;> simp [twoReps, calcTotal_onlineRep]
  · simp [dayHeights, povChainBlocksPerDay, unitHeader, PovHeader.getRepReward]
  · simp [dayHeights, povChainBlocksPerDay, unitHeader, PovHeader.getMinerReward]

/-- The statistic after some periods when the larger weight and the sum are negative as `Int64`. -/
def doubled : ℕ → MinerStats
  | 0 => ∅
  | j + 1 =>
    let stats : MinerStats := Table.put ∅ 1
      { repBlockNum := 120 * (j + 1)
        repReward := 240 * (j + 1) }
    let stats := stats.put 2 { repBlockNum := 120 * (j + 1) }
    stats.put 4
      { lastHeight := 120 * j + 119
        isMiner := true
        blockNum := 120 * (j + 1)
        rewardAmount := 360 * (j + 1) }

theorem visit_period_doubled : ∀ j < 12,
    ((List.range 120).map (120 * j + ·)).foldlM
      (visit (fun _ => some unitHeader) (twoReps (2 ^ 63 + 2 ^ 62) 300000000000000)) (doubled j) =
        some (doubled (j + 1)) := by
  decide +kernel

end GoQlc.Pov.MinerStat
