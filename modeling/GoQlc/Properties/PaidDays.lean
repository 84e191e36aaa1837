import Mathlib.Algebra.BigOperators.Intervals
import Mathlib.Algebra.Order.BigOperators.Group.Finset
import GoQlc.Config.Devnet
import GoQlc.Vm.AbiRead
import GoQlc.Vm.DayRewards

/-!
# Paid days

The claims of one account, in any number and with anything in between that keeps its record and the
recorded statistics, are for disjoint ranges of whole days, and the record holds the sums over the
days of all of them.
-/

namespace GoQlc.DayRewards

open Abi Config Devnet Finset Ledger Option Result RewardInfo RewardParam VmContext

/-! ### The sum over the days -/

def dayItem (dayStat : DayStats) (account : Address) (day : ℕ) : Option PovMinerStatItem :=
  (dayStat (UInt32.ofNat day)).bind fun stat => stat.minerStats account

def dayBlocks (kind : Kind) (dayStat : DayStats) (account : Address) (day : ℕ) : ℕ :=
  (dayItem dayStat account day).elim 0 fun item => (kind.blockNum item).toNat

def dayReward (kind : Kind) (dayStat : DayStats) (account : Address) (day : ℕ) : ℕ :=
  (dayItem dayStat account day).elim 0 kind.reward

section Loop

variable {kind : Kind} {dayStat : DayStats} {account : Address} {endDay day : UInt32} {fuel : ℕ}
  {blocks : UInt64} {amount : ℕ} {r : UInt64 × ℕ}

/-- One round of a loop that ends well: it is behind its last day, or it has found the day and
goes on with the day's statistics added. -/
theorem sumDays_succ_eq_ok
    (h : sumDays kind dayStat account endDay (fuel + 1) day blocks amount = some (.ok r)) :
    (endDay < day ∧ r = (blocks, amount)) ∨
    (day ≤ endDay ∧ (dayStat day).isSome ∧ ∃ amount',
      sumDays kind dayStat account endDay fuel (day + 1)
        (blocks + UInt64.ofNat (dayBlocks kind dayStat account day.toNat)) amount' = some (.ok r) ∧
      (amount + dayReward kind dayStat account day.toNat < 2 ^ 64 →
        amount' = amount + dayReward kind dayStat account day.toNat)) := by
  rw [sumDays] at h
  by_cases hle : day ≤ endDay
  · rw [if_pos hle] at h
    cases hstat : dayStat day with
    | none => simp [hstat] at h
    | some stat =>
      cases hitem : stat.minerStats account with
      | none =>
        have hnone : dayItem dayStat account day.toNat = none := by
          simp [dayItem, hstat, hitem]
        simp only [hstat, hitem] at h
        exact .inr ⟨hle, rfl, amount, by simpa [dayBlocks, hnone] using h, by
          simp [dayReward, hnone]⟩
      | some item =>
        have hsome : dayItem dayStat account day.toNat = some item := by
          simp [dayItem, hstat, hitem]
        have hblocks : UInt64.ofNat (dayBlocks kind dayStat account day.toNat) =
            (kind.blockNum item).toUInt64 := by
          apply UInt64.toNat_inj.mp
          simp [dayBlocks, hsome]
        simp only [hstat, hitem] at h
        refine .inr ⟨hle, rfl, _, by rw [hblocks]; exact h, fun hsum => ?_⟩
        simp only [dayReward, hsome, elim_some] at hsum ⊢
        exact Balance.add_of_lt hsum
  · rw [if_neg hle] at h
    cases h
    exact .inl ⟨UInt32.not_le.mp hle, rfl⟩

theorem sumDays_max_ne_ok (hmax : endDay.toNat = 2 ^ 32 - 1) :
    sumDays kind dayStat account endDay fuel day blocks amount ≠ some (.ok r) := by
  induction fuel generalizing day blocks amount with
  | zero => exact nofun
  | succ fuel ih =>
    intro h
    rcases sumDays_succ_eq_ok h with ⟨hlt, -⟩ | ⟨-, -, amount', hrest, -⟩
    · rw [UInt32.lt_iff_toNat_lt, hmax] at hlt
      have := day.toNat_lt
      omega
    · exact ih hrest

theorem sumDays_eq_ok (hend : endDay.toNat + 1 < 2 ^ 32) (hday : day.toNat ≤ endDay.toNat + 1)
    (h : sumDays kind dayStat account endDay fuel day blocks amount = some (.ok r)) :
    (∀ d ∈ Finset.Ico day.toNat (endDay.toNat + 1), (dayStat (UInt32.ofNat d)).isSome) ∧
    r.1 = blocks + UInt64.ofNat
      (∑ d ∈ Finset.Ico day.toNat (endDay.toNat + 1), dayBlocks kind dayStat account d) ∧
    (amount + ∑ d ∈ Finset.Ico day.toNat (endDay.toNat + 1), dayReward kind dayStat account d <
        2 ^ 64 →
      r.2 = amount +
        ∑ d ∈ Finset.Ico day.toNat (endDay.toNat + 1), dayReward kind dayStat account d) := by
  induction fuel generalizing day blocks amount with
  | zero => cases h
  | succ fuel ih =>
    rcases sumDays_succ_eq_ok h with ⟨hlt, rfl⟩ | ⟨hle, hstat, amount', hrest, hamount⟩
    · rw [UInt32.lt_iff_toNat_lt] at hlt
      have hempty : day.toNat = endDay.toNat + 1 := by omega
      simp [hempty]
    · rw [UInt32.le_iff_toNat_le] at hle
      have hlt : day.toNat < endDay.toNat + 1 := by omega
      have hsucc : (day + 1).toNat = day.toNat + 1 := by
        rw [UInt32.toNat_add]
        exact Nat.mod_eq_of_lt (by simpa using by omega)
      obtain ⟨hfound, hblocks, hreward⟩ := ih (by omega) hrest
      rw [hsucc] at hfound hblocks hreward
      rw [sum_eq_sum_Ico_succ_bot hlt, sum_eq_sum_Ico_succ_bot hlt]
      refine ⟨fun d hd => ?_, ?_, fun hsum => ?_⟩
      · by_cases hd' : d = day.toNat
        · rwa [hd', UInt32.ofNat_toNat]
        · rw [mem_Ico] at hd
          exact hfound d (mem_Ico.mpr ⟨by omega, hd.2⟩)
      · rw [hblocks, UInt64.ofNat_add, UInt64.add_assoc]
      · have hadd := hamount (by omega)
        rw [hreward (by omega), hadd, Nat.add_assoc]

end Loop

variable {crypto : Crypto} {kind : Kind} {dayStat : DayStats} {account : Address} {p : RewardParam}
  {block : StateBlock} {ctx : VmContext} {r : UInt64 × ℕ}

/-! ### One claim -/

namespace RewardParam

def heights (p : RewardParam) : Finset ℕ := Finset.Icc p.startHeight.toNat p.endHeight.toNat

def days (p : RewardParam) : Finset ℕ :=
  Finset.Icc (p.startHeight.toNat / 1440) (p.endHeight.toNat / 1440)

def WholeDays (p : RewardParam) : Prop :=
  p.days.Nonempty ∧ ∀ height, height ∈ p.heights ↔ height / 1440 ∈ p.days

theorem verify_eq_true (h : p.verify = true) :
    rewardHeightStart ≤ p.startHeight ∧ p.startHeight ≤ p.endHeight := by
  unfold verify at h
  split_ifs at h with h1 h2 h3 h4 h5
  exact ⟨UInt64.not_lt.mp h3, UInt64.not_lt.mp h4⟩

theorem wholeDays_of_mod (hle : p.startHeight.toNat ≤ p.endHeight.toNat)
    (hstart : p.startHeight.toNat % 1440 = 0) (hend : (p.endHeight.toNat + 1) % 1440 = 0) :
    p.WholeDays := by
  refine ⟨nonempty_Icc.mpr (Nat.div_le_div_right hle), fun height => ?_⟩
  simp only [heights, days, mem_Icc]
  omega

end RewardParam

theorem toNat_dayIndex {height : UInt64} (h : height.toNat / 1440 < 2 ^ 32) :
    (height / blocksPerDay).toUInt32.toNat = height.toNat / 1440 := by
  rw [UInt64.toNat_toUInt32, UInt64.toNat_div]
  exact Nat.mod_eq_of_lt h

theorem calcRewardBlocksByDayStats_loop {startHeight endHeight : UInt64}
    (hfirst : rewardHeightStart ≤ startHeight)
    (h : calcRewardBlocksByDayStats kind dayStat account startHeight endHeight = some (.ok r)) :
    startHeight % blocksPerDay = 0 ∧ (endHeight + 1) % blocksPerDay = 0 ∧
    sumDays kind dayStat account (endHeight / blocksPerDay).toUInt32 dayLoopFuel
      (startHeight / blocksPerDay).toUInt32 0 0 = some (.ok r) := by
  unfold calcRewardBlocksByDayStats at h
  rw [if_neg (UInt64.not_lt.mpr hfirst)] at h
  by_cases hstart : startHeight % blocksPerDay = 0
  · by_cases hend : (endHeight + 1) % blocksPerDay = 0
    · rw [if_neg (not_not.mpr hstart), if_neg (not_not.mpr hend)] at h
      exact ⟨hstart, hend, h⟩
    · rw [if_neg (not_not.mpr hstart), if_pos hend] at h
      cases h
  · rw [if_pos hstart] at h
    cases h

theorem calcRewardBlocksByDayStats_eq_ok (hverify : p.verify = true)
    (hday : p.endHeight.toNat / 1440 < 2 ^ 32)
    (h : calcRewardBlocksByDayStats kind dayStat p.account p.startHeight p.endHeight =
      some (.ok r)) :
    p.WholeDays ∧ (∀ d ∈ p.days, (dayStat (UInt32.ofNat d)).isSome) ∧
    r.1 = UInt64.ofNat (∑ d ∈ p.days, dayBlocks kind dayStat p.account d) ∧
    (∑ d ∈ p.days, dayReward kind dayStat p.account d < 2 ^ 64 →
      r.2 = ∑ d ∈ p.days, dayReward kind dayStat p.account d) := by
  obtain ⟨hfirst, hle⟩ := verify_eq_true hverify
  obtain ⟨hstart, hend, hloop⟩ := calcRewardBlocksByDayStats_loop hfirst h
  rw [UInt64.le_iff_toNat_le] at hle
  have hnowrap : (p.endHeight + 1).toNat = p.endHeight.toNat + 1 := by
    rw [UInt64.toNat_add]
    exact Nat.mod_eq_of_lt (by simpa using by omega)
  have hstart' : p.startHeight.toNat % 1440 = 0 := by
    simpa [← UInt64.toNat_inj, blocksPerDay] using hstart
  have hend' : (p.endHeight.toNat + 1) % 1440 = 0 := by
    rw [← UInt64.toNat_inj, UInt64.toNat_mod, hnowrap] at hend
    exact hend
  have hdays : p.days =
      Finset.Ico (p.startHeight / blocksPerDay).toUInt32.toNat
        ((p.endHeight / blocksPerDay).toUInt32.toNat + 1) := by
    rw [toNat_dayIndex hday, toNat_dayIndex (by omega)]
    rfl
  have hfits : (p.endHeight / blocksPerDay).toUInt32.toNat + 1 < 2 ^ 32 := by
    by_contra hmax
    have hlt := (p.endHeight / blocksPerDay).toUInt32.toNat_lt
    exact sumDays_max_ne_ok (by omega) hloop
  have hsum := sumDays_eq_ok hfits
    (by rw [toNat_dayIndex hday, toNat_dayIndex (by omega)]; omega) hloop
  rw [← hdays] at hsum
  simpa using And.intro (wholeDays_of_mod hle hstart' hend') hsum

/-! ### Claims of one account -/

structure Node where
  ledger : Ledger
  view : View
  dayStat : DayStats

def recordKey (kind : Kind) (account : Address) : Bytes :=
  hashBytes kind.contractAddress ++ (hashBytes kind.contractAddress ++ hashBytes account)

namespace Node

def record (kind : Kind) (account : Address) (s : Node) : Option Bytes :=
  s.ledger.vmStorage.get (recordKey kind account)

def history (kind : Kind) (account : Address) (s : Node) : Except ContractError (Option RewardInfo) :=
  match s.record kind account with
  | none => .ok none
  | some data =>
    match parseRewardInfo data with
    | none => .error .unpack
    | some info => .ok (some info)

def totals (kind : Kind) (account : Address) (s : Node) : Option (ℕ × ℕ) :=
  (s.history kind account).toOption.map fun info =>
    (info.elim 0 fun i => i.rewardBlocks.toNat, info.elim 0 rewardAmount)

/-- Processes a send to the contract that is accepted: what it stores goes to the ledger. -/
def claim (crypto : Crypto) (kind : Kind) (s : Node) (block : StateBlock) : Option Node :=
  if block.type = .contractSend ∧ block.link = kind.contractAddress then do
    let ctx ← newVMContextWithBlock s.view s.ledger block
    let outcome ← processSend crypto kind s.dayStat ctx block
    let (_, ctx) ← outcome.result.toOption
    return { s with ledger := saveStorage ctx.toCache s.ledger }
  else none

end Node

def DayStats.Kept (before after : DayStats) : Prop :=
  ∀ day stat, before day = some stat → after day = some stat

/-- The accepted claims of an account from `start` on, with any other changes between them that
leave its record and the recorded days alone. -/
inductive Run (crypto : Crypto) (kind : Kind) (account : Address) (start : Node) :
    List RewardParam → Node → Prop
  | start : Run crypto kind account start [] start
  | claim {claims s s'} {block : StateBlock} {p : RewardParam} :
    Run crypto kind account start claims s → block.address = account →
    parseRewardParam crypto kind block.data = some p → s.claim crypto kind block = some s' →
    Run crypto kind account start (claims ++ [p]) s'
  | other {claims s s'} :
    Run crypto kind account start claims s →
    s'.record kind account = s.record kind account → s.dayStat.Kept s'.dayStat →
    Run crypto kind account start claims s'

structure Claimed (kind : Kind) (s s' : Node) (block : StateBlock) (p : RewardParam) : Prop where
  account : p.account = block.address
  verify : p.verify = true
  sum : calcRewardBlocksByDayStats kind s.dayStat p.account p.startHeight p.endHeight =
    some (.ok (p.rewardBlocks, p.rewardAmount))
  record : ∃ old, s.history kind p.account = .ok old ∧
    old.elim 0 endHeight < p.startHeight ∧
    s'.record kind p.account = some (newInfo p block old).toABI
  dayStat : s'.dayStat = s.dayStat

theorem newVMContextWithBlock_of_send {v : View} {l : Ledger}
    (h : newVMContextWithBlock v l block = some ctx)
    (htype : block.type = .contractSend) :
    ctx.ledger = l ∧ ctx.contractAddr = block.link ∧ ctx.cache = ∅ := by
  unfold newVMContextWithBlock at h
  obtain ⟨latest, -, h⟩ := bind_eq_some_iff.mp h
  dsimp only at h
  generalize (if latest < block.povHeight then latest else block.povHeight) = povHeight at h
  cases hheader : v.hasPovHeader povHeight with
  | false => simp [hheader] at h
  | true =>
    have hlink : l.contractAddress v block = some block.link := by
      simp [contractAddress, StateBlock.isSendBlock, htype]
    rw [if_pos hheader, hlink] at h
    cases h
    exact ⟨rfl, rfl, rfl⟩

section Context

variable {s : Node}
  (haddr : ctx.contractAddr = kind.contractAddress) (hcache : ctx.cache = ∅)
include haddr hcache

theorem getRewardHistory_eq_history (hledger : ctx.ledger = s.ledger) (account : Address) :
    getRewardHistory kind ctx account = s.history kind account := by
  have hread : ctx.getStorage (hashBytes kind.contractAddress) (hashBytes account) =
      s.record kind account := by
    simp [getStorage, rawStorageKey, hcache, hledger, haddr, Node.record,
      recordKey]
  rw [getRewardHistory, hread]
  rfl

theorem record_saveStorage (account : Address) (value : Bytes) :
    (saveStorage (ctx.setStorage (hashBytes kind.contractAddress) (hashBytes account)
      value).toCache s.ledger).vmStorage.get (recordKey kind account) = some value := by
  have hwrite : (ctx.setStorage (hashBytes kind.contractAddress) (hashBytes account)
      value).toCache = [(recordKey kind account, value)] := by
    simp only [setStorage, VmContext.toCache, hcache, rawStorageKey, haddr]
    rfl
  rw [hwrite, saveStorage]
  exact Table.get_put_self _ _ _

end Context

variable {s s' : Node}

theorem checkClaim_eq_ok (h : checkClaim kind ctx block p = .ok ()) :
    p.account = block.address ∧ p.verify = true ∧
    ∃ old, getRewardHistory kind ctx p.account = .ok old ∧
      old.elim 0 endHeight < p.startHeight := by
  unfold checkClaim at h
  simp only [ite_error_eq_ok, Bool.not_eq_false, not_not] at h
  obtain ⟨hverify, haccount, -, -, h⟩ := h
  refine ⟨haccount, hverify, ?_⟩
  cases hnode : getNodeRewardHeight ctx with
  | none => simp [hnode] at h
  | some nodeRewardHeight =>
    simp only [hnode, ite_error_eq_ok] at h
    replace h := h.2
    cases hold : checkParamExistInOldRewardInfos kind ctx p with
    | error e => simp [hold] at h
    | ok u =>
      unfold checkParamExistInOldRewardInfos at hold
      cases hinfo : getRewardHistory kind ctx p.account with
      | error e => simp [hinfo] at hold
      | ok info =>
        simp only [hinfo, ite_error_eq_ok] at hold
        exact ⟨info, rfl, UInt64.not_le.mp hold.1⟩

theorem processSend_eq_ok {outcome : SendOutcome}
    {r : Option (PendingKey × PendingInfo) × VmContext}
    (hparam : parseRewardParam crypto kind block.data = some p)
    (hrun : processSend crypto kind dayStat ctx block = some outcome)
    (hok : outcome.result = .ok r) :
    checkClaim kind ctx block p = .ok () ∧
    calcRewardBlocksByDayStats kind dayStat p.account p.startHeight p.endHeight =
      some (.ok (p.rewardBlocks, p.rewardAmount)) ∧
    ∃ old, getRewardHistory kind ctx p.account = .ok old ∧
      r.2 = ctx.setStorage (hashBytes kind.contractAddress) (hashBytes p.account)
        (newInfo p block old).toABI := by
  unfold processSend at hrun
  rw [hparam] at hrun
  dsimp only at hrun
  cases hcheck : checkClaim kind ctx block p with
  | error e =>
    rw [hcheck] at hrun
    cases hrun
    cases hok
  | ok u =>
    rw [hcheck] at hrun
    obtain ⟨sum, hsum, hrun⟩ := map_eq_some_iff.mp hrun
    cases sum with
    | error e =>
      cases hrun
      cases hok
    | ok sum =>
      obtain ⟨blocks, amount⟩ := sum
      dsimp only at hrun
      by_cases hne : blocks ≠ p.rewardBlocks ∨ amount ≠ p.rewardAmount
      · rw [if_pos hne] at hrun
        cases hrun
        cases hok
      · rw [if_neg hne] at hrun
        push Not at hne
        obtain ⟨rfl, rfl⟩ := hne
        refine ⟨rfl, hsum, ?_⟩
        cases hold : getRewardHistory kind ctx p.account with
        | error e =>
          simp only [← hrun, payClaim, hold] at hok
          cases hok
        | ok old =>
          simp only [← hrun, payClaim, hold] at hok
          cases hok
          exact ⟨old, rfl, rfl⟩

theorem claimed_of_claim (hparam : parseRewardParam crypto kind block.data = some p)
    (h : s.claim crypto kind block = some s') : Claimed kind s s' block p := by
  unfold Node.claim at h
  split_ifs at h with hto
  obtain ⟨ctx, hctx, h⟩ := bind_eq_some_iff.mp h
  obtain ⟨outcome, hrun, h⟩ := bind_eq_some_iff.mp h
  obtain ⟨⟨pending, ctx'⟩, hres, h⟩ := bind_eq_some_iff.mp h
  cases h
  obtain ⟨hledger, haddr, hcache⟩ := newVMContextWithBlock_of_send hctx hto.1
  rw [hto.2] at haddr
  obtain ⟨hcheck, hsum, old, hold, hwrite⟩ :=
    processSend_eq_ok hparam hrun (toOption_eq_some.mp hres)
  obtain ⟨haccount, hverify, old', hold', hafter⟩ := checkClaim_eq_ok hcheck
  rw [hold] at hold'
  cases hold'
  exact
    { account := haccount
      verify := hverify
      sum := hsum
      record := ⟨old, by rw [← getRewardHistory_eq_history haddr hcache hledger, hold], hafter, by
        rw [Node.record, show ctx' = _ from hwrite]
        exact record_saveStorage haddr hcache p.account _⟩
      dayStat := rfl }

theorem parseRewardInfo_toABI {info : RewardInfo} (h : info.rewardAmount < 2 ^ 256) :
    parseRewardInfo info.toABI = some info := by
  have hread := unpackVariable_pack (by decide) (by decide)
    (show FitAll rewardInfoInputs
      (info.endHeight, info.rewardBlocks, info.timestamp, info.rewardAmount, ()) from
      ⟨trivial, trivial, trivial, h, trivial⟩)
  rw [parseRewardInfo, RewardInfo.toABI, hread]
  rfl

/-! ### Runs -/

def claimedDays (claims : List RewardParam) : Finset ℕ :=
  claims.toFinset.biUnion RewardParam.days

theorem claimedDays_append (claims : List RewardParam) (p : RewardParam) :
    claimedDays (claims ++ [p]) = claimedDays claims ∪ p.days := by
  simp [claimedDays, List.toFinset_append, union_comm]

variable {p : RewardParam}

theorem RewardParam.disjoint_heights {q : RewardParam} (h : p.endHeight < q.startHeight) :
    Disjoint p.heights q.heights := by
  rw [UInt64.lt_iff_toNat_lt] at h
  rw [disjoint_left]
  intro height hp hq
  simp only [heights, mem_Icc] at hp hq
  omega

theorem RewardParam.disjoint_days {q : RewardParam} (hp : p.WholeDays) (hq : q.WholeDays)
    (h : Disjoint p.heights q.heights) : Disjoint p.days q.days := by
  rw [disjoint_left]
  intro day hdp hdq
  have hstart : day * 1440 / 1440 = day := by omega
  exact disjoint_left.mp h ((hp.2 _).mpr (hstart.symm ▸ hdp))
    ((hq.2 _).mpr (hstart.symm ▸ hdq))

theorem DayStats.Kept.trans {a b c : DayStats} (hab : a.Kept b) (hbc : b.Kept c) : a.Kept c :=
  fun day stat h => hbc day stat (hab day stat h)

theorem DayStats.Kept.dayItem_eq {before after : DayStats} (h : before.Kept after) {day : ℕ}
    (hday : (before (UInt32.ofNat day)).isSome) (account : Address) :
    dayItem before account day = dayItem after account day := by
  obtain ⟨stat, hstat⟩ := isSome_iff_exists.mp hday
  rw [dayItem, dayItem, hstat, h _ _ hstat]

/-- The books of an account: the claims so far are for successive ranges of whole days, and the
record has the last end and the sums of the statistics. -/
structure Booked (kind : Kind) (account : Address) (dayStat : DayStats)
    (claims : List RewardParam) (s : Node) : Prop where
  wholeDays : ∀ c ∈ claims, c.WholeDays
  successive : claims.Pairwise fun c c' => c.endHeight < c'.startHeight
  history : ∃ old, s.history kind account = .ok old ∧
    (∀ c ∈ claims, c.endHeight ≤ old.elim 0 endHeight) ∧
    (old.elim 0 rewardBlocks).toNat =
      ∑ d ∈ claimedDays claims, dayBlocks kind dayStat account d ∧
    old.elim 0 rewardAmount =
      ∑ d ∈ claimedDays claims, dayReward kind dayStat account d

variable {claims : List RewardParam}

theorem Booked.disjoint_claimedDays {s : Node} (h : Booked kind account dayStat claims s)
    (hp : p.WholeDays) (hafter : ∀ c ∈ claims, c.endHeight < p.startHeight) :
    Disjoint (claimedDays claims) p.days := by
  rw [claimedDays, disjoint_biUnion_left]
  intro c hc
  have hc := List.mem_toFinset.mp hc
  exact disjoint_days (h.wholeDays c hc) hp
    (disjoint_heights (hafter c hc))

variable {final : DayStats}

theorem Claimed.sums (hp : Claimed kind s s' block p) (hkept : s.dayStat.Kept final)
    (hday : p.endHeight.toNat / 1440 < 2 ^ 32)
    (hblocks : ∑ d ∈ p.days, dayBlocks kind final p.account d < 2 ^ 64)
    (hreward : ∑ d ∈ p.days, dayReward kind final p.account d < 2 ^ 64) :
    p.WholeDays ∧ p.rewardBlocks.toNat = ∑ d ∈ p.days, dayBlocks kind final p.account d ∧
    p.rewardAmount = ∑ d ∈ p.days, dayReward kind final p.account d := by
  obtain ⟨hwhole, hfound, hb, hr⟩ := calcRewardBlocksByDayStats_eq_ok hp.verify hday hp.sum
  have hitem (d) (hd : d ∈ p.days) := hkept.dayItem_eq (hfound d hd) p.account
  have hblocksp : ∑ d ∈ p.days, dayBlocks kind s.dayStat p.account d =
      ∑ d ∈ p.days, dayBlocks kind final p.account d :=
    sum_congr rfl fun d hd => by rw [dayBlocks, dayBlocks, hitem d hd]
  have hrewardp : ∑ d ∈ p.days, dayReward kind s.dayStat p.account d =
      ∑ d ∈ p.days, dayReward kind final p.account d :=
    sum_congr rfl fun d hd => by rw [dayReward, dayReward, hitem d hd]
  rw [hblocksp] at hb
  rw [hrewardp] at hr
  refine ⟨hwhole, ?_, hr hreward⟩
  rw [show p.rewardBlocks = _ from hb]
  exact UInt64.toNat_ofNat_of_lt' hblocks

theorem Claimed.history {old : Option RewardInfo} (hp : Claimed kind s s' block p)
    (hold : s.history kind p.account = .ok old)
    (hfit : p.rewardAmount + old.elim 0 rewardAmount < 2 ^ 256) :
    s'.history kind p.account = .ok (some (newInfo p block old)) := by
  obtain ⟨old', hold', -, hrecord⟩ := hp.record
  rw [hold] at hold'
  cases hold'
  have hread : parseRewardInfo (newInfo p block old).toABI = some (newInfo p block old) :=
    parseRewardInfo_toABI hfit
  rw [Node.history, hrecord]
  simp only [hread]

theorem Booked.claim (h : Booked kind account final claims s) (hp : Claimed kind s s' block p)
    (haccount : block.address = account) (hkept : s.dayStat.Kept final)
    (hday : p.endHeight.toNat / 1440 < 2 ^ 32)
    (hblocks : ∑ d ∈ claimedDays (claims ++ [p]), dayBlocks kind final account d < 2 ^ 64)
    (hreward : ∑ d ∈ claimedDays (claims ++ [p]), dayReward kind final account d < 2 ^ 64) :
    Booked kind account final (claims ++ [p]) s' := by
  obtain rfl : p.account = account := hp.account.trans haccount
  obtain ⟨old, hold, hends, hsumb, hsumr⟩ := h.history
  have hsub : p.days ⊆ claimedDays (claims ++ [p]) := by
    rw [claimedDays_append]
    exact subset_union_right
  obtain ⟨hwhole, hb, hr⟩ := hp.sums hkept hday
    ((sum_le_sum_of_subset hsub).trans_lt hblocks)
    ((sum_le_sum_of_subset hsub).trans_lt hreward)
  obtain ⟨old', hold', hstart, -⟩ := hp.record
  rw [hold] at hold'
  cases hold'
  have hafter : ∀ c ∈ claims, c.endHeight < p.startHeight :=
    fun c hc => UInt64.lt_of_le_of_lt (hends c hc) hstart
  -- the new days are behind all claimed ones, so that the sums simply add
  have hdisj := h.disjoint_claimedDays hwhole hafter
  rw [claimedDays_append, sum_union hdisj, ← hb, ← hsumb] at hblocks
  rw [claimedDays_append, sum_union hdisj, ← hr, ← hsumr] at hreward
  have hread := hp.history hold (by omega)
  refine ⟨?_, ?_, some (newInfo p block old), hread, ?_, ?_, ?_⟩
  · intro c hc
    rcases List.mem_append.mp hc with hc | hc
    · exact h.wholeDays c hc
    · rwa [List.mem_singleton.mp hc]
  · rw [List.pairwise_append]
    exact ⟨h.successive, List.pairwise_singleton _ _, fun c hc q hq => by
      rw [List.mem_singleton.mp hq]
      exact hafter c hc⟩
  · intro c hc
    have hle := (verify_eq_true hp.verify).2
    rcases List.mem_append.mp hc with hc | hc
    · exact UInt64.le_of_lt (UInt64.lt_of_lt_of_le (hafter c hc) hle)
    · rw [List.mem_singleton.mp hc]
      exact UInt64.le_refl _
  · rw [claimedDays_append, sum_union hdisj, ← hb, ← hsumb, Nat.add_comm]
    exact (UInt64.toNat_add _ _).trans (Nat.mod_eq_of_lt (by omega))
  · rw [claimedDays_append, sum_union hdisj, ← hr, ← hsumr]
    exact Nat.add_comm _ _

theorem booked_of_run {start s : Node} (hrun : Run crypto kind account start claims s)
    (hnew : start.record kind account = none) (hkept : s.dayStat.Kept final)
    (hdays : ∀ c ∈ claims, c.endHeight.toNat / 1440 < 2 ^ 32)
    (hblocks : ∑ d ∈ claimedDays claims, dayBlocks kind final account d < 2 ^ 64)
    (hreward : ∑ d ∈ claimedDays claims, dayReward kind final account d < 2 ^ 64) :
    Booked kind account final claims s := by
  induction hrun with
  | start =>
    refine ⟨nofun, .nil, none, ?_, nofun, rfl, rfl⟩
    rw [Node.history, hnew]
  | @claim claims s s' block p hprev haccount hparam hclaim ih =>
    have hp := claimed_of_claim hparam hclaim
    have hkept' : s.dayStat.Kept final := hp.dayStat ▸ hkept
    have hsub : claimedDays claims ⊆ claimedDays (claims ++ [p]) := by
      rw [claimedDays_append]
      exact subset_union_left
    have hbooked := ih hkept' (fun c hc => hdays c (List.mem_append_left _ hc))
      ((sum_le_sum_of_subset hsub).trans_lt hblocks)
      ((sum_le_sum_of_subset hsub).trans_lt hreward)
    exact hbooked.claim hp haccount hkept' (hdays p (by simp)) hblocks hreward
  | other hprev hrecord hstats ih =>
    have hbooked := ih (hstats.trans hkept) hdays hblocks hreward
    exact ⟨hbooked.wholeDays, hbooked.successive, by
      simpa only [Node.history, hrecord] using hbooked.history⟩

/-- No day is paid twice: the claims are for disjoint ranges of whole days, and the record holds
the sums over exactly these days. -/
theorem totals_eq_sum_claimedDays (crypto : Crypto) (kind : Kind) (account : Address)
    {start s : Node} {claims : List RewardParam} (hrun : Run crypto kind account start claims s)
    (hnew : start.record kind account = none)
    (hdays : ∀ c ∈ claims, c.endHeight.toNat / 1440 < 2 ^ 32)
    (hblocks : ∑ d ∈ claimedDays claims, dayBlocks kind s.dayStat account d < 2 ^ 64)
    (hreward : ∑ d ∈ claimedDays claims, dayReward kind s.dayStat account d < 2 ^ 64) :
    (∀ c ∈ claims, c.WholeDays) ∧
    (claims.Pairwise fun c c' => Disjoint c.heights c'.heights) ∧
    s.totals kind account =
      some (∑ d ∈ claimedDays claims, dayBlocks kind s.dayStat account d,
        ∑ d ∈ claimedDays claims, dayReward kind s.dayStat account d) := by
  have hbooked := booked_of_run hrun hnew (fun _ _ h => h) hdays hblocks hreward
  obtain ⟨old, hold, -, hsumb, hsumr⟩ := hbooked.history
  refine ⟨hbooked.wholeDays, hbooked.successive.imp disjoint_heights, ?_⟩
  rw [Node.totals, hold, ← hsumb, ← hsumr]
  cases old <;> rfl

/-! ### Two claims -/

def minerNode (day : UInt32) (latest : UInt64) : Node where
  ledger := {}
  view :=
    { Devnet.view with
      accountCache := fun address => some { address }
      latestPovHeight := some latest }
  dayStat := fun d =>
    if d = day then some
      { minerStats := fun _ =>
          some { blockNum := 3, rewardAmount := 50, repBlockNum := 0, repReward := 0 } }
    else none

def claimOf (startHeight endHeight rewardBlocks : UInt64) (rewardAmount : ℕ) : RewardParam where
  account := stranger
  beneficial := stranger
  startHeight := startHeight
  endHeight := endHeight
  rewardBlocks := rewardBlocks
  rewardAmount := rewardAmount

def claimBlock (p : RewardParam) : StateBlock where
  type := .contractSend
  token := chainToken
  address := stranger
  balance := 0
  previous := 0
  link := minerAddress
  data := p.toABI Devnet.env.toCrypto .miner
  representative := stranger

def minerNodeAfter (day : UInt32) (latest : UInt64) (p : RewardParam) : Node :=
  ((minerNode day latest).claim Devnet.env.toCrypto .miner (claimBlock p)).getD
    (minerNode day latest)

theorem run_minerNodeAfter {day : UInt32} {latest : UInt64}
    (hparam : parseRewardParam Devnet.env.toCrypto .miner (claimBlock p).data = some p)
    (h : ((minerNode day latest).claim Devnet.env.toCrypto .miner (claimBlock p)).isSome) :
    Run Devnet.env.toCrypto .miner stranger (minerNode day latest) [p]
      (minerNodeAfter day latest p) := by
  refine Run.start.claim rfl hparam ?_
  rw [minerNodeAfter]
  obtain ⟨s', hs'⟩ := isSome_iff_exists.mp h
  rw [hs', getD_some]

theorem totals_eq_sum_claimedDays_one :
    (minerNodeAfter 1 5760 (claimOf 1440 2879 3 50)).totals .miner stranger =
      some (3, 50) :=
  (totals_eq_sum_claimedDays Devnet.env.toCrypto .miner stranger
    (run_minerNodeAfter (by decide +kernel) (by decide +kernel)) rfl (by decide +kernel)
    (by decide +kernel) (by decide +kernel)).2.2.trans (by decide +kernel)

/-- A claim from the last day that 32 bits can name to the day after it is a sum over no days:
the account is paid nothing for the day that is recorded. -/
theorem totals_over_last_dayIndex :
    Run Devnet.env.toCrypto .miner stranger (minerNode 4294967295 6184752909120)
      [claimOf 6184752904800 6184752907679 0 0]
      (minerNodeAfter 4294967295 6184752909120 (claimOf 6184752904800 6184752907679 0 0)) ∧
    (minerNodeAfter 4294967295 6184752909120
      (claimOf 6184752904800 6184752907679 0 0)).totals .miner stranger = some (0, 0) ∧
    ∑ d ∈ claimedDays [claimOf 6184752904800 6184752907679 0 0],
      dayReward .miner (minerNode 4294967295 6184752909120).dayStat stranger d = 50 := by
  refine ⟨run_minerNodeAfter ?_ ?_, ?_, ?_⟩ <;> decide +kernel

end GoQlc.DayRewards
