import GoQlc.Lib.Table
import GoQlc.Types.Block

/-!
# Heartbeats and votes of a period

The main loop credits heartbeats and votes to the period of its own PoV height.
-/

namespace GoQlc.Online

open Finset Table

def dPosOnlinePeriod : ℕ := 120

inductive OnlineKind where
  | heart
  | vote
deriving DecidableEq

structure RepAckStatistics where
  heartCount : ℕ := 0
  lastHeartHeight : ℕ := 0
  voteCount : ℕ := 0

structure RepOnlinePeriod where
  statistic : Table Address RepAckStatistics := ∅
  blockCount : ℕ := 0

/-- The statistic of an account after a message; `none` is the account without one in the period. -/
def RepAckStatistics.message (kind : OnlineKind) (valid : Bool) (height curPovHeight : ℕ) :
    Option RepAckStatistics → RepAckStatistics
  | some stat =>
    match kind with
    | .heart =>
      -- The difference of the heights is unsigned.
      if 2 ≤ (height + 2 ^ 64 - stat.lastHeartHeight) % 2 ^ 64 then
        { stat with heartCount := stat.heartCount + 1, lastHeartHeight := height }
      else stat
    | .vote => if valid then { stat with voteCount := stat.voteCount + 1 } else stat
  | none =>
    match kind with
    | .heart => { heartCount := 1, lastHeartHeight := curPovHeight }
    | .vote => if valid then { voteCount := 1 } else {}

theorem RepAckStatistics.voteCount_message (kind : OnlineKind) (valid : Bool)
    (height curPovHeight : ℕ) (s : Option RepAckStatistics) :
    (message kind valid height curPovHeight s).voteCount =
      (s.getD {}).voteCount + if kind = .vote ∧ valid = true then 1 else 0 := by
  unfold message
  cases s <;> cases kind <;> cases valid <;> simp
  all_goals split_ifs <;> rfl

theorem RepAckStatistics.heart_message (kind : OnlineKind) (valid : Bool)
    (height curPovHeight : ℕ) (s : Option RepAckStatistics) :
    let new := message kind valid height curPovHeight s
    new.heartCount ≤ 1 ∨
      new.heartCount = (s.getD {}).heartCount ∧
        new.lastHeartHeight = (s.getD {}).lastHeartHeight ∨
      new.heartCount = (s.getD {}).heartCount + 1 ∧ new.lastHeartHeight = height ∧
        2 ≤ (height + 2 ^ 64 - (s.getD {}).lastHeartHeight) % 2 ^ 64 := by
  unfold message
  cases s with
  | none => cases kind <;> cases valid <;> simp
  | some stat =>
    cases kind with
    | heart =>
      dsimp only [Option.getD_some]
      split_ifs with hgap
      · exact Or.inr (Or.inr ⟨rfl, rfl, hgap⟩)
      · exact Or.inr (Or.inl ⟨rfl, rfl⟩)
    | vote => cases valid <;> exact Or.inr (Or.inl ⟨rfl, rfl⟩)

/-- The statistics by period, and for each confirmed block in the cache the voters so far. -/
structure DPoS where
  online : Table ℕ RepOnlinePeriod := ∅
  confirmedBlocks : Table Hash (Finset Address) := ∅

namespace DPoS

def period (dps : DPoS) (p : ℕ) : RepOnlinePeriod := (dps.online.get p).getD {}

def stat (dps : DPoS) (p : ℕ) (addr : Address) : RepAckStatistics :=
  ((dps.period p).statistic.get addr).getD {}

/-- Enters the account into the history of the block; the answer is whether it is new there. -/
def voteHistoryUpdate (dps : DPoS) (hash : Hash) (addr : Address) : DPoS × Bool :=
  match dps.confirmedBlocks.get hash with
  | some reps =>
    if addr ∈ reps then (dps, false)
    else ({ dps with confirmedBlocks := dps.confirmedBlocks.put hash (insert addr reps) }, true)
  | none => (dps, false)

def isValidVote (dps : DPoS) (hash : Hash) (addr : Address) : DPoS × Bool :=
  if (dps.confirmedBlocks.get hash).isSome then dps.voteHistoryUpdate hash addr else (dps, false)

def checkVote (dps : DPoS) (kind : OnlineKind) (hash : Hash) (addr : Address) : DPoS × Bool :=
  if kind = .vote then dps.isValidVote hash addr else (dps, false)

def heartAndVoteIncDo (dps : DPoS) (hash : Hash) (addr : Address) (kind : OnlineKind)
    (height curPovHeight : ℕ) : DPoS :=
  let p := curPovHeight / dPosOnlinePeriod
  let repPeriod := dps.period p
  let vote := dps.checkVote kind hash addr
  let stat := .message kind vote.2 height curPovHeight (repPeriod.statistic.get addr)
  { vote.1 with
    online := dps.online.put p { repPeriod with statistic := repPeriod.statistic.put addr stat } }

def confirmedBlockInc (dps : DPoS) (hash : Hash) (curPovHeight : ℕ) : DPoS :=
  let p := curPovHeight / dPosOnlinePeriod
  let repPeriod := dps.period p
  { online := dps.online.put p { repPeriod with blockCount := repPeriod.blockCount + 1 }
    confirmedBlocks := dps.confirmedBlocks.put hash ∅ }

variable (dps : DPoS) (hash : Hash) (addr a : Address) (height : ℕ) {curPovHeight p : ℕ}

theorem isValidVote_of_none (h : dps.confirmedBlocks.get hash = none) :
    dps.isValidVote hash addr = (dps, false) := by
  simp [isValidVote, h]

theorem isValidVote_of_mem {reps : Finset Address} (h : dps.confirmedBlocks.get hash = some reps)
    (hmem : addr ∈ reps) : dps.isValidVote hash addr = (dps, false) := by
  simp [isValidVote, voteHistoryUpdate, h, hmem]

theorem isValidVote_of_notMem {reps : Finset Address}
    (h : dps.confirmedBlocks.get hash = some reps) (hmem : addr ∉ reps) :
    dps.isValidVote hash addr =
      ({ dps with confirmedBlocks := dps.confirmedBlocks.put hash (insert addr reps) }, true) := by
  simp [isValidVote, voteHistoryUpdate, h, hmem]

theorem stat_heartAndVoteIncDo (kind : OnlineKind) (hp : curPovHeight / dPosOnlinePeriod = p) :
    (dps.heartAndVoteIncDo hash addr kind height curPovHeight).stat p a =
      if a = addr then
        .message kind (dps.checkVote kind hash addr).2 height curPovHeight
          ((dps.period p).statistic.get addr)
      else dps.stat p a := by
  simp only [stat, period, heartAndVoteIncDo, hp, get_put_self, Option.getD_some,
    get_put]
  split_ifs <;> rfl

variable (hp : curPovHeight / dPosOnlinePeriod = p)

include hp

theorem stat_confirmedBlockInc :
    (dps.confirmedBlockInc hash curPovHeight).stat p a = dps.stat p a := by
  simp only [stat, period, confirmedBlockInc, hp, get_put_self, Option.getD_some]

theorem voteCount_heart :
    ((dps.heartAndVoteIncDo hash addr .heart height curPovHeight).stat p a).voteCount =
      (dps.stat p a).voteCount := by
  rw [stat_heartAndVoteIncDo _ _ _ _ _ _ hp]
  by_cases ha : a = addr
  · subst ha
    simp [RepAckStatistics.voteCount_message, stat]
  · rw [if_neg ha]

theorem voteCount_vote :
    ((dps.heartAndVoteIncDo hash addr .vote height curPovHeight).stat p a).voteCount =
      (dps.stat p a).voteCount +
        if a = addr ∧ (dps.isValidVote hash addr).2 = true then 1 else 0 := by
  rw [stat_heartAndVoteIncDo _ _ _ _ _ _ hp]
  by_cases ha : a = addr
  · subst ha
    simp [RepAckStatistics.voteCount_message, stat, checkVote]
  · simp [ha]

end DPoS

/-! ## One period -/

/-- A node in the period, with the height of the last message, the blocks confirmed in the period and
the votes that came in. -/
structure Record where
  dps : DPoS
  height : ℕ
  confirmed : Finset Hash := ∅
  votes : Finset (Address × Hash) := ∅

def Record.acknowledged (r : Record) (a : Address) : Finset Hash :=
  r.confirmed.filter fun hash => (a, hash) ∈ r.votes

/-- The runs within the period `p`, with messages whose heights do not decrease. -/
inductive Reached (p : ℕ) : Record → Prop
  | start (dps : DPoS) (hnew : dps.online.get p = none) :
      Reached p { dps, height := p * dPosOnlinePeriod }
  | heart {r : Record} (h : Reached p r) (addr : Address) (height curPovHeight : ℕ)
      (hle : r.height ≤ height) (hword : height < 2 ^ 64) (hheight : height / dPosOnlinePeriod = p)
      (hcur : curPovHeight / dPosOnlinePeriod = p) :
      Reached p { r with
        dps := r.dps.heartAndVoteIncDo 0 addr .heart height curPovHeight
        height := height }
  | vote {r : Record} (h : Reached p r) (hash : Hash) (addr : Address) (height curPovHeight : ℕ)
      (hle : r.height ≤ height) (hword : height < 2 ^ 64) (hheight : height / dPosOnlinePeriod = p)
      (hcur : curPovHeight / dPosOnlinePeriod = p)
      (hperiod : (r.dps.confirmedBlocks.get hash).isSome = true → hash ∈ r.confirmed) :
      Reached p { r with
        dps := r.dps.heartAndVoteIncDo hash addr .vote height curPovHeight
        height := height
        votes := insert (addr, hash) r.votes }
  | confirm {r : Record} (h : Reached p r) (hash : Hash) (curPovHeight : ℕ)
      (hcur : curPovHeight / dPosOnlinePeriod = p) (hnew : hash ∉ r.confirmed)
      (hfirst : ∀ a, (a, hash) ∉ r.votes) :
      Reached p { r with
        dps := r.dps.confirmedBlockInc hash curPovHeight
        confirmed := insert hash r.confirmed }
  | forget {r : Record} (h : Reached p r) (hash : Hash) (hold : hash ∉ r.confirmed) :
      Reached p { r with
        dps := { r.dps with confirmedBlocks := r.dps.confirmedBlocks.delete hash } }

/-- After the second count the remembered height is that of a message, and every further count needs
two more heights. -/
structure Paced (p : ℕ) (r : Record) : Prop where
  low : p * dPosOnlinePeriod ≤ r.height
  high : r.height < (p + 1) * dPosOnlinePeriod
  pace : ∀ a, (r.dps.stat p a).heartCount ≤ 1 ∨
    p * dPosOnlinePeriod ≤ (r.dps.stat p a).lastHeartHeight ∧
    (r.dps.stat p a).lastHeartHeight ≤ r.height ∧
    2 * (r.dps.stat p a).heartCount ≤
      4 + ((r.dps.stat p a).lastHeartHeight - p * dPosOnlinePeriod)

variable {p curPovHeight : ℕ} {r : Record}

theorem Paced.message (h : Paced p r) (hash : Hash) (addr : Address) (kind : OnlineKind)
    {height : ℕ} (votes : Finset (Address × Hash)) (hle : r.height ≤ height)
    (hword : height < 2 ^ 64) (hheight : height / dPosOnlinePeriod = p)
    (hcur : curPovHeight / dPosOnlinePeriod = p) :
    Paced p { r with
      dps := r.dps.heartAndVoteIncDo hash addr kind height curPovHeight
      height := height
      votes := votes } := by
  have hlow := h.low
  have hhigh : height < (p + 1) * dPosOnlinePeriod := by
    unfold dPosOnlinePeriod at *
    omega
  refine ⟨hlow.trans hle, hhigh, fun a => ?_⟩
  have hpace := h.pace a
  dsimp only
  rw [DPoS.stat_heartAndVoteIncDo _ _ _ _ _ _ hcur]
  by_cases ha : a = addr
  · subst ha
    have hcount := RepAckStatistics.heart_message kind (r.dps.checkVote kind hash a).2 height
      curPovHeight ((r.dps.period p).statistic.get a)
    unfold DPoS.stat at hpace
    dsimp only at hcount
    rw [if_pos rfl]
    omega
  · rw [if_neg ha]
    omega

structure Counted (p : ℕ) (r : Record) : Prop where
  history : ∀ hash ∈ r.confirmed, ∃ reps, r.dps.confirmedBlocks.get hash = some reps ∧
    ∀ a, a ∈ reps ↔ (a, hash) ∈ r.votes
  count : ∀ a, (r.dps.stat p a).voteCount = (r.acknowledged a).card

theorem Record.acknowledged_vote (r : Record) (a addr : Address) (hash : Hash) :
    { r with votes := insert (addr, hash) r.votes }.acknowledged a =
      if a = addr ∧ hash ∈ r.confirmed then insert hash (r.acknowledged a)
      else r.acknowledged a := by
  ext k
  by_cases ha : a = addr <;> by_cases hc : hash ∈ r.confirmed <;> by_cases hk : k = hash <;>
    simp_all [Record.acknowledged]

theorem Record.acknowledged_confirm (r : Record) (a : Address) {hash : Hash}
    (hfirst : (a, hash) ∉ r.votes) :
    { r with confirmed := insert hash r.confirmed }.acknowledged a = r.acknowledged a := by
  simp [Record.acknowledged, filter_insert, hfirst]

theorem Counted.vote (h : Counted p r) (hash : Hash) (addr : Address) (height : ℕ)
    (hcur : curPovHeight / dPosOnlinePeriod = p)
    (hperiod : (r.dps.confirmedBlocks.get hash).isSome = true → hash ∈ r.confirmed) :
    Counted p { r with
      dps := r.dps.heartAndVoteIncDo hash addr .vote height curPovHeight
      height := height
      votes := insert (addr, hash) r.votes } := by
  have hcache : (r.dps.heartAndVoteIncDo hash addr .vote height curPovHeight).confirmedBlocks =
      (r.dps.isValidVote hash addr).1.confirmedBlocks := rfl
  have hstat := fun a => r.dps.voteCount_vote hash addr a height hcur
  have hacked := fun a => r.acknowledged_vote a addr hash
  cases hreps : r.dps.confirmedBlocks.get hash with
  | none =>
    -- A block that is not in the cache was not confirmed in the period either.
    have hout : hash ∉ r.confirmed := by
      intro hmem
      obtain ⟨reps, hget, -⟩ := h.history hash hmem
      simp [hreps] at hget
    rw [r.dps.isValidVote_of_none hash addr hreps] at hcache hstat
    constructor
    · intro k hk
      obtain ⟨reps, hget, hvotes⟩ := h.history k hk
      refine ⟨reps, hget ▸ congrArg (·.get k) hcache, fun a => ?_⟩
      have hne : k ≠ hash := fun heq => hout (heq ▸ hk)
      simp [hvotes, hne]
    · intro a
      refine (hstat a).trans ?_
      rw [if_neg (by simp), Nat.add_zero, h.count]
      exact congrArg Finset.card ((hacked a).trans (if_neg fun hboth => hout hboth.2)).symm
  | some reps =>
    have hin : hash ∈ r.confirmed := hperiod (by rw [hreps]; rfl)
    obtain ⟨reps', hget, hvotes⟩ := h.history hash hin
    obtain rfl : reps = reps' := Option.some.inj (hreps.symm.trans hget)
    by_cases hmem : addr ∈ reps
    · rw [r.dps.isValidVote_of_mem hash addr hreps hmem] at hcache hstat
      have hold : insert (addr, hash) r.votes = r.votes :=
        insert_eq_of_mem ((hvotes addr).mp hmem)
      rw [hold]
      constructor
      · intro k hk
        exact hcache ▸ h.history k hk
      · intro a
        refine (hstat a).trans ?_
        rw [if_neg (by simp), Nat.add_zero, h.count]
        rfl
    · rw [r.dps.isValidVote_of_notMem hash addr hreps hmem] at hcache hstat
      constructor
      · intro k hk
        dsimp only
        rw [hcache, get_put]
        by_cases hkey : k = hash
        · subst hkey
          exact ⟨_, if_pos rfl, fun a => by simp [hvotes]⟩
        · obtain ⟨reps, hget, hvotes⟩ := h.history k hk
          exact ⟨reps, by rw [if_neg hkey, hget], fun a => by simp [hvotes, hkey]⟩
      · intro a
        have hfresh : a = addr → hash ∉ r.acknowledged a := by
          rintro rfl hack
          exact hmem ((hvotes a).mpr (mem_filter.mp hack).2)
        refine (hstat a).trans (.trans ?_ (congrArg Finset.card (hacked a)).symm)
        rw [h.count]
        by_cases ha : a = addr
        · rw [if_pos ⟨ha, rfl⟩, if_pos ⟨ha, hin⟩, card_insert_of_notMem (hfresh ha)]
        · simp [ha]

theorem Counted.confirm (h : Counted p r) {hash : Hash}
    (hcur : curPovHeight / dPosOnlinePeriod = p) (hfirst : ∀ a, (a, hash) ∉ r.votes) :
    Counted p { r with
      dps := r.dps.confirmedBlockInc hash curPovHeight
      confirmed := insert hash r.confirmed } := by
  constructor
  · intro k hk
    change ∃ reps, (r.dps.confirmedBlocks.put hash ∅).get k = some reps ∧ _
    rw [get_put]
    by_cases hkey : k = hash
    · subst hkey
      exact ⟨∅, if_pos rfl, fun a => by simpa using hfirst a⟩
    · rw [if_neg hkey]
      exact h.history k ((mem_insert.mp hk).resolve_left hkey)
  · intro a
    dsimp only
    rw [DPoS.stat_confirmedBlockInc _ _ _ hcur, h.count]
    exact congrArg Finset.card (r.acknowledged_confirm a (hfirst a)).symm

theorem Reached.counted (h : Reached p r) : Counted p r := by
  induction h with
  | start dps hnew =>
    refine ⟨fun hash hmem => absurd hmem (notMem_empty hash), fun a => ?_⟩
    simp [DPoS.stat, DPoS.period, hnew, Record.acknowledged]
  | heart _ addr height _ _ _ _ hcur ih =>
    exact ⟨ih.history, fun a => (DPoS.voteCount_heart _ 0 addr a height hcur).trans (ih.count a)⟩
  | vote _ hash addr height _ _ _ _ hcur hperiod ih => exact ih.vote hash addr height hcur hperiod
  | confirm _ _ _ hcur _ hfirst ih => exact ih.confirm hcur hfirst
  | forget _ hash hold ih =>
    refine ⟨fun k hk => ?_, ih.count⟩
    have hne : k ≠ hash := fun heq => hold (heq ▸ hk)
    dsimp only
    rw [get_delete_of_ne _ hne]
    exact ih.history k hk

theorem Reached.paced (h : Reached p r) : Paced p r := by
  induction h with
  | start dps hnew =>
    refine ⟨le_rfl, by simp [dPosOnlinePeriod], fun a => Or.inl ?_⟩
    simp [DPoS.stat, DPoS.period, hnew]
  | heart _ addr _ _ hle hword hheight hcur ih =>
    exact ih.message 0 addr .heart _ hle hword hheight hcur
  | vote _ hash addr _ _ hle hword hheight hcur _ ih =>
    exact ih.message hash addr .vote _ hle hword hheight hcur
  | confirm _ hash _ hcur _ _ ih =>
    refine ⟨ih.low, ih.high, fun a => ?_⟩
    dsimp only
    rw [DPoS.stat_confirmedBlockInc _ _ _ hcur]
    exact ih.pace a
  | forget _ _ _ ih => exact ⟨ih.low, ih.high, ih.pace⟩

/-- Account 5 sends two heartbeats and votes for block 9, which is confirmed in the first period. -/
def busyPeriod : Record :=
  let dps := DPoS.heartAndVoteIncDo {} 0 5 .heart 3 4
  let dps := dps.confirmedBlockInc 9 4
  let dps := dps.heartAndVoteIncDo 9 5 .vote 5 5
  { dps := dps.heartAndVoteIncDo 0 5 .heart 7 7
    height := 7
    confirmed := {9}
    votes := {(5, 9)} }

end GoQlc.Online
