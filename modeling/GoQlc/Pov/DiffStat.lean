import Mathlib.Data.List.TakeWhile
import GoQlc.Pov.Verify

/-!
# The difficulty statistics of a day

The statistic of a day is computed when its last block is in the best chain, and after a
reorganisation from the day of the fork point on.
-/

namespace GoQlc.Pov.DiffStat

open Wire List

def povChainBlocksPerDay : ℕ := 1440

structure PovDiffDayStat where
  avgDiffRatio : ℕ := 0
  maxDiffRatio : ℕ := 0
  minDiffRatio : ℕ := 0
  maxBlockTime : UInt32 := 0
  minBlockTime : UInt32 := 0
deriving DecidableEq, Repr

section Update

-- The ratio of the limit to a target, as a 64-bit integer.
variable (calcDifficultyRatio : ℤ → ℕ)

def visit (s : PovDiffDayStat × ℤ) (header : PovBaseHeader) : PovDiffDayStat × ℤ :=
  let blkNormTarget := getNormTargetInt header
  let blkDiffRatio := calcDifficultyRatio blkNormTarget
  let blkTime := header.timestamp
  ({ s.1 with
      maxDiffRatio := if s.1.maxDiffRatio = 0 ∨ s.1.maxDiffRatio < blkDiffRatio then blkDiffRatio
        else s.1.maxDiffRatio
      minDiffRatio := if s.1.minDiffRatio = 0 ∨ blkDiffRatio < s.1.minDiffRatio then blkDiffRatio
        else s.1.minDiffRatio
      maxBlockTime := if s.1.maxBlockTime = 0 ∨ s.1.maxBlockTime < blkTime then blkTime
        else s.1.maxBlockTime
      minBlockTime := if s.1.minBlockTime = 0 ∨ blkTime < s.1.minBlockTime then blkTime
        else s.1.minBlockTime },
    s.2 + blkNormTarget)

def dayHeaders (headers : ℕ → PovBaseHeader) (day n : ℕ) : List PovBaseHeader :=
  (List.range n).map fun i => headers (day * povChainBlocksPerDay + i)

@[irreducible] def dayStat (headers : ℕ → PovBaseHeader) (day : ℕ) : PovDiffDayStat :=
  let s := (dayHeaders headers day povChainBlocksPerDay).foldl (visit calcDifficultyRatio) ({}, 0)
  let avgTarget := s.2 / povChainBlocksPerDay
  { s.1 with avgDiffRatio := calcDifficultyRatio avgTarget }

def daysToUpdate (latest start : ℕ) : List ℕ :=
  (List.range' start (latest / povChainBlocksPerDay + 1 - start)).takeWhile fun day =>
    day * povChainBlocksPerDay + povChainBlocksPerDay - 1 ≤ latest

def updateDiffDayStatInSync (headers : ℕ → PovBaseHeader) (latest : ℕ) (forkHeight : Option ℕ)
    (stats : Table ℕ PovDiffDayStat) : Table ℕ PovDiffDayStat :=
  if latest < povChainBlocksPerDay then stats
  else
    let endDayIndex := latest / povChainBlocksPerDay
    let startDayIndex := forkHeight.elim endDayIndex fun h => h + 1 / povChainBlocksPerDay
    let update (start : ℕ) (stats : Table ℕ PovDiffDayStat) :=
      (daysToUpdate latest start).foldl
        (fun stats day => stats.put day (dayStat calcDifficultyRatio headers day)) stats
    match stats.keys.max? with
    | none => update 0 stats
    | some last =>
      -- The days from the one of the head on are not complete.
      let kept := (List.range' endDayIndex (last + 1 - endDayIndex)).foldl Table.delete stats
      update (if last < startDayIndex then last + 1 else startDayIndex) kept

end Update

/-- The best chain by height, the height of its head, and the stored statistics. -/
structure State where
  headers : ℕ → PovBaseHeader
  latest : ℕ
  stats : Table ℕ PovDiffDayStat := ∅

section Runs

variable (calcDifficultyRatio : ℤ → ℕ)

/-- The end of `InsertBlock`, once the best chain is as it will be. -/
def State.inserted (s : State) (forkHeight : Option ℕ) : State :=
  if (s.latest + 1) % povChainBlocksPerDay = 0 ∨ forkHeight.isSome then
    { s with
      stats := updateDiffDayStatInSync calcDifficultyRatio s.headers s.latest forkHeight s.stats }
  else s

/-- The states of runs. -/
inductive Reached : State → Prop
  | start (headers : ℕ → PovBaseHeader) (latest : ℕ) : Reached { headers, latest }
  | restart {s : State} (h : Reached s) :
      Reached { s with
        stats := updateDiffDayStatInSync calcDifficultyRatio s.headers s.latest none s.stats }
  | append {s : State} (h : Reached s) (headers : ℕ → PovBaseHeader)
      (hsame : ∀ k ≤ s.latest, headers k = s.headers k) :
      Reached (({ s with headers, latest := s.latest + 1 } : State).inserted calcDifficultyRatio none)
  | reorganise {s : State} (h : Reached s) (headers : ℕ → PovBaseHeader) (forkHeight latest : ℕ)
      (hfork : forkHeight < latest) (hsame : ∀ k ≤ forkHeight, headers k = s.headers k)
      (hdays : ∀ day stat, s.stats.get day = some stat →
        (day + 1) * povChainBlocksPerDay ≤ forkHeight + 1) :
      Reached (({ s with headers, latest } : State).inserted calcDifficultyRatio (some forkHeight))

end Runs

variable {calcDifficultyRatio : ℤ → ℕ} {headers : ℕ → PovBaseHeader} {latest : ℕ}

variable {day : ℕ} {stats : Table ℕ PovDiffDayStat} {stat : PovDiffDayStat}

theorem get_foldl_put {days : List ℕ}
    (h : (days.foldl (fun stats day => stats.put day (dayStat calcDifficultyRatio headers day))
      stats).get day = some stat) :
    day ∈ days ∧ stat = dayStat calcDifficultyRatio headers day ∨ stats.get day = some stat := by
  induction days generalizing stats with
  | nil => exact Or.inr h
  | cons first days ih =>
    rcases ih h with ⟨hmem, hstat⟩ | hold
    · exact Or.inl ⟨mem_cons_of_mem first hmem, hstat⟩
    · rw [Table.get_put] at hold
      split_ifs at hold with hday
      · subst hday
        exact Or.inl ⟨mem_cons_self, (Option.some.inj hold).symm⟩
      · exact Or.inr hold

theorem get_foldl_delete {days : List ℕ} (h : (days.foldl Table.delete stats).get day = some stat) :
    stats.get day = some stat := by
  induction days generalizing stats with
  | nil => exact h
  | cons first days ih =>
    have hold := ih h
    rw [Table.get_delete] at hold
    split_ifs at hold with hday
    exact hold

theorem le_of_mem_daysToUpdate {start : ℕ} (h : day ∈ daysToUpdate latest start) :
    day * povChainBlocksPerDay + povChainBlocksPerDay - 1 ≤ latest := by
  unfold daysToUpdate at h
  have hcomplete := mem_takeWhile_imp h
  exact of_decide_eq_true hcomplete

theorem get_updateDiffDayStatInSync {forkHeight : Option ℕ}
    (h : (updateDiffDayStatInSync calcDifficultyRatio headers latest forkHeight stats).get day =
      some stat) :
    (day + 1) * povChainBlocksPerDay ≤ latest + 1 ∧
        stat = dayStat calcDifficultyRatio headers day ∨
      stats.get day = some stat := by
  have hput : ∀ start (stats' : Table ℕ PovDiffDayStat),
      ((daysToUpdate latest start).foldl
        (fun stats day => stats.put day (dayStat calcDifficultyRatio headers day)) stats').get day =
          some stat →
      (day + 1) * povChainBlocksPerDay ≤ latest + 1 ∧
        stat = dayStat calcDifficultyRatio headers day ∨ stats'.get day = some stat := by
    intro start stats' hget
    refine (get_foldl_put hget).imp_left fun hnew => ⟨?_, hnew.2⟩
    have hcomplete := le_of_mem_daysToUpdate hnew.1
    rw [Nat.add_mul, Nat.one_mul]
    omega
  unfold updateDiffDayStatInSync at h
  split_ifs at h with hshort
  · exact Or.inr h
  · cases hlast : stats.keys.max? with
    | none =>
      rw [hlast] at h
      exact hput _ _ h
    | some last =>
      rw [hlast] at h
      exact (hput _ _ h).imp_right get_foldl_delete

theorem dayStat_congr {headers' : ℕ → PovBaseHeader}
    (h : ∀ k < (day + 1) * povChainBlocksPerDay, headers' k = headers k) :
    dayStat calcDifficultyRatio headers' day = dayStat calcDifficultyRatio headers day := by
  have hheaders : dayHeaders headers' day povChainBlocksPerDay =
      dayHeaders headers day povChainBlocksPerDay := by
    unfold dayHeaders
    refine map_congr_left fun i hi => h _ ?_
    have hlt := mem_range.mp hi
    rw [Nat.add_mul, Nat.one_mul]
    omega
  unfold dayStat
  rw [hheaders]

def Current (calcDifficultyRatio : ℤ → ℕ) (s : State) : Prop :=
  ∀ day stat, s.stats.get day = some stat →
    (day + 1) * povChainBlocksPerDay ≤ s.latest + 1 ∧
      stat = dayStat calcDifficultyRatio s.headers day

theorem Current.update {s : State} (h : Current calcDifficultyRatio s) (forkHeight : Option ℕ) :
    Current calcDifficultyRatio { s with
      stats := updateDiffDayStatInSync calcDifficultyRatio s.headers s.latest forkHeight s.stats } :=
  fun day stat hget => (get_updateDiffDayStatInSync hget).elim id (h day stat)

theorem Current.inserted {s : State} (h : Current calcDifficultyRatio s) (forkHeight : Option ℕ) :
    Current calcDifficultyRatio (s.inserted calcDifficultyRatio forkHeight) := by
  unfold State.inserted
  split_ifs
  · exact h.update forkHeight
  · exact h

/-- In a run that replaces no block of a day with a stored statistic, every stored statistic is the
one of its day in the best chain. -/
theorem stats_follow_chain {s : State} (h : Reached calcDifficultyRatio s) :
    Current calcDifficultyRatio s := by
  induction h with
  | start headers latest =>
    intro day stat hget
    cases hget
  | restart _ ih => exact ih.update none
  | @append s _ headers hsame ih =>
    apply Current.inserted
    intro day stat hget
    obtain ⟨hcomplete, hstat⟩ := ih day stat hget
    refine ⟨by dsimp only; omega, hstat.trans (dayStat_congr fun k hk => (hsame k ?_).symm)⟩
    omega
  | @reorganise s _ headers forkHeight latest hfork hsame hdays ih =>
    apply Current.inserted
    intro day stat hget
    have hday := hdays day stat hget
    refine ⟨by dsimp only; omega,
      (ih day stat hget).2.trans (dayStat_congr fun k hk => (hsame k ?_).symm)⟩
    omega

/-! ## A block of the day is replaced -/

def flatChain (timestamp : UInt32) : ℕ → PovBaseHeader := fun height =>
  { version := 0, previous := 0, merkleRoot := 0, timestamp, bits := 486604799, nonce := 0, hash := 0,
    height := UInt64.ofNat height }

def twoDays : State where
  headers := flatChain 1
  latest := 2879
  stats := updateDiffDayStatInSync (fun _ => 1) (flatChain 1) 2879 none ∅

theorem twoDays_follow_chain :
    Reached (fun _ => 1) twoDays ∧ Current (fun _ => 1) twoDays := by
  have h : Reached (fun _ => 1) twoDays := .restart (.start (flatChain 1) 2879)
  exact ⟨h, stats_follow_chain h⟩

theorem foldl_visit_maxBlockTime_le {bound : UInt32} {headers : List PovBaseHeader}
    (h : ∀ header ∈ headers, header.timestamp ≤ bound) {s : PovDiffDayStat × ℤ}
    (hs : s.1.maxBlockTime ≤ bound) :
    (headers.foldl (visit calcDifficultyRatio) s).1.maxBlockTime ≤ bound := by
  induction headers generalizing s with
  | nil => exact hs
  | cons header headers ih =>
    apply ih fun other hother => h other (mem_cons_of_mem header hother)
    unfold visit
    dsimp only
    split_ifs
    · exact h header mem_cons_self
    · exact hs

theorem maxBlockTime_dayStat_ge (calcDifficultyRatio : ℤ → ℕ) (headers : ℕ → PovBaseHeader)
    (day : ℕ) :
    (headers (day * povChainBlocksPerDay + 1439)).timestamp ≤
      (dayStat calcDifficultyRatio headers day).maxBlockTime := by
  have hsplit : dayHeaders headers day povChainBlocksPerDay =
      dayHeaders headers day 1439 ++ [headers (day * povChainBlocksPerDay + 1439)] := by
    rw [dayHeaders, show povChainBlocksPerDay = 1439 + 1 from rfl, range_succ, map_append]
    rfl
  unfold dayStat
  rw [hsplit, foldl_append]
  generalize (dayHeaders headers day 1439).foldl (visit calcDifficultyRatio) ({}, 0) = s
  change _ ≤ (visit calcDifficultyRatio s _).1.maxBlockTime
  unfold visit
  dsimp only
  split_ifs with hlate
  · exact UInt32.le_refl _
  · exact UInt32.not_lt.mp fun hlt => hlate (Or.inr hlt)

/-- The fork height is taken for a day, so the statistic of the second day is not computed again. -/
theorem stat_outdated_after_fork :
    ∃ stat,
      (({ twoDays with
          headers := fun height => if height ≤ 2878 then flatChain 1 height else flatChain 2 height
          latest := 2880 } : State).inserted (fun _ => 1) (some 2878)).stats.get 1 = some stat ∧
      stat ≠ dayStat (fun _ => 1)
        (fun height => if height ≤ 2878 then flatChain 1 height else flatChain 2 height) 1 := by
  refine ⟨dayStat (fun _ => 1) (flatChain 1) 1, rfl, fun heq => ?_⟩
  have hnew := maxBlockTime_dayStat_ge (fun _ => 1)
    (fun height => if height ≤ 2878 then flatChain 1 height else flatChain 2 height) 1
  have hold : (dayStat (fun _ => 1) (flatChain 1) 1).maxBlockTime ≤ 1 := by
    unfold dayStat
    apply foldl_visit_maxBlockTime_le
    · intro header hheader
      unfold dayHeaders at hheader
      obtain ⟨i, -, rfl⟩ := mem_map.mp hheader
      exact UInt32.le_refl 1
    · decide
  rw [← heq] at hnew
  exact absurd (UInt32.le_trans hnew hold) (by decide)

end GoQlc.Pov.DiffStat
