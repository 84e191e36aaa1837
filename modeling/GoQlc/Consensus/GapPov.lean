import Mathlib.Data.Finset.Prod
import GoQlc.Types.Block

/-!
# Blocks that wait for a PoV height

A processor stores a block under the height it waits for and then sends the height to the main loop,
which marks it.
-/

namespace GoQlc.GapPov

open Finset Option

/-- `PovMinerRewardHeightGapToLatest` and `POVChainBlocksPerDay`: one day. -/
def blocksPerDay : ℕ := 1440

/-- `dealGapPovToken`: the heights that one run of the loop may pass. -/
def dealGapPovToken : ℕ := 1000

abbrev Gap := ℕ × Hash

/-- `waiting` are the heights that are stored and not yet marked, `walked` says that the blocks of
the lowest height were handed back and its mark is still there, and `ever` are all blocks that were
stored. -/
structure State where
  stored : Finset Gap := ∅
  waiting : List ℕ := []
  gaps : Finset ℕ := ∅
  lastGapHeight : ℕ
  curPovHeight : ℕ
  walked : Bool := false
  handed : Finset Gap := ∅
  ever : Finset Gap := ∅

inductive Action where
  | setPovHeight (height : ℕ)
  | addGapPovBlock (gap : Gap)
  | povHeightAddGap (height : ℕ)
  | pass
  | walk
  | povHeightDeleteGap

variable (hasPovMinerStat : ℕ → Bool)

/-- One step of the node. -/
def State.step (s : State) : Action → Option State
  | .setPovHeight height => if s.walked then none else some { s with curPovHeight := height }
  | .addGapPovBlock gap => some { s with
      stored := insert gap s.stored
      waiting := gap.1 :: s.waiting
      ever := insert gap s.ever }
  | .povHeightAddGap height =>
    if s.walked = false ∧ height ∈ s.waiting then
      some { s with gaps := insert height s.gaps, waiting := s.waiting.erase height }
    else none
  | .pass =>
    if s.walked = false ∧ s.lastGapHeight ≤ s.curPovHeight ∧
        (s.lastGapHeight < blocksPerDay ∨ s.lastGapHeight ∉ s.gaps) then
      some { s with lastGapHeight := s.lastGapHeight + 1 }
    else none
  | .walk =>
    if s.walked = false ∧ s.lastGapHeight ≤ s.curPovHeight ∧ blocksPerDay ≤ s.lastGapHeight ∧
        s.lastGapHeight ∈ s.gaps ∧
        hasPovMinerStat ((s.lastGapHeight - blocksPerDay) / blocksPerDay) = true then
      some { s with
        stored := s.stored.filter fun gap => gap.1 ≠ s.lastGapHeight
        handed := s.handed ∪ s.stored.filter fun gap => gap.1 = s.lastGapHeight
        walked := true }
    else none
  | .povHeightDeleteGap =>
    if s.walked then
      some { s with
        gaps := s.gaps.erase s.lastGapHeight
        lastGapHeight := s.lastGapHeight + 1
        walked := false }
    else none

def State.round (s : State) : Option State :=
  (s.step hasPovMinerStat .pass).or
    ((s.step hasPovMinerStat .walk).bind fun s => s.step hasPovMinerStat .povHeightDeleteGap)

def State.dequeue : ℕ → State → State
  | 0, s => s
  | tokens + 1, s => (s.round hasPovMinerStat).elim s (State.dequeue tokens)

/-- The condition on a step: a block is stored for a height that the loop has still before it, and
the loop leaves a height only when every block stored for it is marked. -/
def InTime (s : State) : Action → Prop
  | .addGapPovBlock gap =>
    blocksPerDay ≤ gap.1 ∧ s.lastGapHeight ≤ gap.1 ∧ (s.walked = true → s.lastGapHeight < gap.1)
  | .pass => s.lastGapHeight ∉ s.waiting
  | _ => True

inductive Reached : State → Prop
  | start (lastGapHeight curPovHeight : ℕ) : Reached { lastGapHeight, curPovHeight }
  | step {s s' : State} {a : Action} (h : Reached s) (htime : InTime s a)
      (hstep : s.step hasPovMinerStat a = some s') : Reached s'

/-- Every block that is still stored lies before the loop and is marked or about to be. -/
structure Inv (s : State) : Prop where
  ahead : ∀ gap ∈ s.stored, blocksPerDay ≤ gap.1 ∧ s.lastGapHeight ≤ gap.1 ∧
    (s.walked = true → s.lastGapHeight < gap.1) ∧ (gap.1 ∈ s.gaps ∨ gap.1 ∈ s.waiting)
  kept : ∀ gap ∈ s.ever, gap ∈ s.stored ∨ gap ∈ s.handed

variable {hasPovMinerStat} {s s' : State}

theorem Inv.step (h : Inv s) {a : Action} (htime : InTime s a)
    (hstep : s.step hasPovMinerStat a = some s') : Inv s' := by
  cases a with
  | setPovHeight height =>
    obtain ⟨-, ⟨⟩⟩ := ite_none_left_eq_some.mp hstep
    exact ⟨h.ahead, h.kept⟩
  | addGapPovBlock gap =>
    cases hstep
    obtain ⟨hday, hlast, hwalked⟩ := htime
    constructor
    · intro g hg
      rcases mem_insert.mp hg with rfl | hg
      · exact ⟨hday, hlast, hwalked, Or.inr List.mem_cons_self⟩
      · obtain ⟨hday, hlast, hwalked, hmark⟩ := h.ahead g hg
        exact ⟨hday, hlast, hwalked, hmark.imp_right (List.mem_cons_of_mem _)⟩
    · intro g hg
      rcases mem_insert.mp hg with rfl | hg
      · exact Or.inl (mem_insert_self _ _)
      · exact (h.kept g hg).imp_left (mem_insert_of_mem)
  | povHeightAddGap height =>
    obtain ⟨-, ⟨⟩⟩ := ite_none_right_eq_some.mp hstep
    refine ⟨fun g hg => ?_, h.kept⟩
    obtain ⟨hday, hlast, hwalked, hmark⟩ := h.ahead g hg
    refine ⟨hday, hlast, hwalked, ?_⟩
    by_cases hheight : g.1 = height
    · exact Or.inl (hheight ▸ mem_insert_self _ _)
    · exact hmark.imp (mem_insert_of_mem) (List.mem_erase_of_ne hheight).mpr
  | pass =>
    obtain ⟨⟨hidle, -, hpass⟩, ⟨⟩⟩ := ite_none_right_eq_some.mp hstep
    refine ⟨fun g hg => ?_, h.kept⟩
    obtain ⟨hday, hlast, hwalked, hmark⟩ := h.ahead g hg
    have hne : s.lastGapHeight ≠ g.1 := by
      intro heq
      rcases hpass with hlow | hunmarked
      · omega
      · rw [← heq] at hmark
        exact hmark.elim hunmarked htime
    refine ⟨hday, Nat.lt_of_le_of_ne hlast hne, fun hw => ?_, hmark⟩
    rw [hidle] at hw
    cases hw
  | walk =>
    obtain ⟨-, ⟨⟩⟩ := ite_none_right_eq_some.mp hstep
    constructor
    · intro g hg
      obtain ⟨hg, hne⟩ := mem_filter.mp hg
      obtain ⟨hday, hlast, -, hmark⟩ := h.ahead g hg
      exact ⟨hday, hlast, fun _ => Nat.lt_of_le_of_ne hlast (Ne.symm hne), hmark⟩
    · intro g hg
      rcases h.kept g hg with hstored | hhanded
      · by_cases heq : g.1 = s.lastGapHeight
        · exact Or.inr (mem_union_right _ (mem_filter.mpr ⟨hstored, heq⟩))
        · exact Or.inl (mem_filter.mpr ⟨hstored, heq⟩)
      · exact Or.inr (mem_union_left _ hhanded)
  | povHeightDeleteGap =>
    obtain ⟨hwalked, ⟨⟩⟩ := ite_none_right_eq_some.mp hstep
    refine ⟨fun g hg => ?_, h.kept⟩
    obtain ⟨hday, -, hlt, hmark⟩ := h.ahead g hg
    have hlt := hlt hwalked
    refine ⟨hday, hlt, (fun hw => by cases hw), hmark.imp_left fun hmem => ?_⟩
    exact mem_erase.mpr ⟨Nat.ne_of_gt hlt, hmem⟩

theorem Reached.inv (h : Reached hasPovMinerStat s) : Inv s := by
  induction h with
  | start => exact ⟨by simp, by simp⟩
  | step _ htime hstep ih => exact ih.step htime hstep

theorem Inv.handed_of_lt (h : Inv s) {gap : Gap} (hgap : gap ∈ s.ever)
    (hlt : gap.1 < s.lastGapHeight) : gap ∈ s.handed := by
  rcases h.kept gap hgap with hstored | hhanded
  · have := (h.ahead gap hstored).2.1
    omega
  · exact hhanded

section
variable (h : Inv s) (hidle : s.walked = false) (hstat : ∀ day, hasPovMinerStat day = true)
  (hmarked : ∀ g ∈ s.waiting, s.curPovHeight < g)

include h hidle hstat hmarked

theorem Inv.round (hheight : s.lastGapHeight ≤ s.curPovHeight) :
    ∃ s', s.round hasPovMinerStat = some s' ∧ Inv s' ∧ s'.walked = false ∧
      s'.waiting = s.waiting ∧ s'.curPovHeight = s.curPovHeight ∧
      s'.lastGapHeight = s.lastGapHeight + 1 ∧ s'.ever = s.ever := by
  have htime : InTime s .pass := fun hmem => absurd (hmarked _ hmem) (by omega)
  unfold State.round
  by_cases hpass : s.lastGapHeight < blocksPerDay ∨ s.lastGapHeight ∉ s.gaps
  · have hstep : s.step hasPovMinerStat .pass =
        some { s with lastGapHeight := s.lastGapHeight + 1 } := if_pos ⟨hidle, hheight, hpass⟩
    rw [hstep]
    exact ⟨_, rfl, h.step htime hstep, hidle, rfl, rfl, rfl, rfl⟩
  · have hnone : s.step hasPovMinerStat .pass = none := if_neg fun hc => hpass hc.2.2
    push Not at hpass
    obtain ⟨s₁, hwalk⟩ : ∃ s₁, s.step hasPovMinerStat .walk = some s₁ :=
      ⟨_, if_pos ⟨hidle, hheight, hpass.1, hpass.2, hstat _⟩⟩
    have hinv := h.step (a := .walk) trivial hwalk
    obtain ⟨-, ⟨⟩⟩ := ite_none_right_eq_some.mp hwalk
    rw [hnone, hwalk]
    have hdone := @Inv.step hasPovMinerStat _ _ hinv .povHeightDeleteGap trivial rfl
    exact ⟨_, rfl, hdone, rfl, rfl, rfl, rfl, rfl⟩

theorem Inv.handed_dequeue {tokens : ℕ} (htokens : s.curPovHeight < s.lastGapHeight + tokens)
    {gap : Gap} (hgap : gap ∈ s.ever) (hheight : gap.1 ≤ s.curPovHeight) :
    gap ∈ (s.dequeue hasPovMinerStat tokens).handed := by
  induction tokens generalizing s with
  | zero => exact h.handed_of_lt hgap (by omega)
  | succ tokens ih =>
    rw [State.dequeue]
    by_cases hlast : s.lastGapHeight ≤ s.curPovHeight
    · obtain ⟨s', hround, h', hidle', hwaiting, hcur, hnext, hever⟩ :=
        h.round hidle hstat hmarked hlast
      rw [hround]
      apply ih h' hidle'
      · rw [hwaiting, hcur]
        exact hmarked
      · omega
      · rwa [hever]
      · omega
    · have hround : s.round hasPovMinerStat = none := by
        simp [State.round, State.step, hlast]
      rw [hround]
      exact h.handed_of_lt hgap (by omega)

end

def State.run (hasPovMinerStat : ℕ → Bool) (s : State) (actions : List Action) : Option State :=
  actions.foldlM (State.step hasPovMinerStat) s

def oneGap : State where
  stored := {(2880, 5)}
  gaps := {2880}
  lastGapHeight := 2880
  curPovHeight := 2880
  ever := {(2880, 5)}

end GoQlc.GapPov
