import Mathlib.Data.List.Nodup
import Mathlib.Tactic.IntervalCases
import GoQlc.Lib.Fair
import GoQlc.Types.Block

/-!
# Releasing the blocks that wait for transactions

A block that waits for transactions is released by the notification of the last of them or by a
timer.
-/

namespace GoQlc.Pov.Release

open List Relation

def blockChanSize : ℕ := 8192

structure PovPendingBlock where
  hash : Hash
  gapTxs : List Hash
deriving DecidableEq, Repr

/-- How far the loop is with `processBlock`. -/
inductive Phase where
  | idle
  -- asks `HasPendingBlock`
  | received (b : Hash)
  | verifying (b : Hash)
  -- calls `addTxPendingBlock`
  | parking (b : Hash) (gapTxs : List Hash)
deriving DecidableEq, Repr

/-- A call that has `txPendingMux`: the block it sends and those that are still to release. -/
structure Holder where
  sending : Option Hash
  rest : List Hash
deriving DecidableEq, Repr

structure State where
  pendingBlocks : List PovPendingBlock
  blockInCh : List Hash
  blockHighCh : List Hash
  blockNormCh : List Hash
  holder : Option Holder
  loop : Phase

def State.start (pendingBlocks : List PovPendingBlock) : State :=
  ⟨pendingBlocks, [], [], [], none, .idle⟩

def PovPendingBlock.fill (found : Hash → Bool) (b : PovPendingBlock) : PovPendingBlock :=
  { b with gapTxs := b.gapTxs.filter fun tx => !found tx }

inductive Action where
  | addBlock (b : Hash)
  | takeHigh
  | takeNorm
  | hasPendingBlock
  -- the transactions that the verifier misses, if any
  | verify (gapTxs : List Hash)
  | addTxPendingBlock
  | onAddStateBlock (tx : Hash)
  | onCheckTxPendingBlocksTimer (confirmed : Hash → Bool)
  | checkAndSetBlockInChan
  | send
  | unlock

def Action.released (s : State) : Action → List PovPendingBlock
  | .onAddStateBlock tx =>
    s.pendingBlocks.filter fun b => tx ∈ b.gapTxs ∧ (b.fill (· = tx)).gapTxs = []
  | .onCheckTxPendingBlocksTimer confirmed =>
    s.pendingBlocks.filter fun b => (b.fill confirmed).gapTxs = []
  | _ => []

/-- Takes the lock, fills the gaps and takes the released blocks out of the table. -/
def State.release (s : State) (found : Hash → Bool) (released : List PovPendingBlock) :
    Option State :=
  if s.holder = none then
    some { s with
      pendingBlocks := (s.pendingBlocks.filter (· ∉ released)).map (·.fill found)
      holder := some ⟨none, released.map PovPendingBlock.hash⟩ }
  else none

/-- One step of a goroutine; `none` while it has to wait. -/
def step (room : ℕ) (s : State) (a : Action) : Option State :=
  match a with
  | .addBlock b =>
    if b ∈ s.blockInCh then some s
    else if s.blockNormCh.length < blockChanSize then
      some { s with blockInCh := b :: s.blockInCh, blockNormCh := s.blockNormCh ++ [b] }
    else none
  | .takeHigh =>
    match s.loop, s.blockHighCh with
    | .idle, b :: rest =>
      some { s with blockHighCh := rest, blockInCh := s.blockInCh.erase b, loop := .received b }
    | _, _ => none
  | .takeNorm =>
    match s.loop, s.blockNormCh with
    | .idle, b :: rest =>
      some { s with blockNormCh := rest, blockInCh := s.blockInCh.erase b, loop := .received b }
    | _, _ => none
  | .hasPendingBlock =>
    match s.loop, s.holder with
    | .received b, none =>
      some { s with
        loop := if b ∈ s.pendingBlocks.map PovPendingBlock.hash then .idle else .verifying b }
    | _, _ => none
  | .verify gapTxs =>
    match s.loop with
    | .verifying b => some { s with loop := if gapTxs = [] then .idle else .parking b gapTxs }
    | _ => none
  | .addTxPendingBlock =>
    match s.loop, s.holder with
    | .parking b gapTxs, none =>
      some { s with
        pendingBlocks := s.pendingBlocks.filter (·.hash ≠ b) ++ [⟨b, gapTxs⟩], loop := .idle }
    | _, _ => none
  | .onAddStateBlock tx => s.release (· = tx) (a.released s)
  | .onCheckTxPendingBlocksTimer confirmed => s.release confirmed (a.released s)
  | .checkAndSetBlockInChan =>
    match s.holder with
    | some ⟨none, b :: rest⟩ =>
      if b ∈ s.blockInCh then some { s with holder := some ⟨none, rest⟩ }
      else some { s with holder := some ⟨some b, rest⟩, blockInCh := b :: s.blockInCh }
    | _ => none
  | .send =>
    match s.holder with
    | some ⟨some b, rest⟩ =>
      if s.blockHighCh.length < room then
        some { s with holder := some ⟨none, rest⟩, blockHighCh := s.blockHighCh ++ [b] }
      else none
    | _ => none
  | .unlock => if s.holder = some ⟨none, []⟩ then some { s with holder := none } else none

variable {room : ℕ} {s s' : State} {a : Action}

/-! ## The condition -/

def Fits (room : ℕ) (s : State) (a : Action) : Prop :=
  (a.released s).length + s.blockHighCh.length ≤ room

namespace Holder

/-- The blocks that the call has still to put into the channel, and the steps it has to take. -/
def blocks (w : Holder) : ℕ := w.sending.toList.length + w.rest.length
def steps (w : Holder) : ℕ := w.sending.toList.length + 2 * w.rest.length

end Holder

def Roomy (room : ℕ) (s : State) : Prop :=
  ∀ w ∈ s.holder, w.blocks + s.blockHighCh.length ≤ room

def Action.Holds : Action → Prop
  | .checkAndSetBlockInChan | .send | .unlock => True
  | _ => False

def Action.Works : Action → Prop
  | .hasPendingBlock | .verify _ | .addTxPendingBlock => True
  | _ => False

def Phase.rank : Phase → ℕ
  | .idle => 0
  | .parking _ _ => 1
  | .verifying _ => 2
  | .received _ => 3

theorem holder_step (h : step room s a = some s') :
    (a.Holds ∧ s.holder ≠ none ∧ ∀ w ∈ s.holder, ∀ w' ∈ s'.holder, w'.steps < w.steps ∧
        w'.blocks + s'.blockHighCh.length ≤ w.blocks + s.blockHighCh.length) ∨
      (s.holder = none ∧ s'.blockHighCh = s.blockHighCh ∧
        ∀ w ∈ s'.holder, w.blocks = (a.released s).length) ∨
      ¬a.Holds ∧ s'.holder = s.holder ∧ s'.blockHighCh.length ≤ s.blockHighCh.length := by
  cases a <;> grind [step, State.release, Action.Holds, Holder.blocks, Holder.steps]

theorem loop_step (h : step room s a = some s') (hloop : s.loop ≠ .idle) :
    a.Works ∧ s'.loop.rank < s.loop.rank ∨ ¬a.Works ∧ s'.loop = s.loop := by
  cases a <;> grind [step, State.release, Action.Works, Phase.rank]

theorem high_step {b : Hash} (h : step room s a = some s') (hb : b ∈ s.blockHighCh) :
    a = .takeHigh ∧ s.blockHighCh.head? = some b ∨
      b ∈ s'.blockHighCh ∧ s'.blockHighCh.idxOf b ≤ s.blockHighCh.idxOf b ∧
        (a = .takeHigh → s'.blockHighCh.idxOf b < s.blockHighCh.idxOf b) := by
  cases a <;> grind [step, State.release]

theorem Roomy.step (h : Roomy room s) (hfits : Fits room s a) (hstep : step room s a = some s') :
    Roomy room s' := by
  intro w' hw'
  unfold Fits at hfits
  rcases holder_step hstep with ⟨-, hheld, hsmaller⟩ | ⟨-, hhigh, hblocks⟩ | ⟨-, hholder, hhigh⟩
  · obtain ⟨w, hw⟩ := Option.ne_none_iff_exists'.mp hheld
    have hle := h w hw
    have hless := (hsmaller w hw w' hw').2
    omega
  · rw [hhigh, hblocks w' hw']
    exact hfits
  · have hle := h w' (hholder ▸ hw')
    omega

theorem Roomy.exists_holds (h : Roomy room s) (hholder : s.holder ≠ none) :
    ∃ a : Action, a.Holds ∧ (Release.step room s a).isSome := by
  obtain ⟨⟨sending, rest⟩, hw⟩ := Option.ne_none_iff_exists'.mp hholder
  have hroom := h _ hw
  cases sending with
  | some b =>
    refine ⟨.send, trivial, ?_⟩
    have hlt : s.blockHighCh.length < room := by
      simp only [Holder.blocks, Option.toList_some, length_singleton] at hroom
      omega
    simp [Release.step, hw, hlt]
  | none =>
    cases rest with
    | nil => exact ⟨.unlock, trivial, by simp [Release.step, hw]⟩
    | cons b rest =>
      refine ⟨.checkAndSetBlockInChan, trivial, ?_⟩
      simp only [Release.step, hw]
      split_ifs <;> rfl

theorem exists_works (hholder : s.holder = none) (hloop : s.loop ≠ .idle) :
    ∃ a : Action, a.Works ∧ (step room s a).isSome := by
  cases hphase : s.loop with
  | idle => exact absurd hphase hloop
  | received b => exact ⟨.hasPendingBlock, trivial, by simp [step, hphase, hholder]⟩
  | verifying b => exact ⟨.verify [], trivial, by simp [step, hphase]⟩
  | parking b gapTxs => exact ⟨.addTxPendingBlock, trivial, by simp [step, hphase, hholder]⟩

theorem takeHigh_isSome (hloop : s.loop = .idle) {b : Hash} (hb : b ∈ s.blockHighCh) :
    (step room s .takeHigh).isSome := by
  cases hhigh : s.blockHighCh with
  | nil => simp [hhigh] at hb
  | cons b rest => simp [step, hloop, hhigh]

def State.Holding (s : State) (b : Hash) : Prop :=
  match s.holder with
  | none => False
  | some w => w.sending = some b ∨ b ∈ w.rest

theorem holding_step {b : Hash} (h : step room s a = some s') (hb : s.Holding b) :
    s'.Holding b ∨ b ∈ s'.blockHighCh ∨ a = .checkAndSetBlockInChan ∧ b ∈ s.blockInCh := by
  cases a <;> grind [step, State.release, State.Holding]

/-! ## Fair runs -/

/-- Who has the lock goes on if it can, so does the loop, and its select takes from the channel of
the released blocks from time to time. -/
structure FairRun (t : Endless (step room)) : Prop where
  holds : t.Fair Action.Holds
  works : t.Fair Action.Works
  takes : t.Fair (· = .takeHigh)

section Run

variable {t : Endless (step room)} (hroomy : ∀ n, Roomy room (t.state n)) (hfair : FairRun t)
  {n : ℕ} {b : Hash}

include hroomy hfair

theorem eventually_of_held {P : ℕ → Prop}
    (hheld : (∀ m ≥ n, ¬P m) → ∀ m ≥ n, (t.state m).holder ≠ none) : ∃ m ≥ n, P m := by
  apply hfair.holds.eventually fun m => (t.state m).holder.elim 0 Holder.steps
  intro hnever
  replace hheld := hheld hnever
  refine ⟨fun m hm => ?_, fun k => ?_⟩
  · obtain ⟨w, hw⟩ := Option.ne_none_iff_exists'.mp (hheld m hm)
    obtain ⟨w', hw'⟩ := Option.ne_none_iff_exists'.mp (hheld (m + 1) (by omega))
    rcases holder_step (t.next m) with ⟨-, -, hsmaller⟩ | ⟨hnone, -⟩ | ⟨hother, hsame, -⟩
    · have hlt := (hsmaller w hw w' hw').1
      simp only [hw, hw', Option.elim_some]
      omega
    · exact absurd hnone (hheld m hm)
    · rw [hsame]
      exact ⟨le_rfl, fun hact => absurd hact hother⟩
  · exact ⟨max n k, le_max_right n k, (hroomy _).exists_holds (hheld _ (le_max_left n k))⟩

theorem exists_idle (n : ℕ) : ∃ m ≥ n, (t.state m).loop = .idle := by
  apply hfair.works.eventually fun m => (t.state m).loop.rank
  intro hnever
  refine ⟨fun m hm => ?_, fun k => ?_⟩
  · rcases loop_step (t.next m) (hnever m hm) with ⟨-, hlt⟩ | ⟨hother, hsame⟩
    · exact ⟨hlt.le, fun _ => hlt⟩
    · rw [hsame]
      exact ⟨le_rfl, fun hact => absurd hact hother⟩
  · obtain ⟨m, hm, hunlocked⟩ : ∃ m ≥ max n k, (t.state m).holder = none :=
      eventually_of_held hroomy hfair id
    have hle := le_max_left n k
    have hle' := le_max_right n k
    exact ⟨m, by omega, exists_works hunlocked (hnever m (by omega))⟩

theorem exists_taken (hb : b ∈ (t.state n).blockHighCh) :
    ∃ m ≥ n, t.act m = .takeHigh ∧ (t.state m).blockHighCh.head? = some b := by
  apply hfair.takes.eventually fun m => (t.state m).blockHighCh.idxOf b
  intro hnever
  have hstays : ∀ m ≥ n, b ∈ (t.state m).blockHighCh := by
    intro m hm
    induction m, hm using Nat.le_induction with
    | base => exact hb
    | succ m hm ih => exact ((high_step (t.next m) ih).resolve_left (hnever m hm)).1
  refine ⟨fun m hm => ?_, fun k => ?_⟩
  · exact ((high_step (t.next m) (hstays m hm)).resolve_left (hnever m hm)).2
  · obtain ⟨m, hm, hidle⟩ := exists_idle hroomy hfair (max n k)
    have hle := le_max_left n k
    have hle' := le_max_right n k
    exact ⟨m, by omega, .takeHigh, rfl, takeHigh_isSome hidle (hstays m (by omega))⟩

theorem exists_sent (hb : (t.state n).Holding b) :
    ∃ m ≥ n, b ∈ (t.state (m + 1)).blockHighCh ∨
      t.act m = .checkAndSetBlockInChan ∧ b ∈ (t.state m).blockInCh := by
  apply eventually_of_held hroomy hfair
  intro hnever m hm
  have hstays : (t.state m).Holding b := by
    induction m, hm using Nat.le_induction with
    | base => exact hb
    | succ m hm ih => exact (holding_step (t.next m) ih).resolve_right (hnever m hm)
  intro hnone
  simp [State.Holding, hnone] at hstays

end Run

def oneBlock : List Action :=
  [.onAddStateBlock 1, .checkAndSetBlockInChan, .send, .unlock, .takeHigh, .hasPendingBlock,
    .verify []]

def oneBlockState : ℕ → State
  | 0 => .start [⟨7, [1]⟩]
  | n + 1 =>
    (step 819 (oneBlockState n) (oneBlock.getD n (.addBlock 7))).getD (oneBlockState n)

theorem oneBlockState_end (n : ℕ) : oneBlockState (n + 8) = ⟨[], [7], [], [7], none, .idle⟩ := by
  induction n with
  | zero => rfl
  | succ n ih =>
    unfold oneBlockState
    rw [ih]
    rfl

def oneBlockRun : Endless (step 819) where
  state := oneBlockState
  act n := oneBlock.getD n (.addBlock 7)
  next n := by
    rcases Nat.lt_or_ge n 8 with h | h
    · interval_cases n <;> rfl
    · obtain ⟨k, rfl⟩ := Nat.exists_eq_add_of_le' h
      rw [show k + 8 + 1 = k + 1 + 8 by omega, oneBlockState_end, oneBlockState_end]
      rfl

theorem fair_oneBlockRun {K : Action → Prop}
    (hK : ∀ a, K a → step 819 ⟨[], [7], [], [7], none, .idle⟩ a = none) : oneBlockRun.Fair K := by
  intro hpossible
  obtain ⟨m, hm, a, ha, hsome⟩ := hpossible 8
  obtain ⟨k, rfl⟩ := Nat.exists_eq_add_of_le' hm
  rw [show oneBlockRun.state (k + 8) = _ from oneBlockState_end k, hK a ha] at hsome
  cases hsome

def Steps (room : ℕ) (s s' : State) : Prop := ∃ a, step room s a = some s'

/-- The lock is held for a block that does not fit, and the loop asks for the lock. -/
structure Stuck (room : ℕ) (sent taken : Hash) (s : State) : Prop where
  holder : s.holder = some ⟨some sent, []⟩
  full : s.blockHighCh.length = room
  loop : s.loop = .received taken

theorem Stuck.step {sent taken : Hash} (h : Stuck room sent taken s)
    (hstep : step room s a = some s') : Stuck room sent taken s' := by
  obtain ⟨hholder, hfull, hloop⟩ := h
  cases a <;> grind [Release.step, State.release, Stuck]

theorem reaches_sent (room : ℕ) (bs : List Hash) {rest : List Hash}
    (hholder : s.holder = some ⟨none, bs ++ rest⟩) (hnodup : bs.Nodup)
    (hfree : ∀ b ∈ bs, b ∉ s.blockInCh) (hroom : s.blockHighCh.length + bs.length ≤ room) :
    ∃ s', ReflTransGen (Steps room) s s' ∧ s'.holder = some ⟨none, rest⟩ ∧
      s'.blockHighCh = s.blockHighCh ++ bs ∧ s'.loop = s.loop ∧
      ∀ b ∈ s'.blockInCh, b ∈ bs ∨ b ∈ s.blockInCh := by
  induction bs generalizing s with
  | nil => exact ⟨s, .refl, hholder, by simp, rfl, fun b hb => Or.inr hb⟩
  | cons b bs ih =>
    rw [nodup_cons] at hnodup
    rw [length_cons] at hroom
    have hchecked : step room s .checkAndSetBlockInChan =
        some { s with holder := some ⟨some b, bs ++ rest⟩, blockInCh := b :: s.blockInCh } := by
      simp [step, hholder, hfree b mem_cons_self]
    obtain ⟨s₁, hsend, hholder₁, hhigh₁, hin₁, hloop₁⟩ : ∃ s₁,
        step room { s with holder := some ⟨some b, bs ++ rest⟩, blockInCh := b :: s.blockInCh }
          .send = some s₁ ∧ s₁.holder = some ⟨none, bs ++ rest⟩ ∧
          s₁.blockHighCh = s.blockHighCh ++ [b] ∧ s₁.blockInCh = b :: s.blockInCh ∧
          s₁.loop = s.loop := by
      exact ⟨_, if_pos (by dsimp only; omega), rfl, rfl, rfl, rfl⟩
    obtain ⟨s₂, hreach, hholder₂, hhigh₂, hloop₂, hin₂⟩ := ih hholder₁ hnodup.2 (by grind)
      (by rw [hhigh₁, length_append, length_singleton]; omega)
    exact ⟨s₂, .head ⟨_, hchecked⟩ (.head ⟨_, hsend⟩ hreach), hholder₂, by simp [hhigh₂, hhigh₁],
      hloop₂.trans hloop₁, by grind⟩

theorem reaches_stuck (room : ℕ) {b₀ b₁ b₂ : Hash} {bs : List Hash}
    (hnodup : (b₀ :: bs ++ [b₁, b₂]).Nodup) (hlength : bs.length + 1 = room) :
    ∃ s, ReflTransGen (Steps room)
      (.start ((b₀ :: bs ++ [b₁, b₂]).map fun b => ⟨b, [0]⟩)) s ∧ Stuck room b₂ b₀ s := by
  obtain ⟨s₁, hnotify, hholder₁, hhigh₁, hin₁, hloop₁⟩ : ∃ s₁,
      step room (.start ((b₀ :: bs ++ [b₁, b₂]).map fun b => ⟨b, [0]⟩)) (.onAddStateBlock 0) =
        some s₁ ∧ s₁.holder = some ⟨none, b₀ :: bs ++ [b₁, b₂]⟩ ∧ s₁.blockHighCh = [] ∧
        s₁.blockInCh = [] ∧ s₁.loop = .idle := by
    refine ⟨_, rfl, ?_, rfl, rfl, rfl⟩
    simp [Action.released, State.start, PovPendingBlock.fill, filter_map, Function.comp_def]
  obtain ⟨s₂, hreach₂, hholder₂, hhigh₂, hloop₂, hin₂⟩ :=
    reaches_sent room _ hholder₁ hnodup.of_append_left (by simp [hin₁])
      (by simp [hhigh₁, hlength])
  obtain ⟨s₃, htake, hholder₃, hhigh₃, hin₃, hloop₃⟩ : ∃ s₃, step room s₂ .takeHigh = some s₃ ∧
      s₃.holder = s₂.holder ∧ s₃.blockHighCh = bs ∧ (∀ b ∈ s₃.blockInCh, b ∈ b₀ :: bs) ∧
      s₃.loop = .received b₀ := by
    simp only [step, hloop₂, hloop₁, hhigh₂, hhigh₁, nil_append]
    refine ⟨_, rfl, rfl, rfl, fun b hb => ?_, rfl⟩
    simpa [hin₁] using hin₂ b (mem_of_mem_erase hb)
  have hfresh : b₁ ∉ b₀ :: bs ∧ b₂ ∉ b₀ :: bs ∧ b₂ ≠ b₁ := by grind
  obtain ⟨s₄, hreach₄, hholder₄, hhigh₄, hloop₄, hin₄⟩ :=
    reaches_sent room [b₁] (hholder₃.trans hholder₂) (nodup_singleton _)
      (by grind) (by simp [hhigh₃, hlength])
  have hlast : step room s₄ .checkAndSetBlockInChan =
      some { s₄ with holder := some ⟨some b₂, []⟩, blockInCh := b₂ :: s₄.blockInCh } := by
    have hfree : b₂ ∉ s₄.blockInCh := by grind
    simp [step, hholder₄, hfree]
  refine ⟨_, .head ⟨_, hnotify⟩ (hreach₂.trans (.head ⟨_, htake⟩ (hreach₄.tail ⟨_, hlast⟩))), rfl,
    ?_, hloop₄.trans hloop₃⟩
  simp [hhigh₄, hhigh₃, hlength]

def waitingBlocks (n : ℕ) : List PovPendingBlock :=
  ((List.range n).map (BitVec.ofNat 256)).map fun b => ⟨b, [0]⟩

end GoQlc.Pov.Release
