import GoQlc.Process.CheckSpec
import GoQlc.Config.Devnet

/-!
# Blocks that wait for another block

A block whose predecessor or source is missing is put into a slot of the store: one slot for each
kind of gap and awaited hash.
-/

namespace GoQlc.Unchecked

open Function List Option Table

inductive UncheckedKind where
  | previous
  | link
deriving DecidableEq, Repr

def UncheckedKind.awaited : UncheckedKind → StateBlock → Hash
  | .previous, block => block.previous
  | .link, block => block.link

/-! ## The state of the processors -/

/-- The number of processors, the hash, and the receiver that the contract of a contract send
names, if it names one. -/
structure Params where
  processorNum : ℕ
  hashData : Bytes → Hash
  getTargetReceiver : StateBlock → Option Address

namespace Params

variable (ps : Params)

def getProcessorIndex (address : Address) : ℕ := address.toNat % 256 % ps.processorNum

def indexOf (block : StateBlock) : ℕ := ps.getProcessorIndex block.address

/-- A private contract send whose payload the node does not hold. Nobody else is notified of
it, and the block that waits for it as its source is removed. -/
def isHiddenSend (block : StateBlock) : Bool := block.type == .contractSend && block.isHidden

/-- The processors `dispatchAckedBlock` notifies besides the one of the block's account. -/
def others (block : StateBlock) : List ℕ :=
  let index : Option ℕ :=
    match block.type with
    | .send => some (ps.getProcessorIndex block.link)
    | .contractSend =>
      if block.isHidden then none else (ps.getTargetReceiver block).map ps.getProcessorIndex
    | _ => none
  index.toList.filter fun i => i ≠ ps.indexOf block

def notified (block : StateBlock) : List ℕ := ps.indexOf block :: ps.others block

end Params

/-- The last three fields record the blocks handed over to be parked, those that got a slot,
and those checked again. -/
structure State where
  confirmed : Table Hash StateBlock := ∅
  unchecked : Table (UncheckedKind × Hash) StateBlock := ∅
  blocksAcked : ℕ → List Hash := fun _ => []
  parking : ℕ → Option (UncheckedKind × StateBlock) := fun _ => none
  parked : List (UncheckedKind × StateBlock) := []
  stored : List (UncheckedKind × StateBlock) := []
  checkedAgain : List (UncheckedKind × StateBlock) := []

inductive Action where
  /-- The processor of the block checks it and finds the gap. -/
  | check (block : StateBlock) (gap : UncheckedKind)
  /-- The processor puts the block it has checked aside. -/
  | park (processor : ℕ)
  /-- A block is confirmed and the processors are notified. -/
  | confirm (block : StateBlock)
  /-- A processor takes a notification, with the gaps that the blocks it checks again have. -/
  | dequeue (processor : ℕ) (linkGap previousGap : Option UncheckedKind)

namespace State

def addUncheckedBlock (kind : UncheckedKind) (block : StateBlock) (s : State) : State :=
  let s := { s with parked := (kind, block) :: s.parked }
  if (s.unchecked.get (kind, kind.awaited block)).isSome then s
  else { s with
    unchecked := s.unchecked.put (kind, kind.awaited block) block
    stored := (kind, block) :: s.stored }

/-- The second check of a block from a slot. If it has a gap again the block is put aside
again; a gap is one for a hash that is not confirmed. -/
def processUncheckedBlock (kind : UncheckedKind) (block : StateBlock) (gap : Option UncheckedKind)
    (s : State) : Option State :=
  let s := { s with checkedAgain := (kind, block) :: s.checkedAgain }
  match gap with
  | none => some s
  | some gap =>
    if (s.confirmed.get (gap.awaited block)).isSome then none
    else some (s.addUncheckedBlock gap block)

def wake (ps : Params) (p : ℕ) (hash : Hash) (kind : UncheckedKind) (gap : Option UncheckedKind)
    (s : State) : Option State :=
  match s.unchecked.get (kind, hash) with
  | none => some s
  | some block =>
    if ps.indexOf block = p then
      (s.processUncheckedBlock kind block gap).map fun s =>
        { s with unchecked := s.unchecked.delete (kind, hash) }
    else some s

def dequeueUnchecked (ps : Params) (p : ℕ) (linkGap previousGap : Option UncheckedKind)
    (s : State) : Option State :=
  match s.parking p, s.blocksAcked p with
  | none, hash :: rest =>
    if (s.confirmed.get hash).isSome then
      let s := { s with blocksAcked := update s.blocksAcked p rest }
      (s.wake ps p hash .link linkGap).bind (wake ps p hash .previous previousGap)
    else some { s with blocksAcked := update s.blocksAcked p (rest ++ [hash]) }
  | _, _ => none

def notify (ps : Params) (block : StateBlock) (queues : ℕ → List Hash) : ℕ → List Hash := fun p =>
  if p ∈ ps.notified block then queues p ++ [block.getHash ps.hashData] else queues p

/-- The slots after `dispatchAckedBlock` has removed what waits for a hidden contract send. -/
def cleanSlot (ps : Params) (block : StateBlock) (slots : Table (UncheckedKind × Hash) StateBlock) :
    Table (UncheckedKind × Hash) StateBlock :=
  if Params.isHiddenSend block then slots.delete (.link, block.getHash ps.hashData) else slots

def confirm (ps : Params) (block : StateBlock) (s : State) : Option State :=
  if (s.confirmed.get (block.getHash ps.hashData)).isSome then none
  else some { s with
    confirmed := s.confirmed.put (block.getHash ps.hashData) block
    blocksAcked := notify ps block s.blocksAcked
    unchecked := cleanSlot ps block s.unchecked }

def check (ps : Params) (block : StateBlock) (gap : UncheckedKind) (s : State) : Option State :=
  if (s.parking (ps.indexOf block)).isSome ∨ (s.confirmed.get (gap.awaited block)).isSome then none
  else some { s with
    parking := update s.parking (ps.indexOf block) (some (gap, block)) }

def park (p : ℕ) (s : State) : Option State :=
  (s.parking p).map fun (kind, block) =>
    { s.addUncheckedBlock kind block with parking := update s.parking p none }

def step (ps : Params) (s : State) : Action → Option State
  | .check block gap => s.check ps block gap
  | .park p => s.park p
  | .confirm block => s.confirm ps block
  | .dequeue p linkGap previousGap => s.dequeueUnchecked ps p linkGap previousGap

def rests (n : ℕ) (s : State) : Bool :=
  (List.range n).all fun p => (s.parking p).isNone && (s.blocksAcked p).isEmpty

def Quiet (s : State) : Prop := ∀ p, s.parking p = none ∧ s.blocksAcked p = []

end State

inductive Reaches (ps : Params) : State → Prop
  | init : Reaches ps {}
  | step {s s' : State} {a : Action} : Reaches ps s → s.step ps a = some s' → Reaches ps s'

/-! ## What is kept -/

variable {ps : Params} {s s' : State}

def Cleaned (s : State) (kind : UncheckedKind) (block : StateBlock) : Prop :=
  kind = .link ∧ ∃ x, s.confirmed.get (kind.awaited block) = some x ∧ Params.isHiddenSend x = true

/-- The invariant, except for the blocks that a processor is about to check again. -/
structure InvExcept (ps : Params) (except : Option (ℕ × Hash)) (s : State) : Prop where
  slots : ∀ kind hash block, s.unchecked.get (kind, hash) = some block →
    kind.awaited block = hash ∧ (kind, block) ∈ s.stored
  parking : ∀ p kind block, s.parking p = some (kind, block) → ps.indexOf block = p
  queues : ∀ p, ∀ hash ∈ s.blocksAcked p,
    ∃ x, s.confirmed.get hash = some x ∧ p ∈ ps.notified x
  due : ∀ kind block x, some (ps.indexOf block, kind.awaited block) ≠ except →
    (s.unchecked.get (kind, kind.awaited block) = some block ∨
      s.parking (ps.indexOf block) = some (kind, block)) →
    s.confirmed.get (kind.awaited block) = some x → ps.indexOf block ∈ ps.notified x →
      kind.awaited block ∈ s.blocksAcked (ps.indexOf block)
  stored : ∀ kind block, (kind, block) ∈ s.stored →
    (kind, block) ∈ s.checkedAgain ∨ s.unchecked.get (kind, kind.awaited block) = some block ∨
      Cleaned s kind block
  again : ∀ kind block, (kind, block) ∈ s.checkedAgain → (kind, block) ∈ s.stored ∧
    ∃ x, s.confirmed.get (kind.awaited block) = some x ∧ ps.indexOf block ∈ ps.notified x

variable {block : StateBlock} {kind : UncheckedKind}

/-- A block is put into its slot, or dropped. -/
theorem InvExcept.addUncheckedBlock {except : Option (ℕ × Hash)} (h : InvExcept ps except s)
    (hdue : ∀ x, s.confirmed.get (kind.awaited block) = some x → ps.indexOf block ∈ ps.notified x →
      kind.awaited block ∈ s.blocksAcked (ps.indexOf block)) :
    InvExcept ps except (s.addUncheckedBlock kind block) := by
  unfold State.addUncheckedBlock
  dsimp only
  split_ifs with htaken
  · exact ⟨h.slots, h.parking, h.queues, h.due, h.stored, h.again⟩
  · have hget : ∀ k g, (s.unchecked.put (kind, kind.awaited block) block).get (k, g) =
        if k = kind ∧ g = kind.awaited block then some block else s.unchecked.get (k, g) := by
      intro k g
      rw [get_put]
      simp only [Prod.mk.injEq]
    refine ⟨?_, h.parking, h.queues, ?_, ?_, ?_⟩
    · intro k g b hb
      change (s.unchecked.put _ block).get (k, g) = some b at hb
      rw [hget] at hb
      split_ifs at hb with hsame
      · cases hb
        rw [hsame.1]
        exact ⟨hsame.2.symm, mem_cons_self⟩
      · exact ⟨(h.slots k g b hb).1, mem_cons_of_mem _ (h.slots k g b hb).2⟩
    · intro k b x hexcept hplace hx hnotified
      rcases hplace with hslot | hparking
      · change (s.unchecked.put _ block).get (k, k.awaited b) = some b at hslot
        rw [hget] at hslot
        split_ifs at hslot with hsame
        · cases hslot
          obtain ⟨rfl, -⟩ := hsame
          exact hdue x hx hnotified
        · exact h.due k b x hexcept (Or.inl hslot) hx hnotified
      · exact h.due k b x hexcept (Or.inr hparking) hx hnotified
    · intro k b hb
      change _ ∨ (s.unchecked.put _ block).get (k, k.awaited b) = some b ∨ _
      rw [hget]
      rcases mem_cons.mp hb with heq | hb
      · obtain ⟨rfl, rfl⟩ := Prod.mk.inj heq
        exact Or.inr (Or.inl (if_pos ⟨rfl, rfl⟩))
      · rcases h.stored k b hb with hagain | hslot | hcleaned
        · exact Or.inl hagain
        · refine Or.inr (Or.inl ?_)
          rw [if_neg, hslot]
          rintro ⟨rfl, hawaited⟩
          rw [hawaited] at hslot
          rw [hslot] at htaken
          exact htaken rfl
        · exact Or.inr (Or.inr hcleaned)
    · intro k b hb
      exact ⟨mem_cons_of_mem _ (h.again k b hb).1, (h.again k b hb).2⟩

theorem InvExcept.check (h : InvExcept ps none s) {gap : UncheckedKind}
    (hstep : s.check ps block gap = some s') : InvExcept ps none s' := by
  unfold State.check at hstep
  split_ifs at hstep with hidle
  cases hstep
  rw [not_or] at hidle
  refine ⟨h.slots, ?_, h.queues, ?_, h.stored, h.again⟩
  · intro p k b hb
    change update s.parking _ _ p = _ at hb
    by_cases hp : p = ps.indexOf block
    · rw [hp, update_self] at hb
      obtain ⟨-, rfl⟩ := Prod.mk.inj (Option.some.inj hb)
      exact hp.symm
    · rw [update_of_ne hp] at hb
      exact h.parking p k b hb
  · intro k b x hexcept hplace hx hnotified
    rcases hplace with hslot | hparking
    · exact h.due k b x hexcept (Or.inl hslot) hx hnotified
    · change update s.parking _ _ _ = _ at hparking
      by_cases hp : ps.indexOf b = ps.indexOf block
      · rw [hp, update_self] at hparking
        cases hparking
        rw [hx] at hidle
        exact absurd rfl hidle.2
      · rw [update_of_ne hp] at hparking
        exact h.due k b x hexcept (Or.inr hparking) hx hnotified

variable {p : ℕ}

theorem InvExcept.park (h : InvExcept ps none s) (hstep : s.park p = some s') :
    InvExcept ps none s' := by
  obtain ⟨⟨kind, block⟩, hparking, rfl⟩ := map_eq_some_iff.mp hstep
  have hp := h.parking p kind block hparking
  have hadded := h.addUncheckedBlock fun x hx hnotified =>
    h.due kind block x nofun (Or.inr (hp ▸ hparking)) hx hnotified
  have hsame : (s.addUncheckedBlock kind block).parking = s.parking := by
    unfold State.addUncheckedBlock
    dsimp only
    split_ifs <;> rfl
  refine ⟨hadded.slots, ?_, hadded.queues, ?_, hadded.stored, hadded.again⟩
  · intro q k b hb
    change update s.parking _ _ q = _ at hb
    by_cases hq : q = p
    · rw [hq, update_self] at hb
      cases hb
    · rw [update_of_ne hq] at hb
      exact h.parking q k b hb
  · intro k b x hexcept hplace hx hnotified
    rcases hplace with hslot | hold
    · exact hadded.due k b x hexcept (Or.inl hslot) hx hnotified
    · change update s.parking _ _ _ = _ at hold
      by_cases hq : ps.indexOf b = p
      · rw [hq, update_self] at hold
        cases hold
      · rw [update_of_ne hq] at hold
        refine hadded.due k b x hexcept (Or.inr ?_) hx hnotified
        rw [hsame, hold]

variable {hash : Hash} {x : StateBlock} {gap : Option UncheckedKind}

theorem mem_notify_of_mem {queues : ℕ → List Hash} (h : hash ∈ queues p) :
    hash ∈ State.notify ps block queues p := by
  unfold State.notify
  split_ifs
  · exact mem_append_left _ h
  · exact h

theorem get_cleanSlot {slots : Table (UncheckedKind × Hash) StateBlock}
    {key : UncheckedKind × Hash} :
    (State.cleanSlot ps block slots).get key =
      if Params.isHiddenSend block = true ∧ key = (.link, block.getHash ps.hashData) then none
      else slots.get key := by
  unfold State.cleanSlot
  by_cases hhidden : Params.isHiddenSend block = true
  · simp only [hhidden, if_true, true_and, get_delete]
  · simp only [hhidden, Bool.false_eq_true, if_false, false_and]

theorem InvExcept.confirm (h : InvExcept ps none s) (hstep : s.confirm ps block = some s') :
    InvExcept ps none s' := by
  obtain ⟨hnew, hs'⟩ := ite_none_left_eq_some.mp hstep
  cases hs'
  have hkeep : ∀ {g x}, s.confirmed.get g = some x →
      (s.confirmed.put (block.getHash ps.hashData) block).get g = some x := by
    intro g x hx
    rw [get_put_of_ne, hx]
    rintro rfl
    rw [hx] at hnew
    exact hnew rfl
  have hslots : ∀ {key b}, (State.cleanSlot ps block s.unchecked).get key = some b →
      s.unchecked.get key = some b := by
    intro key b hb
    rw [get_cleanSlot] at hb
    split_ifs at hb
    exact hb
  refine ⟨fun k g b hb => h.slots k g b (hslots hb), h.parking, ?_, ?_, ?_, ?_⟩
  · intro p g hg
    change g ∈ State.notify ps block s.blocksAcked p at hg
    have hold : g ∈ s.blocksAcked p → ∃ x, (s.confirmed.put _ block).get g = some x ∧ p ∈ ps.notified x :=
      fun hg => (h.queues p g hg).imp fun x hx => ⟨hkeep hx.1, hx.2⟩
    unfold State.notify at hg
    split_ifs at hg with hp
    · rcases mem_append.mp hg with hg | hg
      · exact hold hg
      · obtain rfl := mem_singleton.mp hg
        exact ⟨block, get_put_self _ _ _, hp⟩
    · exact hold hg
  · intro k b x hexcept hplace hx hnotified
    change (s.confirmed.put _ block).get _ = some x at hx
    change _ ∈ State.notify ps block s.blocksAcked _
    rw [get_put] at hx
    split_ifs at hx with hg
    · cases hx
      rw [State.notify, if_pos hnotified, hg]
      exact mem_append_right _ (mem_singleton.mpr rfl)
    · exact mem_notify_of_mem (h.due k b x hexcept (hplace.imp_left hslots) hx hnotified)
  · intro k b hb
    rcases h.stored k b hb with hagain | hslot | ⟨hk, x, hx, hhidden⟩
    · exact Or.inl hagain
    · change _ ∨ (State.cleanSlot ps block s.unchecked).get _ = _ ∨ _
      rw [get_cleanSlot]
      split_ifs with hcleaned
      · obtain ⟨hk, hg⟩ := Prod.mk.inj hcleaned.2
        refine Or.inr (Or.inr ⟨hk, block, ?_, hcleaned.1⟩)
        rw [hg]
        exact get_put_self _ _ _
      · exact Or.inr (Or.inl hslot)
    · exact Or.inr (Or.inr ⟨hk, x, hkeep hx, hhidden⟩)
  · intro k b hb
    obtain ⟨hstored, x, hx, hnotified⟩ := h.again k b hb
    exact ⟨hstored, x, hkeep hx, hnotified⟩

theorem InvExcept.processUncheckedBlock (h : InvExcept ps (some (p, hash)) s)
    (hx : s.confirmed.get hash = some x) (hp : p ∈ ps.notified x)
    (hslot : s.unchecked.get (kind, hash) = some block) (hindex : ps.indexOf block = p)
    (hstep : s.processUncheckedBlock kind block gap = some s') :
    InvExcept ps (some (p, hash)) s' ∧ (kind, block) ∈ s'.checkedAgain ∧
      s'.confirmed = s.confirmed ∧ s'.parking = s.parking ∧ s'.blocksAcked = s.blocksAcked ∧
      ∀ k, s'.unchecked.get (k, hash) = s.unchecked.get (k, hash) := by
  obtain ⟨hawaited, hstored⟩ := h.slots kind hash block hslot
  have hagain : InvExcept ps (some (p, hash))
      { s with checkedAgain := (kind, block) :: s.checkedAgain } := by
    refine ⟨h.slots, h.parking, h.queues, h.due, fun k b hb => ?_, fun k b hb => ?_⟩
    · exact (h.stored k b hb).imp_left (mem_cons_of_mem _)
    · rcases mem_cons.mp hb with heq | hb
      · obtain ⟨rfl, rfl⟩ := Prod.mk.inj heq
        exact ⟨hstored, x, by rw [hawaited]; exact hx, hindex ▸ hp⟩
      · exact h.again k b hb
  unfold State.processUncheckedBlock at hstep
  cases gap with
  | none =>
    cases hstep
    exact ⟨hagain, mem_cons_self, rfl, rfl, rfl, fun _ => rfl⟩
  | some gap =>
    obtain ⟨hgap, hs'⟩ := ite_none_left_eq_some.mp hstep
    cases hs'
    have hnone := not_isSome_iff_eq_none.mp hgap
    refine ⟨hagain.addUncheckedBlock fun y hy _ => ?_, ?_⟩
    · rw [hnone] at hy
      cases hy
    unfold State.addUncheckedBlock
    dsimp only
    split_ifs
    · exact ⟨mem_cons_self, rfl, rfl, rfl, fun _ => rfl⟩
    · refine ⟨mem_cons_self, rfl, rfl, rfl, fun k => get_put_of_ne _ ?_ _⟩
      intro heq
      rw [← (Prod.mk.inj heq).2] at hnone
      change s.confirmed.get hash = none at hnone
      rw [hx] at hnone
      cases hnone

theorem InvExcept.wake (h : InvExcept ps (some (p, hash)) s) (hx : s.confirmed.get hash = some x)
    (hp : p ∈ ps.notified x) (hstep : s.wake ps p hash kind gap = some s') :
    InvExcept ps (some (p, hash)) s' ∧ s'.confirmed = s.confirmed ∧ s'.parking = s.parking ∧
      s'.blocksAcked = s.blocksAcked ∧
      (∀ b, s'.unchecked.get (kind, hash) = some b → ps.indexOf b ≠ p) ∧
      ∀ k b, s'.unchecked.get (k, hash) = some b → s.unchecked.get (k, hash) = some b := by
  unfold State.wake at hstep
  split at hstep
  · rename_i hempty
    cases hstep
    refine ⟨h, rfl, rfl, rfl, fun b hb => ?_, fun _ _ hb => hb⟩
    rw [hempty] at hb
    cases hb
  · rename_i block hslot
    split_ifs at hstep with hindex
    · obtain ⟨s₁, hs₁, rfl⟩ := map_eq_some_iff.mp hstep
      obtain ⟨h₁, hagain, hconfirmed, hparking, hqueues, hslots⟩ :=
        h.processUncheckedBlock hx hp hslot hindex hs₁
      have hdelete : ∀ {key b}, (s₁.unchecked.delete (kind, hash)).get key = some b →
          key ≠ (kind, hash) ∧ s₁.unchecked.get key = some b := by
        intro key b hb
        rw [get_delete] at hb
        split_ifs at hb with hkey
        exact ⟨hkey, hb⟩
      refine ⟨⟨fun k g b hb => h₁.slots k g b (hdelete hb).2, h₁.parking, h₁.queues, ?_, ?_, h₁.again⟩,
        hconfirmed, hparking, hqueues, fun b hb => absurd rfl (hdelete hb).1, ?_⟩
      · intro k b y hexcept hplace hy hnotified
        exact h₁.due k b y hexcept (hplace.imp_left fun hb => (hdelete hb).2) hy hnotified
      · intro k b hb
        rcases h₁.stored k b hb with hagain' | hslot' | hcleaned
        · exact Or.inl hagain'
        · by_cases hkey : (k, k.awaited b) = (kind, hash)
          · rw [hkey, hslots, hslot] at hslot'
            cases hslot'
            obtain ⟨rfl, -⟩ := Prod.mk.inj hkey
            exact Or.inl hagain
          · exact Or.inr (Or.inl ((get_delete_of_ne _ hkey).trans hslot'))
        · exact Or.inr (Or.inr hcleaned)
      · intro k b hb
        rw [← hslots]
        exact (hdelete hb).2
    · cases hstep
      refine ⟨h, rfl, rfl, rfl, fun b hb => ?_, fun _ _ hb => hb⟩
      rw [hslot] at hb
      cases hb
      exact hindex

theorem InvExcept.dequeue (h : InvExcept ps none s) {linkGap previousGap : Option UncheckedKind}
    (hstep : s.dequeueUnchecked ps p linkGap previousGap = some s') : InvExcept ps none s' := by
  unfold State.dequeueUnchecked at hstep
  split at hstep
  · rename_i hash rest hidle hqueue
    have hpop : ∀ {q g}, g ∈ update s.blocksAcked p rest q → g ∈ s.blocksAcked q := by
      intro q g hg
      by_cases hq : q = p
      · rw [hq, update_self] at hg
        rw [hq, hqueue]
        exact mem_cons_of_mem _ hg
      · rwa [update_of_ne hq] at hg
    obtain ⟨x, hx, hp⟩ := h.queues p hash (hqueue ▸ mem_cons_self)
    rw [if_pos (by rw [hx]; rfl)] at hstep
    have hpopped : InvExcept ps (some (p, hash))
        { s with blocksAcked := update s.blocksAcked p rest } := by
      refine ⟨h.slots, h.parking, fun q g hg => h.queues q g (hpop hg), ?_, h.stored, h.again⟩
      intro k b y hexcept hplace hy hnotified
      have hdue := h.due k b y nofun hplace hy hnotified
      change _ ∈ update s.blocksAcked p rest _
      by_cases hq : ps.indexOf b = p
      · rw [hq, hqueue] at hdue
        rw [hq, update_self]
        rcases mem_cons.mp hdue with hhash | hdue
        · exact absurd (by rw [hq, hhash]) hexcept
        · exact hdue
      · rwa [update_of_ne hq]
    obtain ⟨s₁, hs₁, hs₂⟩ := bind_eq_some_iff.mp hstep
    obtain ⟨h₁, hconfirmed₁, hparking₁, -, hleft₁, -⟩ := hpopped.wake hx hp hs₁
    obtain ⟨h₂, -, hparking₂, -, hleft₂, hsub₂⟩ := h₁.wake (hconfirmed₁ ▸ hx) hp hs₂
    -- the two slots of the hash hold no block of this processor any more
    refine ⟨h₂.slots, h₂.parking, h₂.queues, ?_, h₂.stored, h₂.again⟩
    intro k b y _ hplace hy hnotified
    refine h₂.due k b y (fun hexcept => ?_) hplace hy hnotified
    obtain ⟨hq, hhash⟩ := Prod.mk.inj (Option.some.inj hexcept)
    rcases hplace with hslot | hparking
    · rw [hhash] at hslot
      cases k with
      | previous => exact hleft₂ b hslot hq
      | link => exact hleft₁ b (hsub₂ .link b hslot) hq
    · rw [hparking₂, hparking₁, hq] at hparking
      change s.parking p = _ at hparking
      rw [hidle] at hparking
      cases hparking
  · cases hstep

theorem Reaches.inv (h : Reaches ps s) : InvExcept ps none s := by
  induction h with
  | init =>
    have hempty : ∀ {K V : Type} [DecidableEq K] {k : K} {v : V},
        (∅ : Table K V).get k ≠ some v := by
      intro K V _ k v hget
      rw [get_empty] at hget
      cases hget
    exact ⟨fun _ _ _ hb => absurd hb hempty, fun _ _ _ hb => absurd hb (some_ne_none _).symm,
      fun _ _ hg => absurd hg not_mem_nil, fun _ _ _ _ _ hx => absurd hx hempty,
      fun _ _ hb => absurd hb not_mem_nil, fun _ _ hb => absurd hb not_mem_nil⟩
  | @step s s' a _ hstep ih =>
    cases a with
    | check block gap => exact ih.check hstep
    | park p => exact ih.park hstep
    | confirm block => exact ih.confirm hstep
    | dequeue p linkGap previousGap => exact ih.dequeue hstep

theorem Params.notified_lt (hnum : 0 < ps.processorNum) (hp : p ∈ ps.notified block) :
    p < ps.processorNum := by
  have hindex : ∀ address, ps.getProcessorIndex address < ps.processorNum :=
    fun address => Nat.mod_lt _ hnum
  rcases mem_cons.mp hp with rfl | hp
  · exact hindex _
  · have hsome := mem_toList.mp (mem_filter.mp hp).1
    split at hsome
    · cases hsome
      exact hindex _
    · obtain ⟨-, hsome⟩ := ite_none_left_eq_some.mp hsome
      obtain ⟨address, -, rfl⟩ := map_eq_some_iff.mp hsome
      exact hindex _
    · cases hsome

theorem Reaches.quiet (h : Reaches ps s) (hnum : 0 < ps.processorNum)
    (hrests : s.rests ps.processorNum = true) : s.Quiet := by
  have hquiet : ∀ p < ps.processorNum, s.parking p = none ∧ s.blocksAcked p = [] := by
    intro p hp
    have hp := all_eq_true.mp hrests p (mem_range.mpr hp)
    rwa [Bool.and_eq_true, isNone_iff_eq_none, List.isEmpty_iff] at hp
  intro p
  constructor
  · cases hparking : s.parking p with
    | none => rfl
    | some entry =>
      have hp := h.inv.parking p entry.1 entry.2 hparking
      rw [(hquiet p (hp ▸ Nat.mod_lt _ hnum)).1] at hparking
      cases hparking
  · refine eq_nil_iff_forall_not_mem.mpr fun hash hhash => ?_
    obtain ⟨x, -, hp⟩ := h.inv.queues p hash hhash
    rw [(hquiet p (Params.notified_lt hnum hp)).2] at hhash
    exact absurd hhash not_mem_nil

def run (ps : Params) (actions : List Action) : Option State :=
  actions.foldlM (State.step ps) {}

theorem reaches_of_run {actions : List Action} (hrun : run ps actions = some s) :
    Reaches ps s := by
  unfold run at hrun
  have hinit : Reaches ps {} := .init
  generalize ({} : State) = s₀ at hrun hinit
  induction actions generalizing s₀ with
  | nil =>
    cases hrun
    exact hinit
  | cons a actions ih =>
    rw [foldlM_cons] at hrun
    obtain ⟨s₁, hstep, hrest⟩ := bind_eq_some_iff.mp hrun
    exact ih s₁ hrest (hinit.step hstep)

section Slot

def twoProcessors : Params where
  processorNum := 2
  hashData := fun bs => BitVec.ofNat 256 bs.length
  getTargetReceiver := fun _ => none

def awaitedBlock : StateBlock := { Env.blankBlock with type := .change, address := 2 }

def successor : StateBlock :=
  { awaitedBlock with previous := awaitedBlock.getHash twoProcessors.hashData }

def intruder : StateBlock := { successor with address := 3 }

def withIntruder : List Action :=
  [.check intruder .previous, .park 1, .check successor .previous, .park 0,
    .confirm awaitedBlock, .dequeue 0 none none]

def withoutIntruder : List Action :=
  [.check successor .previous, .park 0, .confirm awaitedBlock, .dequeue 0 none none]

end Slot

end GoQlc.Unchecked
