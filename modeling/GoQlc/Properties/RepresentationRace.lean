import GoQlc.Config.Devnet
import GoQlc.Process.Run

/-!
# Two blocks at once

`BlockProcess` holds a lock named after the representative of the block while it moves the share of
the account in a private batch.
-/

namespace GoQlc

open Config Ledger Option Table Benefit

namespace Env

/-- What `updateRepresentative` does to the table for one block: the share it
takes from the old representative, if any, and the one it gives to the new. -/
structure Move where
  removed : Option (Address × Benefit)
  representative : Address
  added : Benefit
deriving DecidableEq

def moveOf (l : Ledger) (b : StateBlock) : Move where
  removed :=
    match l.getAccountMetaConfirmed b.address, l.getTokenMetaConfirmed b.address b.token with
    | some am, some tm =>
      if tm.representative ≠ 0 then some (tm.representative, oldBenefit am) else none
    | _, _ => none
  representative := b.representative
  added := newBenefit b

def oldRepresentative (l : Ledger) (b : StateBlock) : Option Address :=
  (moveOf l b).removed.map Prod.fst

/-- The table after the blocks in order, one after another; a block that fails
leaves it as it is. -/
def representationsAfter (l : Ledger) (t : Table Address Benefit) (b : StateBlock) :
    Table Address Benefit :=
  match updateRepresentative (l.getAccountMetaConfirmed b.address)
      (l.getTokenMetaConfirmed b.address b.token) b { l with representations := t } with
  | .ok c => c.representations
  | .error _ => t

/-! ## Interleavings -/

inductive Side where
  | left
  | right
deriving DecidableEq, Repr

def Side.other : Side → Side
  | left => right
  | right => left

/-- How far a call has come. -/
inductive Phase where
  | waiting
  | locked
  | removed (batch : Table Address Benefit)
  | added (batch : Table Address Benefit)
  | published
  | failed
  | finished
deriving DecidableEq

def Phase.holds : Phase → Bool
  | waiting | finished => false
  | _ => true

/-- The next step of a call. The batch starts empty; reads look into the batch
first and then into the shared table; a missing old representative is an error,
after which nothing is published. -/
def Move.next (m : Move) (t : Table Address Benefit) : Phase → Option (Table Address Benefit × Phase)
  | .waiting => some (t, .locked)
  | .locked =>
    match m.removed with
    | none => some (t, .removed ∅)
    | some (r, diff) =>
      match t.get r with
      | none => some (t, .failed)
      | some value => some (t, .removed (Table.put ∅ r (zipWith Balance.sub value diff)))
  | .removed batch =>
    let value := ((batch.get m.representative).or (t.get m.representative)).getD zero
    some (t, .added (batch.put m.representative (zipWith Balance.add value m.added)))
  | .added batch => some (t.putAll batch, .published)
  | .published | .failed => some (t, .finished)
  | .finished => none

structure Race where
  table : Table Address Benefit
  phase : Side → Phase

/-- One step of one side; taking a lock that the other side holds is not possible. -/
def Race.step (moves : Side → Move) (s : Race) (i : Side) : Option Race :=
  if s.phase i = .waiting ∧ (s.phase i.other).holds ∧
      (moves i).representative = (moves i.other).representative then none
  else
    ((moves i).next s.table (s.phase i)).map fun (t, p) =>
      { table := t, phase := fun j => if j = i then p else s.phase j }

def Race.run (moves : Side → Move) (s : Race) : List Side → Option Race
  | [] => some s
  | i :: is => (s.step moves i).bind fun s' => run moves s' is

def Race.start (t : Table Address Benefit) : Race := { table := t, phase := fun _ => .waiting }

def Race.Done (s : Race) : Prop := ∀ i, s.phase i = .finished

def sides (b b' : StateBlock) : Side → StateBlock
  | .left => b
  | .right => b'

def Serial (l : Ledger) (b b' : StateBlock) (t : Table Address Benefit) : Prop :=
  (∀ r, t.get r = (representationsAfter l (representationsAfter l l.representations b) b').get r) ∨
  (∀ r, t.get r = (representationsAfter l (representationsAfter l l.representations b') b).get r)

/-! ## One call alone -/

namespace Move

variable (m : Move)

def Touches (r : Address) : Prop := r ∈ m.removed.map Prod.fst ∨ r = m.representative

def removal (T : Address → Option Benefit) : Option (Table Address Benefit) :=
  match m.removed with
  | none => some ∅
  | some (r, diff) => (T r).map fun value =>
      Table.put ∅ r (zipWith Balance.sub value diff)

def addition (T : Address → Option Benefit) (batch : Table Address Benefit) :
    Table Address Benefit :=
  let value := ((batch.get m.representative).or (T m.representative)).getD zero
  batch.put m.representative (zipWith Balance.add value m.added)

def result (T : Address → Option Benefit) (r : Address) : Option Benefit :=
  match m.removal T with
  | none => T r
  | some batch => ((m.addition T batch).get r).or (T r)

variable {m} {T T' : Address → Option Benefit} {r : Address} {batch : Table Address Benefit}

section
variable (h : ∀ r, m.Touches r → T r = T' r)

include h

theorem removal_congr : m.removal T = m.removal T' := by
  unfold removal
  cases hm : m.removed with
  | none => rfl
  | some p => simp [h p.1 (.inl (by simp [hm]))]

theorem addition_congr : m.addition T batch = m.addition T' batch := by
  unfold addition
  rw [h m.representative (.inr rfl)]

theorem result_congr (hr : m.Touches r) : m.result T r = m.result T' r := by
  unfold result
  rw [removal_congr h, h r hr]
  cases m.removal T' with
  | none => rfl
  | some batch => simp only [addition_congr h]

end

theorem get_addition_of_not_touches (hrem : m.removal T = some batch) (hr : ¬ m.Touches r) :
    (m.addition T batch).get r = none := by
  have hne : r ≠ m.representative := fun h => hr (.inr h)
  have hbatch : batch.get r = none := by
    unfold removal at hrem
    cases hm : m.removed with
    | none =>
      simp only [hm, Option.some.injEq] at hrem
      rw [← hrem, get_empty]
    | some p =>
      simp only [hm] at hrem
      obtain ⟨value, -, rfl⟩ := map_eq_some_iff.mp hrem
      rw [get_put_of_ne _ (fun h => hr (.inl (by simp [hm, h]))), get_empty]
  unfold addition
  rw [get_put_of_ne _ hne, hbatch]

theorem exists_get_addition (hrem : m.removal T = some batch) (hr : m.Touches r) :
    ∃ value, (m.addition T batch).get r = some value := by
  unfold addition
  rw [get_put]
  split_ifs with hnew
  · exact ⟨_, rfl⟩
  · obtain ⟨p, hm, rfl⟩ := map_eq_some_iff.mp (hr.resolve_right hnew)
    unfold removal at hrem
    simp only [hm] at hrem
    obtain ⟨value, -, rfl⟩ := map_eq_some_iff.mp hrem
    exact ⟨_, get_put_self _ _ _⟩

theorem result_of_not_touches (hr : ¬ m.Touches r) : m.result T r = T r := by
  unfold result
  cases hrem : m.removal T with
  | none => rfl
  | some batch => simp only [get_addition_of_not_touches hrem hr, none_or]

end Move

theorem updateRepresentative_eq {l c : Ledger} {b : StateBlock} (ht : b.token = chainToken) :
    updateRepresentative (l.getAccountMetaConfirmed b.address)
        (l.getTokenMetaConfirmed b.address b.token) b c =
      ((moveOf l b).removed.elim (.ok c) fun p => subRepresentation p.1 p.2 c).map
        (addRepresentation b.representative (newBenefit b)) := by
  unfold updateRepresentative moveOf
  rw [if_pos ht]
  cases l.getAccountMetaConfirmed b.address with
  | none => rfl
  | some am =>
    cases l.getTokenMetaConfirmed b.address b.token with
    | none => rfl
    | some tm =>
      dsimp only
      split_ifs <;> rfl

theorem get_representationsAfter {l : Ledger} {b : StateBlock} (ht : b.token = chainToken)
    (t : Table Address Benefit) :
    (representationsAfter l t b).get = (moveOf l b).result t.get := by
  funext r
  unfold representationsAfter Move.result Move.removal
  rw [updateRepresentative_eq ht]
  cases (moveOf l b).removed with
  | none =>
    simp only [elim_none, Except.map, addRepresentation, getRepresentation,
      Move.addition, moveOf, get_put, get_empty, none_or]
    split_ifs <;> rfl
  | some p =>
    obtain ⟨old, diff⟩ := p
    simp only [elim_some, subRepresentation, getRepresentation]
    cases hold : t.get old with
    | none => rfl
    | some value =>
      simp only [Except.map, addRepresentation, getRepresentation, map_some,
        Move.addition, moveOf, get_put, get_empty]
      by_cases hr : r = b.representative
      · by_cases hnew : b.representative = old <;> simp [hr, hnew]
      · by_cases hr' : r = old
        · subst hr'
          simp [hr]
        · simp [hr, hr']

/-! ## The steps of one call -/

namespace Move

variable {m : Move} {T t' : Address → Option Benefit} {t u : Table Address Benefit} {p p' : Phase}

/-- What the entries of a call and its batch are in each phase, if the call
found the entries as in `T`. -/
def At (m : Move) (T t : Address → Option Benefit) : Phase → Prop
  | .waiting | .locked => ∀ r, m.Touches r → t r = T r
  | .removed batch => (∀ r, m.Touches r → t r = T r) ∧ m.removal T = some batch
  | .added batch => (∀ r, m.Touches r → t r = T r) ∧
      ∃ batch₀, m.removal T = some batch₀ ∧ batch = m.addition T batch₀
  | .failed => (∀ r, m.Touches r → t r = T r) ∧ m.removal T = none
  | .published | .finished => ∀ r, m.Touches r → t r = m.result T r

theorem At.frame (h : m.At T t.get p) (hsame : ∀ r, m.Touches r → t' r = t.get r) :
    m.At T t' p := by
  have hkeep : (∀ r, m.Touches r → t.get r = T r) → ∀ r, m.Touches r → t' r = T r :=
    fun hT r hr => (hsame r hr).trans (hT r hr)
  cases p with
  | waiting | locked => exact hkeep h
  | removed batch | added batch | failed => exact ⟨hkeep h.1, h.2⟩
  | published | finished => exact fun r hr => (hsame r hr).trans (h r hr)

theorem At.everywhere (h : m.At T t' .finished) (hrest : ∀ r, ¬ m.Touches r → t' r = T r) :
    t' = m.result T := by
  funext r
  by_cases hr : m.Touches r
  · exact h r hr
  · rw [result_of_not_touches hr, hrest r hr]

theorem At.next (h : m.At T t.get p) (hnext : m.next t p = some (u, p')) :
    m.At T u.get p' ∧ ∀ r, ¬ m.Touches r → u.get r = t.get r := by
  cases p with
  | waiting =>
    cases hnext
    exact ⟨h, fun _ _ => rfl⟩
  | locked =>
    unfold Move.next at hnext
    cases hm : m.removed with
    | none =>
      simp only [hm] at hnext
      cases hnext
      exact ⟨⟨h, by simp [removal, hm]⟩, fun _ _ => rfl⟩
    | some q =>
      obtain ⟨old, diff⟩ := q
      have hold : t.get old = T old := h old (.inl (by simp [hm]))
      simp only [hm, hold] at hnext
      cases hT : T old with
      | none | some value =>
        simp only [hT] at hnext
        cases hnext
        exact ⟨⟨h, by simp [removal, hm, hT]⟩, fun _ _ => rfl⟩
  | removed batch =>
    obtain ⟨hsame, hrem⟩ := h
    cases hnext
    refine ⟨⟨hsame, batch, hrem, ?_⟩, fun _ _ => rfl⟩
    unfold addition
    rw [hsame _ (.inr rfl)]
  | added batch =>
    obtain ⟨hsame, batch₀, hrem, rfl⟩ := h
    cases hnext
    refine ⟨fun r hr => ?_, fun r hr => ?_⟩
    · rw [get_putAll, hsame r hr]
      simp [result, hrem]
    · rw [get_putAll, get_addition_of_not_touches hrem hr, none_or]
  | published =>
    cases hnext
    exact ⟨h, fun _ _ => rfl⟩
  | failed =>
    obtain ⟨hsame, hrem⟩ := h
    cases hnext
    refine ⟨fun r hr => ?_, fun _ _ => rfl⟩
    simp [result, hrem, hsame r hr]
  | finished => cases hnext

end Move

variable {t batch : Table Address Benefit}

namespace Race

variable {moves : Side → Move} {T : Address → Option Benefit} {s s' : Race} {i : Side}
  {is : List Side}

theorem step_eq_some (h : s.step moves i = some s') :
    ¬ (s.phase i = .waiting ∧ (s.phase i.other).holds = true ∧
      (moves i).representative = (moves i.other).representative) ∧
    ∃ p', (moves i).next s.table (s.phase i) = some (s'.table, p') ∧ s'.phase i = p' ∧
      s'.phase i.other = s.phase i.other := by
  unfold step at h
  split_ifs at h with hblocked
  obtain ⟨⟨u, p'⟩, hnext, rfl⟩ := map_eq_some_iff.mp h
  refine ⟨hblocked, p', hnext, if_pos rfl, if_neg ?_⟩
  cases i <;> decide

theorem run_invariant {I : Race → Prop} (hstep : ∀ s i s', I s → s.step moves i = some s' → I s')
    (hs : I s) (h : s.run moves is = some s') : I s' := by
  induction is generalizing s with
  | nil =>
    cases h
    exact hs
  | cons i is ih =>
    obtain ⟨s₁, hs₁, hrest⟩ := bind_eq_some_iff.mp h
    exact ih (hstep s i s₁ hs hs₁) hrest

theorem other_other (i : Side) : i.other.other = i := by cases i <;> rfl

theorem eq_or_eq_other (i j : Side) : j = i ∨ j = i.other := by
  cases i <;> cases j <;> simp [Side.other]

/-! ### No entry in common -/

structure Apart (moves : Side → Move) (T : Address → Option Benefit) (s : Race) : Prop where
  sides : ∀ i, (moves i).At T s.table.get (s.phase i)
  rest : ∀ r, (∀ i, ¬ (moves i).Touches r) → s.table.get r = T r

theorem Apart.step (hdisj : ∀ i r, (moves i).Touches r → ¬ (moves i.other).Touches r)
    (h : Apart moves T s) (hs : s.step moves i = some s') : Apart moves T s' := by
  obtain ⟨-, p', hnext, hp', hother⟩ := step_eq_some hs
  obtain ⟨hat, hframe⟩ := (h.sides i).next hnext
  refine ⟨fun j => ?_, fun r hr => ?_⟩
  · rcases eq_or_eq_other i j with rfl | rfl
    · rwa [hp']
    · rw [hother]
      refine (h.sides i.other).frame fun r hr => hframe r ?_
      have hno := hdisj i.other r hr
      rwa [other_other] at hno
  · rw [hframe r (hr i), h.rest r hr]

theorem table_of_disjoint (hdisj : ∀ i r, (moves i).Touches r → ¬ (moves i.other).Touches r)
    (h : (start t).run moves is = some s) (hdone : s.Done) (i : Side) (r : Address) :
    s.table.get r = (moves i.other).result ((moves i).result t.get) r := by
  have hstart : Apart moves t.get (start t) := by
    refine ⟨fun i => ?_, fun _ _ => rfl⟩
    intro r _
    rfl
  have hend := run_invariant (I := Apart moves t.get) (fun _ _ _ hi hs => hi.step hdisj hs) hstart h
  have hat : ∀ j, ∀ r, (moves j).Touches r → s.table.get r = (moves j).result t.get r := by
    intro j
    have hj := hend.sides j
    rwa [hdone j] at hj
  by_cases hi : (moves i.other).Touches r
  · rw [hat i.other r hi]
    -- what the second call reads, the first one left alone
    refine Move.result_congr (fun r' hr' => (Move.result_of_not_touches ?_).symm) hi
    have hno := hdisj i.other r' hr'
    rwa [other_other] at hno
  · rw [Move.result_of_not_touches hi]
    by_cases hi' : (moves i).Touches r
    · exact hat i r hi'
    · rw [Move.result_of_not_touches hi']
      apply hend.rest
      intro j
      rcases eq_or_eq_other i j with rfl | rfl
      · exact hi'
      · exact hi

/-! ### One lock for both -/

def OneAtATime (moves : Side → Move) (T₀ : Address → Option Benefit) (s : Race) : Prop :=
  ∃ i T, (s.phase i.other = .waiting ∧ T = T₀ ∨
      s.phase i.other = .finished ∧ T = (moves i.other).result T₀) ∧
    (moves i).At T s.table.get (s.phase i) ∧ ∀ r, ¬ (moves i).Touches r → s.table.get r = T r

theorem OneAtATime.step
    (hlock : (moves .left).representative = (moves .right).representative)
    (h : OneAtATime moves T s) {j : Side} (hs : s.step moves j = some s') :
    OneAtATime moves T s' := by
  obtain ⟨i, T', hother, hat, hrest⟩ := h
  obtain ⟨hfree, p', hnext, hp', hsame⟩ := step_eq_some hs
  rcases eq_or_eq_other i j with rfl | rfl
  · obtain ⟨hat', hframe⟩ := hat.next hnext
    refine ⟨j, T', by rwa [hsame], by rwa [hp'], fun r hr => ?_⟩
    rw [hframe r hr, hrest r hr]
  · rcases hother with ⟨hwait, rfl⟩ | ⟨hfin, -⟩
    · -- the other side starts, so the lock is free
      simp only [hwait, Move.next, Option.some.injEq, Prod.mk.injEq] at hnext
      obtain ⟨htable, rfl⟩ := hnext
      rw [htable] at hat hrest
      rw [other_other] at hfree hsame
      have hrep : (moves i.other).representative = (moves i).representative := by
        cases i
        · exact hlock.symm
        · exact hlock
      have hholds : (s.phase i).holds = false := by
        cases hh : (s.phase i).holds with
        | false => rfl
        | true => exact absurd ⟨hwait, hh, hrep⟩ hfree
      cases hphase : s.phase i with
      | waiting =>
        rw [hphase] at hat
        have hall : s'.table.get = T' := funext fun r => by
          by_cases hr : (moves i).Touches r
          · exact hat r hr
          · exact hrest r hr
        refine ⟨i.other, T', .inl ⟨by rw [other_other, hsame, hphase], rfl⟩, ?_, by simp [hall]⟩
        rw [hp', hall]
        exact fun _ _ => rfl
      | finished =>
        rw [hphase] at hat
        have hall := hat.everywhere hrest
        refine ⟨i.other, (moves i).result T', .inr ⟨?_, ?_⟩, ?_, by simp [hall]⟩
        · rw [other_other, hsame, hphase]
        · rw [other_other]
        · rw [hp', hall]
          exact fun _ _ => rfl
      | locked | removed _ | added _ | published | failed =>
        rw [hphase] at hholds
        cases hholds
    · rw [hfin] at hnext
      cases hnext

theorem table_of_same_lock (hlock : (moves .left).representative = (moves .right).representative)
    (h : (start t).run moves is = some s) (hdone : s.Done) :
    ∃ i, ∀ r, s.table.get r = (moves i).result ((moves i.other).result t.get) r := by
  have hstart : OneAtATime moves t.get (start t) :=
    ⟨.left, t.get, .inl ⟨rfl, rfl⟩, fun _ _ => rfl, fun _ _ => rfl⟩
  obtain ⟨i, T', hother, hat, hrest⟩ :=
    run_invariant (I := OneAtATime moves t.get) (fun _ _ _ hi hs => hi.step hlock hs) hstart h
  rw [hdone i] at hat
  rw [hdone i.other] at hother
  rcases hother with ⟨hwait, -⟩ | ⟨-, rfl⟩
  · cases hwait
  · exact ⟨i, congrFun (hat.everywhere hrest)⟩

/-! ### Two locks and a common entry -/

theorem next_locked {m : Move} (hrem : m.removal t.get = some batch) :
    m.next t .locked = some (t, .removed batch) := by
  unfold Move.removal at hrem
  cases hm : m.removed with
  | none =>
    simp only [hm, Option.some.injEq] at hrem
    simp [Move.next, hm, hrem]
  | some q =>
    simp only [hm] at hrem
    obtain ⟨value, hvalue, rfl⟩ := map_eq_some_iff.mp hrem
    simp [Move.next, hm, hvalue]

def overlapping : List Side :=
  List.append [.left, .left, .left] (List.append [.right, .right, .right]
    (List.append [.left, .left] [.right, .right]))

theorem exists_overlapping (moves : Side → Move) {batch' : Table Address Benefit}
    (hfree : (moves .left).representative ≠ (moves .right).representative)
    (hrem : (moves .left).removal t.get = some batch)
    (hrem' : (moves .right).removal t.get = some batch') :
    ∃ s, (start t).run moves overlapping = some s ∧ s.Done ∧
      s.table = (t.putAll ((moves .left).addition t.get batch)).putAll
        ((moves .right).addition t.get batch') := by
  have hwaiting : ∀ (m : Move) u, m.next u .waiting = some (u, .locked) := fun _ _ => rfl
  have hremoved : ∀ (m : Move) u batch,
      m.next u (.removed batch) = some (u, .added (m.addition u.get batch)) := fun _ _ _ => rfl
  have hadded : ∀ (m : Move) u batch,
      m.next u (.added batch) = some (u.putAll batch, .published) := fun _ _ _ => rfl
  have hpublished : ∀ (m : Move) u, m.next u .published = some (u, .finished) := fun _ _ => rfl
  refine ⟨⟨(t.putAll ((moves .left).addition t.get batch)).putAll
    ((moves .right).addition t.get batch'), fun _ => .finished⟩, ?_, fun _ => rfl, rfl⟩
  simp only [overlapping, List.append, run, step, start, Side.other, hfree, hfree.symm, and_false,
    if_false, hwaiting, next_locked hrem, next_locked hrem', hremoved, hadded, hpublished,
    map_some, bind_some, reduceCtorEq, if_true]
  congr 2
  funext j
  cases j <;> rfl

end Race

/-! ## Which blocks can race -/

namespace Move

variable {m : Move} {T : Address → Option Benefit} {r : Address} {value : Benefit}

def change (m : Move) (r : Address) (value : Benefit) : Benefit :=
  let value := m.removed.elim value fun p =>
    if p.1 = r then zipWith Balance.sub value p.2 else value
  if m.representative = r then zipWith Balance.add value m.added else value

theorem result_eq_change (hrem : m.removal T = some batch) (hr : T r = some value)
    (htouch : m.Touches r) : m.result T r = some (m.change r value) := by
  unfold result
  rw [hrem]
  unfold removal at hrem
  unfold Touches at htouch
  unfold addition change
  cases hm : m.removed with
  | none =>
    simp only [hm, Option.some.injEq] at hrem
    simp only [hm, map_none, mem_def, reduceCtorEq, false_or] at htouch
    subst htouch
    simp [← hrem, hr]
  | some q =>
    obtain ⟨old, diff⟩ := q
    simp only [hm] at hrem
    obtain ⟨value', hvalue', rfl⟩ := map_eq_some_iff.mp hrem
    by_cases hnew : m.representative = r
    · subst hnew
      by_cases hold : old = m.representative
      · subst hold
        obtain rfl : value' = value := Option.some.inj (hvalue'.symm.trans hr)
        simp
      · simp [get_put, hr, hold, Ne.symm hold]
    · have hold : old = r := by
        rcases htouch with hmem | heq
        · simpa [hm] using hmem
        · exact absurd heq.symm hnew
      subst hold
      obtain rfl : value' = value := Option.some.inj (hvalue'.symm.trans hr)
      simp [get_put, hnew, Ne.symm hnew]

end Move

def oneCoin (address representative : Address) : AccountMeta where
  address := address
  coinBalance := some 1
  tokens := [{
    type := chainToken, header := 0, representative := representative, openBlock := 0
    balance := 1, belongTo := address, blockCount := 1 }]

def threeCoins (address representative : Address) : StateBlock where
  type := .receive
  token := chainToken
  address := address
  balance := 3
  previous := 0
  link := 0
  representative := representative

/-- Two accounts, each with the representative given or absent, and a hundred
coins for everyone a block of theirs touches. -/
def twoAccounts (old old' : Option Address) (new new' : Address) : Ledger where
  accounts :=
    let accounts := old.elim ∅ fun r => Table.put ∅ 1 (oneCoin 1 r)
    old'.elim accounts fun r => accounts.put 2 (oneCoin 2 r)
  representations :=
    let hundred : Benefit := ⟨100, 0, 0, 0, 0, 100⟩
    let t := ((∅ : Table Address Benefit).put new hundred).put new' hundred
    let t := old.elim t fun r => t.put r hundred
    old'.elim t fun r => t.put r hundred

def coinMove (old : Option Address) (new : Address) : Move where
  removed := old.map fun r => (r, ⟨1, 0, 0, 0, 0, 1⟩)
  representative := new
  added := ⟨3, 0, 0, 0, 0, 3⟩

theorem moveOf_threeCoins {l : Ledger} {old : Option Address} {a new : Address}
    (hget : l.accounts.get a = old.map (oneCoin a)) (hold : old ≠ some 0) :
    moveOf l (threeCoins a new) = coinMove old new := by
  have ham : l.getAccountMetaConfirmed (threeCoins a new).address = old.map (oneCoin a) := hget
  unfold moveOf getTokenMetaConfirmed
  rw [ham]
  cases old with
  | none => rfl
  | some r =>
    have hr : ¬ r = 0#256 := fun h => hold (congrArg some h)
    simp [oneCoin, threeCoins, AccountMeta.token, hr]
    rfl

section Pattern

variable {old old' : Option Address} {new new' : Address}

theorem get_twoAccounts :
    (twoAccounts old old' new new').accounts.get 1 = old.map (oneCoin 1) ∧
    (twoAccounts old old' new new').accounts.get 2 = old'.map (oneCoin 2) := by
  cases old <;> cases old' <;> simp [twoAccounts, get_put]

variable {r : Address}

theorem get_hundred (h : (old = some r ∨ r = new) ∨ old' = some r ∨ r = new') :
    (twoAccounts old old' new new').representations.get r = some ⟨100, 0, 0, 0, 0, 100⟩ := by
  unfold twoAccounts
  cases old <;> cases old' <;> simp [get_put] at h ⊢ <;> grind

theorem exists_balance_change (h : old = some r ∨ r = new) :
    ∃ d : ℤ, d ≠ 0 ∧ -1 ≤ d ∧ d ≤ 3 ∧ ∀ value : Benefit, 50 ≤ value.balance →
      value.balance ≤ 150 → (((coinMove old new).change r value).balance : ℤ) = value.balance + d := by
  have hsub : ∀ n : ℕ, n ≤ 150 → Balance.sub n 1 = n - 1 := fun n hn =>
    Balance.sub_of_lt (by omega) (by decide)
  have hadd : ∀ n : ℕ, n ≤ 150 → Balance.add n 3 = n + 3 := fun n hn =>
    Balance.add_of_lt (by omega)
  by_cases hold : old = some r
  · by_cases hnew : new = r
    · refine ⟨2, by decide, by decide, by decide, fun value hlow hhigh => ?_⟩
      simp only [Move.change, coinMove, hold, hnew, map_some, elim_some, if_true,
        zipWith, hsub _ hhigh, hadd (value.balance - 1) (by omega)]
      omega
    · refine ⟨-1, by decide, by decide, by decide, fun value hlow hhigh => ?_⟩
      simp only [Move.change, coinMove, hold, hnew, map_some, elim_some, if_true,
        if_false, zipWith, hsub _ hhigh]
      omega
  · have hnew : new = r := (h.resolve_left hold).symm
    refine ⟨3, by decide, by decide, by decide, fun value hlow hhigh => ?_⟩
    have hkept : ((coinMove old new).removed.elim value fun p =>
        if p.1 = r then zipWith Balance.sub value p.2 else value) = value := by
      cases old with
      | none => rfl
      | some a =>
        have ha : a ≠ r := fun heq => hold (by rw [heq])
        simp [coinMove, ha]
    unfold Move.change
    rw [hkept]
    simp only [coinMove, hnew, if_true, zipWith, hadd _ hhigh]
    omega

theorem exists_removal (old : Option Address) (new : Address) {T : Address → Option Benefit}
    (h : ∀ r, old = some r → ∃ value, T r = some value) :
    ∃ batch, (coinMove old new).removal T = some batch := by
  cases old with
  | none => exact ⟨∅, rfl⟩
  | some r =>
    obtain ⟨value, hvalue⟩ := h r rfl
    refine ⟨Table.put ∅ r (zipWith Balance.sub value ⟨1, 0, 0, 0, 0, 1⟩), ?_⟩
    simp [Move.removal, coinMove, hvalue]

theorem touches_coinMove : (coinMove old new).Touches r ↔ old = some r ∨ r = new := by
  cases old <;> simp [Move.Touches, coinMove]

theorem balance_after_both {m m' : Move} {d d' : ℤ} (hm : m = coinMove old new)
    (hm' : m' = coinMove old' new')
    (hundred : ∀ r, (old = some r ∨ r = new) ∨ old' = some r ∨ r = new' →
      t.get r = some ⟨100, 0, 0, 0, 0, 100⟩) (hr : old = some r ∨ r = new)
    (hr' : old' = some r ∨ r = new')
    (hd : -1 ≤ d ∧ d ≤ 3 ∧ ∀ value : Benefit, 50 ≤ value.balance → value.balance ≤ 150 →
      (((coinMove old new).change r value).balance : ℤ) = value.balance + d)
    (hd' : ∀ value : Benefit, 50 ≤ value.balance → value.balance ≤ 150 →
      (((coinMove old' new').change r value).balance : ℤ) = value.balance + d') :
    ∃ value, m'.result (m.result t.get) r = some value ∧ (value.balance : ℤ) = 100 + d + d' := by
  subst hm hm'
  obtain ⟨hlow, hhigh, hchange⟩ := hd
  obtain ⟨batch, hrem⟩ := exists_removal old new (T := t.get)
    fun r h => ⟨_, hundred r (.inl (.inl h))⟩
  have hafter : ∀ x, old' = some x ∨ x = new' → ∃ value, (coinMove old new).result t.get x = some value := by
    intro x hx
    have hvalue := hundred x (.inr hx)
    by_cases htouch : (coinMove old new).Touches x
    · exact ⟨_, Move.result_eq_change hrem hvalue htouch⟩
    · exact ⟨_, (Move.result_of_not_touches htouch).trans hvalue⟩
  obtain ⟨batch', hrem'⟩ := exists_removal old' new'
    (T := (coinMove old new).result t.get) fun x hx => hafter x (.inl hx)
  have hfirst := Move.result_eq_change hrem (hundred r (.inl hr)) (touches_coinMove.mpr hr)
  refine ⟨_, Move.result_eq_change hrem' hfirst (touches_coinMove.mpr hr'), ?_⟩
  have hbalance : (((coinMove old new).change r ⟨100, 0, 0, 0, 0, 100⟩).balance : ℤ) = 100 + d :=
    hchange _ (by decide) (by decide)
  rw [hd' _ (by omega) (by omega), hbalance]

theorem exists_lost_update (hold : old ≠ some 0) (hold' : old' ≠ some 0) (hnew : new ≠ new')
    (hr : old = some r ∨ r = new) (hr' : old' = some r ∨ r = new') :
    ∃ s, (Race.start (twoAccounts old old' new new').representations).run
        (fun i => moveOf (twoAccounts old old' new new')
          (sides (threeCoins 1 new) (threeCoins 2 new') i)) Race.overlapping = some s ∧ s.Done ∧
      ¬ Serial (twoAccounts old old' new new') (threeCoins 1 new) (threeCoins 2 new') s.table := by
  have hmove : moveOf (twoAccounts old old' new new') (threeCoins 1 new) = coinMove old new :=
    moveOf_threeCoins get_twoAccounts.1 hold
  have hmove' : moveOf (twoAccounts old old' new new') (threeCoins 2 new') = coinMove old' new' :=
    moveOf_threeCoins get_twoAccounts.2 hold'
  obtain ⟨t, ht⟩ : ∃ t, t = (twoAccounts old old' new new').representations := ⟨_, rfl⟩
  have hundred : ∀ r, (old = some r ∨ r = new) ∨ old' = some r ∨ r = new' →
      t.get r = some ⟨100, 0, 0, 0, 0, 100⟩ := fun r h => ht ▸ get_hundred h
  have htouch := touches_coinMove.mpr hr
  have htouch' := touches_coinMove.mpr hr'
  have hvalue := hundred r (.inl hr)
  obtain ⟨batch, hrem⟩ := exists_removal old new (T := t.get)
    fun r h => ⟨_, hundred r (.inl (.inl h))⟩
  obtain ⟨batch', hrem'⟩ := exists_removal old' new' (T := t.get)
    fun r h => ⟨_, hundred r (.inr (.inl h))⟩
  obtain ⟨d, hd, hdlow, hdhigh, hchange⟩ := exists_balance_change hr
  obtain ⟨d', hd', hdlow', hdhigh', hchange'⟩ := exists_balance_change hr'
  obtain ⟨s, hrun, hdone, htable⟩ := Race.exists_overlapping
    (fun i => moveOf (twoAccounts old old' new new')
      (sides (threeCoins 1 new) (threeCoins 2 new') i)) (t := t)
    (by simpa only [sides, hmove, hmove', coinMove] using hnew)
    (by simpa only [sides, hmove] using hrem) (by simpa only [sides, hmove'] using hrem')
  refine ⟨s, ht ▸ hrun, hdone, ?_⟩
  -- the entry shows the second block only
  have hlost : ∃ value, s.table.get r = some value ∧ (value.balance : ℤ) = 100 + d' := by
    have hresult := Move.result_eq_change hrem' hvalue htouch'
    obtain ⟨value, hbatch⟩ := Move.exists_get_addition hrem' htouch'
    refine ⟨value, ?_, ?_⟩
    · rw [htable, get_putAll]
      simp only [sides, hmove', hbatch, some_or]
    · simp only [Move.result, hrem', hbatch, some_or, Option.some.injEq] at hresult
      rw [hresult, hchange' _ (by decide) (by decide)]
      rfl
  obtain ⟨value, hget, hbalance⟩ := hlost
  rintro (hserial | hserial)
  · have hboth := hserial r
    obtain ⟨both, hresult, hsum⟩ := balance_after_both hmove hmove' hundred hr hr'
      ⟨hdlow, hdhigh, hchange⟩ hchange'
    rw [get_representationsAfter rfl, get_representationsAfter rfl, ← ht, hresult, hget] at hboth
    cases hboth
    omega
  · have hboth := hserial r
    obtain ⟨both, hresult, hsum⟩ := balance_after_both hmove' hmove
      (fun r h => hundred r h.symm) hr' hr ⟨hdlow', hdhigh', hchange'⟩ hchange
    rw [get_representationsAfter rfl, get_representationsAfter rfl, ← ht, hresult, hget] at hboth
    cases hboth
    omega

end Pattern

/-- Every interleaving of two chain-token blocks of different accounts, with the
given old and new representatives, leads to the table of one of the two
orders, exactly if the blocks name the same representative or none that either
of them touches is touched by the other. -/
theorem interleavings_serial_iff {old old' : Option Address} {new new' : Address}
    (hold : old ≠ some 0) (hold' : old' ≠ some 0) :
    (∀ (l : Ledger) (b b' : StateBlock), b.token = chainToken → b'.token = chainToken →
      b.address ≠ b'.address → oldRepresentative l b = old → oldRepresentative l b' = old' →
      b.representative = new → b'.representative = new' →
      ∀ schedule s, (Race.start l.representations).run (fun i => moveOf l (sides b b' i)) schedule =
        some s → s.Done → Serial l b b' s.table) ↔
    new = new' ∨ ∀ r, (old = some r ∨ r = new) → ¬ (old' = some r ∨ r = new') := by
  constructor
  · intro hserial
    by_contra hno
    rw [not_or] at hno
    obtain ⟨hnew, hcommon⟩ := hno
    push Not at hcommon
    obtain ⟨r, hr, hr'⟩ := hcommon
    obtain ⟨s, hrun, hdone, hlost⟩ := exists_lost_update hold hold' hnew hr hr'
    apply hlost
    have hne : (threeCoins 1 new).address ≠ (threeCoins 2 new').address := by
      change (1 : Address) ≠ 2
      decide
    refine hserial (twoAccounts old old' new new') (threeCoins 1 new) (threeCoins 2 new') rfl rfl
      hne ?_ ?_ rfl rfl Race.overlapping s hrun hdone
    · rw [oldRepresentative, moveOf_threeCoins get_twoAccounts.1 hold]
      cases old <;> rfl
    · rw [oldRepresentative, moveOf_threeCoins get_twoAccounts.2 hold']
      cases old' <;> rfl
  · rintro hcond l b b' ht ht' - rfl rfl rfl rfl schedule s hrun hdone
    unfold Serial
    rw [get_representationsAfter ht', get_representationsAfter ht, get_representationsAfter ht,
      get_representationsAfter ht']
    rcases hcond with hlock | hdisj
    · obtain ⟨i, hi⟩ := Race.table_of_same_lock hlock hrun hdone
      cases i
      · exact .inr hi
      · exact .inl hi
    · have hapart : ∀ i r, (moveOf l (sides b b' i)).Touches r →
          ¬ (moveOf l (sides b b' i.other)).Touches r := by
        intro i r hr hr'
        cases i
        · exact hdisj r hr hr'
        · exact hdisj r hr' hr
      exact .inl (Race.table_of_disjoint hapart hrun hdone .left)

end Env

namespace Devnet

def firstLeaves : StateBlock :=
  shortSigned 34
    { type := .change, token := chainToken, address := genesisAddress
      balance := genesisBlock.balance - 100, previous := (shortSend 34).getHash (headHash 34)
      link := 0, representative := gasAddress }

def strangerLeaves : StateBlock :=
  shortSigned 34
    { type := .change, token := chainToken, address := stranger, balance := 100
      previous := (shortOpen 34).getHash (headHash 34), link := 0, representative := stranger }

end Devnet

open Devnet Env in
theorem firstLeaves_lost_in_race :
    ∃ l s, (shortEnv 34).Reachable anyBlock l ∧
      (shortEnv 34).blockCheck view l firstLeaves = .ok () ∧
      (shortEnv 34).blockCheck view l strangerLeaves = .ok () ∧
      firstLeaves.token = chainToken ∧ strangerLeaves.token = chainToken ∧
      firstLeaves.address ≠ strangerLeaves.address ∧
      (Race.start l.representations).run (fun i => moveOf l (sides firstLeaves strangerLeaves i))
        Race.overlapping = some s ∧ s.Done ∧
      ¬ Serial l firstLeaves strangerLeaves s.table := by
  have hrun : (((shortEnv 34).run view (shortEnv 34).genesisLedger
      [shortSend 34, shortOpen 34]).any fun l =>
      decide ((shortEnv 34).blockCheck view l firstLeaves = .ok ()) &&
      decide ((shortEnv 34).blockCheck view l strangerLeaves = .ok ()) &&
      ((Race.start l.representations).run (fun i => moveOf l (sides firstLeaves strangerLeaves i))
        Race.overlapping).any fun s =>
        decide (s.phase .left = .finished ∧ s.phase .right = .finished) &&
        decide (s.table.get genesisAddress ≠ (representationsAfter l
          (representationsAfter l l.representations firstLeaves) strangerLeaves).get
            genesisAddress) &&
        decide (s.table.get genesisAddress ≠ (representationsAfter l
          (representationsAfter l l.representations strangerLeaves) firstLeaves).get
            genesisAddress)) = true := by
    decide +kernel
  obtain ⟨l, hl, hfacts⟩ := (any_eq_true _ _).mp hrun
  obtain ⟨hacc, hrace⟩ := Bool.and_eq_true_iff.mp hfacts
  obtain ⟨s, hs, hrace⟩ := (any_eq_true _ _).mp hrace
  simp only [Bool.and_eq_true, decide_eq_true_eq] at hacc hrace
  obtain ⟨⟨⟨hleft, hright⟩, hlost⟩, hlost'⟩ := hrace
  have hne : firstLeaves.address ≠ strangerLeaves.address := by
    change genesisAddress ≠ stranger
    decide
  refine ⟨l, s, reachable_of_run hl, hacc.1, hacc.2, rfl, rfl, hne, hs, ?_, ?_⟩
  · intro i
    cases i
    · exact hleft
    · exact hright
  · rintro (hserial | hserial)
    · exact hlost (hserial genesisAddress)
    · exact hlost' (hserial genesisAddress)

open Devnet Env in
theorem same_representative_serial :
    some genesisAddress ≠ (some 0 : Option Address) ∧
    ∀ (l : Ledger) (b b' : StateBlock), b.token = chainToken → b'.token = chainToken →
      b.address ≠ b'.address → oldRepresentative l b = some genesisAddress →
      oldRepresentative l b' = some genesisAddress → b.representative = gasAddress →
      b'.representative = gasAddress →
      ∀ schedule s, (Race.start l.representations).run (fun i => moveOf l (sides b b' i)) schedule =
        some s → s.Done → Serial l b b' s.table :=
  ⟨by decide, (interleavings_serial_iff (by decide) (by decide)).mpr (.inl rfl)⟩

end GoQlc
