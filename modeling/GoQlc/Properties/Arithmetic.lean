import GoQlc.Config.Devnet
import GoQlc.Process.CheckSpec

/-!
# Exact arithmetic

The verifier compares balances computed with 64-bit words, while the blocks carry integers of any
size.
-/

namespace GoQlc

open Config Balance StateBlock

namespace StateBlock

theorem addWeight_le (total : ℕ) (w : Option ℕ) : addWeight total w ≤ total + w.getD 0 := by
  cases w with
  | none => exact le_rfl
  | some w =>
    have ht : uint64 total ≤ total := Nat.mod_le _ _
    have hw : uint64 w ≤ w := Nat.mod_le _ _
    change Balance.add total w ≤ total + w
    rw [add_eq]
    split_ifs <;> omega

theorem totalBalance_le (b : StateBlock) : b.totalBalance ≤ b.benefit.total := by
  have h₁ := addWeight_le b.balance b.vote
  have h₂ := addWeight_le (addWeight b.balance b.vote) b.network
  have h₃ := addWeight_le (addWeight (addWeight b.balance b.vote) b.network) b.oracle
  have h₄ := addWeight_le (addWeight (addWeight (addWeight b.balance b.vote) b.network) b.oracle)
    b.storage
  simp only [totalBalance, benefit, Benefit.exact, getVote, getNetwork, getStorage, getOracle]
  omega

def dropped (b : StateBlock) : ℕ := b.benefit.total - b.totalBalance

def droppedWord (b : StateBlock) : ℕ := b.benefit.total - uint64 b.totalBalance

end StateBlock

namespace Env

variable {env : Env} {v : View} {l : Ledger} {b : StateBlock}

def ReceiveExact (l : Ledger) (b : StateBlock) : Prop :=
  ∃ tm pending, l.getTokenMetaConfirmed b.address b.token = some tm ∧
    l.getPending (pendingKeyOf b) = some pending ∧ b.balance = tm.balance + pending.amount

def ReceiveInRange (l : Ledger) (b : StateBlock) : Prop :=
  ∃ tm pending, l.getTokenMetaConfirmed b.address b.token = some tm ∧
    l.getPending (pendingKeyOf b) = some pending ∧
    tm.balance ≤ b.balance ∧ b.balance / 2 ^ 64 = tm.balance / 2 ^ 64

theorem eq_add_sub_iff (x y : ℕ) :
    x = y + Balance.sub x y ↔ y ≤ x ∧ x / 2 ^ 64 = y / 2 ^ 64 := by
  rw [sub_eq]
  unfold uint64
  have hx := Nat.div_add_mod x (2 ^ 64)
  have hy := Nat.div_add_mod y (2 ^ 64)
  have hxm : x % 2 ^ 64 < 2 ^ 64 := Nat.mod_lt _ (by decide)
  have hym : y % 2 ^ 64 < 2 ^ 64 := Nat.mod_lt _ (by decide)
  generalize x % 2 ^ 64 = a at *
  generalize y % 2 ^ 64 = c at *
  generalize x / 2 ^ 64 = p at *
  generalize y / 2 ^ 64 = q at *
  constructor
  · intro h
    refine ⟨by omega, ?_⟩
    by_cases hac : c ≤ a
    · omega
    · omega
  · rintro ⟨hle, rfl⟩
    omega

theorem receiveExact_iff (ht : b.type = .receive) (h : env.blockCheck v l b = .ok ()) :
    ReceiveExact l b ↔ ReceiveInRange l b := by
  rcases blockCheck_ok.mp h with hok | hex
  · obtain ⟨-, -, previous, pending, tm, -, hp, htm, -, hamount, -, -⟩ := (receive_ok ht).mp hok
    constructor
    · rintro ⟨tm', pending', htm', hp', heq⟩
      obtain rfl : tm = tm' := Option.some.inj (htm.symm.trans htm')
      obtain rfl : pending = pending' := Option.some.inj (hp.symm.trans hp')
      rw [hamount] at heq
      exact ⟨tm, pending, htm, hp, (eq_add_sub_iff _ _).mp heq⟩
    · rintro ⟨tm', pending', htm', hp', hrange⟩
      obtain rfl : tm = tm' := Option.some.inj (htm.symm.trans htm')
      exact ⟨tm, pending, htm, hp, by rw [hamount]; exact (eq_add_sub_iff _ _).mpr hrange⟩
  · -- an exempted receive has no pending at all
    have hnone := (getPending_of_exempt hex).2
    constructor
    · rintro ⟨_, pending, -, hp, -⟩
      rw [hnone] at hp
      cases hp
    · rintro ⟨_, pending, -, hp, -⟩
      rw [hnone] at hp
      cases hp

def SendExact (l : Ledger) (b : StateBlock) : Prop :=
  ∃ previous, l.blocks.get b.previous = some previous ∧ b.benefit.total ≤ previous.benefit.total

/-- What the total of the send drops is covered by what the total of its
predecessor drops and by the amount the verifier sees. -/
def SendInRange (l : Ledger) (b : StateBlock) : Prop :=
  ∃ previous, l.blocks.get b.previous = some previous ∧
    b.dropped ≤ previous.dropped + (previous.totalBalance - b.totalBalance)

theorem sendExact_iff (ht : b.type = .contractSend) (hgen : env.isGenesisBlock b = false)
    (h : env.blockCheck v l b = .ok ()) : SendExact l b ↔ SendInRange l b := by
  have hok : env.checkByType v l b = .ok () := by
    rcases blockCheck_ok.mp h with hok | hex
    · exact hok
    · have hrecv := (getPending_of_exempt hex).1
      simp [isReceiveBlock, ht] at hrecv
  obtain ⟨-, ⟨previous, hprev, -, hle⟩, -⟩ := (contractSend_ok ht hgen).mp hok
  have hb := b.totalBalance_le
  have hp := previous.totalBalance_le
  have harith : b.benefit.total ≤ previous.benefit.total ↔
      b.dropped ≤ previous.dropped + (previous.totalBalance - b.totalBalance) := by
    unfold dropped
    omega
  constructor
  · rintro ⟨previous', hprev', hexact⟩
    obtain rfl : previous = previous' := Option.some.inj (hprev.symm.trans hprev')
    exact ⟨previous, hprev, harith.mp hexact⟩
  · rintro ⟨previous', hprev', hrange⟩
    obtain rfl : previous = previous' := Option.some.inj (hprev.symm.trans hprev')
    exact ⟨previous, hprev, harith.mpr hrange⟩

/-- The exact total of a reward is that of its predecessor, if it has one, and
the amount its contract returned. -/
def RewardExact (env : Env) (v : View) (l : Ledger) (b input : StateBlock) : Prop :=
  ∃ g, env.RewardProduces v l b input g ∧
    (b.previous = 0 → b.benefit.total = g.amount) ∧
    (b.previous ≠ 0 → ∃ previous, l.getStateBlock v b.previous = some previous ∧
      b.benefit.total = previous.benefit.total + g.amount)

/-- The words the total of the reward drops are those the total of its
predecessor drops, and what an underflow of the difference hides. -/
def RewardInRange (v : View) (l : Ledger) (b : StateBlock) : Prop :=
  (b.previous = 0 → b.dropped = 0) ∧
  (b.previous ≠ 0 → ∃ previous, l.getStateBlock v b.previous = some previous ∧
    b.droppedWord = previous.droppedWord +
      (uint64 previous.totalBalance - uint64 b.totalBalance))

theorem calculateAmount_reward (ht : b.type = .contractReward) {amount : ℕ}
    (h : l.calculateAmount env.toCrypto v b = some amount) :
    (b.previous = 0 ∧ amount = b.totalBalance) ∨
    (b.previous ≠ 0 ∧ ∃ previous, l.getStateBlock v b.previous = some previous ∧
      amount = Balance.sub b.totalBalance previous.totalBalance) := by
  unfold Ledger.calculateAmount at h
  simp only [ht] at h
  split_ifs at h with h0
  · exact .inl ⟨h0, (Option.some.inj h).symm⟩
  · obtain ⟨previous, hprev, hamount⟩ := Option.map_eq_some_iff.mp h
    exact .inr ⟨h0, previous, hprev, hamount.symm⟩

theorem total_eq_add_sub_iff (b previous : StateBlock) :
    b.benefit.total =
        previous.benefit.total + Balance.sub b.totalBalance previous.totalBalance ↔
      b.droppedWord = previous.droppedWord +
        (uint64 previous.totalBalance - uint64 b.totalBalance) := by
  have hb : uint64 b.totalBalance ≤ b.benefit.total :=
    (Nat.mod_le _ _).trans b.totalBalance_le
  have hp : uint64 previous.totalBalance ≤ previous.benefit.total :=
    (Nat.mod_le _ _).trans previous.totalBalance_le
  rw [sub_eq]
  unfold droppedWord
  omega

theorem rewardExact_iff {input : StateBlock} (ht : b.type = .contractReward)
    (hgen : env.isGenesisBlock b = false) (hvis : b.isHidden = false)
    (hinput : l.blocks.get b.link = some input) (hin : input.isHidden = false)
    (h : env.checkByType v l b = .ok ()) :
    env.RewardExact v l b input ↔ RewardInRange v l b := by
  obtain ⟨g, amount, hg, hamount, -, -, hgamount, -⟩ :=
    readable_reward_ok ht hgen hvis hinput hin h
  subst hgamount
  have hiff : env.RewardExact v l b input ↔
      (b.previous = 0 → b.benefit.total = g.amount) ∧
      (b.previous ≠ 0 → ∃ previous, l.getStateBlock v b.previous = some previous ∧
        b.benefit.total = previous.benefit.total + g.amount) := by
    constructor
    · rintro ⟨g', hg', hexact⟩
      rw [hg.unique hg']
      exact hexact
    · intro hexact
      exact ⟨g, hg, hexact⟩
  rw [hiff]
  unfold RewardInRange
  rcases calculateAmount_reward ht hamount with ⟨h0, hamt⟩ | ⟨h0, previous, hprev, hamt⟩
  · -- an opening reward is credited with its whole computed total
    have htotal := b.totalBalance_le
    have hzero : b.benefit.total = g.amount ↔ b.dropped = 0 := by
      unfold dropped
      omega
    simp only [h0, ne_eq, not_true_eq_false, false_implies, and_true, true_implies, hzero]
  · have hword := total_eq_add_sub_iff b previous
    rw [← hamt] at hword
    simp only [h0, ne_eq, not_false_eq_true, false_implies, true_and, true_implies, hprev,
      Option.some.injEq, exists_eq_left', hword]

end Env

/-- A withdrawal call that claims a vote weight of one full word more than the
first account has. -/
def Devnet.overflowSend : StateBlock :=
  Devnet.signed
    { type := .contractSend, token := chainToken, address := genesisAddress
      balance := genesisBlock.balance, vote := some (2 ^ 64), previous := Devnet.genesisHash
      link := mintageAddress, representative := genesisAddress
      data := Abi.packMethod Devnet.hashData Mintage.withdrawMethod (chainToken, ()) }

end GoQlc
