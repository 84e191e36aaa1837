import GoQlc.Process.Invariants

/-!
# Pendings of contract calls

The pendings of plain sends and those of contract calls lie in one table, and the receive check does
not ask which kind a pending is.
-/

namespace GoQlc

open Config Option

namespace Env

variable {env : Env} {v v' : View} {l l' : Ledger} {b send : StateBlock} {key : PendingKey}
  {info : PendingInfo}

def ReceiveRan (env : Env) (v : View) (l : Ledger) (b : StateBlock) : Prop :=
  b.type = .contractReward ∧ env.isGenesisBlock b = false ∧ b.isHidden = false ∧
    ∃ input g, l.blocks.get b.link = some input ∧ input.isHidden = false ∧
      env.RewardProduces v l b input g

/-- A step of a run in which a call of the mintage, pledge or rewards contract
files a pending. -/
structure Files (env : Env) (l l' : Ledger) (send : StateBlock) (key : PendingKey)
    (info : PendingInfo) : Prop where
  reachable : env.Reachable anyBlock l
  notGenesis : env.isGenesisBlock send = false
  type : send.type = .contractSend
  link : send.link ∈ [mintageAddress, nep5PledgeAddress, rewardsAddress]
  step : ∃ v v', env.Step v v' l send l' ∧ env.contractPending v' l send = some (key, info)

/-- The block `b` leaves the pending under `key` alone, or takes it by way of the contract. -/
structure TakenRightly (env : Env) (v : View) (l₀ l₁ : Ledger) (send : StateBlock)
    (key : PendingKey) (l : Ledger) (b : StateBlock) (l' : Ledger) : Prop where
  removed : l'.pendings.get key = none → env.ReceiveRan v l b
  credit : b.type = .receive ∨ b.type = .open_ → pendingKeyOf b = key →
    ∀ t, l'.balanceAt key.address t - l.balanceAt key.address t ≤
      l₀.balanceAt send.address t - l₁.balanceAt send.address t

/-! ## Stored sends -/

theorem isGenesisBlock_congr {b' : StateBlock}
    (h : b.getHash env.hashData = b'.getHash env.hashData) :
    env.isGenesisBlock b = env.isGenesisBlock b' := by
  unfold isGenesisBlock Config.isGenesisBlock
  rw [h]

theorem Step.get_block_of_get (hs : env.Step v v' l b l') {x : StateBlock}
    (hgen : env.isGenesisBlock x = false)
    (hx : l.blocks.get (x.getHash env.hashData) = some x.clone) :
    l'.blocks.get (x.getHash env.hashData) = some x.clone := by
  have hp := blockProcess_ok hs.applied
  rw [hp.get_block, if_neg, hx]
  intro heq
  have hgen' : env.isGenesisBlock b = false := (isGenesisBlock_congr heq.symm).trans hgen
  rw [heq, fresh_of_blockCheck hgen' hs.accepted] at hx
  cases hx

theorem get_block_of_run (hgen : env.isGenesisBlock send = false)
    (hsend : l.blocks.get (send.getHash env.hashData) = some send.clone)
    (hrun : Relation.ReflTransGen (env.Next anyBlock) l l') :
    l'.blocks.get (send.getHash env.hashData) = some send.clone := by
  induction hrun with
  | refl => exact hsend
  | tail _ hnext ih =>
    obtain ⟨v, v', b, hs, -⟩ := hnext
    exact hs.get_block_of_get hgen ih

theorem Files.stored (h : env.Files l l' send key info) :
    key.hash = send.getHash env.hashData ∧
      l'.blocks.get (send.getHash env.hashData) = some send.clone := by
  obtain ⟨v, v', hs, hpending⟩ := h.step
  have hmodelled : send.link ∈ modelledAddresses := by
    have hlink := h.link
    simp only [modelledAddresses, List.mem_cons, List.not_mem_nil, or_false] at hlink ⊢
    tauto
  have hregular : env.Regular v' l send := regular_of_modelled h.notGenesis hmodelled
  refine ⟨hregular.ownHash key info hpending, ?_⟩
  rw [(blockProcess_ok hs.applied).get_block, if_pos rfl]

/-! ## One block -/

theorem Processed.pending_removed_iff (hp : env.Processed v l b l')
    (hpresent : l.pendings.get key = some info) :
    l'.pendings.get key = none ↔ b.isReceiveBlock = true ∧ pendingKeyOf b = key := by
  rw [hp.pendings, pendingsAfter]
  split_ifs with hrecv
  · rw [Table.get_delete]
    by_cases hkey : key = pendingKeyOf b
    · simp [hrecv, hkey]
    · simp [hkey, hpresent, Ne.symm hkey]
  · refine iff_of_false ?_ (fun h => hrecv h.1)
    split
    · rw [Table.get_put]
      split_ifs <;> simp [hpresent]
    · simp [hpresent]

/-- In every run, a step treats a pending of the mintage, pledge or rewards
contract rightly exactly if no plain block and no block or send that this node
cannot read takes it. -/
theorem contract_pending_taken_rightly_iff {l₀ l₁ : Ledger}
    (hfiles : env.Files l₀ l₁ send key info)
    (hrun : Relation.ReflTransGen (env.Next anyBlock) l₁ l)
    (hpresent : l.pendings.get key = some info) (hs : env.Step v v' l b l') :
    env.TakenRightly v' l₀ l₁ send key l b l' ↔
      (b.isReceiveBlock = true → pendingKeyOf b = key →
        b.type = .contractReward ∧ env.isGenesisBlock b = false ∧ b.isHidden = false ∧
          send.isHidden = false) := by
  obtain ⟨hhash, hstored⟩ := hfiles.stored
  have hsend := get_block_of_run hfiles.notGenesis hstored hrun
  have hp := blockProcess_ok hs.applied
  have hinput : pendingKeyOf b = key → l.blocks.get b.link = some send.clone := by
    intro hkey
    rw [← hsend, ← hhash, ← hkey]
    rfl
  constructor
  · intro hright hrecv hkey
    obtain ⟨htype, hgen, hvis, input, g, hget, hin, -⟩ :=
      hright.removed ((hp.pending_removed_iff hpresent).mpr ⟨hrecv, hkey⟩)
    obtain rfl : input = send.clone := Option.some.inj (hget.symm.trans (hinput hkey))
    exact ⟨htype, hgen, hvis, hin⟩
  · intro hcond
    refine ⟨?_, ?_⟩
    · intro hremoved
      obtain ⟨hrecv, hkey⟩ := (hp.pending_removed_iff hpresent).mp hremoved
      obtain ⟨htype, hgen, hvis, hin⟩ := hcond hrecv hkey
      -- processing has run the contract, as nothing is hidden
      obtain hhid | ⟨input, hget, hran⟩ := hp.reward htype hgen
      · rw [hvis] at hhid
        cases hhid
      · obtain rfl : input = send.clone := Option.some.inj (hget.symm.trans (hinput hkey))
        obtain hhid | ⟨g, hg⟩ := hran
        · exact absurd (hin.symm.trans hhid) (by simp)
        · exact ⟨htype, hgen, hvis, send.clone, g, hget, hin, hg⟩
    · intro hplain hkey
      have hrecv : b.isReceiveBlock = true := by
        rcases hplain with ht | ht <;> simp [StateBlock.isReceiveBlock, ht]
      have htype := (hcond hrecv hkey).1
      rcases hplain with ht | ht <;> rw [ht] at htype <;> cases htype

end Env

namespace Devnet

def supplySend : StateBlock :=
  signed
    { type := .contractSend, token := chainToken, address := genesisAddress
      balance := genesisBlock.balance, previous := genesisHash
      link := mintageAddress, representative := genesisAddress
      data := Mintage.ParamMintage.toABI env.toCrypto
        { issueParam issueId with totalSupply := 100000000000000000 } }

def supplyReceive : StateBlock :=
  signed
    { type := .receive, token := chainToken, address := genesisAddress
      balance := genesisBlock.balance + 100000000000000000
      previous := supplySend.getHash hashData, link := supplySend.getHash hashData
      representative := genesisAddress }

theorem files_of_run {send : StateBlock} {l : Ledger} {key : PendingKey} {info : PendingInfo}
    (hgen : env.isGenesisBlock send = false) (htype : send.type = .contractSend)
    (hlink : send.link ∈ [mintageAddress, nep5PledgeAddress, rewardsAddress])
    (hpending : env.contractPending view env.genesisLedger send = some (key, info))
    (hrun : env.run view env.genesisLedger [send] = some l) :
    env.Files env.genesisLedger l send key info := by
  obtain ⟨l₁, hs, hdone⟩ := Env.step_of_run hrun
  cases hdone
  exact ⟨.refl, hgen, htype, hlink, view, view, hs, hpending⟩

end Devnet

open Devnet Env in
theorem supplyReceive_takes_contract_pending :
    ∃ l l' info, env.Files env.genesisLedger l supplySend (pendingKeyOf supplyReceive) info ∧
      l.pendings.get (pendingKeyOf supplyReceive) = some info ∧
      env.Step view view l supplyReceive l' ∧ supplyReceive.type = .receive ∧
      l'.pendings.get (pendingKeyOf supplyReceive) = none ∧
      env.genesisLedger.balanceAt genesisAddress chainToken - l.balanceAt genesisAddress chainToken <
        l'.balanceAt genesisAddress chainToken - l.balanceAt genesisAddress chainToken := by
  have hfacts : env.isGenesisBlock supplySend = false ∧
      supplySend.link ∈ [mintageAddress, nep5PledgeAddress, rewardsAddress] ∧
      ((env.contractPending view env.genesisLedger supplySend).any fun p =>
        decide (p.1 = pendingKeyOf supplyReceive) &&
        (env.run view env.genesisLedger [supplySend]).any fun l =>
          decide (l.pendings.get p.1 = some p.2) &&
          (env.run view l [supplyReceive]).any fun l' =>
            decide (l'.pendings.get p.1 = none) &&
            decide (env.genesisLedger.balanceAt genesisAddress chainToken -
              l.balanceAt genesisAddress chainToken <
              l'.balanceAt genesisAddress chainToken -
              l.balanceAt genesisAddress chainToken)) = true := by
    decide +kernel
  obtain ⟨hgen, hlink, hfacts⟩ := hfacts
  obtain ⟨⟨key, info⟩, hpending, hfacts⟩ := (any_eq_true _ _).mp hfacts
  obtain ⟨hkey, hfacts⟩ := Bool.and_eq_true_iff.mp hfacts
  obtain rfl : key = pendingKeyOf supplyReceive := of_decide_eq_true hkey
  obtain ⟨l, hl, hfacts⟩ := (any_eq_true _ _).mp hfacts
  obtain ⟨hpresent, hfacts⟩ := Bool.and_eq_true_iff.mp hfacts
  obtain ⟨l', hl', hfacts⟩ := (any_eq_true _ _).mp hfacts
  obtain ⟨hremoved, hcredit⟩ := Bool.and_eq_true_iff.mp hfacts
  obtain ⟨l₁, hstep, hdone⟩ := step_of_run hl'
  obtain rfl := Option.some.inj hdone
  exact ⟨l, l₁, info, files_of_run hgen rfl hlink hpending hl, of_decide_eq_true hpresent, hstep,
    rfl, of_decide_eq_true hremoved, of_decide_eq_true hcredit⟩

open Devnet Env in
theorem pledgeReward_taken_rightly :
    ∃ l l', env.Step view view l pledgeReward l' ∧
      l'.pendings.get (pendingKeyOf pledgeReward) = none ∧
      env.TakenRightly view env.genesisLedger l pledgeSend (pendingKeyOf pledgeReward) l
        pledgeReward l' := by
  have hfacts : env.isGenesisBlock pledgeSend = false ∧ env.isGenesisBlock pledgeReward = false ∧
      pledgeSend.link ∈ [mintageAddress, nep5PledgeAddress, rewardsAddress] ∧
      ((env.contractPending view env.genesisLedger pledgeSend).any fun p =>
        decide (p.1 = pendingKeyOf pledgeReward) &&
        (env.run view env.genesisLedger [pledgeSend]).any fun l =>
          decide (l.pendings.get p.1 = some p.2) &&
          (env.run view l [pledgeReward]).any fun l' =>
            decide (l'.pendings.get p.1 = none)) = true := by
    decide +kernel
  obtain ⟨hgen, hgen', hlink, hfacts⟩ := hfacts
  obtain ⟨⟨key, info⟩, hpending, hfacts⟩ := (any_eq_true _ _).mp hfacts
  obtain ⟨hkey, hfacts⟩ := Bool.and_eq_true_iff.mp hfacts
  obtain rfl : key = pendingKeyOf pledgeReward := of_decide_eq_true hkey
  obtain ⟨l, hl, hfacts⟩ := (any_eq_true _ _).mp hfacts
  obtain ⟨hpresent, hfacts⟩ := Bool.and_eq_true_iff.mp hfacts
  obtain ⟨l', hl', hremoved⟩ := (any_eq_true _ _).mp hfacts
  obtain ⟨l₁, hstep, hdone⟩ := step_of_run hl'
  obtain rfl := Option.some.inj hdone
  have hiff := contract_pending_taken_rightly_iff (files_of_run hgen rfl hlink hpending hl) .refl
    (of_decide_eq_true hpresent) hstep
  exact ⟨l, l₁, hstep, of_decide_eq_true hremoved, hiff.mpr fun _ _ => ⟨rfl, hgen', rfl, rfl⟩⟩

end GoQlc
