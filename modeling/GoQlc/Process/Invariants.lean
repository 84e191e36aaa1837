import GoQlc.Config.Devnet
import GoQlc.Process.Run

/-!
# Heads and pendings

In a run of regular blocks the head of every chain is a stored block that says
what the account table says, and every pending belongs to a stored send.
-/

namespace GoQlc

open Config BlackHole Nep5Pledge Option Result Table

/-- A contract that keeps the call data of its sends, and files their pendings
under the hash of the send. -/
structure Contract.KeepsBlock (crypto : Crypto) (c : Contract) : Prop where
  data : c.describe.specVer = 2 → ∀ ctx b, (c.processSend ctx b).data = b.data
  doPending : c.describe.specVer = 1 → ∀ b key info, c.doPending b = .ok (some (key, info)) →
    key.hash = b.getHash crypto.hashData
  processSend : c.describe.specVer = 2 → ∀ ctx b key info ctx',
    (c.processSend ctx b).result = .ok (some (key, info), ctx') → key.hash = b.getHash crypto.hashData

theorem Contract.KeepsBlock.of_version_one {crypto : Crypto} {c : Contract}
    (hver : c.describe.specVer = 1)
    (h : ∀ b key info, c.doPending b = .ok (some (key, info)) →
      key.hash = b.getHash crypto.hashData) : c.KeepsBlock crypto := by
  have hno : c.describe.specVer ≠ 2 := by omega
  exact ⟨fun h2 => absurd h2 hno, fun _ => h, fun h2 => absurd h2 hno⟩

namespace Env

variable {env : Env} {v v' : View} {l l' : Ledger} {b : StateBlock} {P : Condition}

/-- A block that is not a genesis block, keeps its call data, and files the
pending of a contract call under its own hash. -/
structure Regular (env : Env) (v : View) (l : Ledger) (b : StateBlock) : Prop where
  notGenesis : env.isGenesisBlock b = false
  keepsData : env.sentBlock v l b = b
  ownHash : ∀ key info, env.contractPending v l b = some (key, info) →
    key.hash = b.getHash env.hashData

def regularBlock (env : Env) : Condition := fun _ v' l b => env.Regular v' l b

theorem keepsBlock_mintage : (Mintage.mintage env.toCrypto).KeepsBlock env.toCrypto := by
  apply Contract.KeepsBlock.of_version_one rfl
  intro b key info h
  simp only [Mintage.mintage, Mintage.doPending] at h
  split at h
  · cases h
  · cases h
    rfl

theorem keepsBlock_withdrawMintage :
    (Mintage.withdrawMintage env.toCrypto).KeepsBlock env.toCrypto := by
  apply Contract.KeepsBlock.of_version_one rfl
  intro b key info h
  simp only [Mintage.withdrawMintage, Mintage.withdrawDoPending] at h
  split at h
  · cases h
  · cases h
    rfl

theorem keepsBlock_nep5Pledge : (nep5Pledge env.toCrypto).KeepsBlock env.toCrypto := by
  apply Contract.KeepsBlock.of_version_one rfl
  intro b key info h
  simp only [nep5Pledge, doPending] at h
  split at h
  · cases h
  · cases h
    rfl

theorem keepsBlock_withdrawNep5Pledge :
    (withdrawNep5Pledge env.toCrypto).KeepsBlock env.toCrypto := by
  apply Contract.KeepsBlock.of_version_one rfl
  intro b key info h
  cases h

theorem keepsBlock_rewards (kind : Rewards.Kind) :
    (Rewards.rewards env.toCrypto kind).KeepsBlock env.toCrypto := by
  apply Contract.KeepsBlock.of_version_one rfl
  intro b key info h
  simp only [Rewards.rewards, Rewards.doPending] at h
  split at h
  · cases h
  · obtain ⟨_, -, heq⟩ := map_eq_ok.mp h
    cases heq
    rfl

theorem keepsBlock_blackHole : (blackHole env.toCrypto).KeepsBlock env.toCrypto := by
  have hver : (blackHole env.toCrypto).describe.specVer = 2 := rfl
  refine ⟨fun _ _ _ => rfl, fun h1 => by omega, ?_⟩
  intro _ ctx b key info ctx' h
  simp only [blackHole, processSend] at h
  split at h
  · cases h
  · obtain ⟨-, h⟩ := seq_eq_ok.mp h
    obtain ⟨-, h⟩ := seq_eq_ok.mp h
    cases h
    rfl

theorem keepsBlock_of_modelled {addr : Address} {payload : Bytes} {c : Contract}
    (haddr : addr ∈ modelledAddresses) (h : env.getChainContract addr payload = some c) :
    c.KeepsBlock env.toCrypto := by
  rcases getChainContract_cases h with ⟨-, rfl | rfl⟩ | ⟨-, rfl | rfl⟩ | ⟨-, kind, rfl⟩ | ⟨-, rfl⟩ | hno
  · exact keepsBlock_mintage
  · exact keepsBlock_withdrawMintage
  · exact keepsBlock_nep5Pledge
  · exact keepsBlock_withdrawNep5Pledge
  · exact keepsBlock_rewards kind
  · exact keepsBlock_blackHole
  · exact absurd haddr hno

theorem sentData_eq (hc : ∀ c, env.getChainContract b.link b.getPayload = some c →
    c.KeepsBlock env.toCrypto) : env.sentData v l b = b.data := by
  unfold sentData
  split_ifs with hhid
  · rfl
  · split
    · rfl
    · rename_i c hget
      split_ifs with hver
      · cases hctx : VmContext.newVMContextWithBlock v l b with
        | none => rfl
        | some ctx => exact (hc c hget).data hver ctx b
      · rfl

variable {key : PendingKey} {info : PendingInfo}

theorem hash_of_contractPending
    (hc : ∀ c, env.getChainContract b.link b.getPayload = some c → c.KeepsBlock env.toCrypto)
    (h : env.contractPending v l b = some (key, info)) : key.hash = b.getHash env.hashData := by
  unfold contractPending at h
  split_ifs at h with hhid
  obtain ⟨c, hget, h⟩ := bind_eq_some_iff.mp h
  split at h
  · rename_i hver
    have hpending := toOption_eq_some.mp (join_eq_some_iff.mp h)
    exact (hc c hget).doPending hver b key info hpending
  · rename_i hver
    obtain ⟨ctx, hctx, h⟩ := bind_eq_some_iff.mp h
    obtain ⟨⟨p, ctx'⟩, hres, heq⟩ := map_eq_some_iff.mp (join_eq_some_iff.mp h)
    obtain rfl : p = some (key, info) := heq
    exact (hc c hget).processSend hver ctx b key info ctx' (toOption_eq_some.mp hres)
  · cases h

theorem regular_of_modelled (hgen : env.isGenesisBlock b = false)
    (hlink : b.link ∈ modelledAddresses) : env.Regular v l b := by
  have hc : ∀ c, env.getChainContract b.link b.getPayload = some c →
      c.KeepsBlock env.toCrypto := fun c h => keepsBlock_of_modelled hlink h
  refine ⟨hgen, ?_, fun key info h => hash_of_contractPending hc h⟩
  unfold sentBlock
  split_ifs
  · rw [sentData_eq hc]
  · rfl

theorem resentBlock_of_sentBlock (hgen : env.isGenesisBlock b = false)
    (hdata : env.sentBlock v l b = b) : env.resentBlock v l b = b := by
  unfold resentBlock
  rw [hdata, if_neg (by simp [hgen]), hdata]

theorem Regular.resentBlock_eq (h : env.Regular v l b) : env.resentBlock v l b = b :=
  resentBlock_of_sentBlock h.notGenesis h.keepsData

theorem resentBlock_of_ne (ht : b.type ≠ .contractSend) : env.resentBlock v l b = b := by
  unfold resentBlock sentBlock
  simp [ht]

/-! ## Heads -/

/-- The header of every chain is a stored block of that chain with the balance
and, for the chain token, the weights of the account; an account without a
chain-token chain has no coins. -/
structure HeadsStored (l : Ledger) : Prop where
  head : ∀ a t tm, l.getTokenMetaConfirmed a t = some tm →
    ∃ h, l.blocks.get tm.header = some h ∧ h.address = a ∧ h.token = t ∧ h.balance = tm.balance ∧
      (t = chainToken → l.coinsOf a = h.benefit)
  noCoins : ∀ a, l.getTokenMetaConfirmed a chainToken = none → l.coinsOf a = Benefit.zero

theorem tokenAfter_header : (env.tokenAfter l b).header = b.getHash env.hashData := by
  unfold tokenAfter
  cases l.getTokenMetaConfirmed b.address b.token <;> rfl

theorem tokenAfter_balance : (env.tokenAfter l b).balance = b.balance := by
  unfold tokenAfter
  cases l.getTokenMetaConfirmed b.address b.token <;> rfl

theorem HeadsStored.step (hl : HeadsStored l) (hk : l.WellKept env.hashData)
    (hfresh : l.blocks.get (b.getHash env.hashData) = none) (hdata : env.resentBlock v l b = b)
    (hp : env.Processed v l b l') : HeadsStored l' := by
  refine ⟨?_, ?_⟩
  · intro a t tm htm
    rw [hp.getTokenMeta hk, hdata] at htm
    split_ifs at htm with hown
    · -- the chain of the block: its header is the block itself
      obtain ⟨rfl, rfl⟩ := hown
      cases htm
      refine ⟨b.clone, ?_, rfl, rfl, tokenAfter_balance.symm, ?_⟩
      · rw [tokenAfter_header, hp.get_block, if_pos rfl]
      · intro ht
        rw [hp.coinsOf hk, if_pos ⟨rfl, ht⟩]
        rfl
    · obtain ⟨h, hh, haddr, htoken, hbal, hcoins⟩ := hl.head a t tm htm
      refine ⟨h, hp.get_block_of_get hfresh hh, haddr, htoken, hbal, ?_⟩
      intro ht
      rw [hp.coinsOf hk, if_neg (fun hc => hown ⟨hc.1, ht.trans hc.2.symm⟩)]
      exact hcoins ht
  · intro a ha
    rw [hp.getTokenMeta hk] at ha
    split_ifs at ha with hown
    rw [hp.coinsOf hk, if_neg (fun hc => hown ⟨hc.1, hc.2.symm⟩)]
    exact hl.noCoins a ha

theorem headsStored_genesis : HeadsStored env.genesisLedger := by
  apply genesis_invariant
  · refine ⟨?_, ?_⟩
    · intro a t tm htm
      simp [Ledger.getTokenMetaConfirmed, Ledger.getAccountMetaConfirmed] at htm
    · intro a _
      simp [Ledger.coinsOf]
  · intro l b _ hl hfresh
    refine ⟨?_, hl.noCoins⟩
    intro a t tm htm
    obtain ⟨h, hh, hrest⟩ := hl.head a t tm htm
    refine ⟨h, ?_, hrest⟩
    rw [get_put_of_ne, hh]
    intro heq
    rw [← heq, hh] at hfresh
    cases hfresh
  · intro l b l' hb hk hl hfresh _ hp
    exact hl.step hk hfresh (resentBlock_of_ne (by simp [type_of_firstBlock hb])) hp
  · intro _ l hl
    exact ⟨hl.head, hl.noCoins⟩

theorem Reachable.headsStored (hP : ∀ v v' l b, P v v' l b → env.Regular v' l b)
    (h : env.Reachable P l) : HeadsStored l := by
  suffices hboth : l.WellKept env.hashData ∧ HeadsStored l from hboth.2
  apply h.invariant (I := fun l => l.WellKept env.hashData ∧ HeadsStored l)
    ⟨wellKept_genesis, headsStored_genesis⟩
  rintro v v' l b l' hs hp ⟨hk, hl⟩
  have hreg := hP v v' l b hp
  have hproc := blockProcess_ok hs.applied
  have hfresh := fresh_of_blockCheck hreg.notGenesis hs.accepted
  exact ⟨hproc.wellKept hk, hl.step hk hfresh hreg.resentBlock_eq hproc⟩

/-! ## Pendings -/

def PendingsStored (l : Ledger) : Prop :=
  ∀ key info, l.pendings.get key = some info →
    ∃ send, l.blocks.get key.hash = some send ∧ send.isSendBlock = true

theorem pendingsAfter_cases (h : (env.pendingsAfter v l b).get key = some info) :
    l.pendings.get key = some info ∨
      (b.isSendBlock = true ∧ env.addedPending v l b = some (key, info)) := by
  unfold pendingsAfter at h
  split_ifs at h with hrecv
  · rw [get_delete] at h
    split_ifs at h
    exact .inl h
  · cases hadd : env.addedPending v l b with
    | none =>
      rw [hadd] at h
      exact .inl h
    | some p =>
      obtain ⟨key', info'⟩ := p
      rw [hadd] at h
      simp only [get_put] at h
      split_ifs at h with hkey
      · cases h
        right
        refine ⟨?_, by rw [hkey]⟩
        unfold addedPending at hadd
        unfold StateBlock.isSendBlock
        split at hadd <;> rename_i ht
        · simp [ht]
        · simp [ht]
        · cases hadd
      · exact .inl h

theorem hash_of_addedPending (hreg : env.Regular v l b)
    (h : env.addedPending v l b = some (key, info)) : key.hash = b.getHash env.hashData := by
  unfold addedPending at h
  split at h
  · obtain ⟨previous, -, heq⟩ := map_eq_some_iff.mp h
    cases heq
    rfl
  · exact hreg.ownHash key info h
  · cases h

theorem PendingsStored.step (hl : PendingsStored l) (hreg : env.Regular v l b)
    (hfresh : l.blocks.get (b.getHash env.hashData) = none) (hp : env.Processed v l b l') :
    PendingsStored l' := by
  intro key info h
  rw [hp.pendings] at h
  rcases pendingsAfter_cases h with hold | ⟨hsend, hadd⟩
  · obtain ⟨send, hs, hsend⟩ := hl key info hold
    exact ⟨send, hp.get_block_of_get hfresh hs, hsend⟩
  · refine ⟨b.clone, ?_, hsend⟩
    rw [hash_of_addedPending hreg hadd, hp.get_block, if_pos rfl]

theorem pendingsStored_genesis : PendingsStored env.genesisLedger := by
  apply genesis_invariant
  · intro key info h
    simp at h
  · intro l b _ hl hfresh key info h
    obtain ⟨send, hs, hsend⟩ := hl key info h
    refine ⟨send, ?_, hsend⟩
    rw [get_put_of_ne, hs]
    intro heq
    rw [← heq, hs] at hfresh
    cases hfresh
  · intro l b l' hb _ hl hfresh _ hp key info h
    have hrecv : b.isReceiveBlock = true := by
      simp [StateBlock.isReceiveBlock, type_of_firstBlock hb]
    rw [hp.pendings, pendingsAfter, if_pos hrecv, get_delete] at h
    split_ifs at h
    obtain ⟨send, hs, hsend⟩ := hl key info h
    exact ⟨send, hp.get_block_of_get hfresh hs, hsend⟩
  · intro _ l hl
    exact hl

theorem Reachable.pendingsStored (hP : ∀ v v' l b, P v v' l b → env.Regular v' l b)
    (h : env.Reachable P l) : PendingsStored l := by
  apply h.invariant pendingsStored_genesis
  intro v v' l b l' hs hp hl
  have hreg := hP v v' l b hp
  exact hl.step hreg (fresh_of_blockCheck hreg.notGenesis hs.accepted) (blockProcess_ok hs.applied)

end Env
end GoQlc
