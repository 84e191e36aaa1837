import GoQlc.Process.Invariants

/-!
# Chain linkage

The fork check compares `Previous` with the header of the chain of a block, but only if that chain
exists.
-/

namespace GoQlc

open Config Ledger Option Walk

/-- The block opens a chain that does not exist yet, or follows the header of its own chain. -/
def Ledger.Linked (l : Ledger) (b : StateBlock) : Prop :=
  (l.getTokenMetaConfirmed b.address b.token = none ∧ b.previous = 0) ∨
  ∃ tm, l.getTokenMetaConfirmed b.address b.token = some tm ∧ b.previous = tm.header

/-- The walk from the header along `Previous` stays inside the chain of `a` in
`t`, ends at the open block, which has no predecessor, and visits exactly as
many blocks as the chain counts. -/
def Ledger.WalksBack (l : Ledger) (a : Address) (t : Hash) (tm : TokenMeta) : Prop :=
  ∃ path, Walk.walk l.blocks.get StateBlock.previous tm.openBlock tm.blockCount tm.header =
      some path ∧
    path.length = tm.blockCount ∧ (∀ x ∈ path, x.address = a ∧ x.token = t) ∧
    ∀ x ∈ path.getLast?, x.previous = 0

namespace Env

variable {env : Env} {v v' : View} {l l' : Ledger} {b : StateBlock}

/-! ## One block -/

/-- What the fork check says of every accepted block: it opens a chain, or its
predecessor is stored and is the header of its chain if there is one. -/
theorem predecessor_of_accepted (hgen : env.isGenesisBlock b = false)
    (h : env.checkByType v l b = .ok ()) :
    (l.getTokenMetaConfirmed b.address b.token = none ∧ b.previous = 0) ∨
    ∃ previous, l.blocks.get b.previous = some previous ∧ env.FollowsHeader l b previous := by
  cases ht : b.type with
  | send =>
    obtain ⟨-, previous, hprev, hfollows, -⟩ := (send_ok ht).mp h
    exact .inr ⟨previous, hprev, hfollows⟩
  | change | online =>
    obtain ⟨-, -, -, previous, hprev, hfollows, -⟩ := (change_ok (by simp [ht])).mp h
    exact .inr ⟨previous, hprev, hfollows⟩
  | receive =>
    obtain ⟨-, -, previous, -, tm, hprev, -, htm, hheader, -⟩ := (receive_ok ht).mp h
    refine .inr ⟨previous, hprev, ?_⟩
    intro tm' htm'
    obtain rfl : tm = tm' := Option.some.inj (htm.symm.trans htm')
    exact hheader
  | open_ =>
    obtain ⟨hzero, -, -, hnone, -⟩ := (open_ok ht).mp h
    exact .inl ⟨hnone, hzero⟩
  | contractSend =>
    obtain ⟨-, ⟨previous, hprev, hfollows, -⟩, -⟩ := (contractSend_ok ht hgen).mp h
    exact .inr ⟨previous, hprev, hfollows⟩
  | contractReward =>
    obtain ⟨-, ⟨hzero, hnone⟩ | ⟨-, hprev⟩, -⟩ := (contractReward_ok ht hgen).mp h
    · exact .inl ⟨hnone, hzero⟩
    · exact .inr hprev
  | state | contractRefund | contractError | smartContract | invalid =>
    simp only [checkByType, ht] at h
    exact absurd h errorP_ne_ok

theorem linked_iff (hk : l.WellKept env.hashData) (hgen : env.isGenesisBlock b = false)
    (h : env.checkByType v l b = .ok ()) :
    l.Linked b ↔ (b.previous ≠ 0 → ∃ tm, l.getTokenMetaConfirmed b.address b.token = some tm) := by
  constructor
  · rintro (⟨-, hzero⟩ | ⟨tm, htm, -⟩) hne
    · exact absurd hzero hne
    · exact ⟨tm, htm⟩
  · intro hknown
    rcases predecessor_of_accepted hgen h with hopens | ⟨previous, hprev, hfollows⟩
    · exact .inl hopens
    · cases htm : l.getTokenMetaConfirmed b.address b.token with
      | some tm =>
        -- the predecessor lies under its own hash, which is the header
        have hheader : b.previous = tm.header :=
          (hk.stored _ previous hprev).symm.trans (hfollows tm htm)
        exact .inr ⟨tm, htm, hheader⟩
      | none =>
        refine .inl ⟨htm, ?_⟩
        by_contra hne
        obtain ⟨tm, htm'⟩ := hknown hne
        rw [htm] at htm'
        cases htm'

/-! ## Walks -/

theorem walksBack_mono {a : Address} {t : Hash} {tm : TokenMeta}
    (hblocks : ∀ h x, l.blocks.get h = some x → l'.blocks.get h = some x)
    (hl : l.WalksBack a t tm) : l'.WalksBack a t tm := by
  obtain ⟨path, hwalk, hrest⟩ := hl
  exact ⟨path, walk_mono hblocks hwalk, hrest⟩

theorem walksBack_tokenAfter (hl : ∀ tm, l.getTokenMetaConfirmed b.address b.token = some tm →
      l.WalksBack b.address b.token tm)
    (hfresh : l.blocks.get (b.getHash env.hashData) = none) (hlinked : l.Linked b)
    (hp : env.Processed v l b l') :
    l'.WalksBack b.address b.token (env.tokenAfter l b) := by
  have hstored : l'.blocks.get (b.getHash env.hashData) = some b.clone := by
    rw [hp.get_block, if_pos rfl]
  unfold tokenAfter
  rcases hlinked with ⟨hnone, hzero⟩ | ⟨tm, htm, hheader⟩
  · rw [hnone]
    refine ⟨[b.clone], walk_stop hstored, rfl, ?_, ?_⟩
    · intro x hx
      obtain rfl := List.mem_singleton.mp hx
      exact ⟨rfl, rfl⟩
    · intro x hx
      obtain rfl : b.clone = x := by simpa using hx
      exact hzero
  · rw [htm]
    obtain ⟨path, hwalk, hlen, hchain, hlast⟩ := hl tm htm
    have hne : b.getHash env.hashData ≠ tm.openBlock := by
      intro heq
      obtain ⟨x, hx⟩ := exists_get_stop hwalk
      rw [← heq, hfresh] at hx
      cases hx
    have hrest : Walk.walk l'.blocks.get StateBlock.previous tm.openBlock tm.blockCount
        b.clone.previous = some path := by
      have hsame : b.clone.previous = tm.header := hheader
      rw [hsame]
      exact walk_mono (fun _ _ hx => hp.get_block_of_get hfresh hx) hwalk
    refine ⟨b.clone :: path, walk_cons hne hstored hrest, ?_, ?_, ?_⟩
    · simp [nextTokenMeta, hlen]
    · intro x hx
      rcases List.mem_cons.mp hx with rfl | hx
      · exact ⟨rfl, rfl⟩
      · exact hchain x hx
    · intro x hx
      apply hlast x
      obtain ⟨y, rest, rfl⟩ : ∃ y rest, path = y :: rest := by
        obtain ⟨-, y, -, -, ⟨-, rfl⟩ | ⟨-, rest, -, rfl⟩⟩ := walk_eq_some hwalk
        · exact ⟨y, [], rfl⟩
        · exact ⟨y, rest, rfl⟩
      rwa [List.getLast?_cons_cons] at hx

def ChainsWalk (l : Ledger) : Prop :=
  ∀ a t tm, l.getTokenMetaConfirmed a t = some tm → l.WalksBack a t tm

theorem ChainsWalk.step (hl : ChainsWalk l) (hk : l.WellKept env.hashData)
    (hfresh : l.blocks.get (b.getHash env.hashData) = none) (hdata : env.resentBlock v l b = b)
    (hlinked : l.Linked b) (hp : env.Processed v l b l') : ChainsWalk l' := by
  intro a t tm htm
  rw [hp.getTokenMeta hk, hdata] at htm
  split_ifs at htm with hown
  · obtain ⟨rfl, rfl⟩ := hown
    cases htm
    exact walksBack_tokenAfter (hl b.address b.token) hfresh hlinked hp
  · exact walksBack_mono (fun _ _ hx => hp.get_block_of_get hfresh hx) (hl a t tm htm)

theorem chainsWalk_genesis : ChainsWalk env.genesisLedger := by
  apply genesis_invariant
  · intro a t tm htm
    simp [getTokenMetaConfirmed, getAccountMetaConfirmed] at htm
  · intro l b _ hl hfresh a t tm htm
    refine walksBack_mono ?_ (hl a t tm htm)
    intro h x hx
    rw [Table.get_put_of_ne, hx]
    intro heq
    rw [← heq, hx] at hfresh
    cases hfresh
  · intro l b l' hb hk hl hfresh hnew hp
    have hnone : l.getTokenMetaConfirmed b.address b.token = none := by
      simp [getTokenMetaConfirmed, getAccountMetaConfirmed, hnew]
    exact hl.step hk hfresh (resentBlock_of_ne (by simp [type_of_firstBlock hb]))
      (.inl ⟨hnone, previous_of_firstBlock hb⟩) hp
  · intro _ l hl
    exact hl

/-! ## Runs -/

/-- The block is neither a genesis block nor on the exemption list, its contract
leaves its call data alone, and it names a predecessor only if its chain exists. -/
structure Attached (env : Env) (_v v' : View) (l : Ledger) (b : StateBlock) : Prop where
  notGenesis : env.isGenesisBlock b = false
  notVerified : env.isVerifiedData (b.getHash env.hashData) = false
  keepsData : env.sentBlock v' l b = b
  known : b.previous ≠ 0 → ∃ tm, l.getTokenMetaConfirmed b.address b.token = some tm

theorem Reachable.chainsWalk (h : env.Reachable env.Attached l) : ChainsWalk l := by
  suffices hboth : l.WellKept env.hashData ∧ ChainsWalk l from hboth.2
  apply h.invariant (I := fun l => l.WellKept env.hashData ∧ ChainsWalk l)
    ⟨wellKept_genesis, chainsWalk_genesis⟩
  rintro v v' l b l' hs hb ⟨hk, hl⟩
  have hp := blockProcess_ok hs.applied
  have hfresh := fresh_of_blockCheck hb.notGenesis hs.accepted
  have hacc := (blockCheck_ok_of_not_verified hb.notVerified).mp hs.accepted
  have hlinked := (linked_iff hk hb.notGenesis hacc).mpr hb.known
  have hdata := resentBlock_of_sentBlock hb.notGenesis hb.keepsData
  exact ⟨hp.wellKept hk, hl.step hk hfresh hdata hlinked hp⟩

/-- In every ledger of a run of attached blocks an accepted block is linked
exactly if it is attached itself, and every stored chain can be walked back. -/
theorem linked_iff_and_walksBack (h : env.Reachable env.Attached l) :
    (∀ v b, env.isGenesisBlock b = false →
      env.isVerifiedData (b.getHash env.hashData) = false → env.blockCheck v l b = .ok () →
      (l.Linked b ↔
        (b.previous ≠ 0 → ∃ tm, l.getTokenMetaConfirmed b.address b.token = some tm))) ∧
    ∀ a am tm, l.accounts.get a = some am → tm ∈ am.tokens → l.WalksBack a tm.type tm := by
  refine ⟨?_, ?_⟩
  · intro v b hgen hver hacc
    exact linked_iff h.wellKept hgen ((blockCheck_ok_of_not_verified hver).mp hacc)
  · intro a am tm ham hmem
    apply h.chainsWalk
    have hfind : am.token tm.type = some tm :=
      AccountMeta.find_of_mem (h.wellKept.nodup a am ham) hmem
    simp [getTokenMetaConfirmed, getAccountMetaConfirmed, ham, hfind]

end Env
def Devnet.strangerSend : StateBlock :=
  Devnet.signed
    { type := .send, token := chainToken, address := Devnet.stranger
      balance := genesisBlock.balance - 1, previous := Devnet.genesisHash, link := gasAddress
      representative := Devnet.stranger }

open Devnet Env in
theorem strangerSend_accepted_unlinked :
    env.isGenesisBlock strangerSend = false ∧
    env.isVerifiedData (strangerSend.getHash env.hashData) = false ∧
    ¬ env.genesisLedger.Linked strangerSend ∧
    ∃ l, env.Step view view env.genesisLedger strangerSend l ∧
      ∃ tm, l.getTokenMetaConfirmed stranger chainToken = some tm ∧
        tm.balance = genesisBlock.balance - 1 := by
  have hblock : env.isGenesisBlock strangerSend = false ∧
      env.genesisLedger.getTokenMetaConfirmed strangerSend.address strangerSend.token = none ∧
      strangerSend.previous ≠ 0 := by
    decide +kernel
  have hrun : ((env.run view env.genesisLedger [strangerSend]).any fun l =>
      (l.getTokenMetaConfirmed stranger chainToken).any fun tm =>
        decide (tm.balance = genesisBlock.balance - 1)) = true := by
    decide +kernel
  obtain ⟨hgen, hnone, hprev⟩ := hblock
  obtain ⟨l, hl, htm⟩ := (any_eq_true _ _).mp hrun
  obtain ⟨tm, htm, hbalance⟩ := (any_eq_true _ _).mp htm
  obtain ⟨l₁, hstep, hdone⟩ := step_of_run hl
  obtain rfl := Option.some.inj hdone
  refine ⟨hgen, rfl, ?_, l₁, hstep, tm, htm, of_decide_eq_true hbalance⟩
  rintro (⟨-, hzero⟩ | ⟨tm', htm', -⟩)
  · exact hprev hzero
  · rw [hnone] at htm'
    cases htm'

open Devnet Env in
theorem linked_iff_and_walksBack_after_send :
    ∃ l, env.Reachable env.Attached l ∧
      (l.Linked strangerSend ↔ (strangerSend.previous ≠ 0 →
        ∃ tm, l.getTokenMetaConfirmed strangerSend.address strangerSend.token = some tm)) ∧
      ∃ am tm, l.accounts.get genesisAddress = some am ∧ tm ∈ am.tokens ∧ tm.blockCount = 2 ∧
        l.WalksBack genesisAddress tm.type tm := by
  have hblock : env.isGenesisBlock plainSend = false ∧ env.isGenesisBlock strangerSend = false ∧
      (env.genesisLedger.getTokenMetaConfirmed plainSend.address plainSend.token).isSome = true := by
    decide +kernel
  have hrun : ((env.run view env.genesisLedger [plainSend]).any fun l =>
      decide (env.blockCheck view l strangerSend = .ok ()) &&
      (l.accounts.get genesisAddress).any fun am =>
        (am.token chainToken).any fun tm => decide (tm.blockCount = 2)) = true := by
    decide +kernel
  obtain ⟨hgen, hgen', hknown⟩ := hblock
  obtain ⟨l, hl, hfacts⟩ := (any_eq_true _ _).mp hrun
  obtain ⟨hacc, hfacts⟩ := Bool.and_eq_true_iff.mp hfacts
  obtain ⟨am, ham, hfacts⟩ := (any_eq_true _ _).mp hfacts
  obtain ⟨tm, htm, hcount⟩ := (any_eq_true _ _).mp hfacts
  obtain ⟨l₁, hstep, hdone⟩ := step_of_run hl
  obtain rfl := Option.some.inj hdone
  have hattached : env.Attached view view env.genesisLedger plainSend :=
    ⟨hgen, rfl, rfl, fun _ => isSome_iff_exists.mp hknown⟩
  have hreach : env.Reachable env.Attached l₁ :=
    .single ⟨view, view, plainSend, hstep, hattached⟩
  obtain ⟨hlinked, hwalks⟩ := linked_iff_and_walksBack hreach
  have hmem : tm ∈ am.tokens := AccountMeta.mem_of_token htm
  exact ⟨l₁, hreach, hlinked view strangerSend hgen' rfl (of_decide_eq_true hacc), am, tm, ham,
    hmem, of_decide_eq_true hcount, hwalks _ am tm ham hmem⟩

end GoQlc
