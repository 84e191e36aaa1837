import GoQlc.Process.Invariants

/-!
# Value conservation

Coins are held by accounts or on their way in a pending.
-/

namespace GoQlc

open Config AccountMeta Devnet Ledger List Option StateBlock Table

namespace Ledger

def held (l : Ledger) (t : Hash) : ℕ := l.accounts.total fun _ am => balanceOf t am.tokens

def inTransit (l : Ledger) (t : Hash) : ℕ :=
  l.pendings.total fun _ pending => if pending.type = t then pending.amount else 0

def supply (l : Ledger) (t : Hash) : ℕ := l.held t + l.inTransit t

def weightsOf (l : Ledger) (a : Address) : ℕ × ℕ × ℕ × ℕ :=
  ((l.coinsOf a).vote, (l.coinsOf a).network, (l.coinsOf a).oracle, (l.coinsOf a).storage)

/-- The supply of every token and the weights of every account are those of `l`. -/
structure Conserves (l l' : Ledger) : Prop where
  supply : ∀ t, l'.supply t = l.supply t
  weights : ∀ a, l'.weightsOf a = l.weightsOf a

theorem supply_lt {l : Ledger}
    (h : (l.accounts.total fun _ am => (am.tokens.map TokenMeta.balance).sum) +
      (l.pendings.total fun _ pending => pending.amount) < 2 ^ 64) (t : Hash) :
    l.supply t < 2 ^ 64 := by
  have hheld : l.held t ≤ l.accounts.total fun _ am => (am.tokens.map TokenMeta.balance).sum := by
    apply total_mono
    intro _ am
    apply sum_le_sum
    intro tm _
    split_ifs <;> omega
  have htransit : l.inTransit t ≤ l.pendings.total fun _ pending => pending.amount := by
    apply total_mono
    intro _ pending
    split_ifs <;> omega
  unfold supply
  omega

theorem balance_le_supply {l : Ledger} {a : Address} {t : Hash} {tm : TokenMeta}
    (h : l.getTokenMetaConfirmed a t = some tm) : tm.balance ≤ l.supply t := by
  obtain ⟨am, ham, htm⟩ := bind_eq_some_iff.mp h
  have hown : tm.balance ≤ balanceOf t am.tokens := by
    have hmem : (if tm.type = t then tm.balance else 0) ∈
        am.tokens.map fun tm => if tm.type = t then tm.balance else 0 :=
      mem_map_of_mem (mem_of_token htm)
    rw [if_pos (token_type htm)] at hmem
    exact single_le_sum (fun _ _ => Nat.zero_le _) _ hmem
  have hall : balanceOf t am.tokens ≤ l.held t :=
    le_total (f := fun _ am => balanceOf t am.tokens) ham
  unfold supply
  omega

end Ledger

namespace Env

variable {env : Env} {v v' : View} {l l' : Ledger} {b : StateBlock}

/-! ## The two places -/

section Places

variable (hp : env.Processed v l b l')
include hp

theorem held_step (hk : l.WellKept env.hashData) (hdata : env.resentBlock v l b = b) (t : Hash) :
    l'.held t + (if b.token = t then l.balanceAt b.address b.token else 0) =
      l.held t + if b.token = t then b.balance else 0 := by
  have hput := total_put_add (fun _ am => balanceOf t am.tokens) l.accounts
    b.address (env.accountAfter l b)
  have hweight : Table.weight (fun _ am => balanceOf t am.tokens) l.accounts b.address =
      ((l.accounts.get b.address).map fun am => balanceOf t am.tokens).getD 0 := by
    unfold Table.weight
    cases l.accounts.get b.address <;> rfl
  have hown := @balanceOf_accountAfter env l b t
  have haddr : (env.accountAfter l b).address = b.address :=
    accountAfter_address (hk.keyed b.address)
  unfold held balanceAt
  rw [hp.accounts, hdata, haddr]
  rw [hweight] at hput
  omega

theorem inTransit_receive (hrecv : b.isReceiveBlock = true) {pending : PendingInfo}
    (hpending : l.getPending (pendingKeyOf b) = some pending) (t : Hash) :
    l'.inTransit t + (if pending.type = t then pending.amount else 0) = l.inTransit t := by
  have hdelete := total_delete_add
    (fun _ pending => if pending.type = t then pending.amount else 0) l.pendings (pendingKeyOf b)
  rw [weight_of_get (by exact hpending)] at hdelete
  unfold inTransit
  rwa [hp.pendings, pendingsAfter, if_pos hrecv]

theorem inTransit_send (ht : b.type = .send) {previous : StateBlock}
    (hprev : l.blocks.get b.previous = some previous)
    (hnew : l.pendings.get (env.sendPendingKey b) = none) (t : Hash) :
    l'.inTransit t =
      l.inTransit t + if b.token = t then Balance.sub previous.balance b.balance else 0 := by
  have hput := total_put_add
    (fun _ pending => if pending.type = t then pending.amount else 0) l.pendings
    (env.sendPendingKey b) (sendPending previous b)
  rw [weight_of_get_none hnew] at hput
  have hafter : env.pendingsAfter v l b =
      l.pendings.put (env.sendPendingKey b) (sendPending previous b) := by
    simp [pendingsAfter, addedPending, isReceiveBlock, ht, hprev]
  unfold inTransit
  rw [hp.pendings, hafter]
  exact hput

theorem inTransit_change (ht : b.type = .change ∨ b.type = .online) (t : Hash) :
    l'.inTransit t = l.inTransit t := by
  have hafter : env.pendingsAfter v l b = l.pendings := by
    rcases ht with ht | ht <;> simp [pendingsAfter, addedPending, isReceiveBlock, ht]
  unfold inTransit
  rw [hp.pendings, hafter]

theorem weightsOf_step (hk : l.WellKept env.hashData)
    (hsame : b.token = chainToken →
      (b.getVote, b.getNetwork, b.getOracle, b.getStorage) = l.weightsOf b.address)
    (a : Address) : l'.weightsOf a = l.weightsOf a := by
  unfold weightsOf
  rw [hp.coinsOf hk]
  split_ifs with hown
  · obtain ⟨rfl, htoken⟩ := hown
    exact hsame htoken
  · rfl

end Places

theorem HeadsStored.previous (hl : HeadsStored l) {tm : TokenMeta} {previous : StateBlock}
    (htm : l.getTokenMetaConfirmed b.address b.token = some tm) (hheader : b.previous = tm.header)
    (hprev : l.blocks.get b.previous = some previous) :
    previous.balance = tm.balance ∧
      (sameWeights previous b → b.token = chainToken →
        (b.getVote, b.getNetwork, b.getOracle, b.getStorage) = l.weightsOf b.address) := by
  obtain ⟨head, hhead, -, -, hbalance, hcoins⟩ := hl.head _ _ tm htm
  obtain rfl : previous = head := by
    rw [← hheader, hprev] at hhead
    exact Option.some.inj hhead
  refine ⟨hbalance, ?_⟩
  rintro ⟨hvote, hnetwork, hstorage, horacle⟩ htoken
  rw [weightsOf, hcoins htoken, ← hvote, ← hnetwork, ← hstorage, ← horacle]
  rfl

/-! ## One block -/

/-- What is known of a ledger of a run of regular blocks, whose supply fits in a word. -/
structure Sound (env : Env) (l : Ledger) : Prop where
  wellKept : l.WellKept env.hashData
  heads : HeadsStored l
  pendings : PendingsStored l
  supply : ∀ t, l.supply t < 2 ^ 64

def AtHead (l : Ledger) (b : StateBlock) : Prop :=
  ∃ tm, l.getTokenMetaConfirmed b.address b.token = some tm ∧ b.previous = tm.header

theorem conserves_send (hl : env.Sound l) (ht : b.type = .send) (hhead : AtHead l b)
    (hacc : env.checkByType v l b = .ok ()) (hp : env.Processed v' l b l') : l.Conserves l' := by
  obtain ⟨tm, htm, hheader⟩ := hhead
  obtain ⟨hbase, previous, hprev, -, hlower, hweights⟩ := (send_ok ht).mp hacc
  obtain ⟨hbalance, hsame⟩ := hl.heads.previous htm hheader hprev
  have hnew : l.pendings.get (env.sendPendingKey b) = none := by
    -- a pending under the hash of the block would need the block to be stored
    by_contra hne
    obtain ⟨info, hinfo⟩ := ne_none_iff_exists'.mp hne
    obtain ⟨send, hstored, -⟩ := hl.pendings _ info hinfo
    have hfresh := (baseInfo_ok.mp hbase).1
    rw [show (env.sendPendingKey b).hash = b.getHash env.hashData from rfl, hfresh] at hstored
    cases hstored
  refine ⟨?_, weightsOf_step hp hl.wellKept (hsame hweights)⟩
  intro t
  unfold supply
  have hheld := held_step hp hl.wellKept (resentBlock_of_ne (by simp [ht])) t
  have htransit := inTransit_send hp ht hprev hnew t
  have hbound := lt_of_le_of_lt (balance_le_supply htm) (hl.supply b.token)
  have hamount : Balance.sub previous.balance b.balance = tm.balance - b.balance := by
    rw [Balance.sub_of_lt (by omega) (by omega), hbalance]
  have hbefore : l.balanceAt b.address b.token = tm.balance := by simp [balanceAt, htm]
  rw [hbefore] at hheld
  rw [hamount] at htransit
  split_ifs at hheld htransit <;> omega

theorem conserves_change (hl : env.Sound l) (ht : b.type = .change ∨ b.type = .online)
    (hhead : AtHead l b) (hacc : env.checkByType v l b = .ok ())
    (hp : env.Processed v' l b l') : l.Conserves l' := by
  obtain ⟨tm, htm, hheader⟩ := hhead
  obtain ⟨-, -, -, previous, hprev, -, hbal, hweights⟩ := (change_ok ht).mp hacc
  obtain ⟨hbalance, hsame⟩ := hl.heads.previous htm hheader hprev
  refine ⟨?_, weightsOf_step hp hl.wellKept (hsame hweights)⟩
  intro t
  unfold supply
  have hne : b.type ≠ .contractSend := by rcases ht with ht | ht <;> simp [ht]
  have hheld := held_step hp hl.wellKept (resentBlock_of_ne hne) t
  have htransit := inTransit_change hp ht t
  have hbefore : l.balanceAt b.address b.token = b.balance := by
    simp [balanceAt, htm, hbal, hbalance]
  rw [hbefore] at hheld
  split_ifs at hheld <;> omega

theorem conserves_open (hl : env.Sound l) (ht : b.type = .open_)
    (hacc : env.checkByType v l b = .ok ()) (hp : env.Processed v' l b l') : l.Conserves l' := by
  obtain ⟨-, -, -, hnone, pending, hpending, hamount, htype, hvote, hnetwork, hstorage, horacle⟩ :=
    (open_ok ht).mp hacc
  have hsame : b.token = chainToken →
      (b.getVote, b.getNetwork, b.getOracle, b.getStorage) = l.weightsOf b.address := by
    intro htoken
    rw [htoken] at hnone
    rw [weightsOf, hl.heads.noCoins _ hnone, hvote, hnetwork, hstorage, horacle]
    rfl
  refine ⟨?_, weightsOf_step hp hl.wellKept hsame⟩
  intro t
  unfold supply
  have hheld := held_step hp hl.wellKept (resentBlock_of_ne (by simp [ht])) t
  have htransit := inTransit_receive hp (by simp [isReceiveBlock, ht]) hpending t
  have hbefore : l.balanceAt b.address b.token = 0 := by simp [balanceAt, hnone]
  rw [hbefore] at hheld
  rw [hamount, htype] at htransit
  split_ifs at hheld htransit <;> omega

theorem conserves_receive_iff (hl : env.Sound l) (ht : b.type = .receive)
    (hbound : b.balance < 2 ^ 64) (hhead : AtHead l b) (hacc : env.checkByType v l b = .ok ())
    (hp : env.Processed v' l b l') :
    l.Conserves l' ↔ l.balanceAt b.address b.token ≤ b.balance := by
  obtain ⟨tm, htm, hheader⟩ := hhead
  obtain ⟨-, -, previous, pending, tm', hprev, hpending, htm', -, hamount, htype, hweights⟩ :=
    (receive_ok ht).mp hacc
  obtain rfl : tm = tm' := Option.some.inj (htm.symm.trans htm')
  obtain ⟨-, hsame⟩ := hl.heads.previous htm hheader hprev
  have hold := lt_of_le_of_lt (balance_le_supply htm) (hl.supply b.token)
  have hbefore : l.balanceAt b.address b.token = tm.balance := by simp [balanceAt, htm]
  rw [Balance.sub_of_lt hbound hold] at hamount
  have hheld := held_step hp hl.wellKept (resentBlock_of_ne (by simp [ht]))
  have htransit := inTransit_receive hp (by simp [isReceiveBlock, ht]) hpending
  rw [htype, hamount] at htransit
  rw [hbefore] at hheld ⊢
  constructor
  · intro hcons
    have hsupply := hcons.supply b.token
    have hheld' := hheld b.token
    have htransit' := htransit b.token
    rw [if_pos rfl] at htransit'
    rw [if_pos rfl, if_pos rfl] at hheld'
    unfold supply at hsupply
    omega
  · intro hle
    refine ⟨?_, weightsOf_step hp hl.wellKept (hsame hweights)⟩
    intro t
    unfold supply
    have hheld' := hheld t
    have htransit' := htransit t
    split_ifs at hheld' htransit' <;> omega

/-! ## Runs -/

theorem Reachable.sound (h : env.Reachable env.regularBlock l)
    (hsupply : ∀ t, l.supply t < 2 ^ 64) : env.Sound l :=
  ⟨h.wellKept, h.headsStored fun _ _ _ _ hb => hb, h.pendingsStored fun _ _ _ _ hb => hb, hsupply⟩

/-- In every ledger of a run of regular blocks whose supply fits in a word, a
plain block at the head of its chain conserves supply and weights exactly if
it is not a receive that lowers the balance. -/
theorem plain_block_conserves_iff (hreach : env.Reachable env.regularBlock l)
    (hsupply : ∀ t, l.supply t < 2 ^ 64)
    (ht : b.type ∈ [.send, .receive, .open_, .change, .online]) (hbound : b.balance < 2 ^ 64)
    (hver : env.isVerifiedData (b.getHash env.hashData) = false)
    (hhead : b.type = .open_ ∨ AtHead l b) (hstep : env.Step v v' l b l') :
    l.Conserves l' ↔ (b.type = .receive → l.balanceAt b.address b.token ≤ b.balance) := by
  have hl := hreach.sound hsupply
  have hacc := (blockCheck_ok_of_not_verified hver).mp hstep.accepted
  have hp := blockProcess_ok hstep.applied
  simp only [mem_cons, not_mem_nil, or_false] at ht
  rcases ht with ht | ht | ht | ht
  · have hcons := conserves_send hl ht (hhead.resolve_left (by simp [ht])) hacc hp
    simp [ht, hcons]
  · have hiff := conserves_receive_iff hl ht hbound (hhead.resolve_left (by simp [ht])) hacc hp
    simp [ht, hiff]
  · simp [ht, conserves_open hl ht hacc hp]
  · have hne : b.type ≠ .open_ := by rcases ht with ht | ht <;> simp [ht]
    have hcons := conserves_change hl ht (hhead.resolve_left hne) hacc hp
    rcases ht with ht | ht <;> simp [ht, hcons]

/-- A plain block at the head of its chain; a receive does not lower the balance. -/
structure Transfer (env : Env) (_v v' : View) (l : Ledger) (b : StateBlock) : Prop where
  regular : env.Regular v' l b
  notVerified : env.isVerifiedData (b.getHash env.hashData) = false
  kind : b.type = .open_ ∨ AtHead l b ∧ (b.type = .send ∨ b.type = .change ∨ b.type = .online ∨
    b.type = .receive ∧ b.balance < 2 ^ 64 ∧ l.balanceAt b.address b.token ≤ b.balance)

/-- Over every run of transfers the supply of each token and the weights of each account stay as
they were at genesis. -/
theorem transfers_conserve (h : env.Reachable env.Transfer l)
    (hsupply : ∀ t, env.genesisLedger.supply t < 2 ^ 64) : env.genesisLedger.Conserves l := by
  induction h with
  | refl => exact ⟨fun _ => rfl, fun _ => rfl⟩
  | @tail l l' hrun hnext hkept =>
    obtain ⟨v, v', b, hs, hb⟩ := hnext
    have hreach : env.Reachable env.regularBlock l :=
      Reachable.mono (fun _ _ _ _ hb => hb.regular) hrun
    have hl := hreach.sound fun t => (hkept.supply t).trans_lt (hsupply t)
    have hacc := (blockCheck_ok_of_not_verified hb.notVerified).mp hs.accepted
    have hp := blockProcess_ok hs.applied
    have hcons : l.Conserves l' := by
      obtain ht | ⟨hhead, ht | ht | ht | ⟨ht, hbound, hle⟩⟩ := hb.kind
      · exact conserves_open hl ht hacc hp
      · exact conserves_send hl ht hhead hacc hp
      · exact conserves_change hl (.inl ht) hhead hacc hp
      · exact conserves_change hl (.inr ht) hhead hacc hp
      · exact (conserves_receive_iff hl ht hbound hhead hacc hp).mpr hle
    exact ⟨fun t => (hcons.supply t).trans (hkept.supply t),
      fun a => (hcons.weights a).trans (hkept.weights a)⟩

end Env
def Devnet.lowReceive : StateBlock :=
  Devnet.signed
    { type := .receive, token := chainToken, address := genesisAddress
      balance := 1, previous := pledgeSend.getHash hashData
      link := pledgeSend.getHash hashData, representative := genesisAddress }

open Devnet Env in
theorem lowReceive_accepted_losing_coins :
    ∃ l l', env.Reachable env.regularBlock l ∧ (∀ t, l.supply t < 2 ^ 64) ∧
      lowReceive.type = .receive ∧ AtHead l lowReceive ∧
      env.isVerifiedData (lowReceive.getHash env.hashData) = false ∧
      env.Step view view l lowReceive l' ∧ l'.supply chainToken < l.supply chainToken := by
  have hrun : ((env.run view env.genesisLedger [pledgeSend]).any fun l =>
      decide ((l.accounts.total fun _ am => (am.tokens.map TokenMeta.balance).sum) +
        (l.pendings.total fun _ pending => pending.amount) < 2 ^ 64) &&
      ((l.getTokenMetaConfirmed genesisAddress chainToken).any fun tm =>
        decide (lowReceive.previous = tm.header)) &&
      (env.run view l [lowReceive]).any fun l' =>
        decide (l'.supply chainToken < l.supply chainToken)) = true := by
    decide +kernel
  have hregular : env.Regular view env.genesisLedger pledgeSend :=
    regular_of_modelled (by decide +kernel) (by decide)
  obtain ⟨l, hl, hfacts⟩ := (any_eq_true _ _).mp hrun
  simp only [Bool.and_eq_true, decide_eq_true_eq] at hfacts
  obtain ⟨⟨hsum, htm⟩, hnext⟩ := hfacts
  obtain ⟨tm, htm, hheader⟩ := (any_eq_true _ _).mp htm
  obtain ⟨l', hl', hlost⟩ := (any_eq_true _ _).mp hnext
  obtain ⟨l₁, hstep, hdone⟩ := step_of_run hl
  obtain rfl := Option.some.inj hdone
  obtain ⟨l₂, hstep', hdone'⟩ := step_of_run hl'
  obtain rfl := Option.some.inj hdone'
  exact ⟨l₁, l₂, .single ⟨view, view, pledgeSend, hstep, hregular⟩, supply_lt hsum, rfl,
    ⟨tm, htm, of_decide_eq_true hheader⟩, rfl, hstep', of_decide_eq_true hlost⟩

open Devnet Env in
theorem plainSend_conserves :
    ∃ l, env.Step view view env.genesisLedger plainSend l ∧ env.genesisLedger.Conserves l := by
  have hgenesis : (env.genesisLedger.accounts.total fun _ am =>
        (am.tokens.map TokenMeta.balance).sum) +
        (env.genesisLedger.pendings.total fun _ pending => pending.amount) < 2 ^ 64 ∧
      ((env.genesisLedger.getTokenMetaConfirmed genesisAddress chainToken).any fun tm =>
        decide (plainSend.previous = tm.header)) = true ∧
      (env.run view env.genesisLedger [plainSend]).isSome = true := by
    decide +kernel
  obtain ⟨hsum, htm, hrun⟩ := hgenesis
  obtain ⟨tm, htm, hheader⟩ := (any_eq_true _ _).mp htm
  obtain ⟨l, hl⟩ := isSome_iff_exists.mp hrun
  obtain ⟨l₁, hstep, -⟩ := step_of_run hl
  have hreach : env.Reachable env.regularBlock env.genesisLedger := .refl
  have htype : plainSend.type = .send := rfl
  have hbalance : plainSend.balance < 2 ^ 64 := by decide +kernel
  have hiff := plain_block_conserves_iff hreach (supply_lt hsum) (by simp [htype]) hbalance
    rfl (.inr ⟨tm, htm, of_decide_eq_true hheader⟩) hstep
  refine ⟨l₁, hstep, hiff.mpr ?_⟩
  intro hreceive
  rw [htype] at hreceive
  cases hreceive

open Devnet Env in
theorem transfers_conserve_one :
    ∃ l, env.Step view view env.genesisLedger plainSend l ∧ env.genesisLedger.Conserves l := by
  have hfacts : (env.genesisLedger.accounts.total fun _ am =>
        (am.tokens.map TokenMeta.balance).sum) +
        (env.genesisLedger.pendings.total fun _ pending => pending.amount) < 2 ^ 64 ∧
      env.isGenesisBlock plainSend = false ∧
      (env.run view env.genesisLedger [plainSend]).isSome ∧
      ∃ tm ∈ env.genesisLedger.getTokenMetaConfirmed genesisAddress chainToken,
        plainSend.previous = tm.header := by
    decide +kernel
  obtain ⟨hsum, hgen, hrun, hhead⟩ := hfacts
  obtain ⟨l, hl⟩ := isSome_iff_exists.mp hrun
  obtain ⟨l₁, hstep, -⟩ := step_of_run hl
  have hb : env.Transfer view view env.genesisLedger plainSend :=
    ⟨⟨hgen, rfl, nofun⟩, rfl, .inr ⟨hhead, .inl rfl⟩⟩
  exact ⟨l₁, hstep, transfers_conserve (.single ⟨view, view, plainSend, hstep, hb⟩) (supply_lt hsum)⟩

end GoQlc
