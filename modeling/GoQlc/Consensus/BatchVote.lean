import GoQlc.Config.Devnet

/-!
# Batch votes

A local representative that votes for a block puts the hash into a queue that all local
representatives share.
-/

namespace GoQlc.BatchVote

open Config List

def hashNumPerAck : ℕ := 1024

def minVoteWeight : ℕ := genesisBlock.balance / 200

/-- An acknowledgement of many hashes, signed with the key of `account`. -/
structure ConfirmAckBlock where
  account : Address
  hash : List Hash
deriving DecidableEq

def ConfirmAckBlock.pairs (ack : ConfirmAckBlock) : List (Address × Hash) :=
  ack.hash.map fun hash => (ack.account, hash)

/-- One call of `localRepVote`: the block, and what is read when the call comes to an account. -/
structure Call where
  block : StateBlock
  weight : Address → ℕ
  hasStateBlockConfirmed : Address → Bool
  isOnline : Address → Bool

/-- The accounts that vote, among those still to come. An Online block of an account that is
not online ends the round. -/
def Call.voters (call : Call) : List Address → List Address
  | [] => []
  | account :: accounts =>
    if call.weight account < minVoteWeight then call.voters accounts
    else if call.block.type = .online ∧ call.hasStateBlockConfirmed account = false ∧
        call.isOnline account = false then []
    else account :: call.voters accounts

/-- The queue and the messages sent; `voted` records who has put a hash into the queue. -/
structure State where
  batchVote : List Hash := []
  acks : List ConfirmAckBlock := []
  voted : List (Address × Hash) := []
deriving DecidableEq

def localRepVote (env : Env) (call : Call) (accounts : List Address) (s : State) : State :=
  let hash := call.block.getHash env.hashData
  { s with
    batchVote := s.batchVote ++ (call.voters accounts).map fun _ => hash
    voted := s.voted ++ (call.voters accounts).map fun account => (account, hash) }

/-- The loop over the queue, with the hashes collected since the last full message. -/
def drain (account : Address) : List Hash → List Hash → List ConfirmAckBlock
  | hashes, [] => if hashes = [] then [] else [{ account, hash := hashes }]
  | hashes, hash :: queue =>
    if (hashes ++ [hash]).length = hashNumPerAck then
      { account, hash := hashes ++ [hash] } :: drain account [] queue
    else drain account (hashes ++ [hash]) queue

def batchVoteDo (s : State) (account : Address) : State :=
  { s with batchVote := [], acks := s.acks ++ drain account [] s.batchVote }

/-- An event, with the order in which it goes through the local representatives. -/
inductive Event where
  | localRepVote (call : Call) (accounts : List Address)
  | tick (accounts : List Address)

def Event.accounts : Event → List Address
  | .localRepVote _ accounts => accounts
  | .tick accounts => accounts

def step (env : Env) (s : State) : Event → State
  | .localRepVote call accounts => localRepVote env call accounts s
  | .tick accounts => accounts.foldl batchVoteDo s

def run (env : Env) (events : List Event) : State := events.foldl (step env) {}

def Ranges (accounts : Finset Address) (events : List Event) : Prop :=
  ∀ e ∈ events, e.accounts.Nodup ∧ e.accounts.toFinset = accounts

variable {env : Env}

/-! ## What one account signs -/

theorem drain_pairs (account : Address) (hashes queue : List Hash) :
    (drain account hashes queue).flatMap ConfirmAckBlock.pairs =
      (hashes ++ queue).map fun hash => (account, hash) := by
  induction queue generalizing hashes with
  | nil =>
    unfold drain
    split_ifs with hempty
    · rw [hempty]
      rfl
    · simp [ConfirmAckBlock.pairs]
  | cons hash queue ih =>
    unfold drain
    split_ifs
    · rw [flatMap_cons, ih]
      simp [ConfirmAckBlock.pairs]
    · rw [ih, append_assoc, singleton_append]

variable {account : Address} {s : State} {accounts : Finset Address}

theorem drain_bounds {hashes queue : List Hash} (hfull : hashes.length < hashNumPerAck)
    {ack : ConfirmAckBlock} (hack : ack ∈ drain account hashes queue) :
    ack.account = account ∧ 0 < ack.hash.length ∧ ack.hash.length ≤ hashNumPerAck := by
  induction queue generalizing hashes with
  | nil =>
    unfold drain at hack
    split_ifs at hack with hempty
    · exact absurd hack not_mem_nil
    · obtain rfl := mem_singleton.mp hack
      exact ⟨rfl, length_pos_iff.mpr hempty, Nat.le_of_lt hfull⟩
  | cons hash queue ih =>
    unfold drain at hack
    have hlength : (hashes ++ [hash]).length = hashes.length + 1 := by simp
    split_ifs at hack with hlimit
    · rcases mem_cons.mp hack with rfl | hack
      · exact ⟨rfl, by dsimp only; omega, Nat.le_of_eq hlimit⟩
      · exact ih (by decide) hack
    · exact ih (by omega) hack

/-! ## What a tick sends -/

theorem foldl_batchVoteDo_of_empty (h : s.batchVote = []) (accounts : List Address) :
    accounts.foldl batchVoteDo s = s := by
  induction accounts with
  | nil => rfl
  | cons account accounts ih =>
    have hnone : batchVoteDo s account = s := by
      unfold batchVoteDo
      rw [h, drain, if_pos rfl, append_nil, ← h]
    rw [foldl_cons, hnone, ih]

theorem tick_cons (s : State) (account : Address) (accounts : List Address) :
    (account :: accounts).foldl batchVoteDo s =
      { s with batchVote := [], acks := s.acks ++ drain account [] s.batchVote } := by
  rw [foldl_cons]
  exact foldl_batchVoteDo_of_empty rfl accounts

theorem voters_subset {call : Call} {accounts : List Address} (h : account ∈ call.voters accounts) :
    account ∈ accounts := by
  induction accounts with
  | nil => exact h
  | cons a accounts ih =>
    unfold Call.voters at h
    split_ifs at h
    · exact mem_cons_of_mem _ (ih h)
    · exact absurd h not_mem_nil
    · rcases mem_cons.mp h with rfl | h
      · exact mem_cons_self
      · exact mem_cons_of_mem _ (ih h)

/-! ## Runs -/

/-- What any run keeps: no hash is lost or doubled on its way, and the accounts of the messages
and of the votes are local ones. -/
structure Inv (accounts : Finset Address) (s : State) : Prop where
  hashes : (s.acks.flatMap ConfirmAckBlock.hash ++ s.batchVote).Perm (s.voted.map Prod.snd)
  acks : ∀ ack ∈ s.acks,
    ack.account ∈ accounts ∧ 0 < ack.hash.length ∧ ack.hash.length ≤ hashNumPerAck
  voted : ∀ p ∈ s.voted, p.1 ∈ accounts

theorem flatMap_hash_eq (acks : List ConfirmAckBlock) :
    acks.flatMap ConfirmAckBlock.hash = (acks.flatMap ConfirmAckBlock.pairs).map Prod.snd := by
  rw [map_flatMap]
  congr 1
  funext ack
  simp [ConfirmAckBlock.pairs]

theorem Inv.step (h : Inv accounts s) {e : Event} (he : e.accounts.toFinset = accounts) :
    Inv accounts (step env s e) := by
  cases e with
  | localRepVote call order =>
    refine ⟨?_, h.acks, fun p hp => ?_⟩
    · change List.Perm (_ ++ (_ ++ _)) (List.map Prod.snd (_ ++ _))
      rw [← append_assoc, map_append, map_map]
      exact h.hashes.append_right _
    · rcases mem_append.mp hp with hp | hp
      · exact h.voted p hp
      · obtain ⟨account, haccount, rfl⟩ := mem_map.mp hp
        rw [← he, mem_toFinset]
        exact voters_subset haccount
  | tick order =>
    cases order with
    | nil => exact h
    | cons account order =>
      change Inv accounts ((account :: order).foldl batchVoteDo s)
      rw [tick_cons]
      refine ⟨?_, fun ack hack => ?_, h.voted⟩
      · dsimp only
        rw [append_nil, flatMap_append, flatMap_hash_eq (drain _ _ _), drain_pairs,
          nil_append, map_map]
        have hid : s.batchVote.map (Prod.snd ∘ fun hash => (account, hash)) = s.batchVote :=
          map_id _
        rw [hid]
        exact h.hashes
      · rcases mem_append.mp hack with hack | hack
        · exact h.acks ack hack
        · obtain ⟨haccount, hbounds⟩ := drain_bounds (by decide) hack
          rw [haccount, ← he, mem_toFinset]
          exact ⟨mem_cons_self, hbounds⟩

theorem run_inv {events : List Event} (h : Ranges accounts events) :
    Inv accounts (run env events) := by
  unfold run
  have hinit : Inv accounts {} := ⟨List.Perm.refl _, nofun, nofun⟩
  generalize ({} : State) = s at hinit
  induction events generalizing s with
  | nil => exact hinit
  | cons e events ih =>
    rw [foldl_cons]
    exact ih (fun f hf => h f (mem_cons_of_mem _ hf)) _ (hinit.step (h e mem_cons_self).2)

theorem Inv.perm_of_subsingleton (h : Inv accounts s) (hcard : accounts.card ≤ 1)
    (hempty : s.batchVote = []) : (s.acks.flatMap ConfirmAckBlock.pairs).Perm s.voted := by
  have hone : ∀ a ∈ accounts, ∀ b ∈ accounts, a = b := Finset.card_le_one.mp hcard
  by_cases hnone : accounts = ∅
  · have hvoted : s.voted = [] := eq_nil_iff_forall_not_mem.mpr fun p hp => by
      have := h.voted p hp
      rw [hnone] at this
      exact absurd this (Finset.notMem_empty _)
    have hacks : s.acks = [] := eq_nil_iff_forall_not_mem.mpr fun ack hack => by
      have := (h.acks ack hack).1
      rw [hnone] at this
      exact absurd this (Finset.notMem_empty _)
    rw [hvoted, hacks]
    exact List.Perm.refl _
  · obtain ⟨account, haccount⟩ := Finset.nonempty_iff_ne_empty.mpr hnone
    -- a list of pairs of this account is the list of its hashes with the account put to each
    have hpairs : ∀ ps : List (Address × Hash), (∀ p ∈ ps, p.1 ∈ accounts) →
        ps = (ps.map Prod.snd).map fun hash => (account, hash) := by
      intro ps hps
      rw [map_map]
      refine (map_id ps).symm.trans (map_congr_left fun p hp => ?_)
      exact Prod.ext (hone _ (hps p hp) _ haccount) rfl
    have hlocal : ∀ p ∈ s.acks.flatMap ConfirmAckBlock.pairs, p.1 ∈ accounts := by
      intro p hp
      obtain ⟨ack, hack, hp⟩ := mem_flatMap.mp hp
      obtain ⟨hash, -, rfl⟩ := mem_map.mp hp
      exact (h.acks ack hack).1
    have hhashes := h.hashes
    rw [hempty, append_nil, flatMap_hash_eq] at hhashes
    rw [hpairs _ hlocal, hpairs _ h.voted]
    exact hhashes.map _

/-! ## Two accounts -/

def loneCall (account : Address) : Call where
  block := genesisBlock
  weight := fun a => if a = account then minVoteWeight else 0
  hasStateBlockConfirmed := fun _ => false
  isOnline := fun _ => false

theorem voters_loneCall {accounts : List Address} (hnodup : accounts.Nodup)
    (hmem : account ∈ accounts) : (loneCall account).voters accounts = [account] := by
  have hnone : ∀ as : List Address, account ∉ as → (loneCall account).voters as = [] := by
    intro as hnot
    induction as with
    | nil => rfl
    | cons a as ih =>
      rw [mem_cons, not_or] at hnot
      have hlow : (loneCall account).weight a < minVoteWeight := by
        unfold loneCall
        dsimp only
        rw [if_neg (Ne.symm hnot.1)]
        decide
      rw [Call.voters, if_pos hlow, ih hnot.2]
  induction accounts with
  | nil => exact absurd hmem not_mem_nil
  | cons a accounts ih =>
    rw [nodup_cons] at hnodup
    by_cases ha : a = account
    · subst ha
      have hhigh : ¬(loneCall a).weight a < minVoteWeight := by
        unfold loneCall
        dsimp only
        rw [if_pos rfl]
        exact Nat.lt_irrefl _
      rw [Call.voters, if_neg hhigh, if_neg (fun h => absurd h.1 nofun), hnone accounts hnodup.1]
    · have hlow : (loneCall account).weight a < minVoteWeight := by
        unfold loneCall
        dsimp only
        rw [if_neg ha]
        decide
      rcases mem_cons.mp hmem with hmem | hmem
      · exact absurd hmem.symm ha
      · rw [Call.voters, if_pos hlow, ih hnodup.2 hmem]

theorem run_loneCall {first : Address} {accounts order : List Address} (hnodup : accounts.Nodup)
    (hmem : account ∈ accounts) :
    run env [.localRepVote (loneCall account) accounts, .tick (first :: order)] =
      { batchVote := []
        acks := [{ account := first, hash := [genesisBlock.getHash env.hashData] }]
        voted := [(account, genesisBlock.getHash env.hashData)] } := by
  change (first :: order).foldl batchVoteDo (localRepVote env (loneCall account) accounts {}) = _
  rw [tick_cons, localRepVote, voters_loneCall hnodup hmem]
  rfl

/-- The acknowledgements carry the votes that were given, each signed by its account, over every run
exactly if there is at most one local account. -/
theorem batch_votes_signed_iff (accounts : Finset Address) :
    ((∀ events, Ranges accounts events → (run env events).batchVote = [] →
        ((run env events).acks.flatMap ConfirmAckBlock.pairs).Perm (run env events).voted) ↔
      accounts.card ≤ 1) ∧
    ∀ events, Ranges accounts events → Inv accounts (run env events) := by
  refine ⟨⟨fun hall => ?_, fun hcard events hranges hempty => ?_⟩, fun events => run_inv⟩
  · by_contra hcard
    obtain ⟨account, haccount, first, hfirst, hne⟩ :=
      Finset.one_lt_card.mp (Nat.lt_of_not_le hcard)
    have hranges : Ranges accounts [.localRepVote (loneCall account) accounts.toList,
        .tick (first :: (accounts.erase first).toList)] := by
      intro e he
      rcases mem_cons.mp he with rfl | he
      · exact ⟨accounts.nodup_toList, accounts.toList_toFinset⟩
      · obtain rfl := mem_singleton.mp he
        refine ⟨nodup_cons.mpr ⟨by simp, Finset.nodup_toList _⟩, ?_⟩
        change (first :: _).toFinset = accounts
        rw [toFinset_cons, Finset.toList_toFinset, Finset.insert_erase hfirst]
    have hperm := hall _ hranges
    rw [run_loneCall accounts.nodup_toList (Finset.mem_toList.mpr haccount)] at hperm
    have hpair := singleton_perm_singleton.mp (hperm rfl)
    exact hne (Prod.mk.inj hpair).1.symm
  · exact (run_inv hranges).perm_of_subsingleton hcard hempty

/-- Two representatives vote for the genesis block, and one of them signs for both. -/
theorem vote_signed_by_other :
    let hash := genesisBlock.getHash Devnet.env.hashData
    run Devnet.env [.localRepVote { loneCall 1 with weight := fun _ => minVoteWeight } [1, 2],
        .tick [1, 2]] =
      { batchVote := [], acks := [{ account := 1, hash := [hash, hash] }]
        voted := [(1, hash), (2, hash)] } ∧
    run Devnet.env [.localRepVote (loneCall 1) [1, 2], .tick [2, 1]] =
      { batchVote := [], acks := [{ account := 2, hash := [hash] }], voted := [(1, hash)] } := by
  refine ⟨?_, run_loneCall (by decide) (by decide)⟩
  rfl

end GoQlc.BatchVote
