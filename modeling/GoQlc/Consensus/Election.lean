import GoQlc.Process.Rollback

/-!
# Elections

Blocks that compete for one place of a chain share a vote key and stand in one election.
-/

namespace GoQlc

open List Balance

abbrev VoteKey := Hash

/-- The place a block competes for: its chain for a first block, its predecessor else. -/
def Env.getVoteKey (env : Env) (block : StateBlock) : VoteKey :=
  if block.isOpen then env.chainKey block else block.previous

def voteThreshold : ℕ := Config.genesisBlock.balance / 2

/-! ## One election -/

structure Election where
  id : VoteKey
  repVotes : Table Address Hash := ∅
  winner : StateBlock
  voteHash : Hash := 0
  blocks : Table Hash StateBlock
  frontier : Table Hash Unit := ∅
  valid : Bool := true
deriving DecidableEq

inductive TallyResult where
  | vote
  | changed
  | confirm
deriving DecidableEq, Repr

structure BlockReceivedVotes where
  block : StateBlock
  balance : ℕ
deriving DecidableEq

/-- What the tally reads at one representative: its vote, and the block of the vote if the
election lists it at that moment. -/
structure Visit where
  account : Address
  hash : Hash
  block : Option StateBlock
deriving DecidableEq

namespace Election

def new (env : Env) (block : StateBlock) : Election where
  id := env.getVoteKey block
  winner := block
  blocks := Table.put ∅ (block.getHash env.hashData) block

def voteStatus (el : Election) (account : Address) (hash : Hash) : TallyResult × Election :=
  match el.repVotes.get account with
  | none => (.vote, { el with repVotes := el.repVotes.put account hash })
  | some voted =>
    if voted ≠ hash then
      (.changed, { el with repVotes := (el.repVotes.delete account).put account hash })
    else (.confirm, el)

def storeBlock (env : Env) (block : StateBlock) (el : Election) : Election :=
  { el with blocks := el.blocks.put (block.getHash env.hashData) block }

def visit (el : Election) (account : Address) : Option Visit :=
  (el.repVotes.get account).map fun hash => { account, hash, block := el.blocks.get hash }

end Election

def countVote (weight : Address → ℕ) (totals : Table Hash BlockReceivedVotes) (x : Visit) :
    Table Hash BlockReceivedVotes :=
  match totals.get x.hash with
  | some r => totals.put x.hash { r with balance := Balance.add r.balance (weight x.account) }
  | none =>
    match x.block with
    | some block => totals.put x.hash { block, balance := Balance.add 0 (weight x.account) }
    | none => totals

def tally (weight : Address → ℕ) (visits : List Visit) : Table Hash BlockReceivedVotes :=
  visits.foldl (countVote weight) ∅

def mostVoted (received : List BlockReceivedVotes) : BlockReceivedVotes :=
  received.foldl (fun best r => if best.balance < r.balance then r else best)
    { block := Env.blankBlock, balance := 0 }

theorem Balance.add_le (b n : ℕ) : Balance.add b n ≤ b + n := by
  have hb : uint64 b ≤ b := Nat.mod_le _ _
  have hn : uint64 n ≤ n := Nat.mod_le _ _
  rw [add_eq]
  split_ifs <;> omega

def visitWeight (weight : Address → ℕ) (hash : Hash) (visits : List Visit) : ℕ :=
  ((visits.filter fun x => x.hash = hash).map fun x => weight x.account).sum

theorem visitWeight_append (weight : Address → ℕ) (hash : Hash) (visits : List Visit) (x : Visit) :
    visitWeight weight hash (visits ++ [x]) =
      visitWeight weight hash visits + if x.hash = hash then weight x.account else 0 := by
  unfold visitWeight
  rw [filter_append, map_append, sum_append]
  by_cases hx : x.hash = hash
  · simp [hx]
  · simp [hx]

/-- Every sum of the tally is one of a block that was listed under the hash, and is at most
the weight of the votes for the hash. -/
theorem tally_sound {weight : Address → ℕ} {visits : List Visit} {hash : Hash}
    {r : BlockReceivedVotes} (h : (tally weight visits).get hash = some r) :
    (∃ x ∈ visits, x.hash = hash ∧ x.block = some r.block) ∧
      r.balance ≤ visitWeight weight hash visits := by
  induction visits using List.reverseRecOn generalizing r with
  | nil => cases h
  | append_singleton visits x ih =>
    have hfold : tally weight (visits ++ [x]) = countVote weight (tally weight visits) x := by
      simp [tally]
    rw [hfold, countVote] at h
    rw [visitWeight_append]
    -- an older entry stays, and its block was listed at an earlier visit
    have hkeep : ∀ {r₀}, (tally weight visits).get hash = some r₀ →
        (∃ y ∈ visits ++ [x], y.hash = hash ∧ y.block = some r₀.block) ∧
          r₀.balance ≤ visitWeight weight hash visits := by
      intro r₀ h₀
      obtain ⟨⟨y, hy, hyhash⟩, hle⟩ := ih h₀
      exact ⟨⟨y, mem_append_left _ hy, hyhash⟩, hle⟩
    cases hx : (tally weight visits).get x.hash with
    | some r₀ =>
      rw [hx] at h
      dsimp only at h
      rw [Table.get_put] at h
      split_ifs at h with hhash
      · cases h
        obtain ⟨hlisted, hle⟩ := hkeep (hhash ▸ hx)
        have hadd := add_le r₀.balance (weight x.account)
        rw [if_pos hhash.symm]
        exact ⟨hlisted, by dsimp only; omega⟩
      · obtain ⟨hlisted, hle⟩ := hkeep h
        exact ⟨hlisted, hle.trans (Nat.le_add_right _ _)⟩
    | none =>
      rw [hx] at h
      dsimp only at h
      cases hblock : x.block with
      | none =>
        rw [hblock] at h
        obtain ⟨hlisted, hle⟩ := hkeep h
        exact ⟨hlisted, hle.trans (Nat.le_add_right _ _)⟩
      | some block =>
        rw [hblock] at h
        dsimp only at h
        rw [Table.get_put] at h
        split_ifs at h with hhash
        · cases h
          have hadd := add_le 0 (weight x.account)
          rw [if_pos hhash.symm]
          exact ⟨⟨x, by simp, hhash.symm, hblock⟩, by dsimp only; omega⟩
        · obtain ⟨hlisted, hle⟩ := hkeep h
          exact ⟨hlisted, hle.trans (Nat.le_add_right _ _)⟩

theorem foldl_best_mem (received : List BlockReceivedVotes) (best : BlockReceivedVotes) :
    received.foldl (fun best r => if best.balance < r.balance then r else best) best ∈
      best :: received := by
  induction received generalizing best with
  | nil => exact mem_cons_self
  | cons r received ih =>
    rw [foldl_cons]
    have hmem := ih (if best.balance < r.balance then r else best)
    split_ifs at hmem ⊢
    · exact mem_cons_of_mem _ hmem
    · rw [mem_cons] at hmem ⊢
      exact hmem.imp_right (mem_cons_of_mem _)

theorem mostVoted_mem {received : List BlockReceivedVotes} (h : 0 < (mostVoted received).balance) :
    mostVoted received ∈ received := by
  have hmem := foldl_best_mem received { block := Env.blankBlock, balance := 0 }
  change mostVoted received ∈ _ at hmem
  rcases mem_cons.mp hmem with hblank | hmem
  · rw [hblank] at h
    exact absurd h (Nat.lt_irrefl 0)
  · exact hmem

/-! ## The elections of a node -/

/-- The elections a node has opened, by number, the open one of each vote key, and the one a
vote for a hash goes to. -/
structure ActiveTrx where
  elections : Table ℕ Election := ∅
  opened : ℕ := 0
  roots : Table VoteKey ℕ := ∅
  hash2el : Table Hash ℕ := ∅
deriving DecidableEq

namespace ActiveTrx

def newElection (env : Env) (block : StateBlock) (act : ActiveTrx) : ActiveTrx :=
  { act with
    elections := act.elections.put act.opened (Election.new env block)
    opened := act.opened + 1
    hash2el := act.hash2el.put (block.getHash env.hashData) act.opened }

def addToRoots (env : Env) (block : StateBlock) (act : ActiveTrx) : ActiveTrx × Bool :=
  match act.roots.get (env.getVoteKey block) with
  | some _ => (act, false)
  | none =>
    let act' := act.newElection env block
    ({ act' with roots := act'.roots.put (env.getVoteKey block) act.opened }, true)

def getVoteInfo (env : Env) (block : StateBlock) (act : ActiveTrx) : Option ℕ :=
  act.roots.get (env.getVoteKey block)

def modify (i : ℕ) (f : Election → Election) (act : ActiveTrx) : ActiveTrx :=
  match act.elections.get i with
  | none => act
  | some el => { act with elections := act.elections.put i (f el) }

def join (env : Env) (i : ℕ) (block : StateBlock) (act : ActiveTrx) : ActiveTrx :=
  let act := act.modify i (Election.storeBlock env block)
  { act with hash2el := act.hash2el.put (block.getHash env.hashData) i }

def cleanBlockInfo (el : Election) (act : ActiveTrx) : ActiveTrx :=
  { act with hash2el := el.blocks.entries.foldl (fun t e => t.delete e.1) act.hash2el }

def close (i : ℕ) (el : Election) (act : ActiveTrx) : ActiveTrx :=
  let act := act.modify i fun el => { el with valid := false }
  { act with roots := act.roots.delete el.id }

/-- Takes a frontier block out of the first election that lists it, in the order of `roots`;
an election without blocks is dropped. -/
def dropFrontier (hash : Hash) (act : ActiveTrx) : List ℕ → ActiveTrx
  | [] => act
  | i :: order =>
    match act.elections.get i with
    | none => dropFrontier hash act order
    | some el =>
      if (el.blocks.get hash).isSome then
        let el' := { el with blocks := el.blocks.delete hash }
        let act := { act with elections := act.elections.put i el' }
        if el'.blocks.entries = [] then { act with roots := act.roots.delete el.id } else act
      else dropFrontier hash act order

def cleanFrontierVotes (hash : Hash) (order : List ℕ) (act : ActiveTrx) : ActiveTrx :=
  dropFrontier hash { act with hash2el := act.hash2el.delete hash } order

/-! What every election satisfies is kept if each operation keeps it for its election. -/

section Forall

variable {env : Env} {P : Election → Prop} {act : ActiveTrx}

/-- Every election the node has opened satisfies `P`. -/
def Forall (P : Election → Prop) (act : ActiveTrx) : Prop :=
  ∀ i el, act.elections.get i = some el → P el

theorem Forall.put (h : act.Forall P) {i : ℕ} {el : Election} (hel : P el) {roots : Table VoteKey ℕ}
    {hash2el : Table Hash ℕ} {opened : ℕ} :
    Forall P { elections := act.elections.put i el, opened, roots, hash2el } := by
  intro j e he
  change (act.elections.put i el).get j = some e at he
  rw [Table.get_put] at he
  split_ifs at he with hj
  · cases he
    exact hel
  · exact h j e he

theorem Forall.addToRoots (h : act.Forall P) {block : StateBlock} (hnew : P (Election.new env block)) :
    (act.addToRoots env block).1.Forall P := by
  unfold ActiveTrx.addToRoots
  split
  · exact h
  · exact h.put hnew

theorem Forall.modify (h : act.Forall P) {i : ℕ} {f : Election → Election}
    (hf : ∀ el, P el → P (f el)) : (act.modify i f).Forall P := by
  unfold ActiveTrx.modify
  split
  · exact h
  · rename_i el hel
    exact h.put (hf el (h i el hel))

theorem Forall.join (h : act.Forall P) {i : ℕ} {block : StateBlock}
    (hf : ∀ el, P el → P (el.storeBlock env block)) : (act.join env i block).Forall P :=
  h.modify hf

theorem Forall.close (h : act.Forall P) (i : ℕ) (el : Election)
    (hf : ∀ el, P el → P { el with valid := false }) : (act.close i el).Forall P :=
  h.modify hf

theorem Forall.dropFrontier {hash : Hash} {order : List ℕ} (h : act.Forall P)
    (hf : ∀ el, P el → P { el with blocks := el.blocks.delete hash }) :
    (ActiveTrx.dropFrontier hash act order).Forall P := by
  induction order with
  | nil => exact h
  | cons i order ih =>
    unfold ActiveTrx.dropFrontier
    split
    · exact ih
    · rename_i el hel
      dsimp only
      split_ifs
      · exact h.put (hf el (h i el hel))
      · exact h.put (hf el (h i el hel))
      · exact ih

end Forall

end ActiveTrx
end GoQlc
