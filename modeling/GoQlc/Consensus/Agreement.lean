import Mathlib.Algebra.BigOperators.Group.Finset.Piecewise
import GoQlc.Config.Devnet
import GoQlc.Consensus.Election
import GoQlc.Lib.Quorum

/-!
# Agreement of the nodes

Any number of nodes, each with processors that store votes and count them side by side.
-/

namespace GoQlc.Voting

open Config Function Option Table List

structure Count where
  election : ℕ
  isSync : Bool
  visits : List Visit

/-- A node with its processors `T`, and the blocks it has confirmed by a quorum. -/
structure Node (T : Type) where
  act : ActiveTrx := {}
  counting : T → Option Count := fun _ => none
  confirmed : List StateBlock := []

inductive Action (T : Type) where
  /-- A block that passes its check, or the confirmed competitor of one that does not. -/
  | addToRoots (block : StateBlock)
  /-- `processFork` and `processFrontier` list a block in an open election. -/
  | join (opened block : StateBlock)
  | markFrontier (block : StateBlock)
  /-- A vote is stored and the processor starts to count; `voteFrontier` is the case `isSync`. -/
  | vote (t : T) (account : Address) (hash : Hash) (isSync : Bool)
  /-- The count of `t` reaches a representative. -/
  | visit (t : T) (account : Address)
  /-- The count of `t` is over, and ranges over its sums in the given order. -/
  | finish (t : T) (order : List BlockReceivedVotes)
  /-- An election ends without a quorum: `checkVotes`, or `confirmBlock` in a synchronisation. -/
  | close (election : ℕ)
  | cleanFrontierVotes (hash : Hash) (order : List ℕ)

namespace Node

variable {T : Type} [DecidableEq T]

def endElection (i : ℕ) (el : Election) (n : Node T) : Node T :=
  { n with act := (n.act.close i el).cleanBlockInfo el }

/-- `voteAction` up to the tally. -/
def storeVote (t : T) (account : Address) (hash : Hash) (isSync : Bool) (i : ℕ) (el : Election)
    (n : Node T) : Node T :=
  if el.valid then
    match el.voteStatus account hash with
    | (.confirm, _) => n
    | (_, el) =>
      { n with
        act := { n.act with elections := n.act.elections.put i el }
        counting := update n.counting t (some { election := i, isSync, visits := [] }) }
  else n

/-- `haveQuorum` or `voteFrontier` after the tally: only the one that finds the election valid
ends it. -/
def takeQuorum (t : T) (c : Count) (best : BlockReceivedVotes) (n : Node T) : Node T :=
  let n := { n with counting := update n.counting t none }
  match n.act.elections.get c.election with
  | none => n
  | some el =>
    if voteThreshold < best.balance ∧ el.valid = true then
      let n := n.endElection c.election el
      if c.isSync then n else { n with confirmed := best.block :: n.confirmed }
    else n

def step (env : Env) (weight totalWeight : Address → ℕ) (n : Node T) :
    Action T → Option (Node T)
  | .addToRoots block => some { n with act := (n.act.addToRoots env block).1 }
  | .join opened block =>
    (n.act.getVoteInfo env opened).map fun i => { n with act := n.act.join env i block }
  | .markFrontier block =>
    (n.act.getVoteInfo env block).map fun i => { n with
      act := n.act.modify i fun el => { el with
        frontier := el.frontier.put (block.getHash env.hashData) () } }
  | .vote t account hash isSync =>
    if (n.counting t).isSome then none
    else do
      let i ← n.act.hash2el.get hash
      let el ← n.act.elections.get i
      return n.storeVote t account hash isSync i el
  | .visit t account => do
    let c ← n.counting t
    let el ← n.act.elections.get c.election
    let x ← el.visit account
    if account ∈ c.visits.map Visit.account then none
    else
      return { n with
        counting := update n.counting t (some { c with visits := c.visits ++ [x] }) }
  | .finish t order => do
    let c ← n.counting t
    if order.Perm (tally (if c.isSync then totalWeight else weight) c.visits).values then
      return n.takeQuorum t c (mostVoted order)
    else none
  | .close i => do
    let el ← n.act.elections.get i
    if el.valid then return n.endElection i el else none
  | .cleanFrontierVotes hash order =>
    some { n with act := n.act.cleanFrontierVotes hash order }

end Node

section Agreement

variable {ι T : Type} [DecidableEq ι] [DecidableEq T] {env : Env}
  {weight totalWeight : Address → ℕ} {acks : Address → Hash → Prop}

def Delivered (acks : Address → Hash → Prop) : Action T → Prop
  | .vote _ account hash _ => acks account hash
  | _ => True

/-- The states of all nodes that the acknowledgements `acks` can lead to. -/
inductive Reaches (env : Env) (weight totalWeight : Address → ℕ) (acks : Address → Hash → Prop) :
    (ι → Node T) → Prop
  | init : Reaches env weight totalWeight acks fun _ => {}
  | step {s : ι → Node T} {i : ι} {a : Action T} {n : Node T} :
    Reaches env weight totalWeight acks s → Delivered acks a →
    (s i).step env weight totalWeight a = some n →
    Reaches env weight totalWeight acks (update s i n)

/-- The votes of an election were made, and its blocks stand under their hashes. -/
structure ElectionOk (env : Env) (acks : Address → Hash → Prop) (el : Election) : Prop where
  votes : ∀ account hash, el.repVotes.get account = some hash → acks account hash
  blocks : ∀ hash block, el.blocks.get hash = some block → block.getHash env.hashData = hash

structure VisitOk (env : Env) (acks : Address → Hash → Prop) (x : Visit) : Prop where
  vote : acks x.account x.hash
  block : ∀ block, x.block = some block → block.getHash env.hashData = x.hash

structure CountOk (env : Env) (acks : Address → Hash → Prop) (c : Count) : Prop where
  nodup : (c.visits.map Visit.account).Nodup
  visits : ∀ x ∈ c.visits, VisitOk env acks x

structure Inv (env : Env) (weight : Address → ℕ) (acks : Address → Hash → Prop) (n : Node T) :
    Prop where
  elections : n.act.Forall (ElectionOk env acks)
  counting : ∀ t c, n.counting t = some c → CountOk env acks c
  confirmed : ∀ block ∈ n.confirmed,
    Quorum.Certified weight genesisBlock.balance acks (block.getHash env.hashData)

theorem CountOk.certified {c : Count} (hc : CountOk env acks c) {order : List BlockReceivedVotes}
    (horder : order.Perm (tally weight c.visits).values)
    (hbest : voteThreshold < (mostVoted order).balance) :
    Quorum.Certified weight genesisBlock.balance acks
      ((mostVoted order).block.getHash env.hashData) := by
  have hmem := horder.mem_iff.mp (mostVoted_mem (Nat.zero_lt_of_lt hbest))
  obtain ⟨hash, hget⟩ := mem_values.mp hmem
  obtain ⟨⟨x, hx, hxhash, hxblock⟩, hle⟩ := tally_sound hget
  have hhash : (mostVoted order).block.getHash env.hashData = hash :=
    ((hc.visits x hx).block _ hxblock).trans hxhash
  have hsub : ((c.visits.filter fun x => x.hash = hash).map Visit.account).Nodup :=
    hc.nodup.sublist (filter_sublist.map _)
  refine ⟨((c.visits.filter fun x => x.hash = hash).map Visit.account).toFinset, ?_, ?_⟩
  · have hsum := sum_toFinset weight hsub
    rw [List.map_map] at hsum
    unfold Quorum.Majority
    rw [hsum]
    exact lt_of_lt_of_le hbest hle
  · intro account haccount
    rw [List.mem_toFinset, List.mem_map] at haccount
    obtain ⟨y, hy, rfl⟩ := haccount
    rw [List.mem_filter, decide_eq_true_eq] at hy
    rw [hhash, ← hy.2]
    exact (hc.visits y hy.1).vote

theorem ElectionOk.new (block : StateBlock) : ElectionOk env acks (Election.new env block) := by
  refine ⟨nofun, fun hash b hb => ?_⟩
  change (Table.put ∅ (block.getHash env.hashData) block).get hash = some b at hb
  rw [get_put] at hb
  split_ifs at hb with hhash
  · rw [← Option.some.inj hb, hhash]
  · cases hb

variable {el : Election} {s : ι → Node T}

theorem ElectionOk.storeBlock (h : ElectionOk env acks el) (block : StateBlock) :
    ElectionOk env acks (el.storeBlock env block) := by
  refine ⟨h.votes, fun hash b hb => ?_⟩
  change (el.blocks.put (block.getHash env.hashData) block).get hash = some b at hb
  rw [get_put] at hb
  split_ifs at hb with hhash
  · rw [← Option.some.inj hb, hhash]
  · exact h.blocks hash b hb

theorem ElectionOk.delete (h : ElectionOk env acks el) (hash : Hash) :
    ElectionOk env acks { el with blocks := el.blocks.delete hash } := by
  refine ⟨h.votes, fun g b hb => h.blocks g b ?_⟩
  change (el.blocks.delete hash).get g = some b at hb
  rw [get_delete] at hb
  split_ifs at hb
  exact hb

theorem ElectionOk.voteStatus (h : ElectionOk env acks el) {account : Address} {hash : Hash}
    (hack : acks account hash) : ElectionOk env acks (el.voteStatus account hash).2 := by
  have hput : ∀ votes : Table Address Hash,
      (∀ a g, votes.get a = some g → el.repVotes.get a = some g) →
      ElectionOk env acks { el with repVotes := votes.put account hash } := by
    intro votes hvotes
    refine ⟨fun a g hg => ?_, h.blocks⟩
    change (votes.put account hash).get a = some g at hg
    rw [get_put] at hg
    split_ifs at hg with ha
    · rw [ha, ← Option.some.inj hg]
      exact hack
    · exact h.votes a g (hvotes a g hg)
  unfold Election.voteStatus
  split
  · exact hput _ fun a g hg => hg
  · split_ifs
    · refine hput _ fun a g hg => ?_
      rw [get_delete] at hg
      split_ifs at hg
      exact hg
    · exact h

namespace Inv

variable {n n' : Node T}

omit [DecidableEq T] in
theorem endElection (h : Inv env weight acks n) (i : ℕ) (el : Election) :
    Inv env weight acks (n.endElection i el) where
  elections := h.elections.close i el fun _ hel => ⟨hel.votes, hel.blocks⟩
  counting := h.counting
  confirmed := h.confirmed

variable {t : T}

theorem setCount (h : Inv env weight acks n) {count : Option Count}
    (hcount : ∀ c, count = some c → CountOk env acks c) :
    Inv env weight acks { n with counting := update n.counting t count } := by
  refine ⟨h.elections, fun t' c hc => ?_, h.confirmed⟩
  change update n.counting t count t' = some c at hc
  by_cases ht : t' = t
  · rw [ht, update_self] at hc
    exact hcount c hc
  · rw [update_of_ne ht] at hc
    exact h.counting t' c hc

theorem storeVote (h : Inv env weight acks n) {account : Address} {hash : Hash} {isSync : Bool}
    {i : ℕ} {el : Election} (hel : n.act.elections.get i = some el) (hack : acks account hash) :
    Inv env weight acks (n.storeVote t account hash isSync i el) := by
  have hvoted := (h.elections i el hel).voteStatus hack
  have hstored : Inv env weight acks { n with act := { n.act with
      elections := n.act.elections.put i (el.voteStatus account hash).2 } } :=
    ⟨h.elections.put hvoted, h.counting, h.confirmed⟩
  have hcount : ∀ c, some { election := i, isSync, visits := [] } = some c →
      CountOk env acks c := by
    intro c hc
    cases hc
    exact ⟨nodup_nil, fun x hx => absurd hx not_mem_nil⟩
  unfold Node.storeVote
  split_ifs
  · split
    · exact h
    · rename_i hstatus
      rw [hstatus] at hstored
      exact hstored.setCount hcount
  · exact h

theorem takeQuorum (h : Inv env weight acks n) {c : Count} (hc : n.counting t = some c)
    {order : List BlockReceivedVotes}
    (horder : order.Perm (tally (if c.isSync then totalWeight else weight) c.visits).values) :
    Inv env weight acks (n.takeQuorum t c (mostVoted order)) := by
  have hidle : Inv env weight acks { n with counting := update n.counting t none } :=
    h.setCount nofun
  unfold Node.takeQuorum
  dsimp only
  split
  · exact hidle
  · rename_i el hel
    split_ifs with hquorum hsync
    · exact hidle.endElection c.election _
    · rw [if_neg hsync] at horder
      have hended := hidle.endElection c.election el
      refine ⟨hended.elections, hended.counting, fun block hblock => ?_⟩
      rcases mem_cons.mp hblock with rfl | hblock
      · exact (h.counting t c hc).certified horder hquorum.1
      · exact h.confirmed block hblock
    · exact hidle

theorem step (h : Inv env weight acks n) {a : Action T} (ha : Delivered acks a)
    (hstep : n.step env weight totalWeight a = some n') : Inv env weight acks n' := by
  cases a with
  | addToRoots block =>
    cases hstep
    exact ⟨h.elections.addToRoots (ElectionOk.new block), h.counting, h.confirmed⟩
  | join opened block =>
    obtain ⟨i, -, rfl⟩ := map_eq_some_iff.mp hstep
    exact ⟨h.elections.join fun _ hel => hel.storeBlock block, h.counting, h.confirmed⟩
  | markFrontier block =>
    obtain ⟨i, -, rfl⟩ := map_eq_some_iff.mp hstep
    exact ⟨h.elections.modify fun _ hel => ⟨hel.votes, hel.blocks⟩, h.counting, h.confirmed⟩
  | vote t account hash isSync =>
    simp only [Node.step, ite_none_left_eq_some, bind_eq_bind,
      bind_eq_some_iff] at hstep
    obtain ⟨-, i, -, el, hel, hn⟩ := hstep
    cases hn
    exact h.storeVote hel ha
  | visit t account =>
    simp only [Node.step, bind_eq_bind, bind_eq_some_iff] at hstep
    obtain ⟨c, hc, el, hel, x, hx, hn⟩ := hstep
    split_ifs at hn with hmem
    cases hn
    obtain ⟨hash, hhash, rfl⟩ := map_eq_some_iff.mp hx
    have hok := h.elections c.election el hel
    have hcount := h.counting t c hc
    refine h.setCount ?_
    rintro _ ⟨⟩
    refine ⟨?_, fun y hy => ?_⟩
    · rw [map_append, map_singleton]
      refine nodup_append.mpr ⟨hcount.nodup, nodup_singleton _, ?_⟩
      rintro a hvisited b hb rfl
      obtain rfl := mem_singleton.mp hb
      exact hmem hvisited
    · rcases mem_append.mp hy with hy | hy
      · exact hcount.visits y hy
      · obtain rfl := mem_singleton.mp hy
        exact ⟨hok.votes account hash hhash, fun block hblock => hok.blocks hash block hblock⟩
  | finish t order =>
    simp only [Node.step, bind_eq_bind, bind_eq_some_iff] at hstep
    obtain ⟨c, hc, hn⟩ := hstep
    obtain ⟨horder, hn⟩ := ite_none_right_eq_some.mp hn
    cases hn
    exact h.takeQuorum hc horder
  | close i =>
    simp only [Node.step, bind_eq_bind, bind_eq_some_iff] at hstep
    obtain ⟨el, hel, hn⟩ := hstep
    split_ifs at hn with hvalid
    cases hn
    exact h.endElection i el
  | cleanFrontierVotes hash order =>
    cases hstep
    exact ⟨ActiveTrx.Forall.dropFrontier h.elections fun _ hel => hel.delete hash, h.counting,
      h.confirmed⟩

end Inv

theorem Reaches.inv (h : Reaches env weight totalWeight acks s) (i : ι) :
    Inv env weight acks (s i) := by
  induction h generalizing i with
  | init =>
    refine ⟨fun j el hel => ?_, nofun, fun block hblock => absurd hblock not_mem_nil⟩
    rw [get_empty] at hel
    cases hel
  | @step s j a n _ ha hstep ih =>
    by_cases hi : i = j
    · rw [hi, update_self]
      exact (ih j).step ha hstep
    · rw [update_of_ne hi]
      exact ih i

/-- If the weights add up to at most the genesis supply and each representative acknowledges
at most one hash of a vote key, then all the blocks of one vote key that any nodes ever
confirm by a quorum have the same hash. -/
theorem haveQuorum_agreement (hweight : Quorum.Bounded weight genesisBlock.balance)
    (honce : ∀ account (b c : StateBlock), acks account (b.getHash env.hashData) →
      acks account (c.getHash env.hashData) → env.getVoteKey b = env.getVoteKey c →
        b.getHash env.hashData = c.getHash env.hashData)
    {s : ι → Node T} (h : Reaches env weight totalWeight acks s) {i j : ι} {b c : StateBlock}
    (hb : b ∈ (s i).confirmed) (hc : c ∈ (s j).confirmed)
    (hkey : env.getVoteKey b = env.getVoteKey c) :
    b.getHash env.hashData = c.getHash env.hashData :=
  ((h.inv i).confirmed b hb).unique hweight
    (fun account hackb hackc => honce account b c hackb hackc hkey) ((h.inv j).confirmed c hc)

/-- A node confirms a block only on acknowledgements of that block by more than half of the
supply. -/
theorem confirmed_certified {s : ι → Node T} (h : Reaches env weight totalWeight acks s) {i : ι}
    {b : StateBlock} (hb : b ∈ (s i).confirmed) :
    Quorum.Certified weight genesisBlock.balance acks (b.getHash env.hashData) :=
  (h.inv i).confirmed b hb

/-! ## Two nodes that confirm one of two blocks -/

def run (env : Env) (weight totalWeight : Address → ℕ) (actions : List (ι × Action T)) :
    Option (ι → Node T) :=
  actions.foldlM (fun s a =>
    ((s a.1).step env weight totalWeight a.2).map fun n => update s a.1 n) fun _ => {}

theorem reaches_of_run {actions : List (ι × Action T)} (hacks : ∀ a ∈ actions, Delivered acks a.2)
    (hrun : run env weight totalWeight actions = some s) :
    Reaches env weight totalWeight acks s := by
  unfold run at hrun
  have hinit : Reaches env weight totalWeight acks (fun _ : ι => ({} : Node T)) := .init
  generalize (fun _ : ι => ({} : Node T)) = s₀ at hrun hinit
  induction actions generalizing s₀ with
  | nil =>
    cases hrun
    exact hinit
  | cons a actions ih =>
    rw [foldlM_cons] at hrun
    obtain ⟨s₁, hstep, hrest⟩ := bind_eq_some_iff.mp hrun
    obtain ⟨n, hn, rfl⟩ := map_eq_some_iff.mp hstep
    exact ih (fun b hb => hacks b (mem_cons_of_mem _ hb)) _ hrest
      (hinit.step (hacks a mem_cons_self) hn)

end Agreement

section TwoNodes

def countingEnv : Env := { Devnet.env with hashData := fun bs => BitVec.ofNat 256 bs.length }

def genesisWeight (account : Address) : ℕ :=
  if account = genesisAddress then genesisBlock.balance else 0

theorem genesisWeight_bounded : Quorum.Bounded genesisWeight genesisBlock.balance := by
  intro A
  unfold genesisWeight
  rw [Finset.sum_ite_eq']
  split_ifs
  · exact le_rfl
  · exact Nat.zero_le _

def firstBlock : StateBlock := { Env.blankBlock with previous := 5 }

/-- A block that competes with `firstBlock`. -/
def rivalBlock : StateBlock := { firstBlock with data := [1] }

def genesisAcks (account : Address) (hash : Hash) : Prop :=
  account = genesisAddress ∧ hash = firstBlock.getHash countingEnv.hashData

def oneVote (node : Bool) (opened other : StateBlock) : List (Bool × Action Unit) :=
  [(node, .addToRoots opened), (node, .join opened other),
    (node, .vote () genesisAddress (firstBlock.getHash countingEnv.hashData) false),
    (node, .visit () genesisAddress),
    (node, .finish () [{ block := firstBlock, balance := genesisBlock.balance }])]

def twoNodes : List (Bool × Action Unit) :=
  oneVote true firstBlock rivalBlock ++ oneVote false rivalBlock firstBlock

theorem twoNodes_delivered : ∀ a ∈ twoNodes, Delivered genesisAcks a.2 := by
  simp [twoNodes, oneVote, Delivered, genesisAcks]

/-- Both nodes confirm the block that was acknowledged, also the one whose election the
competitor has opened. -/
theorem twoNodes_agree :
    ∃ s, run countingEnv genesisWeight genesisWeight twoNodes = some s ∧
      ∃ b ∈ (s true).confirmed, ∃ c ∈ (s false).confirmed,
        rivalBlock.getHash countingEnv.hashData ≠ b.getHash countingEnv.hashData ∧
        b.getHash countingEnv.hashData = c.getHash countingEnv.hashData := by
  have hrun : (run countingEnv genesisWeight genesisWeight twoNodes).any (fun s =>
      decide (firstBlock ∈ (s true).confirmed ∧ firstBlock ∈ (s false).confirmed)) = true := by
    decide +kernel
  obtain ⟨s, hs, hconfirmed⟩ := (any_eq_true _ _).mp hrun
  obtain ⟨hb, hc⟩ := of_decide_eq_true hconfirmed
  refine ⟨s, hs, firstBlock, hb, firstBlock, hc, by decide +kernel, ?_⟩
  exact haveQuorum_agreement genesisWeight_bounded
    (fun _ b c hackb hackc _ => hackb.2.trans hackc.2.symm)
    (reaches_of_run twoNodes_delivered hs) hb hc rfl

theorem twoNodes_certified :
    Quorum.Certified genesisWeight genesisBlock.balance genesisAcks
      (firstBlock.getHash countingEnv.hashData) := by
  have hrun : (run countingEnv genesisWeight genesisWeight twoNodes).any (fun s =>
      decide (firstBlock ∈ (s true).confirmed)) = true := by
    decide +kernel
  obtain ⟨s, hs, hb⟩ := (any_eq_true _ _).mp hrun
  exact confirmed_certified (reaches_of_run twoNodes_delivered hs) (of_decide_eq_true hb)

end TwoNodes

end GoQlc.Voting
