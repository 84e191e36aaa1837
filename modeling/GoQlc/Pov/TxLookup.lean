import GoQlc.Pov.Heaviest
import GoQlc.Pov.FailedInsert

/-!
# Look-ups of transactions

A look-up counts if the block it names is on the best chain.
-/

namespace GoQlc.Pov

open Effect List Session Table Tables

variable {txs : PovBlock → List Hash} {fails : Op → Bool} {g : Genesis} {known : List PovBlock}
  {db f : Files} {a b p : PovBlock} {c : Chain} {blocks : List PovBlock}

/-! ## What a call does if it succeeds -/

namespace Session

def chain (s : Session) : Chain := ⟨s.batch.store, s.mem.latest⟩

variable {s s' : Session}

theorem throwIf_eq_ok {q : Prop} [Decidable q] {e : InsertError}
    (h : throwIf q e s = .ok () s') : ¬ q ∧ s' = s := by
  by_cases hq : q
  · rw [throwIf_of hq] at h
    cases h
  · rw [throwIf_of_not hq] at h
    cases h
    exact ⟨hq, rfl⟩

theorem liftPov_eq_ok {α : Type} {x : Except PovError α} {r : α} (h : liftPov x s = .ok r s') :
    x = .ok r ∧ s' = s := by
  cases x with
  | ok a =>
    cases h
    exact ⟨rfl, rfl⟩
  | error e => cases h

def addCoinbase (txs : PovBlock → List Hash) (b : PovBlock) (lookups : Table Hash TxLookup) :
    Table Hash TxLookup :=
  (txs b).head?.elim lookups fun coinbase => lookups.put coinbase ⟨b.hash, b.height, 0⟩

def removeCoinbase (txs : PovBlock → List Hash) (b : PovBlock) (lookups : Table Hash TxLookup) :
    Table Hash TxLookup :=
  (txs b).head?.elim lookups lookups.delete

theorem get_addCoinbase (lookups : Table Hash TxLookup) (tx : Hash) :
    (addCoinbase txs b lookups).get tx =
      if (txs b)[0]? = some tx then some ⟨b.hash, b.height, 0⟩ else lookups.get tx := by
  unfold addCoinbase
  rw [List.head?_eq_getElem?]
  cases (txs b)[0]? with
  | none => rfl
  | some coinbase => simp [get_put, eq_comm]

theorem get_removeCoinbase (lookups : Table Hash TxLookup) (tx : Hash) :
    (removeCoinbase txs b lookups).get tx =
      if (txs b)[0]? = some tx then none else lookups.get tx := by
  unfold removeCoinbase
  rw [List.head?_eq_getElem?]
  cases (txs b)[0]? with
  | none => rfl
  | some coinbase => simp [get_delete, eq_comm]

theorem writeCoinbase_eq_ok {op : Op} {write : Hash → Table Hash TxLookup → Table Hash TxLookup}
    (h : writeCoinbase txs fails op b write s = .ok () s') :
    s' = { s with
      batch := { s.batch with
        lookups := (txs b).head?.elim s.batch.lookups fun coinbase =>
          write coinbase s.batch.lookups } } := by
  unfold writeCoinbase at h
  cases hhead : (txs b).head? with
  | none =>
    rw [hhead] at h
    cases h
    rfl
  | some coinbase =>
    rw [hhead] at h
    exact (dbWrite_eq_ok h).2

theorem connectBestBlock_eq_ok (h : connectBestBlock txs fails b s = .ok () s') :
    Pov.connectBestBlock s.chain b = .ok s'.chain ∧ b.height = s.mem.latest.height + 1 ∧
      s'.batch.store.bestHash = s.batch.store.bestHash.put b.height b.hash ∧
      s'.batch.lookups = addCoinbase txs b s.batch.lookups ∧ s'.batch.cursor = s.batch.cursor ∧
      s'.mem.heightBlockCache = s.mem.heightBlockCache.put b.height b := by
  unfold connectBestBlock at h
  rw [get_bind] at h
  obtain ⟨_, s₁, hheight, h₁⟩ := bind_eq_ok.mp h
  obtain ⟨hheight, rfl⟩ := throwIf_eq_ok hheight
  obtain ⟨_, s₂, hbest, h₂⟩ := bind_eq_ok.mp h₁
  obtain ⟨_, rfl⟩ := dbWrite_eq_ok hbest
  obtain ⟨_, s₃, htxs, h₃⟩ := bind_eq_ok.mp h₂
  obtain ⟨_, s₄, hcoinbase, hannounce⟩ := bind_eq_ok.mp htxs
  obtain rfl := writeCoinbase_eq_ok hcoinbase
  cases hannounce
  obtain ⟨_, s₅, hlatest, h₅⟩ := bind_eq_ok.mp h₃
  obtain ⟨_, rfl⟩ := dbWrite_eq_ok hlatest
  cases h₅
  exact ⟨Result.ite_error_eq_ok.mpr ⟨hheight, rfl⟩, not_not.mp hheight, rfl, rfl, rfl, rfl⟩

theorem disconnectBestBlock_eq_ok (h : disconnectBestBlock txs fails db b s = .ok () s') :
    Pov.disconnectBestBlock db s.chain b = .ok s'.chain ∧ s.mem.latest.hash = b.hash ∧
      s'.batch.store.bestHash = s.batch.store.bestHash.delete b.height ∧
      s'.batch.lookups = removeCoinbase txs b s.batch.lookups ∧ s'.batch.cursor = s.batch.cursor ∧
      s'.mem.heightBlockCache =
        (s.mem.heightBlockCache.delete b.height).put s'.mem.latest.height s'.mem.latest := by
  unfold disconnectBestBlock at h
  rw [get_bind] at h
  obtain ⟨_, s₁, hhash, h₁⟩ := bind_eq_ok.mp h
  obtain ⟨hhash, rfl⟩ := throwIf_eq_ok hhash
  obtain ⟨_, s₂, htxs, h₂⟩ := bind_eq_ok.mp h₁
  obtain ⟨_, s₃, hcoinbase, hannounce⟩ := bind_eq_ok.mp htxs
  obtain rfl := writeCoinbase_eq_ok hcoinbase
  cases hannounce
  obtain ⟨_, s₄, hbest, h₄⟩ := bind_eq_ok.mp h₂
  obtain ⟨_, rfl⟩ := dbWrite_eq_ok hbest
  obtain ⟨prev, s₅, hprev, h₅⟩ := bind_eq_ok.mp h₄
  obtain ⟨hprev, rfl⟩ := liftPov_eq_ok hprev
  obtain ⟨_, s₆, hlatest, h₆⟩ := bind_eq_ok.mp h₅
  obtain ⟨_, rfl⟩ := dbWrite_eq_ok hlatest
  cases h₆
  refine ⟨Result.ite_error_eq_ok.mpr ⟨hhash, ?_⟩, not_not.mp hhash, rfl, rfl, rfl, rfl⟩
  cases hget : db.getBlockByHash b.previous with
  | none =>
    rw [hget] at hprev
    cases hprev
  | some q =>
    rw [hget] at hprev
    cases hprev
    rfl

end Session

/-! ## Transactions of one branch -/

inductive BranchOf (g : Genesis) (known : List PovBlock) : List PovBlock → Prop where
  | genesis : BranchOf g known [g.block]
  | cons {b p : PovBlock} {blocks : List PovBlock} : b ∈ known → p.hash = b.previous →
      BranchOf g known (p :: blocks) → BranchOf g known (b :: p :: blocks)

def StateBlocksOnce (txs : PovBlock → List Hash) (g : Genesis) (known : List PovBlock) : Prop :=
  ∀ blocks, BranchOf g known blocks → ∀ a ∈ blocks, ∀ b ∈ blocks, ∀ i j tx,
    (txs a)[i + 1]? = some tx → (txs b)[j + 1]? = some tx → a = b ∧ i = j

def CoinbasesOnce (txs : PovBlock → List Hash) (g : Genesis) (known : List PovBlock) : Prop :=
  ∀ blocks, BranchOf g known blocks → ∀ a ∈ blocks, ∀ b ∈ blocks, ∀ tx,
    (txs a)[0]? = some tx → (txs b)[0]? = some tx → a = b

def CoinbasesApart (txs : PovBlock → List Hash) (g : Genesis) (known : List PovBlock) : Prop :=
  ∀ a ∈ g.block :: known, ∀ b ∈ g.block :: known, ∀ i tx,
    (txs a)[0]? = some tx → (txs b)[i + 1]? ≠ some tx

theorem BranchOf.subset (h : BranchOf g known blocks) : ∀ a ∈ blocks, a ∈ g.block :: known := by
  induction h with
  | genesis =>
    intro a ha
    rw [mem_singleton.mp ha]
    exact mem_cons_self
  | cons hb _ _ ih =>
    intro a ha
    rcases mem_cons.mp ha with rfl | ha
    · exact mem_cons_of_mem _ hb
    · exact ih a ha

structure Once (txs : PovBlock → List Hash) (g : Genesis) (known : List PovBlock) : Prop where
  stateBlocks : StateBlocksOnce txs g known
  coinbases : CoinbasesOnce txs g known
  apart : CoinbasesApart txs g known

theorem Once.unique (h : Once txs g known) (hbranch : BranchOf g known blocks) (ha : a ∈ blocks)
    (hb : b ∈ blocks) {i j : ℕ} {tx : Hash} (hi : (txs a)[i]? = some tx)
    (hj : (txs b)[j]? = some tx) : a = b ∧ i = j := by
  have hsub := hbranch.subset
  cases i with
  | zero =>
    cases j with
    | zero => exact ⟨h.coinbases _ hbranch a ha b hb tx hi hj, rfl⟩
    | succ j => exact absurd hj (h.apart a (hsub a ha) b (hsub b hb) j tx hi)
  | succ i =>
    cases j with
    | zero => exact absurd hi (h.apart b (hsub b hb) a (hsub a ha) i tx hj)
    | succ j =>
      obtain ⟨hab, hij⟩ := h.stateBlocks _ hbranch a ha b hb i j tx hi hj
      exact ⟨hab, congrArg Nat.succ hij⟩

theorem Indexed.onBest_latest (hc : Indexed g c) : OnBest c c.latest := ⟨hc.stored, hc.spine.top⟩

theorem Path.head (h : Path g f b blocks) : ∃ rest, blocks = b :: rest := by
  cases h with
  | genesis => exact ⟨[], rfl⟩
  | cons _ _ _ => exact ⟨_, rfl⟩

theorem Path.branchOf (ht : Tree g known f) (hh : Hashed g known) (h : Path g f b blocks) :
    BranchOf g known blocks := by
  induction h with
  | genesis => exact .genesis
  | @cons b p blocks hb hprev hp ih =>
    obtain ⟨rest, rfl⟩ := hp.head
    rcases mem_cons.mp (ht.mem hb) with rfl | hmem
    · exact absurd (hprev.trans g.previous_eq) (ht.hash_ne hh (hp.stored ht))
    · exact .cons hmem hprev ih

theorem Path.mem_of_onBest (ht : Tree g known c.store.toFiles) (hh : Hashed g known)
    (hc : Indexed g c) (h : Path g c.store.toFiles b blocks) (hb : OnBest c b) (ha : OnBest c a)
    (hle : a.height ≤ b.height) : a ∈ blocks := by
  induction h with
  | genesis =>
    rw [ha.eq_of_height hb ht (by rw [g.height_eq] at hle ⊢; exact Nat.le_zero.mp hle)]
    exact mem_singleton_self _
  | @cons b p blocks hstored hprev hp ih =>
    have hps := hp.stored ht
    have hheight := ht.height_eq hh hstored hps hprev
    by_cases heq : a.height = b.height
    · rw [ha.eq_of_height hb ht heq]
      exact mem_cons_self
    · exact mem_cons_of_mem _ (ih (hb.parent ht hh hc hps hprev) (by omega))

theorem Once.unique_onBest (h : Once txs g known) (hh : Hashed g known)
    (ht : Tree g known c.store.toFiles) (hc : Indexed g c) (ha : OnBest c a) (hb : OnBest c b)
    {i j : ℕ} {tx : Hash} (hi : (txs a)[i]? = some tx) (hj : (txs b)[j]? = some tx) :
    a = b ∧ i = j := by
  obtain ⟨blocks, hpath⟩ := ht.exists_path hc.stored
  have hmem : ∀ q, OnBest c q → q ∈ blocks := fun q hq =>
    hpath.mem_of_onBest ht hh hc hc.onBest_latest hq (hq.height_le hc)
  exact h.unique (hpath.branchOf ht hh) (hmem a ha) (hmem b hb) hi hj

/-! ## The look-ups during a call -/

/-- The look-ups of the blocks below height `k` are there, every look-up names a place where
the transaction is, and the blocks cached by height are those of the best chain. -/
structure Looked (txs : PovBlock → List Hash) (g : Genesis) (known : List PovBlock) (k : ℕ)
    (t : Tables) (m : Memory) : Prop where
  tree : Tree g known t.store.toFiles
  indexed : Indexed g ⟨t.store, m.latest⟩
  genuine : ∀ tx l, t.lookups.get tx = some l → ∃ b, Stored t.store.toFiles b ∧
    b.hash = l.blockHash ∧ b.height = l.blockHeight ∧ (txs b)[l.txIndex]? = some tx
  below : ∀ b, OnBest ⟨t.store, m.latest⟩ b → b.height < k → ∀ i tx, (txs b)[i]? = some tx →
    t.lookups.get tx = some ⟨b.hash, b.height, i⟩
  cache : ∀ h b, m.heightBlockCache.get h = some b → OnBest ⟨t.store, m.latest⟩ b ∧ b.height = h

theorem OnBest.congr {c' : Chain} (hfiles : c'.store.toFiles = c.store.toFiles)
    (hbest : c'.store.bestHash.get a.height = c.store.bestHash.get a.height) :
    OnBest c' a ↔ OnBest c a := by
  unfold OnBest
  rw [hfiles, hbest]

variable (hh : Hashed g known) (honce : Once txs g known)

namespace Looked

variable {s s' : Session} {k : ℕ}

include hh honce

theorem connectBestBlock (hs : Looked txs g known k s.batch s.mem)
    (hk : k ≤ s.mem.latest.height + 1) (hb : Stored s.batch.store.toFiles b)
    (hprev : b.previous = s.mem.latest.hash)
    (hok : Session.connectBestBlock txs fails b s = .ok () s') :
    Looked txs g known k s'.batch s'.mem ∧ s'.batch.store.toFiles = s.batch.store.toFiles ∧
      s'.mem.latest = b ∧ s'.batch.cursor = s.batch.cursor ∧
      b.height = s.mem.latest.height + 1 := by
  obtain ⟨hchain, hheight, hput, hlookups, hcursor, hcache⟩ := connectBestBlock_eq_ok hok
  obtain ⟨hindexed, hfiles, hlatest⟩ := hs.indexed.connectBestBlock hb hprev hchain
  change s'.batch.store.toFiles = s.batch.store.toFiles at hfiles
  change s'.mem.latest = b at hlatest
  have hnew : OnBest ⟨s'.batch.store, s'.mem.latest⟩ b := by
    refine ⟨hfiles ▸ hb, ?_⟩
    change s'.batch.store.bestHash.get b.height = some b.hash
    rw [hput, get_put_self]
  have hold : ∀ a, a.height ≠ b.height → (OnBest ⟨s'.batch.store, s'.mem.latest⟩ a ↔
      OnBest ⟨s.batch.store, s.mem.latest⟩ a) := fun a ha =>
    OnBest.congr hfiles (hput ▸ get_put_of_ne _ ha _)
  have htree : Tree g known s'.batch.store.toFiles := hfiles ▸ hs.tree
  refine ⟨⟨htree, hindexed, ?_, ?_, ?_⟩, hfiles, hlatest, hcursor, hheight⟩
  · intro tx l hl
    rw [hfiles]
    rw [hlookups, get_addCoinbase] at hl
    split_ifs at hl with htx
    · cases hl
      exact ⟨b, hb, rfl, rfl, htx⟩
    · exact hs.genuine tx l hl
  · intro a ha hak i tx hi
    have hne : a.height ≠ b.height := by omega
    -- a coinbase that is in a lower block of the chain would be there twice
    rw [hlookups, get_addCoinbase, if_neg fun hcoinbase => hne (congrArg PovBlock.height
      (honce.unique_onBest hh htree hindexed ha hnew hi hcoinbase).1)]
    exact hs.below a ((hold a hne).mp ha) hak i tx hi
  · intro h a ha
    rw [hcache, get_put] at ha
    split_ifs at ha with hkey
    · cases ha
      exact ⟨hnew, hkey.symm⟩
    · obtain ⟨hbest, rfl⟩ := hs.cache h a ha
      exact ⟨(hold a hkey).mpr hbest, rfl⟩

section
variable (hs : Looked txs g known (s.mem.latest.height + 1) s.batch s.mem) (hdb : Tree g known db)
  (hsub : ∀ a, Stored db a → Stored s.batch.store.toFiles a)

include hs hdb hsub

theorem disconnectBestBlock (hb : Stored s.batch.store.toFiles b)
    (hok : Session.disconnectBestBlock txs fails db b s = .ok () s') :
    Looked txs g known (s'.mem.latest.height + 1) s'.batch s'.mem ∧
      s'.batch.store.toFiles = s.batch.store.toFiles ∧ s'.mem.latest.hash = b.previous ∧
      s'.batch.cursor = s.batch.cursor := by
  obtain ⟨hchain, hhash, hdelete, hlookups, hcursor, hcache⟩ :=
    disconnectBestBlock_eq_ok hok
  obtain ⟨hindexed, hfiles, hprev⟩ :=
    hs.indexed.disconnectBestBlock hh hs.tree hdb hsub hb hchain
  change s'.batch.store.toFiles = s.batch.store.toFiles at hfiles
  change s'.mem.latest.hash = b.previous at hprev
  obtain rfl := hs.tree.unique hs.indexed.stored hb hhash
  have htree : Tree g known s'.batch.store.toFiles := hfiles ▸ hs.tree
  have hne : ∀ a, OnBest ⟨s'.batch.store, s'.mem.latest⟩ a → a.height ≠ s.mem.latest.height := by
    intro a ha heq
    have hgone := ha.2
    change s'.batch.store.bestHash.get a.height = some a.hash at hgone
    rw [hdelete, heq, get_delete_self] at hgone
    cases hgone
  have hold : ∀ a, a.height ≠ s.mem.latest.height → (OnBest ⟨s'.batch.store, s'.mem.latest⟩ a ↔
      OnBest ⟨s.batch.store, s.mem.latest⟩ a) := fun a ha =>
    OnBest.congr hfiles (hdelete ▸ get_delete_of_ne _ ha)
  refine ⟨⟨htree, hindexed, ?_, ?_, ?_⟩, hfiles, hprev, hcursor⟩
  · intro tx l hl
    rw [hfiles]
    rw [hlookups, get_removeCoinbase] at hl
    exact hs.genuine tx l (Option.ite_none_left_eq_some.mp hl).2
  · intro a ha _ i tx hi
    have hbest := (hold a (hne a ha)).mp ha
    rw [hlookups, get_removeCoinbase, if_neg fun hcoinbase => hne a ha
      (congrArg PovBlock.height (honce.unique_onBest hh hs.tree hs.indexed hbest
        hs.indexed.onBest_latest hi hcoinbase).1)]
    exact hs.below a hbest (Nat.lt_succ_of_le (hbest.height_le hs.indexed)) i tx hi
  · intro h a ha
    rw [hcache, get_put] at ha
    split_ifs at ha with hkey
    · cases ha
      exact ⟨hindexed.onBest_latest, hkey.symm⟩
    · rw [get_delete] at ha
      obtain ⟨hdeleted, ha⟩ := Option.ite_none_left_eq_some.mp ha
      obtain ⟨hbest, rfl⟩ := hs.cache h a ha
      exact ⟨(hold a hdeleted).mpr hbest, rfl⟩

theorem detach {foot : Hash}
    (hbranch : IsBranch s.batch.store.toFiles s.mem.latest.hash foot blocks)
    (hok : blocks.forM (Session.disconnectBestBlock txs fails db) s = .ok () s') :
    Looked txs g known (s'.mem.latest.height + 1) s'.batch s'.mem ∧
      s'.batch.store.toFiles = s.batch.store.toFiles ∧ s'.mem.latest.hash = foot ∧
      s'.batch.cursor = s.batch.cursor := by
  induction blocks generalizing s with
  | nil =>
    cases hok
    exact ⟨hs, rfl, hbranch.tip_eq.symm, rfl⟩
  | cons b blocks ih =>
    obtain ⟨_, s₁, hfirst, hrest⟩ := bind_eq_ok.mp hok
    obtain ⟨hs₁, hfiles, hhash, hcursor⟩ :=
      hs.disconnectBestBlock hh honce hdb hsub (hbranch.stored b mem_cons_self) hfirst
    have hbelow : IsBranch s₁.batch.store.toFiles s₁.mem.latest.hash foot blocks := by
      rw [hfiles, hhash]
      exact ⟨hbranch.linked.2, hbranch.linked.1.symm,
        fun a ha => hbranch.stored a (mem_cons_of_mem _ ha)⟩
    obtain ⟨hs', hfiles', hfoot, hcursor'⟩ := ih hs₁ (hfiles ▸ hsub) hbelow hrest
    exact ⟨hs', hfiles'.trans hfiles, hfoot, hcursor'.trans hcursor⟩

end

theorem attach (hs : Looked txs g known k s.batch s.mem) (hk : k ≤ s.mem.latest.height + 1)
    {top : Hash}
    (hbranch : IsBranch s.batch.store.toFiles top s.mem.latest.hash blocks)
    (hok : blocks.reverse.forM (Session.connectBestBlock txs fails) s = .ok () s') :
    Looked txs g known k s'.batch s'.mem ∧ s'.batch.store.toFiles = s.batch.store.toFiles ∧
      s'.mem.latest.hash = top ∧ s'.batch.cursor = s.batch.cursor ∧
      k ≤ s'.mem.latest.height + 1 := by
  induction blocks generalizing top s' with
  | nil =>
    cases hok
    exact ⟨hs, rfl, hbranch.tip_eq, rfl, hk⟩
  | cons b blocks ih =>
    rw [reverse_cons, forM_append] at hok
    obtain ⟨_, s₁, hrest, hlast⟩ := bind_eq_ok.mp hok
    obtain ⟨hs₁, hfiles, hhash, hcursor, hk₁⟩ := ih ⟨hbranch.linked.2, rfl,
      fun a ha => hbranch.stored a (mem_cons_of_mem _ ha)⟩ hrest
    obtain ⟨_, s₂, hconnect, hret⟩ := bind_eq_ok.mp hlast
    cases hret
    obtain ⟨hs', hfiles', hlatest, hcursor', hheight⟩ := hs₁.connectBestBlock hh honce hk₁
      (hfiles ▸ hbranch.stored b mem_cons_self) (hbranch.linked.1.trans hhash.symm) hconnect
    refine ⟨hs', hfiles'.trans hfiles, ?_, hcursor'.trans hcursor, ?_⟩
    · rw [hlatest]
      exact hbranch.tip_eq
    · rw [hlatest]
      omega

theorem processFork (hs : Looked txs g known (s.mem.latest.height + 1) s.batch s.mem)
    (hdb : Tree g known db)
    (hsub : ∀ a, Stored db a → Stored s.batch.store.toFiles a) {new fork : PovBlock}
    (hnew : Stored s.batch.store.toFiles new)
    (hok : Session.processFork txs fails g db new s = .ok fork s') :
    Looked txs g known (fork.height + 1) s'.batch s'.mem ∧ fork.height ≤ s'.mem.latest.height ∧
      s'.batch.cursor = s.batch.cursor := by
  unfold Session.processFork at hok
  rw [get_bind] at hok
  obtain ⟨⟨point, fork'⟩, s₁, hpoint, hok₁⟩ := bind_eq_ok.mp hok
  obtain ⟨hpoint, rfl⟩ := liftPov_eq_ok hpoint
  obtain ⟨_, s₂, hdetach, hok₂⟩ := bind_eq_ok.mp hok₁
  obtain ⟨_, s₃, hattach, hret⟩ := bind_eq_ok.mp hok₂
  cases hret
  obtain ⟨point', hbranches, hpoint⟩ := Result.bind_eq_ok.mp hpoint
  obtain ⟨fork', hfork, hpoint⟩ := Result.bind_eq_ok.mp hpoint
  obtain ⟨_, hpoint⟩ := Result.ite_error_eq_ok.mp hpoint
  obtain ⟨rfl, rfl⟩ := Prod.mk.inj (Except.ok.inj hpoint)
  obtain ⟨hnewBranch, holdBranch⟩ :=
    branches_spec hh hs.tree hdb hsub hs.indexed.stored hnew hbranches
  obtain ⟨hs₂, hfiles₂, hfoot, hcursor₂⟩ := hs.detach hh honce hdb hsub holdBranch hdetach
  -- the fork block is the latest one once the old branch is gone
  have hlatest : fork' = s₂.mem.latest := by
    have hstored : Stored s₂.batch.store.toFiles s₂.mem.latest := hs₂.indexed.stored
    unfold forkBlock at hfork
    rw [if_neg (hfoot ▸ hs₂.tree.hash_ne hh hstored)] at hfork
    cases hget : db.getBlockByHash point'.forkHash with
    | none =>
      rw [hget] at hfork
      cases hfork
    | some q =>
      rw [hget] at hfork
      obtain rfl := Except.ok.inj hfork
      obtain ⟨hq, hqhash⟩ := hdb.getBlockByHash hget
      exact hs₂.tree.unique (hfiles₂ ▸ hsub q hq) hstored (hqhash.trans hfoot.symm)
  rw [hlatest]
  obtain ⟨hs₃, _, _, hcursor₃, hle⟩ := hs₂.attach hh honce (Nat.le_refl _)
    (by rw [hfiles₂, hfoot]; exact hnewBranch) hattach
  exact ⟨hs₃, Nat.le_of_succ_le_succ hle, hcursor₃.trans hcursor₂⟩

omit honce in
theorem addPovBlock {t : Tables} {m : Memory} (h : Looked txs g known k t m)
    (hb : b ∈ known) {prevTD : ℕ} (hprev : t.store.previousTD b = some prevTD) (td : ℕ) :
    Looked txs g known k (t.addPovBlock b td) m ∧
      ∀ a, Stored (t.addPovBlock b td).store.toFiles a ↔ a = b ∨ Stored t.store.toFiles a := by
  have hinv : Inv g known ⟨t.store, m.latest⟩ := ⟨h.tree, h.indexed⟩
  obtain ⟨hinv', hstored⟩ := hinv.addPovBlock hh hb hprev td
  change ∀ a, Stored (t.addPovBlock b td).store.toFiles a ↔ _ at hstored
  have hbest : ∀ a, OnBest ⟨(t.addPovBlock b td).store, m.latest⟩ a ↔ OnBest ⟨t.store, m.latest⟩ a := by
    intro a
    constructor
    · rintro ⟨ha, hhash⟩
      obtain ⟨q, hq, hqhash, _⟩ := hinv.stored_at hh hhash
      rw [hinv'.tree.unique ha ((hstored q).mpr (Or.inr hq)) hqhash.symm] at hhash ⊢
      exact ⟨hq, hhash⟩
    · rintro ⟨ha, hhash⟩
      exact ⟨(hstored a).mpr (Or.inr ha), hhash⟩
  refine ⟨⟨hinv'.tree, hinv'.indexed, ?_, ?_, ?_⟩, hstored⟩
  · intro tx l hl
    obtain ⟨a, ha, hplace⟩ := h.genuine tx l hl
    exact ⟨a, (hstored a).mpr (Or.inr ha), hplace⟩
  · intro a ha
    exact h.below a ((hbest a).mp ha)
  · intro i a ha
    obtain ⟨hon, hi⟩ := h.cache i a ha
    exact ⟨(hbest a).mpr hon, hi⟩

omit honce in
theorem savePovBlock (hs : Looked txs g known k s.batch s.mem) (hb : b ∈ known) {prevTD : ℕ} (hprev : s.batch.store.previousTD b = some prevTD) (td : ℕ)
    (hok : Session.savePovBlock fails b td s = .ok () s') :
    Looked txs g known k s'.batch s'.mem ∧ s'.mem = s.mem ∧ s'.batch.cursor = s.batch.cursor ∧
      ∀ a, Stored s'.batch.store.toFiles a ↔ a = b ∨ Stored s.batch.store.toFiles a := by
  unfold Session.savePovBlock at hok
  rw [get_bind] at hok
  obtain ⟨hlooked, hstored⟩ := hs.addPovBlock hh hb hprev td
  split_ifs at hok with hsome
  · cases hok
    have hsame : s.batch.addPovBlock b td = s.batch := by
      unfold Tables.addPovBlock Files.addPovBlock
      rw [if_pos hsome]
    rw [hsame] at hstored
    exact ⟨hs, rfl, rfl, hstored⟩
  · obtain ⟨_, rfl⟩ := dbWrite_eq_ok hok
    exact ⟨hlooked, rfl, rfl, hstored⟩

theorem insertBlock {coin : Bool} (hs : Looked txs g known (s.mem.latest.height + 1) s.batch s.mem)
    (hb : b ∈ known) {state : ChainState} {fork : Option PovBlock}
    (hok : Session.insertBlock txs fails g coin s.batch.store.toFiles b s = .ok (state, fork) s') :
    Looked txs g known (fork.elim s.mem.latest.height PovBlock.height + 1) s'.batch s'.mem ∧
      fork.elim s.mem.latest.height PovBlock.height ≤ s'.mem.latest.height ∧
      s'.batch.cursor = s.batch.cursor := by
  unfold Session.insertBlock at hok
  rw [get_bind] at hok
  obtain ⟨bestTD, s₁, hbest, hok₁⟩ := bind_eq_ok.mp hok
  obtain ⟨_, _, rfl⟩ := getPovTD_eq_ok hbest
  obtain ⟨prevTD, s₂, hprev, hok₂⟩ := bind_eq_ok.mp hok₁
  obtain ⟨_, hprev, rfl⟩ := getPovTD_eq_ok hprev
  obtain ⟨_, s₃, hsave, hok₃⟩ := bind_eq_ok.mp hok₂
  obtain ⟨hs₃, hmem, hcursor, hstored⟩ := hs.savePovBlock hh hb hprev _ hsave
  obtain ⟨_, s₄, hcommit, hok₄⟩ := bind_eq_ok.mp hok₃
  obtain ⟨_, rfl⟩ := dbWrite_eq_ok hcommit
  have hnew : Stored s₃.batch.store.toFiles b := (hstored b).mpr (Or.inl rfl)
  rw [← hmem] at hok₄ hs₃ ⊢
  unfold growChain at hok₄
  split_ifs at hok₄ with hisBest hextend
  · obtain ⟨_, s₅, hconnect, hret⟩ := bind_eq_ok.mp hok₄
    cases hret
    obtain ⟨hs₅, _, hlatest, hcursor', hheight⟩ := Looked.connectBestBlock
      (s := ⟨s₃.batch, s₃.mem⟩) hh honce hs₃ (Nat.le_refl _) hnew hextend hconnect
    refine ⟨hs₅, ?_, hcursor'.trans hcursor⟩
    rw [hlatest, hheight]
    exact Nat.le_succ _
  · obtain ⟨fork', s₅, hfork, hret⟩ := bind_eq_ok.mp hok₄
    cases hret
    obtain ⟨hs₅, hle, hcursor'⟩ := Looked.processFork (s := ⟨s₃.batch, s₃.mem⟩) hh honce hs₃
      hs.tree (fun a ha => (hstored a).mpr (Or.inr ha)) hnew hfork
    exact ⟨hs₅, hle, hcursor'.trans hcursor⟩
  · cases hok₄
    exact ⟨hs₃, Nat.le_refl _, hcursor⟩

end Looked

/-! ## The update after the batch -/

section
variable {l : List Hash} {lookups : Table Hash TxLookup} {tx : Hash}

theorem get_foldl_of_not_mem (n : ℕ) (h : tx ∉ l) :
    ((l.zipIdx n).foldl (fun lookups (tx, i) => lookups.put tx ⟨b.hash, b.height, i⟩)
      lookups).get tx = lookups.get tx := by
  induction l generalizing n lookups with
  | nil => rfl
  | cons x l ih =>
    rw [mem_cons, not_or] at h
    rw [zipIdx_cons, foldl_cons, ih _ h.2]
    exact get_put_of_ne _ h.1 _

theorem get_foldl_of_mem (n : ℕ) {i : ℕ} (hi : l[i]? = some tx)
    (honly : ∀ j, l[j]? = some tx → j = i) :
    ((l.zipIdx n).foldl (fun lookups (tx, i) => lookups.put tx ⟨b.hash, b.height, i⟩)
      lookups).get tx = some ⟨b.hash, b.height, n + i⟩ := by
  induction l generalizing n i lookups with
  | nil => cases hi
  | cons x l ih =>
    rw [zipIdx_cons, foldl_cons]
    cases i with
    | zero =>
      have hnot : tx ∉ l := by
        intro hmem
        obtain ⟨j, hj⟩ := mem_iff_getElem?.mp hmem
        exact absurd (honly (j + 1) hj) (Nat.succ_ne_zero j)
      cases hi
      rw [get_foldl_of_not_mem _ hnot]
      exact get_put_self ..
    | succ i =>
      rw [ih _ hi fun j hj => Nat.succ.inj (honly (j + 1) hj)]
      have hsum : n + 1 + i = n + (i + 1) := by omega
      rw [hsum]

theorem get_foldl_genuine (n : ℕ) {r : TxLookup}
    (h : ((l.zipIdx n).foldl (fun lookups (tx, i) => lookups.put tx ⟨b.hash, b.height, i⟩)
      lookups).get tx = some r) :
    lookups.get tx = some r ∨ ∃ i, l[i]? = some tx ∧ r = ⟨b.hash, b.height, n + i⟩ := by
  induction l generalizing n lookups with
  | nil => exact Or.inl h
  | cons x l ih =>
    rw [zipIdx_cons, foldl_cons] at h
    rcases ih _ h with h | ⟨i, hi, rfl⟩
    · change (lookups.put x ⟨b.hash, b.height, n⟩).get tx = some r at h
      rw [get_put] at h
      split_ifs at h with hx
      · exact Or.inr ⟨0, congrArg some hx.symm, (Option.some.inj h).symm⟩
      · exact Or.inl h
    · refine Or.inr ⟨i + 1, hi, ?_⟩
      have hsum : n + 1 + i = n + (i + 1) := by omega
      rw [hsum]

end

namespace Looked

variable {n n' : Node} {k : ℕ}

theorem setCursor {t : Tables} {m : Memory} (h : Looked txs g known k t m) (cursor : Option ℕ) :
    Looked txs g known k { t with cursor } m :=
  ⟨h.tree, h.indexed, h.genuine, h.below, h.cache⟩

theorem cacheBlock (h : Looked txs g known k n.db n.mem) (hb : OnBest ⟨n.db.store, n.mem.latest⟩ b) :
    Looked txs g known k (n.cacheBlock b.height b).db (n.cacheBlock b.height b).mem :=
  { h with
    cache := by
      intro i a ha
      change (n.mem.heightBlockCache.put b.height b).get i = some a at ha
      rw [get_put] at ha
      split_ifs at ha with hi
      · cases ha
        exact ⟨hb, hi.symm⟩
      · exact h.cache i a ha }

include hh honce

theorem addTxLookups {t : Tables} {m : Memory} (h : Looked txs g known b.height t m)
    (hb : OnBest ⟨t.store, m.latest⟩ b) :
    Looked txs g known (b.height + 1) (t.addTxLookups b (txs b)) m where
  tree := h.tree
  indexed := h.indexed
  cache := h.cache
  genuine := by
    intro tx l hl
    rcases get_foldl_genuine 0 hl with hl | ⟨i, hi, rfl⟩
    · exact h.genuine tx l hl
    · refine ⟨b, hb.1, rfl, rfl, ?_⟩
      rw [Nat.zero_add]
      exact hi
  below := by
    intro a ha hlt i tx hi
    change OnBest ⟨t.store, m.latest⟩ a at ha
    rcases Nat.lt_or_eq_of_le (Nat.le_of_lt_succ hlt) with hlow | heq
    · have hnot : tx ∉ txs b := by
        intro hmem
        obtain ⟨j, hj⟩ := mem_iff_getElem?.mp hmem
        obtain ⟨rfl, _⟩ := honce.unique_onBest hh h.tree h.indexed ha hb hi hj
        exact Nat.lt_irrefl _ hlow
      exact (get_foldl_of_not_mem 0 hnot).trans (h.below a ha hlow i tx hi)
    · obtain rfl := ha.eq_of_height hb h.tree heq
      have honly : ∀ j, (txs a)[j]? = some tx → j = i := fun j hj =>
        (honce.unique_onBest hh h.tree h.indexed ha ha hj hi).2
      refine (get_foldl_of_mem 0 hi honly).trans ?_
      rw [Nat.zero_add]

omit honce in
theorem getBlockByHeight (h : Looked txs g known k n.db n.mem) {height : ℕ} (hle : height ≤ n.mem.latest.height) :
    ∃ b, n.getBlockByHeight height = some b ∧ OnBest ⟨n.db.store, n.mem.latest⟩ b ∧
      b.height = height := by
  unfold Node.getBlockByHeight
  cases hcache : n.mem.heightBlockCache.get height with
  | some b => exact ⟨b, rfl, h.cache height b hcache⟩
  | none =>
    have hsome := (h.indexed.spine.isSome_iff height).mpr hle
    obtain ⟨x, hx⟩ := Option.isSome_iff_exists.mp hsome
    change n.db.store.bestHash.get height = some x at hx
    have hinv : Inv g known ⟨n.db.store, n.mem.latest⟩ := ⟨h.tree, h.indexed⟩
    obtain ⟨b, hb, rfl, rfl⟩ := hinv.stored_at hh hx
    refine ⟨b, ?_, ⟨hb, hx⟩, rfl⟩
    unfold getPovBlockByHeight
    rw [hx]
    exact hb

/-- The storage takes the look-ups. `InsertBlock` drops the error if it does not. -/
def Stores (fails : Op → Bool) : Prop :=
  fails .getPovTxlScanCursor = false ∧ (∀ height, fails (.setPovTxlScanCursor height) = false) ∧
    ∀ height, fails (.putTxLookups height) = false

structure Settled (txs : PovBlock → List Hash) (g : Genesis) (known : List PovBlock) (n : Node) :
    Prop where
  looked : Looked txs g known (n.mem.latest.height + 1) n.db n.mem
  cursor : n.db.cursor = some n.mem.latest.height

theorem updateTxLookups (hstores : Stores fails) {count : ℕ}
    (h : Looked txs g known (k + 1) n.db n.mem)
    (hcount : k + count = n.mem.latest.height) (hcursor : n.db.cursor = some k) :
    Settled txs g known (Node.updateTxLookups txs fails count (k + 1) n) := by
  induction count generalizing k n with
  | zero =>
    obtain rfl : k = n.mem.latest.height := hcount
    exact ⟨h, hcursor⟩
  | succ count ih =>
    obtain ⟨b, hget, hb, hheight⟩ := h.getBlockByHeight hh (show k + 1 ≤ _ by omega)
    rw [← hheight] at h hget
    rw [← hheight, Node.updateTxLookups, hget]
    dsimp only
    rw [if_neg (by rw [hstores.2.2]; decide), if_neg (by rw [hstores.2.1]; decide)]
    exact ih (((h.cacheBlock hb).addTxLookups hh honce hb).setCursor _)
      (show b.height + count = n.mem.latest.height by omega) rfl

theorem batchUpdateTxLookupInSync (hstores : Stores fails) {last : ℕ} {fork : Option PovBlock}
    (h : Looked txs g known (fork.elim last PovBlock.height + 1) n.db n.mem)
    (hle : fork.elim last PovBlock.height ≤ n.mem.latest.height)
    (hcursor : n.db.cursor = some last) :
    Settled txs g known (Node.batchUpdateTxLookupInSync txs fails fork n) := by
  unfold Node.batchUpdateTxLookupInSync
  cases fork with
  | none =>
    dsimp only
    rw [if_neg (by rw [hstores.1]; decide), hcursor]
    exact h.updateTxLookups hh honce hstores (Nat.add_sub_of_le hle) hcursor
  | some fork =>
    dsimp only
    rw [if_neg (by rw [hstores.2.1]; decide)]
    exact Looked.updateTxLookups hh honce hstores (h.setCursor (some fork.height))
      (Nat.add_sub_of_le hle) rfl

end Looked

namespace Node

open Looked

variable {n n' : Node}

include hh honce

theorem settled_insertBlock {coin : Bool} (h : Settled txs g known n) (hstores : Stores fails)
    (hb : b ∈ known)
    (hok : insertBlock txs fails g coin n b = (none, n')) : Settled txs g known n' := by
  unfold insertBlock at hok
  cases hrun : Session.insertBlock txs fails g coin n.db.store.toFiles b ⟨n.db, n.mem⟩ with
  | error e s =>
    rw [hrun] at hok
    cases hok
  | ok r s =>
    obtain ⟨state, fork⟩ := r
    rw [hrun] at hok
    dsimp only at hok
    split_ifs at hok
    · cases hok
    · cases hok
      obtain ⟨hs, hle, hcursor⟩ :=
        Looked.insertBlock (s := ⟨n.db, n.mem⟩) hh honce h.looked hb hrun
      exact hs.batchUpdateTxLookupInSync (n := ⟨s.batch, s.mem⟩) hh honce hstores hle
        (hcursor.trans h.cursor)

theorem settled_resetWithGenesisBlock :
    Settled txs g known (resetWithGenesisBlock txs g) := by
  have hinv : Inv g known (Pov.resetWithGenesisBlock g) := inv_resetWithGenesisBlock
  have hbest : OnBest (Pov.resetWithGenesisBlock g) g.block := hinv.indexed.onBest_latest
  have hempty : Looked txs g known g.block.height
      ⟨(Pov.resetWithGenesisBlock g).store, ∅, some g.block.height⟩
      (resetWithGenesisBlock txs g).mem := by
    refine ⟨hinv.tree, hinv.indexed, ?_, ?_, ?_⟩
    · intro tx l hl
      cases (get_empty tx).symm.trans hl
    · intro a _ hlt
      rw [g.height_eq] at hlt
      exact absurd hlt (Nat.not_lt_zero _)
    · intro i a ha
      change (Table.put ∅ g.block.height g.block).get i = some a at ha
      rw [get_put, get_empty] at ha
      obtain ⟨rfl, hsome⟩ := Option.ite_none_right_eq_some.mp ha
      cases hsome
      exact ⟨hbest, rfl⟩
  exact ⟨hempty.addTxLookups hh honce hbest, rfl⟩

end Node

structure Call where
  block : PovBlock
  coin : Bool
  fails : Op → Bool

def Node.insertAll (txs : PovBlock → List Hash) (g : Genesis) (n : Node) (calls : List Call) :
    Option Node :=
  calls.foldlM (fun n call =>
    match n.insertBlock txs call.fails g call.coin call.block with
    | (none, n') => some n'
    | (some _, _) => none) n

include hh honce in
theorem Node.settled_insertAll {n n' : Node} {calls : List Call} (h : Looked.Settled txs g known n)
    (hcalls : ∀ call ∈ calls, call.block ∈ known ∧ Looked.Stores call.fails)
    (hok : n.insertAll txs g calls = some n') : Looked.Settled txs g known n' := by
  induction calls generalizing n with
  | nil =>
    cases hok
    exact h
  | cons call calls ih =>
    unfold Node.insertAll at hok
    rw [foldlM_cons] at hok
    obtain ⟨n₁, hfirst, hrest⟩ := Option.bind_eq_some_iff.mp hok
    obtain ⟨hmem, hstores⟩ := hcalls call mem_cons_self
    refine ih ?_ (fun call hcall => hcalls call (mem_cons_of_mem _ hcall)) hrest
    cases hinsert : n.insertBlock txs call.fails g call.coin call.block with
    | mk error n₂ =>
      rw [hinsert] at hfirst
      cases error with
      | some e => cases hfirst
      | none =>
        cases hfirst
        exact Node.settled_insertBlock hh honce h hstores hmem hinsert

/-- After every sequence of successful calls a transaction has a look-up if and only if it is in
a block of the best chain, and the look-up names the block and the place. -/
theorem txLookup_iff (txs : PovBlock → List Hash) (g : Genesis) (calls : List Call) (n : Node)
    (hh : Hashed g (calls.map Call.block))
    (hstate : StateBlocksOnce txs g (calls.map Call.block))
    (hcoinbase : CoinbasesOnce txs g (calls.map Call.block))
    (hapart : CoinbasesApart txs g (calls.map Call.block))
    (hstores : ∀ call ∈ calls, Looked.Stores call.fails)
    (hok : (Node.resetWithGenesisBlock txs g).insertAll txs g calls = some n) :
    (∀ tx, n.db.hasPovTxLookup tx = true ↔
      ∃ h b, n.db.getPovBlockByHeight h = some b ∧ tx ∈ txs b) ∧
    ∀ tx h b i, n.db.getPovBlockByHeight h = some b → (txs b)[i]? = some tx →
      n.db.getPovTxLookup tx = some ⟨b.hash, b.height, i⟩ := by
  have honce : Once txs g (calls.map Call.block) := ⟨hstate, hcoinbase, hapart⟩
  have hsettled := Node.settled_insertAll hh honce (Node.settled_resetWithGenesisBlock hh honce)
    (fun call hcall => ⟨mem_map_of_mem hcall, hstores call hcall⟩) hok
  have hlooked := hsettled.looked
  have honBest : ∀ h b, n.db.getPovBlockByHeight h = some b →
      OnBest ⟨n.db.store, n.mem.latest⟩ b := by
    intro h b hget
    obtain ⟨x, hx, hb⟩ := Option.bind_eq_some_iff.mp hget
    obtain ⟨rfl, rfl, _⟩ := hlooked.tree.filed _ _ _ hb
    exact ⟨hb, hx⟩
  have hplace : ∀ tx h b i, n.db.getPovBlockByHeight h = some b → (txs b)[i]? = some tx →
      n.db.getPovTxLookup tx = some ⟨b.hash, b.height, i⟩ := by
    intro tx h b i hget hi
    have hb := honBest h b hget
    unfold getPovTxLookup
    rw [hlooked.below b hb (Nat.lt_succ_of_le (hb.height_le hlooked.indexed)) i tx hi]
    refine Option.filter_eq_some_iff.mpr ⟨rfl, ?_⟩
    rw [beq_iff_eq]
    exact hb.2
  refine ⟨fun tx => ⟨fun hhas => ?_, ?_⟩, hplace⟩
  · obtain ⟨l, hl⟩ := Option.isSome_iff_exists.mp hhas
    obtain ⟨hl, hbest⟩ := Option.filter_eq_some_iff.mp hl
    rw [beq_iff_eq] at hbest
    obtain ⟨b, hb, hhash, hheight, htx⟩ := hlooked.genuine tx l hl
    refine ⟨l.blockHeight, b, ?_, mem_of_getElem? htx⟩
    unfold getPovBlockByHeight
    rw [hbest, ← hhash, ← hheight]
    exact hb
  · rintro ⟨h, b, hget, hmem⟩
    obtain ⟨i, hi⟩ := mem_iff_getElem?.mp hmem
    unfold hasPovTxLookup
    rw [hplace tx h b i hget hi]
    rfl

def sharedTxs (b : PovBlock) : List Hash :=
  if b.hash = 2 ∨ b.hash = 4 then [b.hash + 100, 200] else [b.hash + 100]

def forkNodeCalls : List Call := forkCalls.map fun call => ⟨call.1, call.2, fun _ => false⟩

theorem forkNodeCalls_block : forkNodeCalls.map Call.block = forkCalls.map Prod.fst := rfl

def forkBranches : List (List PovBlock) :=
  [[smallGenesis.block], [⟨2, 1, 1, 1⟩, smallGenesis.block],
    [⟨3, 2, 2, 1⟩, ⟨2, 1, 1, 1⟩, smallGenesis.block], [⟨4, 1, 1, 1⟩, smallGenesis.block],
    [⟨5, 4, 2, 3⟩, ⟨4, 1, 1, 1⟩, smallGenesis.block]]

theorem branchOf_forkCalls (h : BranchOf smallGenesis (forkCalls.map Prod.fst) blocks) :
    blocks ∈ forkBranches := by
  induction h with
  | genesis => exact mem_cons_self
  | @cons b p blocks hb hprev _ ih =>
    have hstep : ∀ b ∈ forkCalls.map Prod.fst, ∀ branch ∈ forkBranches,
        (branch.head?.map PovBlock.hash) = some b.previous → b :: branch ∈ forkBranches := by decide
    exact hstep b hb (p :: blocks) ih (congrArg some hprev)

theorem sharedTxs_succ {i : ℕ} {tx : Hash} (h : (sharedTxs b)[i + 1]? = some tx) :
    i = 0 ∧ (sharedTxs b)[1]? = some tx := by
  have hlength : (sharedTxs b).length ≤ 2 := by
    unfold sharedTxs
    split_ifs
    · exact Nat.le_refl 2
    · exact Nat.le_succ 1
  obtain ⟨hlt, _⟩ := List.getElem?_eq_some_iff.mp h
  obtain rfl : i = 0 := by omega
  exact ⟨rfl, h⟩

/-- The state block of both branches is looked up in the one that has become best. -/
theorem txLookup_iff_fork : ∃ n, (Node.resetWithGenesisBlock sharedTxs smallGenesis).insertAll
    sharedTxs smallGenesis forkNodeCalls = some n ∧
      n.db.getPovTxLookup 200 = some ⟨4, 1, 1⟩ := by
  have hrun : ((Node.resetWithGenesisBlock sharedTxs smallGenesis).insertAll sharedTxs smallGenesis
      forkNodeCalls).any
        (fun n => decide (n.db.getPovBlockByHeight 1 = some ⟨4, 1, 1, 1⟩)) = true := by
    decide +kernel
  obtain ⟨n, hok, hfour⟩ := (Option.any_eq_true _ _).mp hrun
  have hfour := of_decide_eq_true hfour
  refine ⟨n, hok, (txLookup_iff sharedTxs smallGenesis forkNodeCalls n ?_ ?_ ?_ ?_ ?_ hok).2 200 1
    ⟨4, 1, 1, 1⟩ 1 hfour (by decide)⟩ <;> try rw [forkNodeCalls_block]
  · exact hashed_forkCalls
  · intro branch hbranch a ha b hb i j tx hi hj
    obtain ⟨rfl, hi⟩ := sharedTxs_succ hi
    obtain ⟨rfl, hj⟩ := sharedTxs_succ hj
    have honce : ∀ branch ∈ forkBranches, ∀ a ∈ branch, ∀ b ∈ branch,
        (sharedTxs a)[1]?.isSome → (sharedTxs a)[1]? = (sharedTxs b)[1]? → a = b := by decide
    exact ⟨honce branch (branchOf_forkCalls hbranch) a ha b hb (Option.isSome_of_eq_some hi)
      (hi.trans hj.symm), rfl⟩
  · intro branch hbranch a ha b hb tx hi hj
    have honce : ∀ branch ∈ forkBranches, ∀ a ∈ branch, ∀ b ∈ branch,
        (sharedTxs a)[0]? = (sharedTxs b)[0]? → a = b := by decide
    exact honce branch (branchOf_forkCalls hbranch) a ha b hb (hi.trans hj.symm)
  · intro a ha b hb i tx hi hj
    obtain ⟨_, hj⟩ := sharedTxs_succ hj
    have hapart : ∀ a ∈ smallGenesis.block :: forkCalls.map Prod.fst,
        ∀ b ∈ smallGenesis.block :: forkCalls.map Prod.fst,
        (sharedTxs a)[0]? ≠ (sharedTxs b)[1]? := by decide
    exact hapart a ha b hb (hi.trans hj.symm)
  · intro call hcall
    obtain ⟨_, _, rfl⟩ := mem_map.mp hcall
    exact ⟨rfl, fun _ => rfl, fun _ => rfl⟩

def twinTxs (b : PovBlock) : List Hash :=
  if b.hash = 3 then [102] else [b.hash + 100]

/-- Block 3 gives way to the heavier block 6, and the coinbase of block 2, which is still on the
best chain, has no look-up any more. -/
theorem txLookup_lost : ∃ n, (Node.resetWithGenesisBlock twinTxs smallGenesis).insertAll twinTxs
    smallGenesis [⟨⟨2, 1, 1, 1⟩, false, fun _ => false⟩, ⟨⟨3, 2, 2, 1⟩, false, fun _ => false⟩,
      ⟨⟨6, 2, 2, 5⟩, false, fun _ => false⟩] = some n ∧
      n.db.getPovBlockByHeight 1 = some ⟨2, 1, 1, 1⟩ ∧ 102 ∈ twinTxs ⟨2, 1, 1, 1⟩ ∧
      n.db.hasPovTxLookup 102 = false := by
  have hrun : ((Node.resetWithGenesisBlock twinTxs smallGenesis).insertAll twinTxs smallGenesis
      [⟨⟨2, 1, 1, 1⟩, false, fun _ => false⟩, ⟨⟨3, 2, 2, 1⟩, false, fun _ => false⟩,
        ⟨⟨6, 2, 2, 5⟩, false, fun _ => false⟩]).any
      (fun n => decide (n.db.getPovBlockByHeight 1 = some ⟨2, 1, 1, 1⟩ ∧
        102 ∈ twinTxs ⟨2, 1, 1, 1⟩ ∧ n.db.hasPovTxLookup 102 = false)) = true := by
    decide +kernel
  obtain ⟨n, hok, hfacts⟩ := (Option.any_eq_true _ _).mp hrun
  exact ⟨n, hok, of_decide_eq_true hfacts⟩

end GoQlc.Pov
