import GoQlc.Pov.Panics

/-!
# The order in which PoV blocks include state blocks

The check of a PoV block compares the previous hash of each transaction with the head of its chain,
which it reads from the state of the previous PoV block or from a map of the transactions before it
in the same block.
-/

namespace GoQlc.Pov.Wire

open Config Halt List PovVerifier Result Table

variable {γ ε : Type} {hashData : Bytes → Hash}

def LinkedFrom (hashData : Bytes → Hash) : Hash → List StateBlock → Prop
  | _, [] => True
  | p, b :: blocks => b.previous = p ∧ LinkedFrom hashData (b.getHash hashData) blocks

def Linked (hashData : Bytes → Hash) (blocks : List StateBlock) : Prop :=
  LinkedFrom hashData 0 blocks

def headOf (hashData : Bytes → Hash) (p : Hash) (blocks : List StateBlock) : Hash :=
  (blocks.getLast?.map (StateBlock.getHash hashData)).getD p

section Chain

theorem headOf_concat (p : Hash) (blocks : List StateBlock) (b : StateBlock) :
    headOf hashData p (blocks ++ [b]) = b.getHash hashData := by
  rw [headOf, List.getLast?_append_cons, List.getLast?_singleton]
  rfl

theorem headOf_cons (p : Hash) (b : StateBlock) (blocks : List StateBlock) :
    headOf hashData p (b :: blocks) = headOf hashData (b.getHash hashData) blocks := by
  cases blocks with
  | nil => rfl
  | cons c blocks =>
    rw [headOf, headOf, List.getLast?_cons_cons]
    cases h : (c :: blocks).getLast? with
    | none => simp at h
    | some l => rfl

variable {blocks : List StateBlock}

theorem linkedFrom_concat {p : Hash} {b : StateBlock} :
    LinkedFrom hashData p (blocks ++ [b]) ↔
      LinkedFrom hashData p blocks ∧ b.previous = headOf hashData p blocks := by
  induction blocks generalizing p with
  | nil => simp [LinkedFrom, headOf]
  | cons c blocks ih => rw [cons_append, LinkedFrom, LinkedFrom, ih, headOf_cons, and_assoc]

variable {rest : List StateBlock}

theorem linkedFrom_of_append {p : Hash} (h : LinkedFrom hashData p (blocks ++ rest)) :
    LinkedFrom hashData p blocks := by
  induction blocks generalizing p with
  | nil => trivial
  | cons b blocks ih => exact ⟨h.1, ih h.2⟩

structure Distinct (hashData : Bytes → Hash) (blocks : List StateBlock) : Prop where
  inj : ∀ b ∈ blocks, ∀ c ∈ blocks, b.getHash hashData = c.getHash hashData → b = c
  ne_zero : ∀ b ∈ blocks, b.getHash hashData ≠ 0

theorem Distinct.mono (h : Distinct hashData rest) (hsub : ∀ b ∈ blocks, b ∈ rest) :
    Distinct hashData blocks where
  inj b hb c hc := h.inj b (hsub b hb) c (hsub c hc)
  ne_zero b hb := h.ne_zero b (hsub b hb)

theorem Linked.nodup (h : Linked hashData blocks) (hdistinct : Distinct hashData blocks) :
    blocks.Nodup := by
  induction blocks using List.reverseRecOn with
  | nil => exact nodup_nil
  | append_singleton blocks b ih =>
    obtain ⟨hlinked, hprevious⟩ := linkedFrom_concat.mp h
    have hnodup := ih hlinked (hdistinct.mono fun c hc => mem_append_left _ hc)
    refine nodup_append.mpr ⟨hnodup, nodup_singleton b, ?_⟩
    rintro c hc _ hb rfl
    obtain rfl := mem_singleton.mp hb
    obtain ⟨before, after, rfl⟩ := append_of_mem hc
    -- the first time, `c` named the head of `before`
    have hfirst : c.previous = headOf hashData 0 before := by
      rw [append_cons] at hlinked
      exact (linkedFrom_concat.mp (linkedFrom_of_append hlinked)).2
    obtain ⟨last, hlast⟩ : ∃ last, (before ++ c :: after).getLast? = some last :=
      ⟨_, List.getLast?_eq_some_getLast (by simp)⟩
    have hmem : last ∈ c :: after := by
      rw [List.getLast?_append_cons] at hlast
      exact mem_of_getLast? hlast
    have hhead : headOf hashData 0 (before ++ c :: after) = last.getHash hashData := by
      rw [headOf, hlast]
      rfl
    rw [hfirst, hhead] at hprevious
    have hin : last ∈ before ++ c :: after ++ [c] := by
      rw [append_assoc, mem_append]
      exact .inr (mem_append_left _ hmem)
    rcases eq_nil_or_concat' before with rfl | ⟨before, d, rfl⟩
    · exact hdistinct.ne_zero last hin hprevious.symm
    · rw [headOf_concat] at hprevious
      have heq : d = last := hdistinct.inj d (by simp) last hin hprevious
      subst heq
      exact (nodup_append.mp hnodup).2.2 d (by simp) d hmem rfl

end Chain

def chainOf (address : Address) (token : Hash) (txs : List PovTransaction) : List StateBlock :=
  (txs.map PovTransaction.block).filter fun b => b.address = address ∧ b.token = token

section Branch

theorem chainOf_append (address : Address) (token : Hash) (txs txs' : List PovTransaction) :
    chainOf address token (txs ++ txs') = chainOf address token txs ++ chainOf address token txs' := by
  rw [chainOf, map_append, filter_append]
  rfl

theorem chainOf_singleton_self (tx : PovTransaction) :
    chainOf tx.block.address tx.block.token [tx] = [tx.block] := by
  simp [chainOf]

variable {tx : PovTransaction}

theorem chainOf_singleton_of_ne {address : Address} {token : Hash}
    (h : ¬ (tx.block.address = address ∧ tx.block.token = token)) :
    chainOf address token [tx] = [] := by
  simp [chainOf, h]

def HeadsAt (hashData : Bytes → Hash) (head : Address → Hash → Hash)
    (included : List PovTransaction) : Prop :=
  ∀ address token, isContractAddress address = false →
    head address token = headOf hashData 0 (chainOf address token included)

def AllLinked (hashData : Bytes → Hash) (included : List PovTransaction) : Prop :=
  ∀ address token, isContractAddress address = false →
    Linked hashData (chainOf address token included)

def wanted (sdb : PovStateDB γ) (prevHashes : Table (Address × Hash) Hash) (address : Address)
    (token : Hash) : Hash :=
  (prevHashes.get (address, token)).getD (stateHead sdb address token)

variable {included : List PovTransaction}

theorem HeadsAt.step {head head' : Address → Hash → Hash} (h : HeadsAt hashData head included)
    (hhead : ∀ address token, isContractAddress address = false → head' address token =
      if tx.block.address = address ∧ tx.block.token = token then tx.block.getHash hashData
      else head address token) : HeadsAt hashData head' (included ++ [tx]) := by
  intro address token hca
  rw [hhead address token hca, chainOf_append]
  split_ifs with heq
  · obtain ⟨rfl, rfl⟩ := heq
    rw [chainOf_singleton_self, headOf_concat]
  · rw [chainOf_singleton_of_ne heq, append_nil]
    exact h address token hca

theorem AllLinked.step (h : AllLinked hashData included)
    (hprevious : isContractAddress tx.block.address = false → tx.block.previous =
      headOf hashData 0 (chainOf tx.block.address tx.block.token included)) :
    AllLinked hashData (included ++ [tx]) := by
  intro address token hca
  rw [chainOf_append]
  by_cases heq : tx.block.address = address ∧ tx.block.token = token
  · obtain ⟨rfl, rfl⟩ := heq
    rw [chainOf_singleton_self]
    exact linkedFrom_concat.mpr ⟨h _ _ hca, hprevious hca⟩
  · rw [chainOf_singleton_of_ne heq, append_nil]
    exact h address token hca

variable {sdb : PovStateDB γ} {txs : List PovTransaction} {pv : PovVerifier γ ε}

theorem verifyOrder_allLinked {prevHashes : Table (Address × Hash) Hash}
    (hheads : HeadsAt pv.hashData (wanted sdb prevHashes) included)
    (hlinked : AllLinked pv.hashData included) (h : pv.verifyOrder sdb prevHashes txs = .ok ()) :
    AllLinked pv.hashData (included ++ txs) := by
  induction txs generalizing prevHashes included with
  | nil => rwa [append_nil]
  | cons tx txs ih =>
    unfold verifyOrder at h
    rw [seq_eq_ok, require_eq_ok] at h
    obtain ⟨hwant, hrest⟩ := h
    rw [append_cons]
    refine ih (hheads.step fun address token hca => ?_) (hlinked.step fun hca => ?_) hrest
    · by_cases heq : tx.block.address = address ∧ tx.block.token = token
      · obtain ⟨rfl, rfl⟩ := heq
        rw [wanted, hca, if_neg Bool.false_ne_true, get_put_self, Option.getD_some,
          if_pos ⟨rfl, rfl⟩]
      · rw [if_neg heq, wanted, wanted]
        split_ifs
        · rfl
        · rw [get_put_of_ne _ (fun hkey => heq ⟨(Prod.mk.inj hkey).1.symm,
            (Prod.mk.inj hkey).2.symm⟩)]
    · rw [← hheads _ _ hca, ← hwant, hca, wanted]
      cases prevHashes.get (tx.block.address, tx.block.token) with
      | none => rfl
      | some p => rfl

variable {f : ℕ → γ → PovTransaction → Except ε γ} {height : ℕ} {sdb' : PovStateDB γ}

theorem stateHead_applyTransaction (h : applyTransaction f height sdb tx = .ok sdb')
    (address : Address) (token : Hash) :
    stateHead sdb' address token =
      if tx.block.address = address ∧ tx.block.token = token then tx.hash
      else stateHead sdb address token := by
  unfold applyTransaction at h
  simp only [bind_eq_ok, pure, Except.pure, Except.ok.injEq] at h
  obtain ⟨contracts, -, rfl⟩ := h
  unfold stateHead
  dsimp only
  by_cases haddr : tx.block.address = address
  · subst haddr
    rw [get_put_self]
    dsimp only
    rw [getTokenState_updateAccountState]
    by_cases htoken : tx.block.token = token
    · rw [if_pos htoken, if_pos ⟨rfl, htoken⟩]
    · rw [if_neg htoken, if_neg (fun h => htoken h.2)]
      cases sdb.accounts.get tx.block.address with
      | none => rfl
      | some as => rfl
  · rw [get_put_of_ne _ (fun h => haddr h.symm), if_neg (fun h => haddr h.1)]

theorem HeadsAt.transitStateDB (h : HeadsAt hashData (stateHead sdb) included)
    (hhash : ∀ tx ∈ txs, tx.block.getHash hashData = tx.hash)
    (htransit : transitStateDB f height txs sdb = .ok sdb') :
    HeadsAt hashData (stateHead sdb') (included ++ txs) := by
  induction txs generalizing sdb included with
  | nil =>
    cases htransit
    rwa [append_nil]
  | cons tx txs ih =>
    unfold Pov.transitStateDB at htransit
    rw [foldlM_cons, bind_eq_ok] at htransit
    obtain ⟨sdb₁, happly, hrest⟩ := htransit
    rw [append_cons]
    refine ih (h.step fun address token _ => ?_) (fun t ht => hhash t (mem_cons_of_mem _ ht))
      hrest
    rw [stateHead_applyTransaction happly, hhash tx mem_cons_self]

structure Keyed (hashData : Bytes → Hash) (pv : PovVerifier γ ε) : Prop where
  hashData_eq : pv.hashData = hashData
  key : ∀ h b, pv.getStateBlockConfirmed h = some b → b.getHash hashData = h

/-- A branch of PoV blocks that pass `verifyTransactions` and `TransitStateDB` from a state without
accounts on, with the transactions included and the state reached. -/
inductive Branch (ε : Type) (hashData : Bytes → Hash) :
    List PovTransaction → PovStateDB γ → Prop where
  | genesis (sdb : PovStateDB γ) (haccounts : sdb.accounts = ∅) : Branch ε hashData [] sdb
  | extend (pv : PovVerifier γ ε) (block : PovBlock) {included txs : List PovTransaction}
      {sdb sdb' : PovStateDB γ} (hbranch : Branch ε hashData included sdb) (hkeyed : Keyed hashData pv)
      (hverify : pv.verifyTransactions block sdb = .ok txs)
      (htransit : transitStateDB pv.updateContractState block.header.basHdr.height.toNat txs sdb =
        .ok sdb') : Branch ε hashData (included ++ txs) sdb'

theorem Keyed.loadTxs (h : Keyed hashData pv) {hashes : List Hash}
    (hload : pv.loadTxs hashes = .ok txs) : ∀ tx ∈ txs, tx.block.getHash hashData = tx.hash := by
  unfold PovVerifier.loadTxs at hload
  simp only [bind_eq_ok, pure, Except.pure, Except.ok.injEq] at hload
  obtain ⟨-, -, rfl⟩ := hload
  intro tx htx
  obtain ⟨key, -, hkey⟩ := mem_filterMap.mp htx
  obtain ⟨b, hb, rfl⟩ := Option.map_eq_some_iff.mp hkey
  exact h.key key b hb

theorem verifyTransactions_eq_ok {block : PovBlock}
    (h : pv.verifyTransactions block sdb = .ok txs) :
    (∃ hashes, pv.loadTxs hashes = .ok txs) ∧ pv.verifyOrder sdb ∅ txs = .ok () := by
  unfold verifyTransactions at h
  simp only [bind_eq_ok, pure, Except.pure, Except.ok.injEq] at h
  obtain ⟨cbTx, -, -, -, -, -, hashes, -, root, -, -, -, -, -, data, -, -, -, -, -, accTxs, hload,
    _, horder, rfl⟩ := h
  exact ⟨⟨_, hload⟩, horder⟩

theorem Branch.invariant (h : Branch ε hashData included sdb) :
    AllLinked hashData included ∧ HeadsAt hashData (stateHead sdb) included := by
  induction h with
  | genesis sdb haccounts =>
    refine ⟨fun address token _ => trivial, fun address token _ => ?_⟩
    rw [stateHead, haccounts, get_empty]
    rfl
  | extend pv block hbranch hkeyed hverify htransit ih =>
    obtain ⟨hlinked, hheads⟩ := ih
    obtain ⟨⟨hashes, hload⟩, horder⟩ := verifyTransactions_eq_ok hverify
    refine ⟨?_, hheads.transitStateDB (hkeyed.loadTxs hload) htransit⟩
    obtain rfl := hkeyed.hashData_eq
    refine verifyOrder_allLinked (fun address token hca => ?_) hlinked horder
    rw [wanted, get_empty, Option.getD_none]
    exact hheads address token hca

end Branch

/-- Along every branch the included blocks of an account and token are linked from the open block
on, and no block of an account is included twice. -/
theorem branch_included_once {included : List PovTransaction} {sdb : PovStateDB γ}
    (h : Branch ε hashData included sdb)
    (hdistinct : Distinct hashData (included.map PovTransaction.block)) :
    (∀ address token, isContractAddress address = false →
      Linked hashData (chainOf address token included)) ∧
    ((included.map PovTransaction.block).filter fun b => !isContractAddress b.address).Nodup := by
  have hlinked := h.invariant.1
  refine ⟨hlinked, nodup_iff_count_le_one.mpr fun b => ?_⟩
  by_cases hca : isContractAddress b.address = false
  · -- the block is as often in its own chain
    have hnodup : (chainOf b.address b.token included).Nodup :=
      (hlinked _ _ hca).nodup (hdistinct.mono fun c hc => (mem_filter.mp hc).1)
    have hcount := nodup_iff_count_le_one.mp hnodup b
    rw [chainOf, count_filter (by simp)] at hcount
    rwa [count_filter (by simp [hca])]
  · rw [count_eq_zero_of_not_mem]
    · exact Nat.zero_le 1
    · intro hmem
      have hnot := (mem_filter.mp hmem).2
      simp only [Bool.not_eq_eq_eq_not, Bool.not_true] at hnot
      exact hca hnot

def openedBlock : StateBlock where
  type := .open_
  token := 7
  address := 5
  balance := 0
  previous := 0
  link := 9
  representative := 5

def secondBlock : StateBlock :=
  { openedBlock with
    type := .send, previous := openedBlock.getHash lengthHash, data := [0] }

def twoBlockVerifier : PovVerifier Unit Unit :=
  { oneHeaderVerifier with
    getStateBlockConfirmed := fun h =>
      if h = openedBlock.getHash lengthHash then some openedBlock
      else if h = secondBlock.getHash lengthHash then some secondBlock
      else none }

def includingBlock (tx : Hash) : PovBlock where
  header :=
    { basHdr := nextHeader (BitVec.ofNat 256 (64 * 256 ^ 31))
      auxHdr := none
      cbTx := some
        { version := 1, txIns := [some onlyInput], stateHash := 9, txNum := 2
          txOuts := [some { value := some 0, address := 1 }, some { value := some 0, address := 2 }] } }
  txs := [some (BitVec.ofNat 256 (147 * 256 ^ 31)), some tx]

theorem keyed_twoBlockVerifier : Keyed lengthHash twoBlockVerifier where
  hashData_eq := rfl
  key h b hb := by
    unfold twoBlockVerifier at hb
    dsimp only at hb
    split_ifs at hb with hopened hsecond
    · cases hb
      exact hopened.symm
    · cases hb
      exact hsecond.symm

def openedTx : PovTransaction := ⟨openedBlock.getHash lengthHash, openedBlock⟩
def secondTx : PovTransaction := ⟨secondBlock.getHash lengthHash, secondBlock⟩

def openedState : PovStateDB Unit where
  accounts := Table.put ∅ 5 (updateAccountState none openedTx)
  reps := ∅
  contracts := ()

theorem branch_two : Branch Unit lengthHash [openedTx, secondTx]
    ({ openedState with
       accounts := openedState.accounts.put 5
         (updateAccountState (openedState.accounts.get 5) secondTx) } : PovStateDB Unit) := by
  have hfirst : twoBlockVerifier.verifyTransactions (includingBlock openedTx.hash) ⟨∅, ∅, ()⟩ =
      .ok [openedTx] := toOption_eq_some.mp (by decide +kernel)
  have hsecond : twoBlockVerifier.verifyTransactions (includingBlock secondTx.hash) openedState =
      .ok [secondTx] := toOption_eq_some.mp (by decide +kernel)
  have hbranch : Branch Unit lengthHash [openedTx] openedState :=
    .extend twoBlockVerifier (includingBlock openedTx.hash) (.genesis ⟨∅, ∅, ()⟩ rfl)
      keyed_twoBlockVerifier hfirst rfl
  exact .extend twoBlockVerifier (includingBlock secondTx.hash) hbranch keyed_twoBlockVerifier
    hsecond rfl

theorem branch_included_once_two :
    Linked lengthHash [openedBlock, secondBlock] ∧ [openedBlock, secondBlock].Nodup := by
  have hdistinct : Distinct lengthHash [openedBlock, secondBlock] := by
    constructor
    · decide +kernel
    · decide +kernel
  have h := branch_included_once branch_two hdistinct
  exact ⟨h.1 5 7 (by decide), h.2⟩

end GoQlc.Pov.Wire
