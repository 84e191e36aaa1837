import GoQlc.Process.CheckSpec
import GoQlc.Process.Processor

/-!
# What processing a block does

One description of everything a successful `BlockProcess` changes, from which
all invariants of runs are derived.
-/

namespace GoQlc

open Config Result AccountMeta Ledger Option VmContext

variable {b' : StateBlock}

namespace StateBlock

def SameButData (b b' : StateBlock) : Prop := ∃ d, b' = { b with data := d }

theorem SameButData.refl (b : StateBlock) : SameButData b b := ⟨b.data, rfl⟩

theorem SameButData.trans {b b'' : StateBlock} (h : SameButData b b') (h' : SameButData b' b'') :
    SameButData b b'' := by
  obtain ⟨d, rfl⟩ := h
  obtain ⟨d', rfl⟩ := h'
  exact ⟨d', rfl⟩

end StateBlock

namespace Env

open StateBlock

/-! ## The effect of one block -/

def contractPending (env : Env) (v : View) (l : Ledger) (b : StateBlock) :
    Option (PendingKey × PendingInfo) :=
  if b.isHidden then none
  else
    (env.getChainContract b.link b.getPayload).bind fun c =>
      match c.describe.specVer with
      | 1 => (c.doPending b).toOption.join
      | 2 => (newVMContextWithBlock v l b).bind fun ctx =>
          ((c.processSend ctx b).result.toOption.map Prod.fst).join
      | _ => none

def addedPending (env : Env) (v : View) (l : Ledger) (b : StateBlock) :
    Option (PendingKey × PendingInfo) :=
  match b.type with
  | .send => (l.blocks.get b.previous).map fun previous =>
      (env.sendPendingKey b, sendPending previous b)
  | .contractSend => env.contractPending v l b
  | _ => none

/-- The pendings after a block: a receiving block removes one, a sending block may add one. -/
def pendingsAfter (env : Env) (v : View) (l : Ledger) (b : StateBlock) :
    Table PendingKey PendingInfo :=
  if b.isReceiveBlock then l.pendings.delete (pendingKeyOf b)
  else
    match env.addedPending v l b with
    | some (key, info) => l.pendings.put key info
    | none => l.pendings

def accountAfter (env : Env) (l : Ledger) (b : StateBlock) : AccountMeta :=
  match l.accounts.get b.address with
  | some am => env.nextAccountMeta b am
  | none => env.newAccountMeta b

def frontiersAfter (env : Env) (l : Ledger) (b : StateBlock) : Table Hash Hash :=
  match l.getTokenMetaConfirmed b.address b.token with
  | some tm => (l.frontiers.delete tm.header).put (b.getHash env.hashData) tm.openBlock
  | none => l.frontiers.put (b.getHash env.hashData) (b.getHash env.hashData)

def RewardRan (env : Env) (v : View) (l : Ledger) (b : StateBlock) : Prop :=
  b.isHidden = true ∨ ∃ input, l.blocks.get b.link = some input ∧
    (input.isHidden = true ∨ ∃ g, env.RewardProduces v l b input g)

def ShareRemoved (l : Ledger) (b : StateBlock) (t : Table Address Benefit) : Prop :=
  (∃ am tm value, l.accounts.get b.address = some am ∧ am.token b.token = some tm ∧
    tm.representative ≠ 0 ∧ l.representations.get tm.representative = some value ∧
    t = l.representations.put tm.representative
      (Benefit.zipWith Balance.sub value (oldBenefit am))) ∨
  ((∀ am tm, l.accounts.get b.address = some am → am.token b.token = some tm →
    tm.representative = 0) ∧ t = l.representations)

/-- The share of `b` goes to its representative. -/
def addShare (b : StateBlock) (t : Table Address Benefit) : Table Address Benefit :=
  t.put b.representative
    (Benefit.zipWith Balance.add ((t.get b.representative).getD Benefit.zero) (newBenefit b))

/-- The parent of `b` gets `b` as its only child. -/
def ChildAdded (env : Env) (v : View) (l : Ledger) (b : StateBlock) (t : Table Hash Hash) : Prop :=
  ((env.isGenesisBlock b = true ∨ b.previous = 0) ∧ t = l.childs) ∨
  (env.isGenesisBlock b = false ∧ b.previous ≠ 0 ∧
    ((v.blockCache b.previous).isSome = true ∨ ∃ previous, l.blocks.get b.previous = some previous) ∧
    l.childs.get b.previous = none ∧ t = l.childs.put b.previous (b.getHash env.hashData))

def sentData (env : Env) (v : View) (l : Ledger) (b : StateBlock) : Bytes :=
  if b.isHidden then b.data
  else
    match env.getChainContract b.link b.getPayload with
    | none => b.data
    | some c =>
      if c.describe.specVer = 2 then
        ((newVMContextWithBlock v l b).map fun ctx => (c.processSend ctx b).data).getD b.data
      else b.data

/-- The block with the call data its contract left in it when it was run for the pending. -/
def sentBlock (env : Env) (v : View) (l : Ledger) (b : StateBlock) : StateBlock :=
  if b.type = .contractSend then { b with data := env.sentData v l b } else b

def resentBlock (env : Env) (v : View) (l : Ledger) (b : StateBlock) : StateBlock :=
  if env.isGenesisBlock (env.sentBlock v l b) then env.sentBlock v l b
  else env.sentBlock v l (env.sentBlock v l b)

/-- Everything the ledger `l'` after `b` is. -/
structure Processed (env : Env) (v : View) (l : Ledger) (b : StateBlock) (l' : Ledger) : Prop where
  answered : b.isPrivate = true → b.privateRecvRsp = true
  blocks : l'.blocks = l.blocks.put (b.getHash env.hashData) b.clone
  childs : env.ChildAdded v l b l'.childs
  links : l'.links =
    if b.isReceiveBlock then l.links.put b.link (b.getHash env.hashData) else l.links
  pendings : l'.pendings = env.pendingsAfter v l b
  frontier : ∀ tm, l.getTokenMetaConfirmed b.address b.token = some tm →
    ∃ openBlock, l.frontiers.get tm.header = some openBlock
  frontiers : l'.frontiers = env.frontiersAfter l (env.sentBlock v l b)
  accounts : l'.accounts = l.accounts.put (env.accountAfter l (env.resentBlock v l b)).address
    (env.accountAfter l (env.resentBlock v l b))
  representations :
    (b.token = chainToken ∧ ∃ t, ShareRemoved l b t ∧ l'.representations = addShare b t) ∨
    (b.token ≠ chainToken ∧ l'.representations = l.representations)
  storage : b.type ≠ .contractSend → b.type ≠ .contractReward → l'.vmStorage = l.vmStorage
  reward : b.type = .contractReward → env.isGenesisBlock b = false → env.RewardRan v l b

/-! ## The stages -/

variable {env : Env} {v : View} {l c : Ledger} {b : StateBlock}

variable {c' : Ledger}

theorem setBlockChild_ok
    (h : setBlockChild env.hashData (env.isGenesisBlock b) v l b l = .ok c') :
    ∃ t, env.ChildAdded v l b t ∧ c' = { l with childs := t } := by
  unfold setBlockChild at h
  simp only [] at h
  split_ifs at h with hcond hparent hchild
  · cases h
    simp only [Bool.and_eq_true, Bool.not_eq_true', bne_iff_ne, ne_eq] at hcond
    obtain ⟨⟨hgen, -⟩, hopen⟩ := hcond
    have hparentEq : b.parent = b.previous := by simp [StateBlock.parent, hopen]
    have hprev : b.previous ≠ 0 := by simpa [StateBlock.isOpen] using hopen
    rw [hparentEq] at hparent hchild ⊢
    refine ⟨_, .inr ⟨hgen, hprev, ?_, by simpa using hchild, rfl⟩, rfl⟩
    cases hcache : v.blockCache b.previous with
    | some _ => exact .inl rfl
    | none =>
      have hstored : l.hasStateBlockConfirmed b.previous = true := by
        simpa [hcache] using hparent
      exact .inr (isSome_iff_exists.mp hstored)
  · cases h
    refine ⟨_, .inl ⟨?_, rfl⟩, rfl⟩
    by_cases hgen : env.isGenesisBlock b = true
    · exact .inl hgen
    · right
      by_contra hprev
      have hopen : b.isOpen = false := by simpa [StateBlock.isOpen] using hprev
      apply hcond
      have hparent : b.parent ≠ 0 := by rwa [StateBlock.parent, hopen]
      simp only [hgen, hopen, Bool.not_false, Bool.and_true, Bool.true_and, bne_iff_ne, hparent,
        ne_eq, not_false_eq_true]

theorem updateStateBlock_ok
    (h : updateStateBlock env.hashData (env.isGenesisBlock b) v l b l = .ok c') :
    (b.isPrivate = true → b.privateRecvRsp = true) ∧
    ∃ t, env.ChildAdded v l b t ∧ c' = { l with
      childs := t
      links := if b.isReceiveBlock then l.links.put b.link (b.getHash env.hashData) else l.links
      blocks := l.blocks.put (b.getHash env.hashData) b.clone } := by
  unfold updateStateBlock at h
  rw [ite_error_eq_ok, map_eq_ok] at h
  obtain ⟨hprivate, c₁, hchild, rfl⟩ := h
  obtain ⟨t, ht, rfl⟩ := setBlockChild_ok hchild
  refine ⟨by simpa using hprivate, t, ht, ?_⟩
  unfold setBlockLink
  split_ifs <;> rfl

theorem addContractPending_eq (r : Except ContractError (Option (PendingKey × PendingInfo))) :
    addContractPending r c =
      { c with pendings := match r.toOption.join with
        | some (key, info) => c.pendings.put key info
        | none => c.pendings } := by
  match r with
  | .error _ => rfl
  | .ok none => rfl
  | .ok (some (_, _)) => rfl

section Version

variable {contract : Contract} (hvis : b.isHidden = false)
  (hc : env.getChainContract b.link b.getPayload = some contract)
include hvis hc

theorem contractPending_of_version_one (hver : contract.describe.specVer = 1) :
    env.contractPending v l b = (contract.doPending b).toOption.join := by
  simp [contractPending, hvis, hc, hver]

theorem contractPending_of_version_two (hver : contract.describe.specVer = 2) {ctx : VmContext}
    (hctx : newVMContextWithBlock v l b = some ctx) :
    env.contractPending v l b =
      ((contract.processSend ctx b).result.toOption.map Prod.fst).join := by
  simp [contractPending, hvis, hc, hver, hctx]

theorem sentData_of_ne_two (hver : contract.describe.specVer ≠ 2) :
    env.sentData v l b = b.data := by
  simp [sentData, hvis, hc, hver]

theorem sentData_of_version_two (hver : contract.describe.specVer = 2) {ctx : VmContext}
    (hctx : newVMContextWithBlock v l b = some ctx) :
    env.sentData v l b = (contract.processSend ctx b).data := by
  simp [sentData, hvis, hc, hver, hctx]

end Version

theorem updateContractSendPending_ok {b₁ : StateBlock}
    (h : env.updateContractSendPending v l b c = .ok (b₁, c')) :
    b₁ = { b with data := env.sentData v l b } ∧
      c' = { c with pendings := match env.contractPending v l b with
        | some (key, info) => c.pendings.put key info
        | none => c.pendings } := by
  unfold updateContractSendPending at h
  cases hvis : b.isHidden with
  | true =>
    rw [hvis, if_pos rfl] at h
    cases h
    exact ⟨by simp [sentData, hvis], by simp [contractPending, hvis]⟩
  | false =>
    rw [hvis, if_neg (by simp)] at h
    cases hc : env.getChainContract b.link b.getPayload with
    | none =>
      rw [hc] at h
      cases h
      exact ⟨by simp [sentData, hvis, hc], by simp [contractPending, hvis, hc]⟩
    | some contract =>
      simp only [hc] at h
      obtain hver | hver | hver | ⟨n, hver⟩ : contract.describe.specVer = 0 ∨
          contract.describe.specVer = 1 ∨ contract.describe.specVer = 2 ∨
          ∃ n, contract.describe.specVer = n + 3 := by
        rcases Nat.lt_or_ge contract.describe.specVer 3 with hlt | hge
        · omega
        · exact .inr (.inr (.inr ⟨_, (Nat.sub_add_cancel hge).symm⟩))
      · simp [hver] at h
      · simp only [hver, Except.ok.injEq, Prod.mk.injEq] at h
        obtain ⟨rfl, rfl⟩ := h
        rw [sentData_of_ne_two hvis hc (by omega), contractPending_of_version_one hvis hc hver]
        exact ⟨rfl, addContractPending_eq _⟩
      · simp only [hver] at h
        cases hctx : newVMContextWithBlock v l b with
        | none => simp [hctx] at h
        | some ctx =>
          simp only [hctx, Except.ok.injEq, Prod.mk.injEq] at h
          obtain ⟨rfl, rfl⟩ := h
          rw [sentData_of_version_two hvis hc hver hctx,
            contractPending_of_version_two hvis hc hver hctx]
          refine ⟨rfl, (addContractPending_eq _).trans ?_⟩
          cases (contract.processSend ctx b).result <;> rfl
      · simp [hver] at h

theorem updatePending_ok {b₁ : StateBlock} (h : env.updatePending v l b c = .ok (b₁, c'))
    (hc : c.pendings = l.pendings) :
    b₁ = env.sentBlock v l b ∧ c' = { c with pendings := env.pendingsAfter v l b } := by
  have hdelete : l.deletePending (pendingKeyOf b) c =
      { c with pendings := l.pendings.delete (pendingKeyOf b) } := by
    unfold deletePending
    split_ifs with hp
    · rw [hc]
    · rw [Table.delete_of_get_none (by simpa [getPending] using hp), ← hc]
  unfold updatePending at h
  unfold pendingsAfter addedPending StateBlock.isReceiveBlock sentBlock
  cases ht : b.type with
  | send =>
    simp only [ht] at h
    split at h
    · cases h
    · rename_i previous hprev
      cases h
      have hget : l.blocks.get b.previous = some previous := hprev
      exact ⟨by simp, by simp [addPending, hget, hc]⟩
  | open_ | receive | contractReward =>
    simp only [ht] at h
    cases h
    exact ⟨by simp, by simp [hdelete]⟩
  | contractSend =>
    simp only [ht] at h
    obtain ⟨hd, rfl⟩ := updateContractSendPending_ok h
    exact ⟨by simp [hd, ht], by simp [hc]⟩
  | state | change | contractRefund | contractError | smartContract | online | invalid =>
    simp only [ht] at h
    cases h
    exact ⟨by simp, by simp [← hc]⟩

theorem updateFrontier_ok
    (h : env.updateFrontier l (l.getTokenMetaConfirmed b.address b.token) b c = .ok c')
    (hc : c.frontiers = l.frontiers) :
    (∀ tm, l.getTokenMetaConfirmed b.address b.token = some tm →
      ∃ openBlock, l.frontiers.get tm.header = some openBlock) ∧
    c' = { c with frontiers := env.frontiersAfter l b } := by
  unfold updateFrontier at h
  unfold frontiersAfter
  cases htm : l.getTokenMetaConfirmed b.address b.token with
  | none =>
    rw [htm] at h
    cases h
    refine ⟨?_, by simp [addFrontier, hc]⟩
    rintro tm ⟨⟩
  | some tm =>
    rw [htm] at h
    simp only [] at h
    split at h
    · cases h
    · rename_i openBlock hfrontier
      cases h
      refine ⟨?_, by simp [addFrontier, deleteFrontier, hc]⟩
      rintro _ ⟨⟩
      exact ⟨openBlock, hfrontier⟩

theorem updateRewardData_ok (h : env.updateRewardData v l b c = .ok c') :
    env.RewardRan v l b ∧ ∃ t, c' = { c with vmStorage := t } := by
  unfold updateRewardData at h
  split_ifs at h with hhid
  · cases h
    exact ⟨.inl hhid, c.vmStorage, rfl⟩
  · split at h
    · cases h
    · rename_i input hinput
      split_ifs at h with hin
      · cases h
        exact ⟨.inr ⟨input, hinput, .inl hin⟩, c.vmStorage, rfl⟩
      · split at h
        · cases h
        · rename_i contract hcontract
          split at h
          · cases h
          · rename_i ctx hctx
            split at h
            · cases h
            · cases h
            · rename_i g gs hg
              split at h
              · cases h
              · cases h
                exact ⟨.inr ⟨input, hinput, .inr ⟨g, contract, ctx, gs, hcontract, hctx, hg⟩⟩,
                  _, rfl⟩

theorem updateSendData_ok (h : env.updateSendData v l b c = .ok (b', c')) :
    b' = { b with data := env.sentData v l b } ∧ ∃ t, c' = { c with vmStorage := t } := by
  unfold updateSendData at h
  cases hvis : b.isHidden with
  | true =>
    rw [hvis, if_pos rfl] at h
    cases h
    exact ⟨by simp [sentData, hvis], c.vmStorage, rfl⟩
  | false =>
    rw [hvis, if_neg (by simp)] at h
    cases hc : env.getChainContract b.link b.getPayload with
    | none =>
      rw [hc] at h
      cases h
      exact ⟨by simp [sentData, hvis, hc], c.vmStorage, rfl⟩
    | some contract =>
      simp only [hc] at h
      by_cases hver : contract.describe.specVer = 2
      · rw [if_pos hver] at h
        cases hctx : newVMContextWithBlock v l b with
        | none => simp [hctx] at h
        | some ctx =>
          simp only [hctx] at h
          rw [sentData_of_version_two hvis hc hver hctx]
          split at h <;> cases h
          · exact ⟨rfl, _, rfl⟩
          · exact ⟨rfl, c.vmStorage, rfl⟩
      · rw [if_neg hver] at h
        cases h
        exact ⟨by rw [sentData_of_ne_two hvis hc hver], c.vmStorage, rfl⟩

theorem updateContractData_ok (h : env.updateContractData v l b c = .ok (b', c')) :
    b' = (if env.isGenesisBlock b then b else env.sentBlock v l b) ∧
    (∃ t, c' = { c with vmStorage := t } ∧
      (b.type ≠ .contractSend → b.type ≠ .contractReward → t = c.vmStorage)) ∧
    (b.type = .contractReward → env.isGenesisBlock b = false → env.RewardRan v l b) := by
  unfold updateContractData at h
  unfold sentBlock
  split_ifs at h ⊢ with hgen ht
  · cases h
    exact ⟨rfl, ⟨c.vmStorage, rfl, fun _ _ => rfl⟩, fun _ hno => absurd hgen (by simp [hno])⟩
  · simp only [ht] at h
    obtain ⟨hb', t, hstorage⟩ := updateSendData_ok h
    refine ⟨by simpa [ht] using hb', ⟨t, hstorage, fun hno => absurd ht hno⟩, fun hr => ?_⟩
    rw [ht] at hr
    cases hr
  · split at h
    · rename_i hreward
      obtain ⟨c₁, hrun, heq⟩ := map_eq_ok.mp h
      cases heq
      obtain ⟨hran, t, hstorage⟩ := updateRewardData_ok hrun
      exact ⟨rfl, ⟨t, hstorage, fun _ hno => absurd hreward hno⟩, fun _ _ => hran⟩
    · rename_i hsend
      exact absurd hsend ht
    · rename_i hno _
      cases h
      exact ⟨rfl, ⟨c.vmStorage, rfl, fun _ _ => rfl⟩, fun hr => absurd hr hno⟩

theorem updateAccountMeta_ok
    (h : env.updateAccountMeta l (l.getAccountMetaConfirmed b.address) b c = .ok c')
    (hc : c.accounts = l.accounts) :
    ∃ x y, c' = { c with
      accounts := l.accounts.put (env.accountAfter l b).address (env.accountAfter l b)
      accountBlockHash := x, accountPovHeight := y } := by
  unfold updateAccountMeta at h
  unfold accountAfter
  cases ham : l.accounts.get b.address with
  | some am =>
    rw [getAccountMetaConfirmed, ham] at h
    cases h
    rw [← hc]
    exact ⟨_, _, rfl⟩
  | none =>
    rw [getAccountMetaConfirmed, ham] at h
    simp only [addAccountMeta, ite_error_eq_ok] at h
    obtain ⟨-, h⟩ := h
    cases h
    rw [← hc]
    exact ⟨_, _, rfl⟩

theorem updateRepresentative_ok (h : updateRepresentative (l.getAccountMetaConfirmed b.address)
      (l.getTokenMetaConfirmed b.address b.token) b c = .ok c')
    (hc : c.representations = l.representations) :
    ∃ r, c' = { c with representations := r } ∧
      ((b.token = chainToken ∧ ∃ t, ShareRemoved l b t ∧ r = addShare b t) ∨
       (b.token ≠ chainToken ∧ r = l.representations)) := by
  unfold updateRepresentative at h
  split_ifs at h with htoken
  · obtain ⟨c₁, hremoved, rfl⟩ := map_eq_ok.mp h
    have hshare : ∃ t, ShareRemoved l b t ∧ c₁ = { c with representations := t } := by
      unfold ShareRemoved
      unfold getTokenMetaConfirmed getAccountMetaConfirmed at hremoved
      cases ham : l.accounts.get b.address with
      | none =>
        rw [ham] at hremoved
        cases hremoved
        refine ⟨l.representations, .inr ⟨?_, rfl⟩, by rw [← hc]⟩
        rintro am tm ⟨⟩
      | some am =>
        rw [ham] at hremoved
        simp only [bind_some] at hremoved
        cases htm : am.token b.token with
        | none =>
          rw [htm] at hremoved
          cases hremoved
          refine ⟨l.representations, .inr ⟨?_, rfl⟩, by rw [← hc]⟩
          rintro _ tm ⟨⟩ htm'
          rw [htm] at htm'
          cases htm'
        | some tm =>
          rw [htm] at hremoved
          simp only [] at hremoved
          split_ifs at hremoved with hrep
          · unfold subRepresentation getRepresentation at hremoved
            split at hremoved
            · cases hremoved
            · rename_i value hvalue
              cases hremoved
              rw [hc] at hvalue ⊢
              exact ⟨_, .inl ⟨am, tm, value, rfl, htm, hrep, hvalue, rfl⟩, rfl⟩
          · cases hremoved
            refine ⟨l.representations, .inr ⟨?_, rfl⟩, by rw [← hc]⟩
            rintro _ tm' ⟨⟩ htm'
            obtain rfl : tm = tm' := Option.some.inj (htm.symm.trans htm')
            exact not_not.mp hrep
    obtain ⟨t, ht, rfl⟩ := hshare
    exact ⟨_, rfl, .inl ⟨htoken, t, ht, rfl⟩⟩
  · cases h
    exact ⟨c.representations, rfl, .inr ⟨htoken, hc⟩⟩

theorem sameButData_sentBlock : SameButData b (env.sentBlock v l b) := by
  unfold sentBlock
  split_ifs
  · exact ⟨_, rfl⟩
  · exact .refl b

theorem sameButData_resentBlock : SameButData b (env.resentBlock v l b) := by
  unfold resentBlock
  split_ifs
  · exact sameButData_sentBlock
  · exact sameButData_sentBlock.trans sameButData_sentBlock

theorem blockProcess_ok {l' : Ledger} (h : env.blockProcess v l b = .ok l') :
    env.Processed v l b l' := by
  unfold blockProcess processStateBlock atStage at h
  simp only [bind_eq_ok, mapError_eq_ok] at h
  obtain ⟨c₁, hstate, ⟨b₁, c₂⟩, hpending, c₃, hfrontier, ⟨b₂, c₄⟩, hdata, c₅, haccount, hrep⟩ := h
  obtain ⟨hanswered, childs, hchilds, rfl⟩ := updateStateBlock_ok hstate
  obtain ⟨hb₁, rfl⟩ := updatePending_ok hpending rfl
  obtain ⟨hb₂, ⟨storage, rfl, hsame⟩, hran⟩ := updateContractData_ok hdata
  have hresent : b₂ = env.resentBlock v l b := by rw [hb₂, hb₁, resentBlock]
  -- the later stages see the same fields, but for the call data
  obtain ⟨d₁, hd₁⟩ : SameButData b b₁ := hb₁ ▸ sameButData_sentBlock
  have haddr₁ : b₁.address = b.address := by rw [hd₁]
  have htoken₁ : b₁.token = b.token := by rw [hd₁]
  have htype₁ : b₁.type = b.type := by rw [hd₁]
  obtain ⟨d₂, hd₂⟩ : SameButData b b₂ := hresent ▸ sameButData_resentBlock
  have haddr₂ : b₂.address = b.address := by rw [hd₂]
  have htoken₂ : b₂.token = b.token := by rw [hd₂]
  rw [← haddr₁, ← htoken₁] at hfrontier
  obtain ⟨hhead, rfl⟩ := updateFrontier_ok hfrontier rfl
  rw [← haddr₂] at haccount
  obtain ⟨x, y, rfl⟩ := updateAccountMeta_ok haccount rfl
  rw [← haddr₂, ← htoken₂] at hrep
  obtain ⟨r, rfl, hshare⟩ := updateRepresentative_ok hrep rfl
  exact {
    answered := hanswered
    blocks := rfl
    childs := hchilds
    links := rfl
    pendings := rfl
    frontier := by rwa [haddr₁, htoken₁] at hhead
    frontiers := by rw [← hb₁]
    accounts := by rw [← hresent]
    representations := by rw [hd₂] at hshare; exact hshare
    storage := by rwa [htype₁] at hsame
    reward := by
      intro ht hgen
      have hb₁' : b₁ = b := by rw [hb₁, sentBlock, if_neg (by simp [ht])]
      rw [hb₁'] at hran
      exact hran ht hgen }

/-! ## The account after a block -/

@[simp] theorem setCoins_address (am : AccountMeta) : (setCoins b am).address = am.address := by
  unfold setCoins
  split_ifs <;> rfl

@[simp] theorem setCoins_tokens (am : AccountMeta) : (setCoins b am).tokens = am.tokens := by
  unfold setCoins
  split_ifs <;> rfl

@[simp] theorem nextTokenMeta_type (tm : TokenMeta) : (env.nextTokenMeta b tm).type = tm.type := rfl

theorem nextAccountMeta_address (am : AccountMeta) :
    (env.nextAccountMeta b am).address = am.address := by
  unfold nextAccountMeta
  cases am.token b.token <;> simp

theorem nextAccountMeta_tokens (am : AccountMeta) :
    (env.nextAccountMeta b am).tokens =
      match am.token b.token with
      | some _ => updateToken (env.nextTokenMeta b) b.token am.tokens
      | none => am.tokens ++ [env.newTokenMeta b] := by
  unfold nextAccountMeta
  cases am.token b.token <;> rfl

/-- The head of the chain of `b` after it. -/
def tokenAfter (env : Env) (l : Ledger) (b : StateBlock) : TokenMeta :=
  match l.getTokenMetaConfirmed b.address b.token with
  | some tm => env.nextTokenMeta b tm
  | none => env.newTokenMeta b

theorem accountAfter_address (hk : ∀ am, l.accounts.get b.address = some am → am.address = b.address) :
    (env.accountAfter l b).address = b.address := by
  unfold accountAfter
  cases ham : l.accounts.get b.address with
  | none => simp [newAccountMeta]
  | some am => exact (nextAccountMeta_address am).trans (hk am ham)

theorem accountAfter_token (t : Hash) :
    (env.accountAfter l b).token t =
      if t = b.token then some (env.tokenAfter l b) else l.getTokenMetaConfirmed b.address t := by
  unfold accountAfter tokenAfter getTokenMetaConfirmed getAccountMetaConfirmed
  cases ham : l.accounts.get b.address with
  | none =>
    by_cases ht : t = b.token
    · simp [AccountMeta.token, newAccountMeta, newTokenMeta, ht]
    · have hne : ¬ b.token = t := fun h => ht h.symm
      simp [AccountMeta.token, newAccountMeta, newTokenMeta, ht, hne]
  | some am =>
    simp only [bind_some]
    unfold AccountMeta.token
    rw [nextAccountMeta_tokens]
    cases htm : am.token b.token with
    | some tm =>
      simp only [find_updateToken nextTokenMeta_type]
      unfold AccountMeta.token at htm
      split_ifs with ht
      · rw [htm]
        rfl
      · rfl
    | none =>
      simp only [List.find?_append]
      unfold AccountMeta.token at htm
      by_cases ht : t = b.token
      · rw [ht, htm]
        simp [newTokenMeta]
      · have hne : ¬ b.token = t := fun h => ht h.symm
        simp [newTokenMeta, ht, hne]

theorem accountAfter_nodup
    (h : ∀ am, l.accounts.get b.address = some am → (am.tokens.map TokenMeta.type).Nodup) :
    ((env.accountAfter l b).tokens.map TokenMeta.type).Nodup := by
  unfold accountAfter
  cases ham : l.accounts.get b.address with
  | none => simp [newAccountMeta]
  | some am =>
    simp only []
    rw [nextAccountMeta_tokens]
    cases htm : am.token b.token with
    | some tm =>
      simp only [map_type_updateToken nextTokenMeta_type]
      exact h am ham
    | none =>
      simp only [List.map_append]
      rw [List.nodup_append]
      refine ⟨h am ham, by simp, ?_⟩
      intro t ht t' ht' heq
      obtain ⟨tm, hmem, rfl⟩ := List.mem_map.mp ht
      have hfound := List.find?_eq_none.mp htm tm hmem
      have hnew : t' = b.token := by simpa [newTokenMeta] using ht'
      simp [heq, hnew] at hfound

theorem balanceOf_accountAfter (t : Hash) :
    balanceOf t (env.accountAfter l b).tokens +
        (if b.token = t then
          ((l.getTokenMetaConfirmed b.address b.token).map TokenMeta.balance).getD 0 else 0) =
      ((l.accounts.get b.address).map fun am => balanceOf t am.tokens).getD 0 +
        (if b.token = t then b.balance else 0) := by
  unfold accountAfter getTokenMetaConfirmed getAccountMetaConfirmed
  cases ham : l.accounts.get b.address with
  | none =>
    by_cases ht : b.token = t <;> simp [newAccountMeta, newTokenMeta, balanceOf, ht]
  | some am =>
    simp only [bind_some, map_some, getD_some]
    rw [nextAccountMeta_tokens]
    cases htm : am.token b.token with
    | some tm =>
      simp only [map_some, getD_some]
      exact balanceOf_updateToken nextTokenMeta_type htm t
    | none =>
      simp only [balanceOf_append, map_none, getD_none]
      by_cases ht : b.token = t <;> simp [newTokenMeta, balanceOf, ht]

theorem setCoins_benefit (am : AccountMeta) :
    (setCoins b am).benefit = if b.token = chainToken then b.benefit else am.benefit := by
  unfold setCoins
  split_ifs <;> rfl

theorem accountAfter_benefit :
    (env.accountAfter l b).benefit =
      if b.token = chainToken then b.benefit
      else ((l.accounts.get b.address).map AccountMeta.benefit).getD Benefit.zero := by
  unfold accountAfter
  cases l.accounts.get b.address with
  | none => exact setCoins_benefit _
  | some am =>
    have hcoins : (env.nextAccountMeta b am).benefit = (setCoins b am).benefit := by
      unfold nextAccountMeta
      cases am.token b.token <;> rfl
    simp only [hcoins, setCoins_benefit, map_some, getD_some]

end Env
end GoQlc
