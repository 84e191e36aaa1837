import GoQlc.Pov.Steady

/-!
# The PoV state as a function of the chain

The transition as the chain gives it, with no node in it, and the transition of a node that has
confirmed the same blocks.
-/

namespace GoQlc.Pov

open PublicKeyDistribution List StateBlock

/-! ## Nodes that confirmed the same blocks

`confirmed` gives the block under each hash, `secret` the payload that belongs to a private block.
-/

section
variable (secret : StateBlock → Bytes) (confirmed : Hash → StateBlock)

/-- A node's copy of a block: two marks are the node's own, and it holds the payload or not. -/
structure IsCopy (block copy : StateBlock) : Prop where
  shared : copy = { block with
    flag := copy.flag, privateRecvRsp := copy.privateRecvRsp
    privatePayload := copy.privatePayload }
  payload : copy.privatePayload = [] ∨ copy.privatePayload = secret block

def PovNode.Holds (node : PovNode) (hash : Hash) : Prop :=
  ∃ copy, node.ledger.getStateBlockConfirmed hash = some copy ∧ IsCopy secret (confirmed hash) copy

/-- The node has confirmed the block, with the send that it receives, and has the headers of its
PoV chain. -/
structure PovNode.Confirms (node : PovNode) (hash : Hash) : Prop where
  block : node.Holds secret confirmed hash
  source : (confirmed hash).type = .contractReward →
    node.Holds secret confirmed (confirmed hash).link
  synced : ∃ latest, node.view.latestPovHeight = some latest ∧
    ∀ height ≤ latest, node.view.hasPovHeader height = true

def PovNode.load (node : PovNode) (hash : Hash) : PovTransaction where
  hash := hash
  block := (node.ledger.getStateBlockConfirmed hash).getD (confirmed hash)

def PovNode.transit (b : Build) (node : PovNode) (height : ℕ) (hashes : List Hash)
    (sdb : PovStateDB PovContracts) : Except OnPovError (PovStateDB PovContracts) :=
  transitStateDB (updateContractState b node) height (hashes.map (node.load confirmed)) sdb

def payloadOf (block : StateBlock) : Bytes := if block.isPrivate then secret block else block.data

def Settled (b : Build) (height : ℕ) (cs : PovContracts) (hash : Hash) : Prop :=
  let block := confirmed hash
  let source := confirmed block.link
  b.isGenesisBlock block = true ∨
  match block.type with
  | .contractSend =>
    if block.isPrivate then
      secret block = [] ∨ b.getPovMethod block.link (secret block) = .ok none
    else
      ∀ m, b.getPovMethod block.link block.data = .ok (some m) → Steady b height cs block m
  | .contractReward =>
    (block.isPrivate = false ∧ source.isPrivate = false) ∨
    (block.isPrivate = true ∧ secret block = []) ∨
    (source.isPrivate = true ∧ secret source = []) ∨
    b.getPovMethod source.link (payloadOf secret source) = .ok none
  | _ => True

variable {secret confirmed}

variable {block : StateBlock}

theorem IsCopy.cases {copy : StateBlock} (h : IsCopy secret block copy) :
    ((copy.isPrivate && !copy.isRecipient) = true ∧ block.isPrivate = true) ∨
    ((copy.isPrivate && !copy.isRecipient) = false ∧ copy.getPayload = payloadOf secret block ∧
      (block.isPrivate = true → secret block ≠ [])) := by
  obtain ⟨hshared, hpayload⟩ := h
  have hprivate : copy.isPrivate = block.isPrivate := by rw [hshared]; rfl
  have hdata : copy.data = block.data := by rw [hshared]
  unfold isRecipient getPayload payloadOf
  rw [hprivate, hdata]
  cases hpriv : block.isPrivate with
  | false => exact .inr ⟨rfl, rfl, fun h => by cases h⟩
  | true =>
    by_cases hempty : copy.privatePayload = []
    · exact .inl ⟨by rw [hempty]; rfl, rfl⟩
    · have hsecret := hpayload.resolve_left hempty
      refine .inr ⟨?_, hsecret, fun _ hnil => hempty (hsecret.trans hnil)⟩
      rw [isEmpty_eq_false_iff.mpr hempty]
      rfl

theorem IsCopy.visible {copy : StateBlock} (h : IsCopy secret block copy)
    (hpublic : block.isPrivate = false) :
    (copy.isPrivate && !copy.isRecipient) = false ∧ copy.getPayload = block.data := by
  obtain ⟨-, hprivate⟩ | ⟨hvisible, hpayload, -⟩ := h.cases
  · rw [hpublic] at hprivate
    cases hprivate
  · unfold payloadOf at hpayload
    rw [hpublic] at hpayload
    exact ⟨hvisible, hpayload⟩

theorem IsCopy.isGenesisBlock {copy : StateBlock} (h : IsCopy secret block copy) (b : Build) :
    b.isGenesisBlock copy = b.isGenesisBlock block := by
  rw [h.shared]
  rfl

theorem IsCopy.type {copy : StateBlock} (h : IsCopy secret block copy) :
    copy.type = block.type := by rw [h.shared]

theorem IsCopy.link {copy : StateBlock} (h : IsCopy secret block copy) :
    copy.link = block.link := by rw [h.shared]

theorem IsCopy.doSendOnPov {copy : StateBlock} (h : IsCopy secret block copy) (b : Build)
    (order : MapOrder) (ctx : VmContext) (height : ℕ) (cs : PovContracts) (m : PovMethod) :
    m.doSendOnPov b order ctx height copy cs = m.doSendOnPov b order ctx height block cs := by
  rw [h.shared]
  cases m <;> rfl

theorem load_eq {node : PovNode} {hash : Hash} (h : node.Holds secret confirmed hash) :
    ∃ copy, node.load confirmed hash = ⟨hash, copy⟩ ∧ IsCopy secret (confirmed hash) copy := by
  obtain ⟨copy, hget, hcopy⟩ := h
  refine ⟨copy, ?_, hcopy⟩
  unfold PovNode.load
  rw [hget, Option.getD_some]

end

theorem exists_vmContext {node : PovNode} {block : StateBlock} {latest : UInt64}
    (hlatest : node.view.latestPovHeight = some latest)
    (hheaders : ∀ height ≤ latest, node.view.hasPovHeader height = true)
    (htype : block.type = .contractSend) :
    ∃ ctx, VmContext.newVMContextWithBlock node.view node.ledger block = some ctx ∧
      ∀ pre key, ctx.getStorage pre key =
        node.ledger.vmStorage.get (hashBytes block.link ++ (pre ++ key)) := by
  have hheader : node.view.hasPovHeader
      (if latest < block.povHeight then latest else block.povHeight) = true := by
    split_ifs with h
    · exact hheaders latest (UInt64.le_refl latest)
    · exact hheaders _ (UInt64.not_lt.mp h)
  have haddr : node.ledger.contractAddress node.view block = some block.link := by
    unfold Ledger.contractAddress isSendBlock
    rw [htype]
    rfl
  refine ⟨⟨node.ledger, node.view, block.link,
    if latest < block.povHeight then latest else block.povHeight, ∅⟩, ?_, fun pre key => rfl⟩
  unfold VmContext.newVMContextWithBlock
  rw [hlatest]
  dsimp only [Option.bind_eq_bind, Option.bind_some]
  rw [if_pos hheader, haddr]
  rfl

/-! ## The transition of the chain -/

section
variable (b : Build) (secret : StateBlock → Bytes) (confirmed : Hash → StateBlock)

def emptyContext : VmContext where
  ledger := {}
  view :=
    { blockCache := fun _ => none, accountCache := fun _ => none, latestPovHeight := none
      hasPovHeader := fun _ => false, hasSmartContractBlock := fun _ => false, timeNow := 0 }
  contractAddr := 0
  povHeight := 0

/-- The call that a transaction makes, as the chain has it: private ones make none. -/
def chainCall (hash : Hash) : Option (Option PovMethod) :=
  let block := confirmed hash
  let source := confirmed block.link
  if b.isGenesisBlock block then some none
  else
    match block.type with
    | .contractSend =>
      if block.isPrivate then some none else (b.getPovMethod block.link block.data).toOption
    | .contractReward =>
      if block.isPrivate || source.isPrivate then some none
      else if b.getPovMethod source.link source.data = .ok none then some none
      else none
    | _ => some none

def chainUpdate (height : ℕ) (cs : PovContracts) (hash : Hash) : Option PovContracts :=
  match chainCall b confirmed hash with
  | none => none
  | some none => some cs
  | some (some m) => (m.doSendOnPov b .keep emptyContext height (confirmed hash) cs).toOption

/-- The accounts and representatives after a transaction, with given states of the contracts. -/
def advance (height : ℕ) (sdb : PovStateDB PovContracts) (hash : Hash) (contracts : PovContracts) :
    PovStateDB PovContracts :=
  let tx : PovTransaction := ⟨hash, confirmed hash⟩
  let oldAs := sdb.accounts.get tx.block.address
  let newAs := updateAccountState oldAs tx
  { accounts := sdb.accounts.put tx.block.address newAs
    reps :=
      if tx.block.type = .online then updateRepOnline height sdb.reps tx.block
      else updateRepState sdb.reps tx.block oldAs newAs
    contracts }

def chainApply (height : ℕ) (sdb : PovStateDB PovContracts) (hash : Hash) :
    Option (PovStateDB PovContracts) :=
  (chainUpdate b confirmed height sdb.contracts hash).map (advance confirmed height sdb hash)

variable {b secret confirmed}
variable {node : PovNode} {height : ℕ} {hash : Hash}

variable {link : Address} {payload : Bytes} {cs : PovContracts} {hashes : List Hash}

theorem callOf_of_none {run : PovMethod → Except OnPovError (Option (PovMethod × VmContext))}
    (h : b.getPovMethod link payload = .ok none) : callOf b link payload run = .ok none := by
  unfold callOf
  rw [h]

theorem exists_error_of_rewardCall {tx : PovTransaction}
    (h : b.getPovMethod link payload ≠ .ok none) :
    ∃ e, callOf b link payload (rewardCall node tx) = .error e := by
  unfold callOf
  cases hm : b.getPovMethod link payload with
  | error e => exact ⟨e, rfl⟩
  | ok m =>
    cases m with
    | none => exact absurd hm h
    | some m =>
      unfold rewardCall
      dsimp only
      cases callContext node tx m with
      | error e => exact ⟨e, rfl⟩
      | ok c => exact ⟨.notImplemented, rfl⟩

section
variable {copy : StateBlock} (hload : node.load confirmed hash = ⟨hash, copy⟩)
  (hcopy : IsCopy secret (confirmed hash) copy)
  (hgenesis : ¬ b.isGenesisBlock (confirmed hash) = true)
include hload hcopy hgenesis

theorem povCall_send (htype : (confirmed hash).type = .contractSend) :
    povCall b node (node.load confirmed hash) =
      if copy.isPrivate && !copy.isRecipient then .ok none
      else callOf b (confirmed hash).link copy.getPayload (callContext node ⟨hash, copy⟩) := by
  rw [hload]
  unfold povCall
  dsimp only
  rw [hcopy.isGenesisBlock b, if_neg hgenesis, hcopy.type, htype, hcopy.link]

theorem povCall_reward (htype : (confirmed hash).type = .contractReward) {sendBlk : StateBlock}
    (hget : node.ledger.getStateBlockConfirmed (confirmed hash).link = some sendBlk)
    (hsource : IsCopy secret (confirmed (confirmed hash).link) sendBlk) :
    povCall b node (node.load confirmed hash) =
      if copy.isPrivate && !copy.isRecipient then .ok none
      else if sendBlk.isPrivate && !sendBlk.isRecipient then .ok none
      else callOf b (confirmed (confirmed hash).link).link sendBlk.getPayload
        (rewardCall node ⟨hash, copy⟩) := by
  rw [hload]
  unfold povCall
  dsimp only
  rw [hcopy.isGenesisBlock b, if_neg hgenesis, hcopy.type, htype, hcopy.link, hget]
  dsimp only
  rw [hsource.link]

end

theorem exists_povCall_of_public {m : PovMethod} (hnode : node.Confirms secret confirmed hash)
    (hgenesis : ¬ b.isGenesisBlock (confirmed hash) = true)
    (htype : (confirmed hash).type = .contractSend)
    (hpublic : (confirmed hash).isPrivate = false)
    (hm : b.getPovMethod (confirmed hash).link (confirmed hash).data = .ok (some m)) :
    ∃ ctx, povCall b node (node.load confirmed hash) = .ok (some (m, ctx)) ∧
      ∀ pre key, ctx.getStorage pre key =
        node.ledger.vmStorage.get (hashBytes (confirmed hash).link ++ (pre ++ key)) := by
  obtain ⟨copy, hload, hcopy⟩ := load_eq hnode.block
  obtain ⟨hvisible, hpayload⟩ := hcopy.visible hpublic
  obtain ⟨latest, hlatest, hheaders⟩ := hnode.synced
  obtain ⟨ctx, hctx, hstorage⟩ := exists_vmContext hlatest hheaders (hcopy.type.trans htype)
  rw [hcopy.link] at hstorage
  refine ⟨ctx, ?_, hstorage⟩
  rw [povCall_send hload hcopy hgenesis htype, hvisible, if_neg Bool.false_ne_true, hpayload]
  unfold callOf callContext
  rw [hm]
  dsimp only
  rw [hctx]

def Makes (b : Build) (height : ℕ) (cs : PovContracts) (block : StateBlock)
    (call : Except OnPovError (Option (PovMethod × VmContext))) : Option (Option PovMethod) → Prop
  | none => ∃ e, call = .error e
  | some none => call = .ok none
  | some (some m) => Steady b height cs block m ∧ ∃ ctx, call = .ok (some (m, ctx))

theorem makes_send (hnode : node.Confirms secret confirmed hash)
    (hgenesis : ¬ b.isGenesisBlock (confirmed hash) = true)
    (htype : (confirmed hash).type = .contractSend)
    (hsettled : if (confirmed hash).isPrivate then secret (confirmed hash) = [] ∨ b.getPovMethod (confirmed hash).link (secret (confirmed hash)) = .ok none else ∀ m, b.getPovMethod (confirmed hash).link (confirmed hash).data = .ok (some m) → Steady b height cs (confirmed hash) m) :
    Makes b height cs (confirmed hash) (povCall b node (node.load confirmed hash))
      (if (confirmed hash).isPrivate then some none
        else (b.getPovMethod (confirmed hash).link (confirmed hash).data).toOption) := by
  obtain ⟨copy, hload, hcopy⟩ := load_eq hnode.block
  have hcall := povCall_send hload hcopy hgenesis htype
  cases hprivate : (confirmed hash).isPrivate with
  | true =>
    rw [hprivate, if_pos rfl] at hsettled
    rw [if_pos rfl, hcall]
    obtain ⟨hhidden, -⟩ | ⟨hvisible, hpayload, hsecret⟩ := hcopy.cases
    · exact if_pos hhidden
    · rw [hvisible, hpayload]
      unfold payloadOf
      rw [hprivate]
      exact callOf_of_none (hsettled.resolve_left (hsecret hprivate))
  | false =>
    rw [hprivate, if_neg Bool.false_ne_true] at hsettled
    obtain ⟨hvisible, hpayload⟩ := hcopy.visible hprivate
    rw [hvisible, if_neg Bool.false_ne_true, hpayload] at hcall
    rw [if_neg Bool.false_ne_true]
    cases hm : b.getPovMethod (confirmed hash).link (confirmed hash).data with
    | error e =>
      refine ⟨e, hcall.trans ?_⟩
      unfold callOf
      rw [hm]
    | ok m =>
      cases m with
      | none => exact hcall.trans (callOf_of_none hm)
      | some m =>
        obtain ⟨ctx, hctx, -⟩ := exists_povCall_of_public hnode hgenesis htype hprivate hm
        exact ⟨hsettled m hm, ctx, hctx⟩

theorem makes_reward (hnode : node.Confirms secret confirmed hash)
    (hgenesis : ¬ b.isGenesisBlock (confirmed hash) = true)
    (htype : (confirmed hash).type = .contractReward)
    (hsettled : ((confirmed hash).isPrivate = false ∧ (confirmed (confirmed hash).link).isPrivate = false) ∨ ((confirmed hash).isPrivate = true ∧ secret (confirmed hash) = []) ∨ ((confirmed (confirmed hash).link).isPrivate = true ∧ secret (confirmed (confirmed hash).link) = []) ∨ b.getPovMethod (confirmed (confirmed hash).link).link (payloadOf secret (confirmed (confirmed hash).link)) = .ok none) :
    Makes b height cs (confirmed hash) (povCall b node (node.load confirmed hash))
      (if (confirmed hash).isPrivate || (confirmed (confirmed hash).link).isPrivate then some none
        else if b.getPovMethod (confirmed (confirmed hash).link).link
          (confirmed (confirmed hash).link).data = .ok none then some none
        else none) := by
  obtain ⟨copy, hload, hcopy⟩ := load_eq hnode.block
  obtain ⟨sendBlk, hget, hsource⟩ := hnode.source htype
  rw [povCall_reward hload hcopy hgenesis htype hget hsource]
  by_cases hpublic : (confirmed hash).isPrivate = false ∧
      (confirmed (confirmed hash).link).isPrivate = false
  · obtain ⟨hvisible, -⟩ := hcopy.visible hpublic.1
    obtain ⟨hsvisible, hspayload⟩ := hsource.visible hpublic.2
    rw [hvisible, hsvisible, hspayload, hpublic.1, hpublic.2]
    by_cases hm : b.getPovMethod (confirmed (confirmed hash).link).link
        (confirmed (confirmed hash).link).data = .ok none
    · simp only [Bool.false_eq_true, if_false, Bool.or_false, if_pos hm]
      exact callOf_of_none hm
    · simp only [Bool.false_eq_true, if_false, Bool.or_false, if_neg hm]
      exact exists_error_of_rewardCall hm
  · have hprivate : ((confirmed hash).isPrivate ||
        (confirmed (confirmed hash).link).isPrivate) = true := by
      rw [← Bool.not_eq_false, Bool.or_eq_false_iff]
      exact hpublic
    rw [if_pos hprivate]
    obtain ⟨hhidden, -⟩ | ⟨hvisible, -, hsecret⟩ := hcopy.cases
    · exact if_pos hhidden
    rw [hvisible]
    obtain ⟨hshidden, -⟩ | ⟨hsvisible, hspayload, hssecret⟩ := hsource.cases
    · rw [hshidden]
      rfl
    rw [hsvisible, hspayload]
    apply callOf_of_none
    obtain h | ⟨h, hnil⟩ | ⟨h, hnil⟩ | h := hsettled
    · exact absurd h hpublic
    · exact absurd hnil (hsecret h)
    · exact absurd hnil (hssecret h)
    · exact h

theorem makes_chainCall (hnode : node.Confirms secret confirmed hash)
    (hsettled : Settled secret confirmed b height cs hash) :
    Makes b height cs (confirmed hash) (povCall b node (node.load confirmed hash))
      (chainCall b confirmed hash) := by
  obtain ⟨copy, hload, hcopy⟩ := load_eq hnode.block
  unfold chainCall
  dsimp only
  by_cases hgenesis : b.isGenesisBlock (confirmed hash) = true
  · rw [if_pos hgenesis, hload]
    unfold povCall
    dsimp only
    rw [hcopy.isGenesisBlock b, if_pos hgenesis]
    rfl
  rw [if_neg hgenesis]
  have hsettled := hsettled.resolve_left hgenesis
  cases htype : (confirmed hash).type with
  | contractSend =>
    rw [htype] at hsettled
    exact makes_send hnode hgenesis htype hsettled
  | contractReward =>
    rw [htype] at hsettled
    exact makes_reward hnode hgenesis htype hsettled
  | _ =>
    rw [hload]
    unfold povCall
    dsimp only
    rw [hcopy.isGenesisBlock b, if_neg hgenesis, hcopy.type, htype]
    rfl

theorem toOption_bind {α β : Type} (x : Except OnPovError α) (f : α → Except OnPovError β) :
    (x >>= f).toOption = x.toOption >>= fun a => (f a).toOption := by
  cases x with
  | error e => rfl
  | ok a => rfl

theorem update_refines (hnode : node.Confirms secret confirmed hash)
    (hsettled : Settled secret confirmed b height cs hash) :
    (updateContractState b node height cs (node.load confirmed hash)).toOption =
      chainUpdate b confirmed height cs hash := by
  have hmakes := makes_chainCall hnode hsettled
  rw [updateContractState_eq]
  unfold chainUpdate
  cases hcall : chainCall b confirmed hash with
  | none =>
    rw [hcall] at hmakes
    obtain ⟨e, he⟩ := hmakes
    rw [he]
    rfl
  | some call =>
    rw [hcall] at hmakes
    cases call with
    | none =>
      have hnone : povCall b node (node.load confirmed hash) = .ok none := hmakes
      rw [hnone]
      rfl
    | some m =>
      obtain ⟨hsteady, ctx, hctx⟩ := hmakes
      obtain ⟨copy, hload, hcopy⟩ := load_eq hnode.block
      rw [hctx]
      dsimp only
      rw [hload, hcopy.doSendOnPov, doSendOnPov_eq hsteady node.order .keep ctx emptyContext]

theorem applyTransaction_load (hnode : node.Holds secret confirmed hash)
    (sdb : PovStateDB PovContracts) :
    (applyTransaction (updateContractState b node) height sdb (node.load confirmed hash)).toOption =
      (updateContractState b node height sdb.contracts (node.load confirmed hash)).toOption.map
        (advance confirmed height sdb hash) := by
  obtain ⟨copy, hload, hcopy⟩ := load_eq hnode
  rw [hload]
  unfold applyTransaction
  rw [toOption_bind]
  cases updateContractState b node height sdb.contracts ⟨hash, copy⟩ with
  | error e => rfl
  | ok contracts =>
    rw [hcopy.shared]
    rfl

theorem transit_cons (hnode : node.Holds secret confirmed hash) (hashes : List Hash)
    (sdb : PovStateDB PovContracts) :
    (node.transit confirmed b height (hash :: hashes) sdb).toOption =
      ((updateContractState b node height sdb.contracts (node.load confirmed hash)).toOption.map
        (advance confirmed height sdb hash)) >>= fun s =>
          (node.transit confirmed b height hashes s).toOption := by
  unfold PovNode.transit transitStateDB
  rw [map_cons, foldlM_cons, toOption_bind, applyTransaction_load hnode]

theorem transit_singleton (hnode : node.Holds secret confirmed hash)
    (sdb : PovStateDB PovContracts) :
    (node.transit confirmed b height [hash] sdb).toOption =
      (updateContractState b node height sdb.contracts (node.load confirmed hash)).toOption.map
        (advance confirmed height sdb hash) := by
  rw [transit_cons hnode]
  cases (updateContractState b node height sdb.contracts (node.load confirmed hash)).toOption with
  | none => rfl
  | some contracts => rfl

variable (b secret confirmed) in
def SettledRun (height : ℕ) (sdb : PovStateDB PovContracts) (hashes : List Hash) : Prop :=
  ∀ before hash after s, hashes = before ++ hash :: after →
    before.foldlM (chainApply b confirmed height) sdb = some s →
      Settled secret confirmed b height s.contracts hash

theorem SettledRun.head {sdb : PovStateDB PovContracts}
    (h : SettledRun b secret confirmed height sdb (hash :: hashes)) :
    Settled secret confirmed b height sdb.contracts hash := h [] hash hashes sdb rfl rfl

theorem SettledRun.tail {sdb s : PovStateDB PovContracts}
    (h : SettledRun b secret confirmed height sdb (hash :: hashes))
    (hs : chainApply b confirmed height sdb hash = some s) :
    SettledRun b secret confirmed height s hashes := by
  intro before hash' after s' hsplit hrun
  refine h (hash :: before) hash' after s' (congrArg (List.cons hash) hsplit) ?_
  rw [foldlM_cons, hs]
  exact hrun

theorem transit_refines (hashes : List Hash) (sdb : PovStateDB PovContracts)
    (hnode : ∀ hash ∈ hashes, node.Confirms secret confirmed hash)
    (hsettled : SettledRun b secret confirmed height sdb hashes) :
    (node.transit confirmed b height hashes sdb).toOption =
      hashes.foldlM (chainApply b confirmed height) sdb := by
  induction hashes generalizing sdb with
  | nil => rfl
  | cons hash hashes ih =>
    have hhead := hnode hash mem_cons_self
    rw [transit_cons hhead.block, update_refines hhead hsettled.head, foldlM_cons]
    change chainApply b confirmed height sdb hash >>= _ = _
    cases hs : chainApply b confirmed height sdb hash with
    | none => rfl
    | some s =>
      exact ih s (fun h hmem => hnode h (mem_cons_of_mem _ hmem)) (hsettled.tail hs)

end

end GoQlc.Pov
