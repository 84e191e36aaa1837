import GoQlc.Config.Devnet
import GoQlc.Pov.ChainState

/-!
# Is the PoV state the same on all nodes?

Two nodes apply the same confirmed blocks to the same state.
-/

namespace GoQlc.Pov

open Abi Config PublicKeyDistribution PovMethod Table

/-! ## Nodes that part -/

variable {block : StateBlock}

section
variable (secret : StateBlock → Bytes) (confirmed : Hash → StateBlock) (hash : Hash)

def copyOf (visible : Bool) (block : StateBlock) : StateBlock :=
  { block with privatePayload := if visible then secret block else [] }

theorem isCopy_copyOf (visible : Bool) (block : StateBlock) :
    IsCopy secret block (copyOf secret visible block) where
  shared := rfl
  payload := by
    unfold copyOf
    cases visible with
    | false => exact .inl rfl
    | true => exact .inr rfl

def smallNode (visible : Bool) (vmStorage : Table Bytes Bytes) (order : MapOrder) : PovNode where
  ledger :=
    { blocks := ((∅ : Table Hash StateBlock).put (confirmed hash).link
        (copyOf secret visible (confirmed (confirmed hash).link))).put hash
        (copyOf secret visible (confirmed hash))
      vmStorage }
  view :=
    { blockCache := fun _ => none, accountCache := fun _ => none, latestPovHeight := some 0
      hasPovHeader := fun _ => true, hasSmartContractBlock := fun _ => false, timeNow := 0 }
  order := order

variable (visible : Bool) (vmStorage : Table Bytes Bytes) (order : MapOrder)

theorem smallNode_block :
    (smallNode secret confirmed hash visible vmStorage order).ledger.getStateBlockConfirmed hash =
      some (copyOf secret visible (confirmed hash)) := get_put_self _ _ _

theorem smallNode_source :
    (smallNode secret confirmed hash visible vmStorage order).ledger.getStateBlockConfirmed
        (confirmed hash).link =
      some (copyOf secret visible (confirmed (confirmed hash).link)) := by
  unfold smallNode Ledger.getStateBlockConfirmed
  dsimp only
  rw [get_put]
  split_ifs with h
  · rw [h]
  · exact get_put_self _ _ _

theorem smallNode_confirms :
    (smallNode secret confirmed hash visible vmStorage order).Confirms secret confirmed hash where
  block := ⟨_, smallNode_block secret confirmed hash visible vmStorage order,
    isCopy_copyOf secret visible _⟩
  source _ := ⟨_, smallNode_source secret confirmed hash visible vmStorage order,
    isCopy_copyOf secret visible _⟩
  synced := ⟨0, rfl, fun _ _ => rfl⟩

theorem smallNode_load :
    (smallNode secret confirmed hash visible vmStorage order).load confirmed hash =
      ⟨hash, copyOf secret visible (confirmed hash)⟩ := by
  unfold PovNode.load
  rw [smallNode_block, Option.getD_some]

theorem copyOf_hidden (h : block.isPrivate = true) :
    ((copyOf secret false block).isPrivate && !(copyOf secret false block).isRecipient) = true := by
  unfold StateBlock.isRecipient
  have hprivate : (copyOf secret false block).isPrivate = true := h
  rw [hprivate]
  rfl

theorem copyOf_visible (h : block.isPrivate = true → secret block ≠ []) :
    ((copyOf secret true block).isPrivate && !(copyOf secret true block).isRecipient) = false ∧
      (copyOf secret true block).getPayload = payloadOf secret block := by
  obtain ⟨hhidden, hprivate⟩ | ⟨hvisible, hpayload, -⟩ := (isCopy_copyOf secret true block).cases
  · have hempty : (copyOf secret true block).privatePayload.isEmpty = false :=
      List.isEmpty_eq_false_iff.mpr (h hprivate)
    unfold StateBlock.isRecipient at hhidden
    rw [hempty] at hhidden
    simp at hhidden
  · exact ⟨hvisible, hpayload⟩

end

/-- One of the results is a state where the other is an error, or they differ in a verifier. -/
def Part (r r' : Except OnPovError PovContracts) : Prop :=
  (∃ cs e, r = .ok cs ∧ r' = .error e) ∨ Differ r r'

section
variable {b : Build} {secret : StateBlock → Bytes} {confirmed : Hash → StateBlock}
variable {height : ℕ} {cs : PovContracts} {hash : Hash}

variable {e : OnPovError}

theorem update_of_error {node : PovNode} {tx : PovTransaction} (h : povCall b node tx = .error e) :
    updateContractState b node height cs tx = .error e := by
  rw [updateContractState_eq, h]

theorem update_of_none {node : PovNode} {tx : PovTransaction} (h : povCall b node tx = .ok none) :
    updateContractState b node height cs tx = .ok cs := by
  rw [updateContractState_eq, h]

def plainPublication : PubKeyInfo where
  account := 0
  verifiers := []
  codes := []
  fee := 0
  valid := true
  keyType := 0
  pubKey := []

theorem parse_plainPublication : parsePubKeyInfo plainPublication.pack = some plainPublication := by
  decide +kernel

theorem part_of_missing (order order' : MapOrder) {info : OracleInfo} {ctx ctx' : VmContext}
    (hcall : unpackOracle b.hashData block.data = some info)
    (hps : cs.publishes.get (info.key b.sha256) = none)
    (hctx : ctx.getStorage (hashBytes pubKeyDistributionAddress) (info.key b.sha256).storageKey =
      some plainPublication.pack) (hctx' : ctx'.getStorage (hashBytes pubKeyDistributionAddress)
      (info.key b.sha256).storageKey = none) :
    Part (PovMethod.oracle.doSendOnPov b order ctx height block cs)
      (PovMethod.oracle.doSendOnPov b order' ctx' height block cs) := by
  have hfound : getPublishInfoByKey ctx (info.key b.sha256) = some plainPublication := by
    unfold getPublishInfoByKey
    rw [hctx]
    dsimp only
    rw [parse_plainPublication]
    rfl
  have hmissing : getPublishInfoByKey ctx' (info.key b.sha256) = none := by
    unfold getPublishInfoByKey
    rw [hctx']
  left
  unfold doSendOnPov oracleOnPov publishStateOf
  rw [hcall]
  unfold unpacked
  dsimp only
  rw [hps, hfound, hmissing]
  exact ⟨_, _, rfl, rfl⟩

variable (b secret confirmed height cs hash) in
def NodesPart : Prop :=
  ∃ n n' : PovNode, n.Confirms secret confirmed hash ∧ n'.Confirms secret confirmed hash ∧
    Part (updateContractState b n height cs (n.load confirmed hash))
      (updateContractState b n' height cs (n'.load confirmed hash))

theorem nodesPart_of_payload (hidden : povCall b (smallNode secret confirmed hash false ∅ .keep)
      ((smallNode secret confirmed hash false ∅ .keep).load confirmed hash) = .ok none)
    (visible : povCall b (smallNode secret confirmed hash true ∅ .keep)
      ((smallNode secret confirmed hash true ∅ .keep).load confirmed hash) = .error e) :
    NodesPart b secret confirmed height cs hash :=
  ⟨_, _, smallNode_confirms secret confirmed hash false ∅ .keep,
    smallNode_confirms secret confirmed hash true ∅ .keep,
    .inl ⟨cs, e, update_of_none hidden, update_of_error visible⟩⟩

section
variable (hgenesis : ¬ b.isGenesisBlock (confirmed hash) = true)

include hgenesis

theorem nodesPart_of_public {m : PovMethod} (htype : (confirmed hash).type = .contractSend)
    (hpublic : (confirmed hash).isPrivate = false)
    (hm : b.getPovMethod (confirmed hash).link (confirmed hash).data = .ok (some m))
    (hsteady : ¬ Steady b height cs (confirmed hash) m) :
    NodesPart b secret confirmed height cs hash := by
  -- what a small node makes of the call, with its storage and order
  have hrun : ∀ vmStorage order, ∃ ctx,
      updateContractState b (smallNode secret confirmed hash false vmStorage order) height cs
        ((smallNode secret confirmed hash false vmStorage order).load confirmed hash) =
          m.doSendOnPov b order ctx height (confirmed hash) cs ∧
      ∀ pre key, ctx.getStorage pre key =
        vmStorage.get (hashBytes (confirmed hash).link ++ (pre ++ key)) := by
    intro vmStorage order
    have hnode := smallNode_confirms secret confirmed hash false vmStorage order
    obtain ⟨ctx, hctx, hstorage⟩ := exists_povCall_of_public hnode hgenesis htype hpublic hm
    refine ⟨ctx, ?_, hstorage⟩
    rw [updateContractState_eq, hctx]
    dsimp only
    rw [smallNode_load, (isCopy_copyOf secret false (confirmed hash)).doSendOnPov]
    rfl
  obtain ⟨rfl, info, hcall, hps⟩ | ⟨order, hdiffer⟩ := of_not_steady hsteady
  · let key := hashBytes (confirmed hash).link ++
      (hashBytes pubKeyDistributionAddress ++ (info.key b.sha256).storageKey)
    let vmStorage := (∅ : Table Bytes Bytes).put key plainPublication.pack
    obtain ⟨ctx, hctx, hstorage⟩ := hrun vmStorage .keep
    obtain ⟨ctx', hctx', hstorage'⟩ := hrun ∅ .keep
    refine ⟨_, _, smallNode_confirms secret confirmed hash false vmStorage .keep,
      smallNode_confirms secret confirmed hash false ∅ .keep, ?_⟩
    rw [hctx, hctx']
    refine part_of_missing .keep .keep hcall hps ?_ ?_
    · rw [hstorage]
      exact get_put_self _ _ _
    · rw [hstorage']
      exact get_empty _
  · obtain ⟨ctx, hctx, -⟩ := hrun ∅ .keep
    obtain ⟨ctx', hctx', -⟩ := hrun ∅ order
    refine ⟨_, _, smallNode_confirms secret confirmed hash false ∅ .keep,
      smallNode_confirms secret confirmed hash false ∅ order, .inr ?_⟩
    rw [hctx, hctx']
    exact hdiffer ctx ctx'

theorem nodesPart_of_private_send (htype : (confirmed hash).type = .contractSend)
    (hprivate : (confirmed hash).isPrivate = true) (hsecret : secret (confirmed hash) ≠ [])
    (hm : b.getPovMethod (confirmed hash).link (secret (confirmed hash)) = .error e) :
    NodesPart b secret confirmed height cs hash := by
  obtain ⟨hvisible, hpayload⟩ := copyOf_visible secret fun _ : (confirmed hash).isPrivate = true =>
    hsecret
  apply @nodesPart_of_payload _ _ _ _ _ _ e
  · rw [povCall_send (smallNode_load secret confirmed hash false ∅ .keep)
      (isCopy_copyOf secret false _) hgenesis htype]
    exact if_pos (copyOf_hidden secret hprivate)
  · rw [povCall_send (smallNode_load secret confirmed hash true ∅ .keep)
      (isCopy_copyOf secret true _) hgenesis htype, hvisible, if_neg Bool.false_ne_true, hpayload]
    unfold callOf payloadOf
    rw [hprivate, if_pos rfl, hm]

theorem nodesPart_of_private_reward (htype : (confirmed hash).type = .contractReward)
    (hprivate : ¬ ((confirmed hash).isPrivate = false ∧
      (confirmed (confirmed hash).link).isPrivate = false))
    (hblock : (confirmed hash).isPrivate = true → secret (confirmed hash) ≠ [])
    (hsource : (confirmed (confirmed hash).link).isPrivate = true →
      secret (confirmed (confirmed hash).link) ≠ [])
    (hm : b.getPovMethod (confirmed (confirmed hash).link).link
      (payloadOf secret (confirmed (confirmed hash).link)) ≠ .ok none) :
    NodesPart b secret confirmed height cs hash := by
  obtain ⟨hvisible, -⟩ := copyOf_visible secret hblock
  obtain ⟨hsvisible, hspayload⟩ := copyOf_visible secret hsource
  obtain ⟨e, he⟩ := @exists_error_of_rewardCall b
    (smallNode secret confirmed hash true ∅ .keep) _ _
    ⟨hash, copyOf secret true (confirmed hash)⟩ hm
  have hcall := fun visible => povCall_reward (smallNode_load secret confirmed hash visible ∅ .keep)
    (isCopy_copyOf secret visible _) hgenesis htype
    (smallNode_source secret confirmed hash visible ∅ .keep) (isCopy_copyOf secret visible _)
  apply @nodesPart_of_payload _ _ _ _ _ _ e
  · rw [hcall]
    cases hpriv : (confirmed hash).isPrivate with
    | true => exact if_pos (copyOf_hidden secret hpriv)
    | false =>
      have hspriv : (confirmed (confirmed hash).link).isPrivate = true := by
        rw [← Bool.not_eq_false]
        exact fun h => hprivate ⟨hpriv, h⟩
      rw [copyOf_hidden secret hspriv, if_pos rfl]
      split_ifs <;> rfl
  · rw [hcall, hvisible, hsvisible, hspayload, if_neg Bool.false_ne_true,
      if_neg Bool.false_ne_true, he]

end

variable (b secret confirmed hash) in
def PrivateHook : Prop :=
  (confirmed hash).type = .contractSend ∧ (confirmed hash).isPrivate = true ∧
    ∃ m, b.getPovMethod (confirmed hash).link (secret (confirmed hash)) = .ok (some m)

theorem nodesPart_of_not_settled (hhook : ¬ PrivateHook b secret confirmed hash)
    (h : ¬ Settled secret confirmed b height cs hash) :
    NodesPart b secret confirmed height cs hash := by
  unfold Settled at h
  dsimp only at h
  rw [not_or] at h
  obtain ⟨hgenesis, h⟩ := h
  cases htype : (confirmed hash).type with
  | contractSend =>
    rw [htype] at h
    dsimp only at h
    cases hprivate : (confirmed hash).isPrivate with
    | false =>
      rw [hprivate, if_neg Bool.false_ne_true] at h
      push Not at h
      obtain ⟨m, hm, hsteady⟩ := h
      exact nodesPart_of_public hgenesis htype hprivate hm hsteady
    | true =>
      rw [hprivate, if_pos rfl, not_or] at h
      cases hm : b.getPovMethod (confirmed hash).link (secret (confirmed hash)) with
      | error e => exact nodesPart_of_private_send hgenesis htype hprivate h.1 hm
      | ok m =>
        cases m with
        | none => exact absurd hm h.2
        | some m => exact absurd ⟨htype, hprivate, m, hm⟩ hhook
  | contractReward =>
    rw [htype] at h
    dsimp only at h
    push Not at h
    obtain ⟨hprivate, hblock, hsource, hm⟩ := h
    refine nodesPart_of_private_reward hgenesis htype ?_ hblock hsource hm
    exact fun hboth => hprivate hboth.1 hboth.2
  | _ =>
    rw [htype] at h
    exact absurd trivial h

end

/-! ## The state hash -/

/-- The root hash of the state. -/
structure StateHash (ρ : Type) where
  root : PovStateDB PovContracts → ρ
  commits : ∀ s s', root s = root s' →
    ∀ a, s.contracts.verifiers.get a = s'.contracts.verifiers.get a

def StateHash.Same {ρ : Type} (hash : StateHash ρ)
    (r r' : Except OnPovError (PovStateDB PovContracts)) : Prop :=
  r.toOption.map hash.root = r'.toOption.map hash.root

theorem not_same_of_part {ρ : Type} (stateHash : StateHash ρ) {b : Build}
    {secret : StateBlock → Bytes} {confirmed : Hash → StateBlock} {height : ℕ}
    {sdb : PovStateDB PovContracts} {hash : Hash} {n n' : PovNode}
    (hn : n.Holds secret confirmed hash) (hn' : n'.Holds secret confirmed hash)
    (h : Part (updateContractState b n height sdb.contracts (n.load confirmed hash))
      (updateContractState b n' height sdb.contracts (n'.load confirmed hash))) :
    ¬ stateHash.Same (n.transit confirmed b height [hash] sdb)
      (n'.transit confirmed b height [hash] sdb) := by
  unfold StateHash.Same
  rw [transit_singleton hn, transit_singleton hn']
  obtain ⟨cs, e, hok, herror⟩ | ⟨cs, cs', a, hok, hok', hne⟩ := h
  · rw [hok, herror]
    intro hsame
    cases hsame
  · rw [hok, hok']
    intro hsame
    exact hne (stateHash.commits _ _ (Option.some.inj hsame) a)

section
open Devnet

def shortBuild (testnet : Bool) : Build :=
  { shortEnv 40 with sha256 := headHash 40, testnet }

def oracleSend : StateBlock :=
  shortSigned 40
    { type := .contractSend, token := gasToken, address := stranger, balance := 0
      previous := 0x11, link := pubKeyDistributionAddress, representative := genesisAddress
      data := packMethod (headHash 40) oracleMethod
        ((0 : UInt32), (0x21 : Hash), (0 : UInt16), ([7] : List UInt8), ([] : Bytes),
          (0x31 : Hash), ()) }

def oracleHash : Hash := oracleSend.getHash (headHash 40)

def oracleChain (hash : Hash) : StateBlock := if hash = oracleHash then oracleSend else genesisBlock

def publication (valid : Bool) : PubKeyInfo where
  account := genesisAddress
  verifiers := [stranger]
  codes := [0x41]
  fee := 500000000
  valid := valid
  keyType := 0
  pubKey := [7]

def publicationKey : PublishInfoKey where
  pType := 0
  pID := 0x21
  pubKey := publicKeyWithTypeHash (headHash 40) 0 [7]
  hash := 0x31

def oracleNode (valid : Bool) : PovNode where
  ledger :=
    { blocks := (∅ : Table Hash StateBlock).put oracleHash oracleSend
      vmStorage := (∅ : Table Bytes Bytes).put
        (hashBytes pubKeyDistributionAddress ++
          (hashBytes pubKeyDistributionAddress ++ publicationKey.storageKey))
        (publication valid).pack }
  view := view
  order := .keep

def emptyState : PovStateDB PovContracts where
  accounts := ∅
  reps := ∅
  contracts := {}

theorem oracleNode_confirms (valid : Bool) :
    (oracleNode valid).Confirms (fun _ => []) oracleChain oracleHash where
  block := by
    refine ⟨oracleSend, get_put_self _ _ _, ?_⟩
    rw [oracleChain, if_pos rfl]
    exact ⟨rfl, .inl rfl⟩
  source htype := by
    rw [oracleChain, if_pos rfl] at htype
    cases htype
  synced := ⟨0, rfl, fun _ _ => rfl⟩

end

end GoQlc.Pov
