import GoQlc.Pov.Verify

/-!
# Which blocks make the verifier panic

Each stage reads through the pointers and the lists of the block before it has looked whether they
are there.
-/

namespace GoQlc.Pov.Wire

open Halt List Option PovVerifier

variable {γ ε : Type}

section AuxHeader

def PovBtcTx.Filled (tx : PovBtcTx) : Prop :=
  (∀ txIn ∈ tx.txIn, txIn.isSome = true) ∧ ∀ txOut ∈ tx.txOut, txOut.isSome = true

theorem PovBtcTx.safe_buildHashData (tx : PovBtcTx) :
    Safe (tx.buildHashData : Except (Halt ε) Bytes) ↔ tx.Filled := by
  unfold PovBtcTx.buildHashData PovBtcTx.Filled
  rw [(plain_derefAll tx.txIn).safe_bind fun txIn _ =>
    (plain_derefAll tx.txOut).safe_bind fun txOut _ => iff_true_intro (safe_pure _)]
  simp only [safe_derefAll, and_true]

theorem PovBtcTx.plain_buildHashData (tx : PovBtcTx) :
    Plain (tx.buildHashData : Except (Halt ε) Bytes) :=
  (plain_derefAll tx.txIn).bind fun _ _ => (plain_derefAll tx.txOut).bind fun _ _ => plain_ok _

def BranchFilled (branch : List (Option Hash)) (index : ℤ) : Prop :=
  index ≠ -1 → ∀ h ∈ branch, h.isSome = true

section
variable (sha256d : Bytes → Hash) (hash : Hash) (branch : List (Option Hash)) (index : ℤ)

include sha256d hash branch index

theorem safe_climbBranch :
    Safe (climbBranch sha256d hash branch index : Except (Halt ε) Hash) ↔
      ∀ h ∈ branch, h.isSome = true := by
  induction branch generalizing hash index with
  | nil => simp [climbBranch]
  | cons it branch ih =>
    unfold climbBranch
    rw [(plain_deref it).safe_bind (P := ∀ h ∈ branch, h.isSome = true), safe_deref,
      forall_mem_cons]
    intro a _
    split_ifs
    · exact ih _ _
    · exact ih _ _

theorem safe_calcMerkleRootByIndex :
    Safe (calcMerkleRootByIndex sha256d hash branch index : Except (Halt ε) Hash) ↔
      BranchFilled branch index := by
  unfold calcMerkleRootByIndex BranchFilled
  split_ifs with h
  · exact iff_of_true (safe_pure _) fun hne => absurd h hne
  · rw [safe_climbBranch]
    exact ⟨fun hb _ => hb, fun hb => hb h⟩

theorem plain_climbBranch :
    Plain (climbBranch sha256d hash branch index : Except (Halt ε) Hash) := by
  induction branch generalizing hash index with
  | nil => exact plain_ok hash
  | cons it branch ih =>
    refine (plain_deref it).bind fun a _ => ?_
    split_ifs
    · exact ih _ _
    · exact ih _ _

theorem plain_calcMerkleRootByIndex :
    Plain (calcMerkleRootByIndex sha256d hash branch index : Except (Halt ε) Hash) := by
  unfold calcMerkleRootByIndex
  split_ifs
  · exact plain_ok 0
  · exact plain_climbBranch sha256d hash branch index

end

theorem shiftedOne_ne_zero {h : ℕ} : shiftedOne h ≠ 0 ↔ h < 32 := by
  have hmod : shiftedOne h = 0 ↔ 2 ^ h % 2 ^ 32 = 0 := by
    rw [shiftedOne, ← UInt32.toNat_inj, UInt32.toNat_ofNat']
    rfl
  rw [ne_eq, hmod, ← Nat.dvd_iff_mod_eq_zero, Nat.pow_dvd_pow_iff_le_right (by decide)]
  omega

theorem hexDigits_length (bs : Bytes) : (hexDigits bs).length = 2 * bs.length := by
  induction bs with
  | nil => rfl
  | cons b bs ih =>
    rw [hexDigits, flatMap_cons, length_append, ← hexDigits, ih, length_cons]
    simp only [length_cons, length_nil]
    omega

theorem indexOf_add_length {sub s : List UInt8} {i : ℕ} (h : indexOf sub s = some i) :
    i + sub.length ≤ s.length := by
  induction s generalizing i with
  | nil =>
    unfold indexOf at h
    split_ifs at h with hsub
    cases h
    rw [hsub]
    exact le_rfl
  | cons b s ih =>
    unfold indexOf at h
    split_ifs at h with hpre
    · cases h
      rw [Nat.zero_add]
      exact hpre.length_le
    · obtain ⟨j, hj, rfl⟩ := map_eq_some_iff.mp h
      have hle := ih hj
      rw [length_cons]
      omega

theorem safe_findAuxRoot (script : Bytes) (auxRootHash : Hash) :
    Safe (findAuxRoot script auxRootHash : Verify ε ℕ) ∧
      ∀ r, (findAuxRoot script auxRootHash : Verify ε ℕ) = .ok r →
        r / 2 + 4 ≤ script.length := by
  unfold findAuxRoot
  dsimp only
  cases hmagic : indexOf (hexDigits povAuxPowHeaderMagic) (hexDigits script) with
  | none => exact ⟨safe_reject _, fun r hr => by cases hr⟩
  | some headerIndex =>
    cases hroot : indexOf (hexDigits (hashBytes (reverseByte auxRootHash))) (hexDigits script) with
    | none => exact ⟨safe_reject _, fun r hr => by cases hr⟩
    | some rootHashIndex =>
      dsimp only
      have hlen := indexOf_add_length hmagic
      have hmagicLen : (hexDigits povAuxPowHeaderMagic).length = 8 := rfl
      constructor
      · simp only [safe_bind, safe_slice, safe_require, safe_pure, implies_true, and_true]
        omega
      · intro r hr
        simp only [Result.bind_eq_ok, require_eq_ok, pure, Except.pure, Except.ok.injEq] at hr
        obtain ⟨rest, -, -, -, -, -, -, hsize, rfl⟩ := hr
        rw [hexDigits_length script] at hsize
        omega

def SizeMatches (ap : PovAuxHeader) (script : Bytes) (r : ℕ) : Prop :=
  UInt32.ofNat (Bytes.leValue ((script.take (r / 2 + 4)).drop (r / 2))) =
    shiftedOne ap.auxMerkleBranch.length

theorem safe_verifyAuxTree {ap : PovAuxHeader} {script : Bytes} {r : ℕ}
    (hr : r / 2 + 4 ≤ script.length) :
    Safe (verifyAuxTree ap script r : Verify ε Unit) ↔
      (SizeMatches ap script r → r / 2 + 8 ≤ script.length ∧ ap.auxMerkleBranch.length < 32) := by
  unfold verifyAuxTree
  have hsize : (slice script (r / 2) (r / 2 + 4) : Verify ε Bytes) =
      .ok ((script.take (r / 2 + 4)).drop (r / 2)) := by
    unfold slice
    rw [if_pos ⟨by omega, hr⟩]
  have hindex (nonce : UInt32) (h : ℕ) :
      Safe (calcAuxPowExpectedIndex nonce povAuxPowChainID h : Verify ε ℤ) ↔ h < 32 := by
    unfold calcAuxPowExpectedIndex
    simp only [safe_bind, safe_rem, safe_pure, implies_true, and_true, shiftedOne_ne_zero]
  rw [hsize, safe_bind, and_iff_right (safe_ok _)]
  simp only [Except.ok.injEq, forall_eq', safe_seq, safe_require, require_eq_ok, true_and]
  refine imp_congr_right fun _ => ?_
  rw [(plain_slice script (r / 2 + 4) (r / 2 + 8)).safe_bind
    (P := ap.auxMerkleBranch.length < 32)]
  · rw [safe_slice]
    exact and_congr_left fun _ => ⟨And.right, fun h => ⟨by omega, h⟩⟩
  · intro nonce _
    rw [safe_bind, hindex]
    exact and_iff_left fun _ _ => safe_require _ _

/-- The shape of an auxiliary header. -/
structure AuxShape (pv : PovVerifier γ ε) (block : PovBlock) (ap : PovAuxHeader) : Prop where
  filled : ap.parCoinBaseTx.Filled
  parentBranch : BranchFilled ap.parCoinBaseMerkle ap.parMerkleIndex
  auxBranch : pv.calcParentRoot ap = .ok ap.parBlockHeader.merkleRoot →
    BranchFilled ap.auxMerkleBranch ap.auxMerkleIndex
  firstInput : pv.calcParentRoot ap = .ok ap.parBlockHeader.merkleRoot → ap.parCoinBaseTx.txIn ≠ []
  tree : pv.calcParentRoot ap = .ok ap.parBlockHeader.merkleRoot →
    ∀ auxRootHash txIn r, pv.calcAuxRoot block ap = .ok auxRootHash →
      ap.parCoinBaseTx.txIn.head? = some (some txIn) →
      (findAuxRoot txIn.signatureScript auxRootHash : Verify ε ℕ) = .ok r →
      SizeMatches ap txIn.signatureScript r →
      r / 2 + 8 ≤ txIn.signatureScript.length ∧ ap.auxMerkleBranch.length < 32

variable (pv : PovVerifier γ ε) (block : PovBlock)

theorem safe_calcParentRoot (ap : PovAuxHeader) :
    Safe (pv.calcParentRoot ap) ↔
      ap.parCoinBaseTx.Filled ∧ BranchFilled ap.parCoinBaseMerkle ap.parMerkleIndex := by
  unfold calcParentRoot
  rw [ap.parCoinBaseTx.plain_buildHashData.safe_bind fun data _ =>
    safe_calcMerkleRootByIndex _ _ _ _, PovBtcTx.safe_buildHashData]

theorem exists_calcAuxRoot {ap : PovAuxHeader}
    (h : BranchFilled ap.auxMerkleBranch ap.auxMerkleIndex) :
    ∃ auxRootHash, pv.calcAuxRoot block ap = .ok auxRootHash :=
  (plain_calcMerkleRootByIndex _ _ _ _).safe_iff.mp ((safe_calcMerkleRootByIndex _ _ _ _).mpr h)

theorem safe_verifyAuxHeader :
    Safe (pv.verifyAuxHeader block) ↔
      ∀ ap, block.header.auxHdr = some ap → AuxShape pv block ap := by
  unfold verifyAuxHeader
  cases haux : block.header.auxHdr with
  | none => exact iff_of_true (safe_pure _) (fun ap h => by cases h)
  | some ap =>
    simp only [Option.some.injEq, forall_eq', safe_bind, safe_require, require_eq_ok, true_and,
      safe_index, index_eq_ok, safe_deref, deref_eq_ok, ← List.head?_eq_getElem?]
    constructor
    · rintro ⟨hparent, hrest⟩
      obtain ⟨hfilled, hbranch⟩ := (safe_calcParentRoot pv ap).mp hparent
      refine ⟨hfilled, hbranch, fun hroot => ?_, fun hroot => ?_, ?_⟩
      · exact (safe_calcMerkleRootByIndex _ _ _ _).mp (hrest _ hroot () rfl).1
      · obtain ⟨haux, htxIn⟩ := hrest _ hroot () rfl
        obtain ⟨auxRootHash, hauxRoot⟩ :=
          exists_calcAuxRoot pv block ((safe_calcMerkleRootByIndex _ _ _ _).mp haux)
        exact ne_nil_of_length_pos (htxIn _ hauxRoot).1
      · intro hroot auxRootHash txIn r hauxRoot hhead hfind
        have htree := (((hrest _ hroot () rfl).2 _ hauxRoot).2 _ hhead).2 _ rfl
        exact (safe_verifyAuxTree ((safe_findAuxRoot _ _).2 r hfind)).mp (htree.2 r hfind)
    · intro hshape
      refine ⟨(safe_calcParentRoot pv ap).mpr ⟨hshape.filled, hshape.parentBranch⟩, ?_⟩
      rintro _ hroot - rfl
      refine ⟨(safe_calcMerkleRootByIndex _ _ _ _).mpr (hshape.auxBranch hroot), ?_⟩
      intro auxRootHash hauxRoot
      refine ⟨length_pos_of_ne_nil (hshape.firstInput hroot), ?_⟩
      intro txIn hhead
      refine ⟨hshape.filled.1 txIn (mem_of_head? hhead), ?_⟩
      rintro txIn rfl
      refine ⟨(safe_findAuxRoot _ _).1, fun r hfind => ?_⟩
      rw [safe_verifyAuxTree ((safe_findAuxRoot _ _).2 r hfind)]
      exact hshape.tree hroot auxRootHash txIn r hauxRoot hhead hfind

end AuxHeader

section Stages

variable (pv : PovVerifier γ ε) (block : PovBlock)

theorem pastTimestamps_ne_nil (n : ℕ) (h : ChainHeader) : pv.pastTimestamps (n + 1) h ≠ [] := by
  unfold pastTimestamps
  exact cons_ne_nil _ _

theorem safe_verifyReferred : Safe (pv.verifyReferred block) := by
  unfold verifyReferred
  dsimp only
  cases pv.getHeaderByHash block.header.basHdr.previous with
  | none => exact safe_reject _
  | some prevHeader =>
    have hmedian : Safe (pv.calcPastMedianTime prevHeader) := by
      unfold calcPastMedianTime
      have hpos := length_pos_of_ne_nil (pastTimestamps_ne_nil pv 10 prevHeader)
      rw [safe_index, length_insertionSort]
      exact Nat.div_lt_self hpos (by decide)
    simp only [safe_bind, safe_require, hmedian, safe_pure, implies_true, and_self]

theorem safe_verifyTarget : Safe (pv.verifyTarget block) := by
  unfold verifyTarget
  dsimp only
  cases pv.getHeaderByHash block.header.basHdr.previous with
  | none => exact safe_reject _
  | some prevHeader =>
    dsimp only
    cases pv.calcNextRequiredTarget prevHeader block.header.basHdr.version with
    | none => exact safe_reject _
    | some expectedTarget =>
      simp only [safe_bind, safe_require, implies_true, and_self]

def MinerOutput (block : PovBlock) : Prop :=
  ∃ cbTx txOut, block.header.cbTx = some cbTx ∧ cbTx.txOuts.head? = some (some txOut)

theorem safe_getMinerAddr :
    Safe (getMinerAddr block : Verify ε Address) ↔ MinerOutput block := by
  unfold getMinerAddr MinerOutput
  cases block.header.cbTx with
  | none => simp [safe_bind]
  | some cbTx =>
    simp only [safe_bind, safe_deref, isSome_some, deref_eq_ok, Option.some.injEq,
      forall_eq', safe_index, index_eq_ok, safe_pure, implies_true, and_true, true_and,
      exists_and_left, exists_eq_left', List.head?_eq_getElem?]
    cases cbTx.txOuts with
    | nil => simp
    | cons txOut txOuts => simp [isSome_iff_exists]

def ProducerShape : Prop :=
  pv.mode = .pow → pv.verifyTarget block = .ok () → pv.checksProducer block = true →
    ∀ prevHeader, pv.getHeaderByHash block.header.basHdr.previous = some prevHeader →
      pv.hasTrie prevHeader.stateHash = true → MinerOutput block

theorem safe_verifyProducer :
    Safe (pv.verifyProducer block) ↔ (pv.checksProducer block = true →
      ∀ prevHeader, pv.getHeaderByHash block.header.basHdr.previous = some prevHeader →
        pv.hasTrie prevHeader.stateHash = true → MinerOutput block) := by
  unfold verifyProducer
  by_cases hcheck : pv.checksProducer block = true
  · rw [if_pos hcheck, forall_prop_of_true hcheck]
    cases pv.getHeaderByHash block.header.basHdr.previous with
    | none => exact iff_of_true (safe_reject _) (fun _ h => by cases h)
    | some prevHeader =>
      simp only [safe_bind, safe_require, require_eq_ok, true_and, safe_getMinerAddr,
        Option.some.injEq, forall_eq']
      refine ⟨fun h htrie => (h () htrie).1, fun h _ htrie => ⟨h htrie, fun addr _ => ?_⟩⟩
      cases (pv.newStateDB prevHeader.stateHash).reps.get addr with
      | none => exact safe_reject _
      | some rs => exact safe_require _ _
  · rw [if_neg hcheck]
    exact iff_of_true (safe_pure _) (fun h => absurd h hcheck)

theorem safe_verifyConsensus : Safe (pv.verifyConsensus block) ↔ ProducerShape pv block := by
  unfold verifyConsensus ProducerShape
  cases pv.mode with
  | fake => exact iff_of_true (safe_require _ _) (fun h => by cases h)
  | pow =>
    dsimp only
    rw [safe_seq, safe_verifyProducer, and_iff_right (safe_verifyTarget pv block)]
    exact ⟨fun h _ => h, fun h => h rfl⟩

/-- The outputs as the check of the rewards reads them: a second one is needed if the first pays
an address, and then their values. -/
def RewardShape : List (Option PovCoinBaseTxOut) → Prop
  | [] => False
  | none :: _ => True
  | some minerTxOut :: txOuts =>
    minerTxOut.address ≠ 0 →
      match txOuts with
      | [] => False
      | none :: _ => True
      | some repTxOut :: _ =>
        repTxOut.address ≠ 0 → ∃ minerReward, minerTxOut.value = some minerReward ∧
          (minerReward ≤ calcBlockReward.1 → repTxOut.value.isSome = true)

theorem safe_verifyCoinBaseTx (cbTx : PovCoinBaseTx) :
    Safe (verifyCoinBaseTx cbTx : Verify ε Unit) ↔ RewardShape cbTx.txOuts := by
  unfold verifyCoinBaseTx
  rcases cbTx.txOuts with _ | ⟨_ | minerTxOut, txOuts⟩
  · simp [safe_bind, RewardShape]
  · exact iff_of_true (by simp [safe_bind, throw, throwThe, MonadExceptOf.throw]) trivial
  · rcases txOuts with _ | ⟨_ | repTxOut, txOuts⟩
    · simp [safe_bind, RewardShape]
    · refine iff_of_true ?_ (fun _ => trivial)
      simp [safe_bind, throw, throwThe, MonadExceptOf.throw]
    · simp only [RewardShape, safe_bind, safe_index, index_eq_ok, safe_require, require_eq_ok,
        safe_deref, deref_eq_ok, length_cons, Nat.zero_lt_succ, List.getElem?_cons_zero,
        Option.some.injEq, forall_eq', forall_const, true_and, Nat.succ_lt_succ_iff,
        List.getElem?_cons_succ, implies_true, and_true, isSome_iff_exists]
      refine imp_congr_right fun _ => imp_congr_right fun _ => ?_
      constructor
      · rintro ⟨⟨v, hv⟩, h⟩
        exact ⟨v, hv, h v hv⟩
      · rintro ⟨v, hv, h⟩
        refine ⟨⟨v, hv⟩, fun w hw => ?_⟩
        obtain rfl : v = w := Option.some.inj (hv.symm.trans hw)
        exact h

theorem PovCoinBaseTx.safe_buildHashData (cbTx : PovCoinBaseTx) :
    Safe (cbTx.buildHashData : Except (Halt ε) Bytes) ↔
      (∃ txIn, cbTx.txIns.head? = some (some txIn)) ∧
        ∀ txOut ∈ cbTx.txOuts, txOut.isSome = true := by
  unfold PovCoinBaseTx.buildHashData
  cases cbTx.txIns with
  | nil => simp [safe_bind]
  | cons txIn txIns =>
    cases txIn with
    | none => simp [safe_bind]
    | some txIn =>
      simp only [safe_bind, safe_index, index_eq_ok, length_cons, Nat.zero_lt_succ,
        List.getElem?_cons_zero, Option.some.injEq, forall_eq', safe_deref, isSome_some,
        deref_eq_ok, safe_derefAll, safe_pure, implies_true, and_true, true_and, List.head?_cons,
        exists_eq']

theorem PovCoinBaseTx.plain_buildHashData (cbTx : PovCoinBaseTx) :
    Plain (cbTx.buildHashData : Except (Halt ε) Bytes) :=
  (plain_index cbTx.txIns 0).bind fun txIn _ => (plain_deref txIn).bind fun _ _ =>
    (plain_derefAll cbTx.txOuts).bind fun _ _ => plain_ok _

theorem safe_loadTxs (hashes : List Hash) : Safe (pv.loadTxs hashes) := by
  unfold PovVerifier.loadTxs
  simp only [safe_bind, safe_require, safe_pure, implies_true, and_self]

theorem safe_verifyOrder (sdb : PovStateDB γ) (prevHashes : Table (Address × Hash) Hash)
    (txs : List PovTransaction) : Safe (pv.verifyOrder sdb prevHashes txs) := by
  induction txs generalizing prevHashes with
  | nil => exact safe_pure _
  | cons tx txs ih =>
    unfold verifyOrder
    simp only [safe_bind, safe_require, ih, implies_true, and_self]

/-- The shape for `verifyTransactions`: a coinbase, all transactions if their number is right, and
the input and outputs of the coinbase if the merkle root is right. -/
def TxShape : Prop :=
  ∃ cbTx, block.header.cbTx = some cbTx ∧
    (cbTx.txNum = UInt32.ofNat block.txs.length → 1 ≤ block.txs.length →
      (∀ tx ∈ block.txs, tx.isSome = true) ∧
      ∀ txHashList, block.txs = txHashList.map some →
        (calcMerkleTreeRootHash pv.sha256d txHashList : Verify ε Hash) =
          .ok block.header.basHdr.merkleRoot →
        block.header.basHdr.merkleRoot ≠ 0 →
        (∃ txIn, cbTx.txIns.head? = some (some txIn)) ∧
        (∀ txOut ∈ cbTx.txOuts, txOut.isSome = true) ∧ RewardShape cbTx.txOuts)

theorem safe_verifyTransactions (sdb : PovStateDB γ) :
    Safe (pv.verifyTransactions block sdb) ↔ TxShape pv block := by
  unfold verifyTransactions TxShape
  cases block.header.cbTx with
  | none => simp [safe_bind]
  | some cbTx =>
    simp only [safe_bind, safe_deref, isSome_some, deref_eq_ok, Option.some.injEq,
      forall_eq', exists_eq_left', true_and, safe_require, require_eq_ok, safe_derefAll,
      derefAll_eq_ok, forall_const, safe_loadTxs, safe_verifyOrder, safe_pure, implies_true,
      and_true, PovCoinBaseTx.safe_buildHashData, safe_verifyCoinBaseTx]
    refine imp_congr_right fun _ => imp_congr_right fun _ => and_congr_right fun _ =>
      forall_congr' fun txHashList => imp_congr_right fun _ => ?_
    obtain ⟨root, hroot⟩ := @exists_calcMerkleTreeRootHash (VerifyError ε) pv.sha256d txHashList
    rw [hroot]
    simp only [safe_ok, Except.ok.injEq, forall_eq', true_and]
    constructor
    · intro h hmerkle hne
      obtain ⟨⟨htxIn, htxOuts⟩, hreward⟩ := h (hmerkle ▸ hne) hmerkle
      obtain ⟨data, hdata⟩ := (cbTx.plain_buildHashData).safe_iff.mp
        (cbTx.safe_buildHashData.mpr ⟨htxIn, htxOuts⟩)
      exact ⟨htxIn, htxOuts, hreward data hdata⟩
    · intro h hne hmerkle
      obtain ⟨htxIn, htxOuts, hreward⟩ := h hmerkle (hmerkle ▸ hne)
      exact ⟨⟨htxIn, htxOuts⟩, fun _ _ => hreward⟩

theorem safe_verifyState {cbTx : PovCoinBaseTx} (hcbTx : block.header.cbTx = some cbTx)
    (txs : List PovTransaction) (sdb : PovStateDB γ) : Safe (pv.verifyState block txs sdb) := by
  unfold verifyState
  cases transitStateDB pv.updateContractState block.header.basHdr.height.toNat txs sdb with
  | error e => exact safe_reject _
  | ok sdb =>
    simp only [hcbTx, safe_bind, safe_deref, isSome_some, safe_require, safe_pure,
      implies_true, and_self]

def Shape : Prop :=
  pv.verifyDataIntegrity block = .ok () → pv.verifyTimestamp block = .ok () →
    ∀ prevHeader, pv.verifyReferred block = .ok prevHeader →
      (∀ ap, block.header.auxHdr = some ap → AuxShape pv block ap) ∧
      (pv.verifyAuxHeader block = .ok () →
        ProducerShape pv block ∧ (pv.verifyConsensus block = .ok () → TxShape pv block))

theorem safe_verifyStages : Safe (pv.verifyStages block) ↔ Shape pv block := by
  have hintegrity : Safe (pv.verifyDataIntegrity block) := by
    unfold verifyDataIntegrity
    simp only [safe_bind, safe_require, implies_true, and_self]
  have htime : Safe (pv.verifyTimestamp block) := by
    unfold verifyTimestamp
    simp only [safe_bind, safe_require, implies_true, and_self]
  unfold verifyStages Shape
  rw [safe_seq, and_iff_right hintegrity]
  refine imp_congr_right fun _ => ?_
  rw [safe_seq, and_iff_right htime]
  refine imp_congr_right fun _ => ?_
  rw [safe_bind, and_iff_right (safe_verifyReferred pv block)]
  refine forall_congr' fun prevHeader => imp_congr_right fun _ => ?_
  rw [safe_seq, safe_verifyAuxHeader]
  refine and_congr_right fun _ => imp_congr_right fun _ => ?_
  rw [safe_seq, safe_verifyConsensus]
  refine and_congr_right fun _ => imp_congr_right fun _ => ?_
  rw [safe_bind, safe_verifyTransactions, and_iff_left_of_imp]
  rintro ⟨cbTx, hcbTx, -⟩ txs -
  exact safe_verifyState pv block hcbTx txs _

theorem verifyFull_returns_iff_safe :
    (∃ stat, pv.verifyFull block = .ok stat) ↔ Safe (pv.verifyStages block) := by
  unfold verifyFull
  rcases pv.verifyStages block with (fault | e) | sdb
  · simp
  · simp
  · simp

end Stages

/-- The verifier returns a statistic exactly for the blocks of the right shape. -/
theorem verifyFull_returns_iff (pv : PovVerifier γ ε) (block : PovBlock) :
    (∃ stat, pv.verifyFull block = .ok stat) ↔ Shape pv block :=
  (verifyFull_returns_iff_safe pv block).trans (safe_verifyStages pv block)

def lengthHash (bs : Bytes) : Hash := BitVec.ofNat 256 (bs.length * 256 ^ 31)

def oneHeaderVerifier : PovVerifier Unit Unit where
  sha256d := lengthHash
  scrypt := lengthHash
  x11 := lengthHash
  hashData := lengthHash
  now := 1000
  genesisHash := 3
  mode := .pow
  minerPledge := 0
  getHeaderByHash h :=
    if h = 7 then
      some
        { version := 0, previous := 3, merkleRoot := 1, timestamp := 1, bits := 0x0300ffff,
          nonce := 0, hash := 7, height := 5, stateHash := 9 }
    else none
  relativeAncestor _ _ := none
  getStateBlockConfirmed _ := none
  hasTrie _ := true
  newStateDB _ := { accounts := ∅, reps := ∅, contracts := () }
  getCurHash _ := 9
  updateContractState _ _ _ := .ok ()

def nextHeader (merkleRoot : Hash) : PovBaseHeader where
  version := 0
  previous := 7
  merkleRoot := merkleRoot
  timestamp := 2
  bits := 0x0300ffff
  nonce := 0
  hash := BitVec.ofNat 256 (80 * 256 ^ 31)
  height := 6

def onlyInput : PovCoinBaseTxIn where
  prevTxHash := 0
  prevTxIdx := 0
  extra := []
  sequence := 0

def noOutputs : PovCoinBaseTx where
  version := 1
  txIns := [some onlyInput]
  txOuts := []
  stateHash := 9
  txNum := 1

def deepAuxHeader : PovAuxHeader where
  auxMerkleBranch := List.replicate 32 (some 0)
  auxMerkleIndex := 0
  parCoinBaseTx :=
    { version := 1, txOut := [], lockTime := 0
      txIn := [some
        { previousOutPoint := { hash := 0, index := 0 }, sequence := 0
          signatureScript :=
            povAuxPowHeaderMagic ++ hashBytes (reverseByte (BitVec.ofNat 256 (64 * 256 ^ 31))) ++
              List.replicate 8 0 }] }
  parCoinBaseMerkle := [some 0]
  parMerkleIndex := 0
  parBlockHeader :=
    { version := 0, previous := 0, merkleRoot := BitVec.ofNat 256 (64 * 256 ^ 31), timestamp := 0
      bits := 0, nonce := 0 }

/-- No coinbase, a coinbase without outputs, and an auxiliary branch of 32 hashes. -/
theorem verifyFull_panics :
    oneHeaderVerifier.verifyFull
        { header := { basHdr := nextHeader 0, auxHdr := none, cbTx := none }, txs := [] } =
      .error .nilPointer ∧
    oneHeaderVerifier.verifyFull
        { header := { basHdr := nextHeader (BitVec.ofNat 256 (83 * 256 ^ 31)), auxHdr := none
                      cbTx := some noOutputs }
          txs := [some (BitVec.ofNat 256 (83 * 256 ^ 31))] } =
      .error .outOfRange ∧
    oneHeaderVerifier.verifyFull
        { header := { basHdr := nextHeader 0, auxHdr := some deepAuxHeader, cbTx := none }
          txs := [] } =
      .error .divideByZero := by
  refine ⟨?_, ?_, ?_⟩
  · rfl
  · rfl
  · rfl

end GoQlc.Pov.Wire
