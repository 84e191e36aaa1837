import GoQlc.Config.Devnet
import GoQlc.Process.CheckSpec

/-!
# Contract data

The call data of a contract block is compared with what its contract produces by a case-folding
comparison of runes.
-/

namespace GoQlc

open Config Result Devnet

namespace Env

variable {env : Env} {v : View} {l : Ledger} {b : StateBlock} {data : Bytes}

def Produces (env : Env) (v : View) (l : Ledger) (b : StateBlock) (data : Bytes) : Prop :=
  (b.type = .contractSend ∧ ∃ c ctx, env.getChainContract b.link b.getPayload = some c ∧
    VmContext.newVMContextWithBlock v l b = some ctx ∧ SendProduces c ctx b.clone data) ∨
  (b.type = .contractReward ∧ ∃ input g, l.blocks.get b.link = some input ∧
    input.isHidden = false ∧ env.RewardProduces v l b input g ∧ g.block.data = data)

theorem SendProduces.unique {c : Contract} {ctx : VmContext} {data data' : Bytes}
    (h : SendProduces c ctx b data) (h' : SendProduces c ctx b data') : data = data' := by
  rcases h with ⟨hver, h⟩ | ⟨hver, -, h, -⟩ <;> rcases h' with ⟨hver', h'⟩ | ⟨hver', -, h', -⟩
  · exact Except.ok.inj (h.symm.trans h')
  · omega
  · omega
  · exact h.symm.trans h'

theorem equalFold_of_accepted (hgen : env.isGenesisBlock b = false) (hvis : b.isHidden = false)
    (hex : ¬ env.Exempt v l b) (h : env.blockCheck v l b = .ok ())
    (hdata : env.Produces v l b data) : env.equalFold b.data data = true := by
  have hok := (blockCheck_ok.mp h).resolve_right hex
  rcases hdata with ⟨ht, c, ctx, hc, hctx, hsend⟩ | ⟨ht, input, g, hinput, hin, hg, rfl⟩
  · obtain ⟨-, -, hhid | ⟨-, c', hc', hcheck⟩⟩ := (contractSend_ok ht hgen).mp hok
    · rw [hvis] at hhid
      cases hhid
    · obtain rfl : c = c' := Option.some.inj (hc.symm.trans hc')
      obtain ⟨ctx', data', hctx', hsend', heq⟩ := checkSendData_ok.mp hcheck
      obtain rfl : ctx = ctx' := Option.some.inj (hctx.symm.trans hctx')
      rw [hsend.unique hsend']
      exact heq
  · obtain ⟨g', _, hg', -, heq, -⟩ := readable_reward_ok ht hgen hvis hinput hin hok
    rw [hg.unique hg']
    unfold equalFold at heq ⊢
    rw [Utf8.equalFold_comm]
    exact heq

/-! ## A network for any produced data -/

def fixedContract (data : Bytes) : Contract where
  describe := { specVer := 1 }
  doSend := fun _ _ => .ok data

/-- A network with that contract at address one, and a hash that tells only
blocks of the zero token from others. -/
def fixedEnv (fold : ℕ → ℕ) (data : Bytes) : Env where
  hashData := fun bs => if bs[1]? = some 0 then 0 else 2
  verify := fun _ _ _ => false
  isValidWork := fun _ _ => false
  simpleFold := fold
  isVerifiedData := fun _ => false
  otherContracts := fun addr => if addr = 1 then some fun _ => some (fixedContract data) else none

def fixedCall (callData : Bytes) : StateBlock where
  type := .contractSend
  token := 0
  address := 0
  balance := 0
  previous := 1
  link := 1
  data := callData
  representative := 0

def fixedLedger : Ledger := { blocks := Table.put ∅ 1 (fixedCall []) }

variable {fold : ℕ → ℕ} {callData : Bytes}

theorem hashData_of_token (token : Hash) (b : StateBlock) (ht : b.token = token) :
    b.getHash (fixedEnv fold data).hashData = if (hashBytes token)[0]? = some 0 then 0 else 2 := by
  obtain ⟨rest, hrest⟩ := b.exists_buildHashData
  have hbyte : b.buildHashData[1]? = (hashBytes token)[0]? := by
    rw [hrest, ht, List.getElem?_cons_succ, List.getElem?_append_left (by simp)]
  simp only [StateBlock.getHash, fixedEnv, hbyte]

theorem getHash_fixedCall : (fixedCall callData).getHash (fixedEnv fold data).hashData = 0 := by
  rw [hashData_of_token 0 _ rfl]
  decide

theorem isGenesisBlock_fixedCall :
    (fixedEnv fold data).isGenesisBlock (fixedCall callData) = false := by
  unfold isGenesisBlock Config.isGenesisBlock
  simp only [getHash_fixedCall]
  simp only [allGenesisBlocks, List.any_cons, List.any_nil, Bool.or_false, Bool.or_eq_false_iff]
  refine ⟨?_, ?_, ?_, ?_⟩
  · rw [hashData_of_token chainToken _ rfl]
    decide
  · rw [hashData_of_token chainToken _ rfl]
    decide
  · rw [hashData_of_token gasToken _ rfl]
    decide
  · rw [hashData_of_token gasToken _ rfl]
    decide

theorem getChainContract_fixedEnv (payload : Bytes) :
    (fixedEnv fold data).getChainContract 1 payload = some (fixedContract data) := by
  unfold getChainContract chainContracts
  rw [if_neg (by decide), if_neg (by decide), if_neg (by decide), if_neg (by decide)]
  rfl

theorem accepted_fixedCall (h : Utf8.equalFold fold callData data = true) :
    (fixedEnv fold data).blockCheck view fixedLedger (fixedCall callData) = .ok () := by
  have hnone : fixedLedger.getTokenMetaConfirmed (fixedCall callData).address
      (fixedCall callData).token = none := rfl
  have hprev : fixedLedger.blocks.get 1 = some (fixedCall []) := Table.get_put_self _ _ _
  have hfresh : fixedLedger.blocks.get 0 = none := by decide
  apply blockCheck_ok.mpr
  left
  apply (contractSend_ok rfl isGenesisBlock_fixedCall).mpr
  refine ⟨?_, ⟨fixedCall [], hprev, ?_, le_rfl⟩, .inr ⟨rfl, _, getChainContract_fixedEnv _, ?_⟩⟩
  · apply baseInfo_ok.mpr
    refine ⟨by rw [getHash_fixedCall]; exact hfresh, .inr ⟨?_, some (fixedContract data), ?_, ?_⟩⟩
    · rintro ⟨-, hhid⟩
      cases hhid
    · exact congrArg Except.ok (getChainContract_fixedEnv _)
    · rfl
  · intro tm htm
    rw [hnone] at htm
    cases htm
  · exact checkSendData_ok.mpr ⟨_, data, rfl, .inl ⟨rfl, rfl⟩, h⟩

/-- The data of every accepted contract block is the data its contract produced, byte for byte,
exactly when that data is rigid: made of well-formed runes that fold to nothing but themselves. -/
theorem accepted_data_eq_iff_foldRigid (fold : ℕ → ℕ) (data : Bytes) :
    Utf8.FoldRigid fold data ↔
      ∀ env : Env, env.simpleFold = fold → ∀ v l b, env.blockCheck v l b = .ok () →
        env.isGenesisBlock b = false → b.isHidden = false → ¬ env.Exempt v l b →
        env.Produces v l b data → b.data = data := by
  rw [Utf8.foldRigid_iff]
  constructor
  · rintro hrigid env rfl v l b hacc hgen hvis hex hdata
    exact hrigid b.data (equalFold_of_accepted hgen hvis hex hacc hdata)
  · intro hall s hs
    refine hall (fixedEnv fold data) rfl view fixedLedger (fixedCall s)
      (accepted_fixedCall hs) isGenesisBlock_fixedCall rfl ?_ ?_
    · rintro ⟨hv, -⟩
      cases hv
    · exact .inl ⟨rfl, _, _, getChainContract_fixedEnv _, rfl, .inl ⟨rfl, rfl⟩⟩

end Env

/-- An issue whose token id differs from the determined one in the case of its
last byte, a letter. -/
def Devnet.caseSend : StateBlock :=
  signed
    { type := .contractSend, token := chainToken, address := genesisAddress
      balance := genesisBlock.balance - Mintage.minPledgeAmount, previous := genesisHash
      link := mintageAddress, representative := genesisAddress
      data := (issueParam (issueId ^^^ 0x20)).toABI Devnet.env.toCrypto }

open Devnet in
theorem caseSend_accepted_with_other_data :
    env.blockCheck view env.genesisLedger caseSend = .ok () ∧
    ∃ data, Env.Produces env view env.genesisLedger caseSend data ∧ caseSend.data ≠ data := by
  have hfacts : env.blockCheck view env.genesisLedger caseSend = .ok () ∧
      ((env.getChainContract caseSend.link caseSend.getPayload).any fun c =>
        (VmContext.newVMContextWithBlock view env.genesisLedger caseSend).any fun ctx =>
          decide (c.describe.specVer = 1) && (c.doSend ctx caseSend.clone).toOption.any fun data =>
            decide (caseSend.data ≠ data)) = true := by
    decide +kernel
  obtain ⟨hacc, hany⟩ := hfacts
  obtain ⟨c, hc, hany⟩ := (Option.any_eq_true _ _).mp hany
  obtain ⟨ctx, hctx, hany⟩ := (Option.any_eq_true _ _).mp hany
  obtain ⟨hver, hany⟩ := Bool.and_eq_true_iff.mp hany
  obtain ⟨data, hdata, hne⟩ := (Option.any_eq_true _ _).mp hany
  have hsend : c.doSend ctx caseSend.clone = .ok data := Result.toOption_eq_some.mp hdata
  exact ⟨hacc, data, .inl ⟨rfl, c, ctx, hc, hctx, .inl ⟨of_decide_eq_true hver, hsend⟩⟩,
    of_decide_eq_true hne⟩

/-! ## Weights -/

open Abi Balance List Mintage Option StateBlock VmContext

namespace StateBlock

theorem addWeight_congr {x y : ℕ} (hle : x ≤ y) (hword : uint64 x = uint64 y)
    (w w' : Option ℕ) (hw : uint64 (w.getD 0) = uint64 (w'.getD 0))
    (hsome : w.isSome = true) :
    addWeight x w ≤ addWeight y w' ∧
      uint64 (addWeight x w) = uint64 (addWeight y w') := by
  obtain ⟨n, rfl⟩ := isSome_iff_exists.mp hsome
  have hx := uint64_lt x
  cases w' with
  | some n' =>
    have heq : Balance.add x n = Balance.add y n' := by
      simp only [getD_some] at hw
      rw [add_eq, add_eq, hword, hw]
    exact ⟨heq.le, congrArg _ heq⟩
  | none =>
    -- adding a full word to a total only cuts it down to its low word
    have hzero : uint64 n = 0 := hw
    have heq : Balance.add x n = uint64 x := by
      rw [add_eq, hzero, Nat.add_zero, if_pos hx]
    change Balance.add x n ≤ y ∧ uint64 (Balance.add x n) = uint64 y
    rw [heq, uint64_of_lt hx]
    exact ⟨(Nat.mod_le _ _).trans hle, hword⟩

def raise (w : ℕ) : Option ℕ := some (w + 2 ^ 64)

theorem uint64_raise (w : ℕ) : uint64 ((raise w).getD 0) = uint64 w :=
  Nat.add_mod_right _ _

end StateBlock

namespace Env

variable {env : Env} {v : View} {l : Ledger}

def raisingSend (env : Env) (a : Address) (t : Hash) (tm : TokenMeta) (previous : StateBlock)
    (work : UInt64) (signature : Signature) : StateBlock where
  type := .contractSend
  token := t
  address := a
  balance := previous.balance
  vote := raise previous.getVote
  network := raise previous.getNetwork
  storage := raise previous.getStorage
  oracle := raise previous.getOracle
  previous := tm.header
  link := mintageAddress
  data := packMethod env.hashData withdrawMethod (chainToken, ())
  representative := tm.representative
  work := work
  signature := signature

variable {a : Address} {t : Hash} {tm : TokenMeta} {previous : StateBlock} {work : UInt64}
  {signature : Signature}

theorem totalBalance_raisingSend :
    (env.raisingSend a t tm previous work signature).totalBalance ≤ previous.totalBalance ∧
    uint64 (env.raisingSend a t tm previous work signature).totalBalance =
      uint64 previous.totalBalance := by
  have h₁ := addWeight_congr (le_refl previous.balance) rfl
    (raise previous.getVote) previous.vote (uint64_raise _) rfl
  have h₂ := addWeight_congr h₁.1 h₁.2
    (raise previous.getNetwork) previous.network (uint64_raise _) rfl
  have h₃ := addWeight_congr h₂.1 h₂.2
    (raise previous.getOracle) previous.oracle (uint64_raise _) rfl
  exact addWeight_congr h₃.1 h₃.2
    (raise previous.getStorage) previous.storage (uint64_raise _) rfl

/-! ## The withdrawal call is well formed -/

theorem length_withdrawCall :
    (packMethod env.hashData withdrawMethod (chainToken, ())).length = 36 := by
  unfold packMethod Abi.Method.id
  rw [length_append, length_take, hashBytes_length]
  decide

theorem take_withdrawCall :
    (packMethod env.hashData withdrawMethod (chainToken, ())).take 4 =
      withdrawMethod.id env.hashData := by
  have hlen : (withdrawMethod.id env.hashData).length = 4 := by
    simp [Abi.Method.id]
  unfold packMethod
  rw [← hlen, take_left]

theorem methodById_withdraw
    (hid : mintageMethod.id env.hashData ≠ withdrawMethod.id env.hashData)
    {sigdata : Bytes} (hlen : 4 ≤ sigdata.length)
    (htake : sigdata.take 4 = withdrawMethod.id env.hashData) :
    methodById env.hashData Mintage.methods sigdata = some withdrawMethod := by
  unfold methodById Mintage.methods
  rw [if_neg (by omega), htake, List.find?_cons_of_neg (by simpa using hid),
    List.find?_cons_of_pos (by simp)]

theorem unpackValues_tokenId {output : Bytes} (h : 32 ≤ output.length) :
    unpackValues [.tokenId] 0 output =
      some (BitVec.ofNat 256 (Bytes.toNat (readWord 0 output)), ()) := by
  have hword : ¬ output.length < 0 * wordSize + wordSize := by
    unfold wordSize
    omega
  unfold unpackValues toGoType
  rw [if_neg hword]
  rfl

section Withdraw

variable
  (hid : mintageMethod.id env.hashData ≠ withdrawMethod.id env.hashData)
include hid

theorem getChainContract_withdrawCall :
    env.getChainContract mintageAddress
        (packMethod env.hashData withdrawMethod (chainToken, ())) =
      some (withdrawMintage env.toCrypto) := by
  have hmethod := methodById_withdraw hid (by rw [length_withdrawCall]; decide) take_withdrawCall
  unfold getChainContract chainContracts
  rw [if_pos rfl, bind_some, lookupMethod]
  simp only [mintageContract, hmethod, bind_some]
  rfl

theorem parseWithdraw_withdrawCall :
    ∃ tokenId, parseWithdraw env.toCrypto
      (packMethod env.hashData withdrawMethod (chainToken, ())) = some tokenId := by
  have hlen : (packMethod env.hashData withdrawMethod (chainToken, ())).length = 36 :=
    length_withdrawCall
  have hmethod : methodById env.hashData Mintage.methods
      ((packMethod env.hashData withdrawMethod (chainToken, ())).take 4) =
      some withdrawMethod := by
    apply methodById_withdraw hid
    · rw [length_take, hlen]
      decide
    · rw [take_take, take_withdrawCall.symm]
      rfl
  have hdrop : 32 ≤
      ((packMethod env.hashData withdrawMethod (chainToken, ())).drop 4).length := by
    rw [length_drop, hlen]
  unfold parseWithdraw unpackMethod
  rw [if_neg (by rw [hlen]; decide)]
  simp only [hmethod, if_true]
  exact ⟨_, congrArg (Option.map _) (unpackValues_tokenId hdrop)⟩

end Withdraw

theorem calculateAmount_raisingSend
    (hgen : env.isGenesisBlock (env.raisingSend a t tm previous work signature) = false)
    (hprev : l.getStateBlock v tm.header = some previous) :
    l.calculateAmount env.toCrypto v (env.raisingSend a t tm previous work signature).clone =
      some 0 := by
  have htotals : _ ∧ uint64 (env.raisingSend a t tm previous work signature).totalBalance =
      uint64 previous.totalBalance := totalBalance_raisingSend
  have hgen' : Config.isGenesisBlock env.hashData
      (env.raisingSend a t tm previous work signature).clone = false := hgen
  have hget : l.getStateBlock v (env.raisingSend a t tm previous work signature).clone.previous =
      some previous := hprev
  have hsub : Balance.sub previous.totalBalance
      (env.raisingSend a t tm previous work signature).clone.totalBalance = 0 := by
    change Balance.sub previous.totalBalance
      (env.raisingSend a t tm previous work signature).totalBalance = 0
    rw [sub_eq, htotals.2, Nat.sub_self]
  unfold Ledger.calculateAmount
  change (if Config.isGenesisBlock env.hashData _ = true then _ else _) = _
  rw [hgen', if_neg (by decide), hget, map_some, hsub]

section Acceptance

variable
  (htm : l.getTokenMetaConfirmed a t = some tm) (hprev : l.blocks.get tm.header = some previous)
  (hkey : previous.getHash env.hashData = tm.header) (hcache : v.blockCache tm.header = none)
  (hpov : ∃ latest, v.latestPovHeight = some latest ∧ v.hasPovHeader 0 = true)
  (hid : mintageMethod.id env.hashData ≠ withdrawMethod.id env.hashData)
  (hnew : l.blocks.get ((env.raisingSend a t tm previous work signature).getHash env.hashData) = none)
  (hwork : (env.raisingSend a t tm previous work signature).isValid env.toCrypto = true)
  (hsign : (env.raisingSend a t tm previous work signature).isSigned env.toCrypto = true)

include hid hnew hwork hsign in
theorem baseInfo_raisingSend :
    env.baseInfo l (env.raisingSend a t tm previous work signature) = .ok () := by
  apply baseInfo_ok.mpr
  refine ⟨hnew, .inr ⟨?_, some (withdrawMintage env.toCrypto), ?_, ?_⟩⟩
  · rintro ⟨-, hhid⟩
    cases hhid
  · exact congrArg Except.ok (getChainContract_withdrawCall hid)
  · exact checkWorkSign_ok.mpr ⟨fun _ => hwork, fun _ => hsign⟩

include hprev hcache hpov hid in
theorem checkSendData_raisingSend
    (hgen : env.isGenesisBlock (env.raisingSend a t tm previous work signature) = false) :
    env.checkSendData v l (env.raisingSend a t tm previous work signature)
      (withdrawMintage env.toCrypto) = .ok () := by
  obtain ⟨latest, hlatest, hheader⟩ := hpov
  obtain ⟨tokenId, hparse⟩ := parseWithdraw_withdrawCall hid
  have hget : l.getStateBlock v tm.header = some previous := by
    unfold Ledger.getStateBlock
    rw [hcache, none_or]
    exact hprev
  have hpovHeight : ¬ latest < 0 := by
    rw [UInt64.lt_iff_toNat_lt]
    exact Nat.not_lt_zero _
  have hctx : newVMContextWithBlock v l
      (env.raisingSend a t tm previous work signature) =
      some { ledger := l, view := v, contractAddr := mintageAddress, povHeight := 0 } := by
    unfold newVMContextWithBlock
    rw [hlatest]
    simp only [raisingSend, bind_eq_bind, bind_some, hpovHeight, ↓reduceIte, hheader]
    rfl
  refine checkSendData_ok.mpr ⟨_, _, hctx, .inl ⟨rfl, ?_⟩, Utf8.equalFold_refl _⟩
  change withdrawDoSend env.toCrypto _ _ = _
  unfold withdrawDoSend calculateAmount
  rw [calculateAmount_raisingSend hgen hget]
  have hdata : parseWithdraw env.toCrypto
      (env.raisingSend a t tm previous work signature).clone.data = some tokenId := hparse
  rw [hdata]
  rfl

include htm hprev hkey hcache hpov hid hnew hwork hsign in
/-- Every chain can be continued by an accepted contract send that raises all
four weights: whatever the ledger, as long as the head of the chain is stored
under its hash and no unconfirmed block hides it, the node has a
proof-of-value header, the two mintage methods have different ids, and the
block is new and carries the work and the signature of its account. -/
theorem exists_accepted_send_raising_weights :
    ∃ b, b.type = .contractSend ∧ b.address = a ∧ b.token = t ∧ b.previous = tm.header ∧
      env.blockCheck v l b = .ok () ∧
      previous.getVote < b.getVote ∧ previous.getNetwork < b.getNetwork ∧
      previous.getStorage < b.getStorage ∧ previous.getOracle < b.getOracle := by
  have hraise : ∀ w, w < (raise w).getD 0 := by
    intro w
    exact Nat.lt_add_of_pos_right (by decide)
  refine ⟨env.raisingSend a t tm previous work signature, rfl, rfl, rfl, rfl, ?_,
    hraise _, hraise _, hraise _, hraise _⟩
  apply blockCheck_ok.mpr
  left
  cases hgen : env.isGenesisBlock (env.raisingSend a t tm previous work signature) with
  | true =>
    -- a block with the hash of a genesis block is not even looked at
    change env.contractSendBlockCheck v l _ = .ok ()
    unfold contractSendBlockCheck
    rw [if_pos hgen]
  | false =>
    apply (contractSend_ok rfl hgen).mpr
    refine ⟨baseInfo_raisingSend hid hnew hwork hsign,
      ⟨previous, hprev, ?_, totalBalance_raisingSend.1⟩,
      .inr ⟨rfl, _, getChainContract_withdrawCall hid,
        checkSendData_raisingSend hprev hcache hpov hid hgen⟩⟩
    intro tm' htm'
    obtain rfl : tm = tm' := Option.some.inj (htm.symm.trans htm')
    exact hkey

end Acceptance

end Env

namespace Devnet

def shiftSend : StateBlock :=
  signed
    { type := .contractSend, token := chainToken, address := genesisAddress
      balance := genesisBlock.balance - 100, vote := some 100, previous := genesisHash
      link := mintageAddress, representative := genesisAddress
      data := packMethod hashData withdrawMethod (chainToken, ()) }

def genesisMeta : TokenMeta := env.newTokenMeta genesisBlock

def raisingSignature : Signature :=
  sign genesisAddress (hashBytes ((env.raisingSend genesisAddress chainToken genesisMeta
    genesisBlock.clone 0 0).getHash hashData))

end Devnet

open Devnet in
theorem shiftSend_accepted_with_raised_vote :
    env.blockCheck view env.genesisLedger shiftSend = .ok () ∧
    ∃ previous, env.genesisLedger.blocks.get shiftSend.previous = some previous ∧
      previous.benefit.total = shiftSend.benefit.total ∧ previous.getVote < shiftSend.getVote := by
  have hfacts : env.blockCheck view env.genesisLedger shiftSend = .ok () ∧
      env.genesisLedger.blocks.get shiftSend.previous = some genesisBlock.clone ∧
      genesisBlock.clone.benefit.total = shiftSend.benefit.total ∧
      genesisBlock.clone.getVote < shiftSend.getVote := by
    decide +kernel
  exact ⟨hfacts.1, genesisBlock.clone, hfacts.2⟩

open Devnet in
theorem exists_accepted_send_raising_genesis_weights :
    ∃ b, b.type = .contractSend ∧ b.address = genesisAddress ∧ b.token = chainToken ∧
      b.previous = genesisMeta.header ∧ env.blockCheck view env.genesisLedger b = .ok () ∧
      genesisBlock.clone.getVote < b.getVote ∧ genesisBlock.clone.getNetwork < b.getNetwork ∧
      genesisBlock.clone.getStorage < b.getStorage ∧
      genesisBlock.clone.getOracle < b.getOracle := by
  have hledger : env.genesisLedger.getTokenMetaConfirmed genesisAddress chainToken =
        some genesisMeta ∧
      env.genesisLedger.blocks.get genesisMeta.header = some genesisBlock.clone ∧
      env.genesisLedger.blocks.get ((env.raisingSend genesisAddress chainToken genesisMeta
        genesisBlock.clone 0 raisingSignature).getHash env.hashData) = none := by
    decide +kernel
  have hblock : (env.raisingSend genesisAddress chainToken genesisMeta
      genesisBlock.clone 0 raisingSignature).isSigned env.toCrypto = true := by
    decide +kernel
  obtain ⟨htm, hprev, hnew⟩ := hledger
  exact Env.exists_accepted_send_raising_weights htm hprev rfl rfl ⟨0, rfl, rfl⟩
    (by decide +kernel) hnew rfl hblock

end GoQlc
