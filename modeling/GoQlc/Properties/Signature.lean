import GoQlc.Config.Devnet
import GoQlc.Process.Run

/-!
# Authenticity of accepted blocks

The signature of a block is tested behind an early return for contract blocks whose private payload
the node does not hold.
-/

namespace GoQlc

open Config Result

namespace Env

variable {env : Env} {v : View} {l : Ledger} {b : StateBlock}

def Waived (env : Env) (l : Ledger) (b : StateBlock) : Prop :=
  ∃ c, env.descriptorOf l b = .ok (some c) ∧ c.describe.signature = false

def Authentic (env : Env) (l : Ledger) (b : StateBlock) : Prop :=
  b.isSigned env.toCrypto = true ∨ env.Waived l b

theorem authentic_of_checkWorkSign {c : Option Contract} (hc : env.descriptorOf l b = .ok c)
    (h : env.checkWorkSign b c = .ok ()) : env.Authentic l b := by
  have hsign := (checkWorkSign_ok.mp h).2
  cases c with
  | none => exact .inl (hsign rfl)
  | some c =>
    cases hd : c.describe.signature with
    | false => exact .inr ⟨c, hc, hd⟩
    | true => exact .inl (hsign (by simp [needsSignature, hd]))

theorem authentic_of_readable (hgen : env.isGenesisBlock b = false)
    (h : env.blockCheck v l b = .ok ()) (hread : ¬ isHiddenContract b) : env.Authentic l b := by
  rcases (baseInfo_ok.mp (baseInfo_of_blockCheck hgen h)).2 with hhid | ⟨-, c, hc, hsign⟩
  · exact absurd hhid hread
  · exact authentic_of_checkWorkSign hc hsign

theorem blockCheck_resigned (hhid : isHiddenContract b) (s : Signature) :
    env.blockCheck v l { b with signature := s } = env.blockCheck v l b := by
  obtain ⟨b', hb'⟩ : ∃ b' : StateBlock, b' = { b with signature := s } := ⟨_, rfl⟩
  have hhash : b'.getHash env.hashData = b.getHash env.hashData := by rw [hb']; rfl
  have htype : b'.type = b.type := by rw [hb']
  have hhid' : isHiddenContract b' := by rw [hb']; exact hhid
  have hfork : env.fork l b' = env.fork l b := by rw [hb']; rfl
  have hbalance : balance l b' = balance l b := by rw [hb']; rfl
  have hpending : env.pending l b' = env.pending l b := by rw [hb']; rfl
  have hsource : source l b' = source l b := by rw [hb']; rfl
  -- the base checks and the contract check return before they read the signature
  have hbase : env.baseInfo l b' = env.baseInfo l b := by
    unfold baseInfo
    rw [hhash, if_pos hhid, if_pos hhid']
  have hcontract : env.contract v l b' = env.contract v l b := by
    unfold contract
    rw [if_pos hhid.2, if_pos hhid'.2]
  have hgen : env.isGenesisBlock b' = env.isGenesisBlock b := by
    unfold isGenesisBlock Config.isGenesisBlock
    rw [hhash]
  have hcheck : env.checkByType v l b' = env.checkByType v l b := by
    unfold checkByType
    rcases hhid.1 with ht | ht
    · rw [htype, ht]
      simp only [contractSendBlockCheck, hgen, hbase, hfork, hbalance, hcontract]
    · rw [htype, ht]
      simp only [contractReceiveBlockCheck, hgen, hbase, hfork, hpending, hsource, hcontract]
  rw [← hb']
  unfold blockCheck
  rw [hcheck, hhash]

/-- Acceptance means authenticity, whatever the signature, exactly for the blocks that are not
contract blocks with a private payload the node does not hold (or whose contract waives the
signature anyway). -/
theorem accepted_authentic_iff_readable (hgen : env.isGenesisBlock b = false)
    (h : env.blockCheck v l b = .ok ())
    (hforge : ∃ s, env.verify b.address (hashBytes (b.getHash env.hashData)) s = false) :
    (∀ s, env.blockCheck v l { b with signature := s } = .ok () →
      env.Authentic l { b with signature := s }) ↔
    ¬ isHiddenContract b ∨ env.Waived l b := by
  constructor
  · intro hall
    by_contra hno
    obtain ⟨hhid, hwaived⟩ := not_or.mp hno
    obtain ⟨s, hs⟩ := hforge
    have hacc : env.blockCheck v l { b with signature := s } = .ok () := by
      rw [blockCheck_resigned (not_not.mp hhid), h]
    rcases hall s hacc with hsigned | hw
    · unfold StateBlock.isSigned at hsigned
      rw [StateBlock.getHash_signature env.hashData b s] at hsigned
      rw [hs] at hsigned
      cases hsigned
    · exact hwaived hw
  · rintro (hread | hw) s hs
    · have hgen' : env.isGenesisBlock { b with signature := s } = false := hgen
      exact authentic_of_readable hgen' hs hread
    · exact .inr hw

end Env

open Devnet in
/-- A private contract call that empties the first account, with no payload and
no signature. -/
def Devnet.hiddenSend : StateBlock where
  type := .contractSend
  token := chainToken
  address := genesisAddress
  balance := 0
  previous := genesisHash
  link := mintageAddress
  representative := genesisAddress
  privateFrom := [1]

open Devnet in
theorem hiddenSend_accepted_unsigned :
    env.isGenesisBlock hiddenSend = false ∧
    env.blockCheck view env.genesisLedger hiddenSend = .ok () ∧
    ¬ Env.Authentic env env.genesisLedger hiddenSend := by
  have hchecks : env.isGenesisBlock hiddenSend = false ∧
      env.blockCheck view env.genesisLedger hiddenSend = .ok () ∧
      hiddenSend.isSigned env.toCrypto = false ∧
      (env.getChainContract hiddenSend.link hiddenSend.getPayload).isNone = true := by
    decide +kernel
  obtain ⟨hgen, hacc, hsigned, hnone⟩ := hchecks
  refine ⟨hgen, hacc, ?_⟩
  rintro (h | ⟨c, hc, -⟩)
  · rw [hsigned] at h
    cases h
  · have hc' : env.getChainContract hiddenSend.link hiddenSend.getPayload = some c :=
      Except.ok.inj hc
    rw [hc'] at hnone
    cases hnone

open Devnet in
theorem accepted_authentic_iff_hiddenSend :
    (∀ s, env.blockCheck view env.genesisLedger { hiddenSend with signature := s } = .ok () →
      Env.Authentic env env.genesisLedger { hiddenSend with signature := s }) ↔
    ¬ Env.isHiddenContract hiddenSend ∨ Env.Waived env env.genesisLedger hiddenSend :=
  Env.accepted_authentic_iff_readable (by decide +kernel) (by decide +kernel)
    ⟨0, by decide +kernel⟩

/-! ## Contract sends without a block signature -/

open BlackHole Option Rewards StateBlock

inductive SignedParams where
  | destroy (p : BlackHole.DestroyParam)
  | rewards (kind : Rewards.Kind) (p : Rewards.RewardsParam)
deriving DecidableEq, Repr

namespace SignedParams

def amount : SignedParams → ℕ
  | destroy p => p.amount
  | rewards _ p => p.amount

def header : SignedParams → Hash
  | destroy p => p.previous
  | rewards _ p => p.txHeader

/-- The embedded signature verifies under the key of `a`. -/
def signedBy (crypto : Crypto) (a : Address) : SignedParams → Bool
  | destroy p => crypto.verify a p.toBytes p.sign
  | rewards kind p => p.isSignedBy crypto kind a

end SignedParams

def Rewards.kindOf (m : Abi.Method) : Option Rewards.Kind :=
  if m = airdropRewardsMethod then some .airdrop
  else if m = confidantRewardsMethod then some .confidant
  else none

namespace Env

variable {env : Env} {v v' : View} {l l' : Ledger} {b : StateBlock} {params : SignedParams}

def signedParams (env : Env) (b : StateBlock) : Option SignedParams :=
  if b.type ≠ .contractSend then none
  else if b.link = blackHoleAddress then
    (Abi.methodById env.hashData BlackHole.methods b.getPayload).bind fun m =>
      if m = destroyMethod then
        (parseDestroyParam env.toCrypto b.data).map .destroy
      else none
  else if b.link = rewardsAddress then
    ((Abi.methodById env.hashData Rewards.methods b.getPayload).bind Rewards.kindOf).bind fun kind =>
      (parseRewardsParam env.toCrypto kind b.data).map (.rewards kind)
  else none

def Lowers (l : Ledger) (b : StateBlock) : Prop := b.balance < l.balanceAt b.address b.token

instance (l : Ledger) (b : StateBlock) : Decidable (Lowers l b) := inferInstanceAs (Decidable (_ < _))

/-- The embedded signature is one of the debited account, over the amount of
the debit and the predecessor of the block. -/
structure Authorised (env : Env) (l : Ledger) (b : StateBlock) (params : SignedParams) : Prop where
  signed : params.signedBy env.toCrypto b.address = true
  amount : params.amount = l.balanceAt b.address b.token - b.balance
  header : params.header = b.previous

/-- What the checks leave open: that the signer is the debited account, that the
header is the predecessor, and that the amount, which for a destroy is taken
from the totals, is the one taken from the balance. The contract computes the
totals on a copy of the block. -/
def Bound (env : Env) (v : View) (l : Ledger) (b : StateBlock) : SignedParams → Prop
  | .destroy p =>
    (p.owner = b.address ∨ env.verify b.address p.toBytes p.sign = true) ∧
    p.previous = b.previous ∧
    ∀ previous, l.getStateBlock v b.previous = some previous →
      Balance.sub previous.totalBalance b.clone.totalBalance =
        l.balanceAt b.address b.token - b.balance
  | .rewards _ p => p.txHeader = b.previous ∧ p.amount = l.balanceAt b.address b.token - b.balance

/-! ## What the checks do compare -/

def contractOf (env : Env) : SignedParams → Contract
  | .destroy _ => blackHole env.toCrypto
  | .rewards kind _ => Rewards.rewards env.toCrypto kind

theorem type_of_signedParams (h : env.signedParams b = some params) : b.type = .contractSend := by
  unfold signedParams at h
  split_ifs at h with ht
  all_goals exact not_not.mp ht

variable {kind : Rewards.Kind}

theorem lookup_kindOf {m : Abi.Method} (h : Rewards.kindOf m = some kind) :
    env.rewardsContract.contracts.lookup m = some (Rewards.rewards env.toCrypto kind) := by
  unfold Rewards.kindOf at h
  split_ifs at h with h1 h2
  · cases h
    rw [h1]
    rfl
  · cases h
    rw [h2]
    rfl

theorem getChainContract_of_signedParams (h : env.signedParams b = some params) :
    b.isHidden = false ∧
      env.getChainContract b.link b.getPayload = some (env.contractOf params) := by
  have hshort : ∀ methods m, Abi.methodById env.hashData methods b.getPayload = some m →
      b.isHidden = false := by
    intro methods m hm
    by_contra hhid
    have hempty : b.getPayload = [] := by
      simp only [isHidden, isRecipient, Bool.not_eq_false,
        Bool.and_eq_true, Bool.not_not] at hhid
      rw [getPayload, if_pos hhid.1]
      exact List.isEmpty_iff.mp hhid.2.2
    rw [hempty] at hm
    cases hm
  unfold signedParams at h
  split_ifs at h with ht hlink hlink'
  · obtain ⟨m, hm, h⟩ := bind_eq_some_iff.mp h
    split_ifs at h with hdestroy
    obtain ⟨p, -, rfl⟩ := map_eq_some_iff.mp h
    refine ⟨hshort _ m hm, ?_⟩
    have hcontracts : env.chainContracts b.link = some (env.lookupMethod env.blackHoleContract) := by
      rw [hlink]
      rfl
    rw [getChainContract, hcontracts, bind_some, lookupMethod]
    have hmethods : env.blackHoleContract.methods = BlackHole.methods := rfl
    rw [hmethods, hm, bind_some, hdestroy]
    rfl
  · obtain ⟨kind, hkind, h⟩ := bind_eq_some_iff.mp h
    obtain ⟨m, hm, hkind⟩ := bind_eq_some_iff.mp hkind
    obtain ⟨p, -, rfl⟩ := map_eq_some_iff.mp h
    refine ⟨hshort _ m hm, ?_⟩
    have hcontracts : env.chainContracts b.link = some (env.lookupMethod env.rewardsContract) := by
      rw [hlink']
      rfl
    rw [getChainContract, hcontracts, bind_some, lookupMethod]
    have hmethods : env.rewardsContract.methods = Rewards.methods := rfl
    rw [hmethods, hm, bind_some]
    exact lookup_kindOf hkind

variable (hgen : env.isGenesisBlock b = false) (h : env.blockCheck v l b = .ok ())

include hgen h in
theorem sendProduces_of_accepted (hp : env.signedParams b = some params) :
    ∃ ctx data, ctx.ledger = l ∧ ctx.view = v ∧
      SendProduces (env.contractOf params) ctx b.clone data := by
  have ht := type_of_signedParams hp
  obtain ⟨hvis, hcontract⟩ := getChainContract_of_signedParams hp
  have hacc : env.checkByType v l b = .ok () := by
    rcases blockCheck_ok.mp h with hok | hexempt
    · exact hok
    · have hrecv := (getPending_of_exempt hexempt).1
      simp [isReceiveBlock, ht] at hrecv
  obtain ⟨-, -, hhid | ⟨-, c, hc, hdata⟩⟩ := (contractSend_ok ht hgen).mp hacc
  · rw [hvis] at hhid
    cases hhid
  · obtain rfl : env.contractOf params = c := Option.some.inj (hcontract.symm.trans hc)
    obtain ⟨ctx, data, hctx, hsend, -⟩ := checkSendData_ok.mp hdata
    obtain ⟨hl, hv⟩ := VmContext.reads_of_newVMContextWithBlock hctx
    exact ⟨ctx, data, hl, hv, hsend⟩

theorem parse_of_destroy {p : BlackHole.DestroyParam} (h : env.signedParams b = some (.destroy p)) :
    parseDestroyParam env.toCrypto b.data = some p := by
  unfold signedParams at h
  split_ifs at h
  · obtain ⟨m, -, h⟩ := bind_eq_some_iff.mp h
    split_ifs at h
    obtain ⟨p', hparse, heq⟩ := map_eq_some_iff.mp h
    cases heq
    exact hparse
  · obtain ⟨kind, -, h⟩ := bind_eq_some_iff.mp h
    obtain ⟨p', -, heq⟩ := map_eq_some_iff.mp h
    cases heq

theorem parse_of_rewards {p : Rewards.RewardsParam}
    (h : env.signedParams b = some (.rewards kind p)) :
    parseRewardsParam env.toCrypto kind b.data = some p := by
  unfold signedParams at h
  split_ifs at h
  · obtain ⟨m, -, h⟩ := bind_eq_some_iff.mp h
    split_ifs at h
    obtain ⟨p', -, heq⟩ := map_eq_some_iff.mp h
    cases heq
  · obtain ⟨kind', -, h⟩ := bind_eq_some_iff.mp h
    obtain ⟨p', hparse, heq⟩ := map_eq_some_iff.mp h
    cases heq
    exact hparse

theorem calculateAmount_clone (ht : b.type = .contractSend)
    (hgen : env.isGenesisBlock b = false) {amount : ℕ}
    (h : l.calculateAmount env.toCrypto v b.clone = some amount) :
    ∃ previous, l.getStateBlock v b.previous = some previous ∧
      amount = Balance.sub previous.totalBalance b.clone.totalBalance := by
  have htype : b.clone.type = .contractSend := ht
  have hgenesis : Config.isGenesisBlock env.hashData b.clone = false := hgen
  simp only [Ledger.calculateAmount, htype, hgenesis, Bool.false_eq_true, if_false] at h
  obtain ⟨previous, hprev, rfl⟩ := map_eq_some_iff.mp h
  exact ⟨previous, hprev, rfl⟩

include hgen h in
theorem destroy_of_accepted {p : BlackHole.DestroyParam}
    (hp : env.signedParams b = some (.destroy p)) :
    p.previous ≠ 0 ∧ env.verify p.owner p.toBytes p.sign = true ∧
      ∃ previous, l.getStateBlock v b.previous = some previous ∧
        p.amount = Balance.sub previous.totalBalance b.clone.totalBalance := by
  obtain ⟨ctx, data, rfl, rfl, ⟨hver, -⟩ | ⟨-, -, -, r, hres⟩⟩ := sendProduces_of_accepted hgen h hp
  · have hno : (2 : ℕ) = 1 := hver
    omega
  · have hparse : parseDestroyParam env.toCrypto b.clone.data = some p :=
      parse_of_destroy hp
    simp only [contractOf, blackHole, processSend, hparse] at hres
    obtain ⟨hverify, -⟩ := seq_eq_ok.mp hres
    unfold BlackHole.verify at hverify
    split at hverify
    · cases hverify
    · cases hverify
    · rename_i hsigned
      rw [ite_error_eq_ok] at hverify
      obtain ⟨-, hamount⟩ := hverify
      split at hamount
      · cases hamount
      · rename_i amount hcalc
        rw [ite_error_eq_ok, not_not] at hamount
        unfold BlackHole.DestroyParam.verify at hsigned
        simp only [ite_error_eq_ok] at hsigned
        obtain ⟨-, hprev, -, -, hsigned⟩ := hsigned
        refine ⟨hprev, Except.ok.inj hsigned, ?_⟩
        obtain ⟨previous, hget, heq⟩ :=
          calculateAmount_clone (type_of_signedParams hp) hgen hcalc
        exact ⟨previous, hget, hamount.1.symm.trans heq⟩

include hgen h in
theorem rewards_of_accepted {p : Rewards.RewardsParam}
    (hp : env.signedParams b = some (.rewards kind p)) :
    p.txHeader ≠ 0 ∧ p.isSignedBy env.toCrypto kind b.address = true := by
  obtain ⟨ctx, data, -, -, ⟨-, hsend⟩ | ⟨hver, -⟩⟩ := sendProduces_of_accepted hgen h hp
  · have hparse : parseRewardsParam env.toCrypto kind b.clone.data = some p :=
      parse_of_rewards hp
    simp only [contractOf, Rewards.rewards, Rewards.doSend, hparse] at hsend
    obtain ⟨_, hverify, -⟩ := map_eq_ok.mp hsend
    unfold Rewards.RewardsParam.verify at hverify
    split_ifs at hverify with hparams hsigned
    exact ⟨hparams.2.1, hsigned⟩
  · have hno : (1 : ℕ) = 2 := hver
    omega

include hgen h in
theorem header_ne_zero (hp : env.signedParams b = some params) : params.header ≠ 0 := by
  cases params with
  | destroy p => exact (destroy_of_accepted hgen h hp).1
  | rewards kind p => exact (rewards_of_accepted hgen h hp).1

include hgen h in
theorem authorised_iff (hp : env.signedParams b = some params) :
    env.Authorised l b params ↔ env.Bound v l b params := by
  cases params with
  | destroy p =>
    obtain ⟨-, hsigned, previous, hprev, hamount⟩ := destroy_of_accepted hgen h hp
    constructor
    · intro hauth
      refine ⟨.inr hauth.signed, hauth.header, ?_⟩
      intro previous' hprev'
      obtain rfl : previous = previous' := Option.some.inj (hprev.symm.trans hprev')
      exact hamount.symm.trans hauth.amount
    · rintro ⟨howner, hheader, htotals⟩
      refine ⟨?_, hamount.trans (htotals previous hprev), hheader⟩
      rcases howner with howner | hverify
      · rwa [howner] at hsigned
      · exact hverify
  | rewards kind p =>
    have hsigned := (rewards_of_accepted hgen h hp).2
    constructor
    · intro hauth
      exact ⟨hauth.header, hauth.amount⟩
    · rintro ⟨hheader, hamount⟩
      exact ⟨hsigned, hamount, hheader⟩

/-! ## Runs -/

def Guarded (env : Env) : Condition := fun v _ l b =>
  ∀ params, env.signedParams b = some params → Lowers l b →
    env.isGenesisBlock b = false ∧ env.Bound v l b params

theorem Processed.child_of_child (hp : env.Processed v l b l') {h child : Hash}
    (hchild : l.childs.get h = some child) : l'.childs.get h = some child := by
  rcases hp.childs with ⟨-, hsame⟩ | ⟨-, -, -, hnone, hput⟩
  · rw [hsame, hchild]
  · rw [hput, Table.get_put_of_ne, hchild]
    rintro rfl
    rw [hnone] at hchild
    cases hchild

theorem child_of_run {h child : Hash} (hrun : Relation.ReflTransGen (env.Next anyBlock) l l')
    (hchild : l.childs.get h = some child) : l'.childs.get h = some child := by
  induction hrun with
  | refl => exact hchild
  | tail _ hnext ih =>
    obtain ⟨v, v', b, hs, -⟩ := hnext
    exact (blockProcess_ok hs.applied).child_of_child ih

theorem Processed.only_child (hp : env.Processed v l b l') (hgen : env.isGenesisBlock b = false)
    (hprev : b.previous ≠ 0) :
    l.childs.get b.previous = none ∧ l'.childs.get b.previous = some (b.getHash env.hashData) := by
  rcases hp.childs with ⟨hgenesis | hzero, -⟩ | ⟨-, -, -, hnone, hput⟩
  · rw [hgen] at hgenesis
    cases hgenesis
  · exact absurd hzero hprev
  · rw [hput]
    exact ⟨hnone, Table.get_put_self _ _ _⟩

/-- A call with signed parameters is authorised by the account it debits exactly
if it is bound to its parameters, and then no later guarded block of a run
lowers a balance by the same parameters. -/
theorem unsigned_send_authorised_iff_and_once (hs : env.Step v v' l b l')
    (hgen : env.isGenesisBlock b = false) (hp : env.signedParams b = some params) :
    (env.Authorised l b params ↔ env.Bound v l b params) ∧
    (env.Bound v l b params → ∀ l₁ v₁ v₁' b₁ l₁',
      Relation.ReflTransGen (env.Next anyBlock) l' l₁ → env.Step v₁ v₁' l₁ b₁ l₁' →
      env.signedParams b₁ = some params → env.Guarded v₁ v₁' l₁ b₁ → ¬ Lowers l₁ b₁) := by
  have hiff := authorised_iff hgen hs.accepted hp
  refine ⟨hiff, ?_⟩
  intro hbound l₁ v₁ v₁' b₁ l₁' hrun hs₁ hp₁ hguard hlower
  obtain ⟨hgen₁, hbound₁⟩ := hguard params hp₁ hlower
  have hheader := (hiff.mpr hbound).header
  have hheader₁ := ((authorised_iff hgen₁ hs₁.accepted hp₁).mpr hbound₁).header
  have hne := header_ne_zero hgen hs.accepted hp
  -- both blocks follow the header in the parameters, which has one child only
  have hfirst := (blockProcess_ok hs.applied).only_child hgen (by rwa [← hheader])
  have hsecond := (blockProcess_ok hs₁.applied).only_child hgen₁ (by rwa [← hheader₁])
  have hchild := child_of_run hrun hfirst.2
  rw [← hheader, hheader₁, hsecond.1] at hchild
  cases hchild

/-- No fork is ever confirmed: the blocks of a run have different predecessors. -/
theorem previous_once (hs : env.Step v v' l b l') (hgen : env.isGenesisBlock b = false)
    (hprev : b.previous ≠ 0) {v₁ v₁' : View} {l₁ l₁' : Ledger} {b₁ : StateBlock}
    (hrun : Relation.ReflTransGen (env.Next anyBlock) l' l₁) (hs₁ : env.Step v₁ v₁' l₁ b₁ l₁')
    (hgen₁ : env.isGenesisBlock b₁ = false) : b₁.previous ≠ b.previous := by
  intro heq
  have hfirst := (blockProcess_ok hs.applied).only_child hgen hprev
  have hsecond := (blockProcess_ok hs₁.applied).only_child hgen₁ (heq ▸ hprev)
  have hchild := child_of_run hrun hfirst.2
  rw [← heq, hsecond.1] at hchild
  cases hchild

end Env

namespace Devnet

def destroyParam (owner : Address) (previous : Hash) : BlackHole.DestroyParam :=
  let p : BlackHole.DestroyParam := { owner, previous, token := gasToken, amount := 5, sign := 0 }
  { p with sign := sign owner p.toBytes }

/-- A destroy in the name of the gas account, with the parameters and without a
signature on the block. -/
def destroySend (p : BlackHole.DestroyParam) (previous : Hash) (balance : ℕ) : StateBlock :=
  { type := .contractSend, token := gasToken, address := gasAddress, balance, previous
    link := blackHoleAddress, representative := gasAddress
    data := Abi.packMethod hashData destroyMethod
      (p.owner, p.previous, p.token, p.amount, p.sign, ()) }

def strangerDestroy : StateBlock :=
  destroySend (destroyParam stranger 1) gasHash (gasBlock.balance - 5)

def strangerDestroyAgain : StateBlock :=
  destroySend (destroyParam stranger 1) (strangerDestroy.getHash hashData) (gasBlock.balance - 10)

def ownDestroy : StateBlock :=
  destroySend (destroyParam gasAddress gasHash) gasHash (gasBlock.balance - 5)

end Devnet

open Devnet Env in
theorem previous_once_two : strangerDestroy.previous ≠ plainSend.previous := by
  have hfacts : env.isGenesisBlock plainSend = false ∧
      env.isGenesisBlock strangerDestroy = false ∧ plainSend.previous ≠ 0 ∧
      (env.run view env.genesisLedger [plainSend, strangerDestroy]).isSome = true := by
    decide +kernel
  obtain ⟨hgen, hgen', hprev, hrun⟩ := hfacts
  obtain ⟨l, hl⟩ := isSome_iff_exists.mp hrun
  obtain ⟨l₁, hstep, hl⟩ := step_of_run hl
  obtain ⟨l₂, hstep', -⟩ := step_of_run hl
  exact previous_once hstep hgen hprev .refl hstep' hgen'

open Devnet Env in
theorem strangerDestroy_debits_gas_account_twice :
    ∃ l l', env.Step view view env.genesisLedger strangerDestroy l ∧
      env.Step view view l strangerDestroyAgain l' ∧
      env.signedParams strangerDestroy = some (.destroy (destroyParam stranger 1)) ∧
      env.signedParams strangerDestroyAgain = some (.destroy (destroyParam stranger 1)) ∧
      Lowers env.genesisLedger strangerDestroy ∧ Lowers l strangerDestroyAgain ∧
      ¬ env.Authorised env.genesisLedger strangerDestroy (.destroy (destroyParam stranger 1)) := by
  have hfacts : env.signedParams strangerDestroy = some (.destroy (destroyParam stranger 1)) ∧
      env.signedParams strangerDestroyAgain = some (.destroy (destroyParam stranger 1)) ∧
      Lowers env.genesisLedger strangerDestroy ∧
      SignedParams.signedBy env.toCrypto strangerDestroy.address
        (.destroy (destroyParam stranger 1)) = false ∧
      ((env.run view env.genesisLedger [strangerDestroy]).any fun l =>
        decide (Lowers l strangerDestroyAgain) &&
        (env.run view l [strangerDestroyAgain]).isSome) = true := by
    decide +kernel
  obtain ⟨hp, hp', hlower, hsigned, hrun⟩ := hfacts
  obtain ⟨l, hl, hfacts⟩ := (any_eq_true _ _).mp hrun
  obtain ⟨hlower', hnext⟩ := Bool.and_eq_true_iff.mp hfacts
  obtain ⟨l', hl'⟩ := isSome_iff_exists.mp hnext
  obtain ⟨l₁, hstep, hdone⟩ := step_of_run hl
  obtain rfl := Option.some.inj hdone
  obtain ⟨l₂, hstep', -⟩ := step_of_run hl'
  refine ⟨l₁, l₂, hstep, hstep', hp, hp', hlower, of_decide_eq_true hlower', ?_⟩
  intro hauth
  have hsigned' := hauth.signed
  rw [hsigned] at hsigned'
  cases hsigned'

open Devnet Env in
theorem ownDestroy_authorised_once :
    ∃ l, env.Step view view env.genesisLedger ownDestroy l ∧
      env.Authorised env.genesisLedger ownDestroy (.destroy (destroyParam gasAddress gasHash)) ∧
      ∀ l₁ v₁ v₁' b₁ l₁', Relation.ReflTransGen (env.Next anyBlock) l l₁ →
        env.Step v₁ v₁' l₁ b₁ l₁' →
        env.signedParams b₁ = some (.destroy (destroyParam gasAddress gasHash)) →
        env.Guarded v₁ v₁' l₁ b₁ → ¬ Lowers l₁ b₁ := by
  have hfacts : env.isGenesisBlock ownDestroy = false ∧
      env.signedParams ownDestroy = some (.destroy (destroyParam gasAddress gasHash)) ∧
      (env.run view env.genesisLedger [ownDestroy]).isSome = true ∧
      env.genesisLedger.getStateBlock view ownDestroy.previous = some gasBlock.clone ∧
      Balance.sub gasBlock.clone.totalBalance ownDestroy.clone.totalBalance =
        env.genesisLedger.balanceAt ownDestroy.address ownDestroy.token - ownDestroy.balance := by
    decide +kernel
  obtain ⟨hgen, hp, hrun, hprev, htotals⟩ := hfacts
  obtain ⟨l, hl⟩ := isSome_iff_exists.mp hrun
  obtain ⟨l₁, hstep, -⟩ := step_of_run hl
  have hbound : env.Bound view env.genesisLedger ownDestroy
      (.destroy (destroyParam gasAddress gasHash)) := by
    refine ⟨.inl rfl, rfl, ?_⟩
    intro previous hprevious
    obtain rfl : gasBlock.clone = previous := Option.some.inj (hprev.symm.trans hprevious)
    exact htotals
  obtain ⟨hiff, honce⟩ := unsigned_send_authorised_iff_and_once hstep hgen hp
  exact ⟨l₁, hstep, hiff.mpr hbound, honce hbound⟩

end GoQlc
