import GoQlc.Config.Devnet
import GoQlc.Pov.Contracts
import GoQlc.Pov.TxPool

/-!
# Can a confirmed transaction stop the PoV chain?

The hook of a call fails when a record that it needs is not in the PoV state.
-/

namespace GoQlc.Pov

open Abi Config PublicKeyDistribution Kyc Option PovMethod Result

/-! ## Records -/

inductive Record where
  | publish (key : PublishInfoKey)
  | admin (account : Address)
  | kycAdmin (account : Address)
  | tradeAddress (key : MixKey)
  | operator (account : Address)
deriving DecidableEq, Repr

def PovContracts.Has (cs : PovContracts) : Record → Prop
  | .publish key => cs.publishes.get key ≠ none
  | .admin account => cs.admins.get account ≠ none
  | .kycAdmin account => cs.kycAdmins.get account ≠ none
  | .tradeAddress key => cs.kycAddresses.get key ≠ none
  | .operator account => cs.kycOperators.get account ≠ none

theorem get_put_ne_none {K V : Type} [DecidableEq K] (t : Table K V) (k k' : K) (v : V) :
    (t.put k v).get k' ≠ none ↔ t.get k' ≠ none ∨ k' = k := by
  rw [Table.get_put]
  split_ifs with h
  · exact ⟨fun _ => .inr h, fun _ => some_ne_none v⟩
  · exact ⟨.inl, fun hor => hor.resolve_right h⟩

namespace PovMethod

variable (b : Build) (ctx : VmContext) (block : StateBlock)

def Sound : PovMethod → Prop
  | publish => unpackPublish b.hashData block.data ≠ none
  | oracle => unpackOracle b.hashData block.data ≠ none
  | verifierHeart => unpackVerifierHeart b.hashData block.data ≠ none
  | adminHandOver => Permission.unpackHandOver b.hashData block.data ≠ none
  | nodeUpdate => Permission.unpackNodeUpdate b.hashData block.data ≠ none
  | kycAdminHandOver => unpackHandOver b.hashData block.data ≠ none
  | kycStatusUpdate => unpackStatusUpdate b.hashData block.data ≠ none
  | kycTradeAddressUpdate => unpackTradeAddressUpdate b.hashData block.data ≠ none
  | kycOperatorUpdate => unpackOperatorUpdate b.hashData block.data ≠ none

/-- The record that the call needs. An oracle call needs the publication unless the ledger has it,
a hand-over the record of its sender, a removal the record that it removes. -/
def Needs : PovMethod → Record → Prop
  | oracle, r =>
    ∃ info, unpackOracle b.hashData block.data = some info ∧
      getPublishInfoByKey ctx (info.key b.sha256) = none ∧ r = .publish (info.key b.sha256)
  | adminHandOver, r => block.address ≠ genesisAddress ∧ r = .admin block.address
  | kycAdminHandOver, r => block.address ≠ genesisAddress ∧ r = .kycAdmin block.address
  | kycTradeAddressUpdate, r =>
    ∃ ka, unpackTradeAddressUpdate b.hashData block.data = some ka ∧
      ka.action = actionRemove ∧ r = .tradeAddress (ka.getMixKey b.sha256)
  | kycOperatorUpdate, r =>
    ∃ oa, unpackOperatorUpdate b.hashData block.data = some oa ∧
      oa.action = actionRemove ∧ r = .operator oa.account
  | _, _ => False

def Gives : PovMethod → Record → Prop
  | publish, r =>
    ∃ info, unpackPublish b.hashData block.data = some info ∧
      r = .publish (info.key b.sha256 block.previous)
  | oracle, r =>
    ∃ info, unpackOracle b.hashData block.data = some info ∧ r = .publish (info.key b.sha256)
  | adminHandOver, r =>
    ∃ admin, Permission.unpackHandOver b.hashData block.data = some admin ∧
      admin.account ≠ genesisAddress ∧ r = .admin admin.account
  | kycAdminHandOver, r =>
    ∃ admin, unpackHandOver b.hashData block.data = some admin ∧
      admin.account ≠ genesisAddress ∧ r = .kycAdmin admin.account
  | kycTradeAddressUpdate, r =>
    ∃ ka, unpackTradeAddressUpdate b.hashData block.data = some ka ∧
      ka.action = actionAdd ∧ r = .tradeAddress (ka.getMixKey b.sha256)
  | kycOperatorUpdate, r =>
    ∃ oa, unpackOperatorUpdate b.hashData block.data = some oa ∧
      oa.action = actionAdd ∧ r = .operator oa.account
  | _, _ => False

end PovMethod

/-! ## What each call needs and leaves -/

/-- The effect of a call on the records: it succeeds when what it needs is there, and then adds
what it gives. -/
structure RecordEffect (cs : PovContracts) (result : Except OnPovError PovContracts)
    (needs gives : Record → Prop) : Prop where
  ok_iff : (∃ cs', result = .ok cs') ↔ ∀ r, needs r → cs.Has r
  has_iff : ∀ cs', result = .ok cs' → ∀ r, cs'.Has r ↔ cs.Has r ∨ gives r

namespace RecordEffect

variable {cs cs' : PovContracts} {needs gives : Record → Prop}

theorem of_ok (hfound : ∀ r, needs r → cs.Has r) (h : ∀ r, cs'.Has r ↔ cs.Has r ∨ gives r) :
    RecordEffect cs (.ok cs') needs gives where
  ok_iff := ⟨fun _ => hfound, fun _ => ⟨cs', rfl⟩⟩
  has_iff := by
    intro cs'' hok
    cases hok
    exact h

theorem of_missing {e : OnPovError} {r : Record} (hr : needs r) (hmissing : ¬ cs.Has r) :
    RecordEffect cs (.error e) needs gives where
  ok_iff := by
    constructor
    · rintro ⟨cs', hok⟩
      cases hok
    · intro h
      exact absurd (h r hr) hmissing
  has_iff := by
    intro cs' hok
    cases hok

end RecordEffect

section
variable (b : Build) (order : MapOrder) (ctx : VmContext) (height : ℕ) (block : StateBlock)
  (cs : PovContracts)

theorem has_setPublishState (key : PublishInfoKey) (ps : PovPublishState) (r : Record) :
    (cs.setPublishState key ps).Has r ↔ cs.Has r ∨ r = .publish key := by
  have hput := get_put_ne_none cs.publishes key
  cases r <;> simp [PovContracts.Has, PovContracts.setPublishState, hput]

theorem has_setVerifierState (a : Address) (vs : PovVerifierState) (r : Record) :
    (cs.setVerifierState order a vs).Has r ↔ cs.Has r := by
  cases r <;> rfl

theorem has_rewardVerifiers (type : OracleType) (fee : ℕ) (accounts : List Address) (r : Record) :
    (cs.rewardVerifiers order type height fee accounts).Has r ↔ cs.Has r := by
  unfold PovContracts.rewardVerifiers
  induction accounts generalizing cs with
  | nil => rfl
  | cons a accounts ih =>
    rw [List.foldl_cons, ih]
    exact has_setVerifierState order cs a _ r

theorem publish_effect (info : PublishInfo) :
    RecordEffect cs (.ok (publishOnPov b height block cs info)) (fun _ => False)
      (fun r => r = .publish (info.key b.sha256 block.previous)) := by
  apply RecordEffect.of_ok
  · exact fun r hr => hr.elim
  · intro r
    unfold publishOnPov
    dsimp only
    cases cs.publishes.get (info.key b.sha256 block.previous) with
    | none | some ps => exact has_setPublishState cs _ _ r

theorem has_countOracle (info : OracleInfo) (ps : PovPublishState)
    (h : ps.isClosed height block.address → cs.Has (.publish (info.key b.sha256))) (r : Record) :
    (countOracle b order height block cs info ps).Has r ↔
      cs.Has r ∨ r = .publish (info.key b.sha256) := by
  unfold countOracle
  dsimp only
  split_ifs with hclosed
  · exact ⟨.inl, fun hor => hor.elim id fun hr => hr ▸ h hclosed⟩
  · rw [has_rewardVerifiers, has_setPublishState]

theorem oracle_effect (info : OracleInfo) :
    RecordEffect cs (oracleOnPov b order ctx height block cs info)
      (fun r => getPublishInfoByKey ctx (info.key b.sha256) = none ∧
        r = .publish (info.key b.sha256))
      (fun r => r = .publish (info.key b.sha256)) := by
  unfold oracleOnPov publishStateOf
  cases hps : cs.publishes.get (info.key b.sha256) with
  | some ps =>
    have hhas : cs.Has (.publish (info.key b.sha256)) := by
      change cs.publishes.get _ ≠ none
      rw [hps]
      exact some_ne_none ps
    apply RecordEffect.of_ok
    · rintro r ⟨-, rfl⟩
      exact hhas
    · exact has_countOracle b order height block cs info ps fun _ => hhas
  | none =>
    cases hinfo : getPublishInfoByKey ctx (info.key b.sha256) with
    | none =>
      exact RecordEffect.of_missing ⟨rfl, rfl⟩ fun hhas => hhas hps
    | some pubInfo =>
      apply RecordEffect.of_ok
      · rintro r ⟨hnone, -⟩
        cases hnone
      · -- a publication that is new on the chain is open
        refine has_countOracle b order height block cs info _ ?_
        rintro (⟨hverified, -⟩ | hmem)
        · cases hverified
        · exact absurd hmem List.not_mem_nil

theorem verifierHeart_effect (vTypes : List UInt32) :
    RecordEffect cs (.ok (verifierHeartOnPov order height block cs vTypes))
      (fun _ => False) (fun _ => False) := by
  apply RecordEffect.of_ok
  · exact fun r hr => hr.elim
  · intro r
    rw [or_false]
    exact has_setVerifierState order cs block.address _ r

theorem nodeUpdate_effect (node : NodeUpdate) :
    RecordEffect cs (.ok (nodeUpdateOnPov cs node)) (fun _ => False)
      (fun _ => False) := by
  apply RecordEffect.of_ok
  · exact fun r hr => hr.elim
  · intro r
    rw [or_false]
    cases r <;> rfl

theorem statusUpdate_effect (status : StatusUpdate) :
    RecordEffect cs (.ok (statusUpdateOnPov cs status)) (fun _ => False)
      (fun _ => False) := by
  apply RecordEffect.of_ok
  · exact fun r hr => hr.elim
  · intro r
    rw [or_false]
    cases r <;> rfl

end

/-! ### Hand-overs -/

section
variable (sender : Address) (admin : HandOver) (admins : Table Address AdminAccount)

theorem get_updateAdmin (a : Address) :
    (updateAdmin admin.account admin.comment admins).get a ≠ none ↔
      admins.get a ≠ none ∨ (admin.account ≠ genesisAddress ∧ a = admin.account) := by
  unfold updateAdmin
  split_ifs with hgenesis
  · exact ⟨.inl, fun h => h.resolve_right fun hnew => hnew.1 hgenesis⟩
  · rw [get_put_ne_none]
    exact or_congr_right ⟨fun h => ⟨hgenesis, h⟩, And.right⟩

theorem handOver_cases :
    (∃ admins', handOver sender admin admins = .ok admins' ∧
      (sender ≠ genesisAddress → admins.get sender ≠ none) ∧
      ∀ a, admins'.get a ≠ none ↔
        admins.get a ≠ none ∨ (admin.account ≠ genesisAddress ∧ a = admin.account)) ∨
    (∃ e, handOver sender admin admins = .error e ∧ sender ≠ genesisAddress ∧
      admins.get sender = none) := by
  unfold handOver removeAdmin
  split_ifs with hgenesis
  · exact .inl ⟨_, rfl, fun h => absurd hgenesis h, get_updateAdmin admin admins⟩
  · cases hget : admins.get sender with
    | none => exact .inr ⟨_, rfl, hgenesis, rfl⟩
    | some old =>
      refine .inl ⟨_, rfl, fun _ => some_ne_none old, fun a => ?_⟩
      rw [get_updateAdmin, get_put_ne_none]
      -- the sender had a record before
      refine or_congr_left ⟨fun h => h.elim id fun ha => ?_, .inl⟩
      rw [ha, hget]
      exact some_ne_none old

theorem adminHandOver_effect (cs : PovContracts) :
    RecordEffect cs ((handOver sender admin cs.admins).map fun admins => { cs with admins })
      (fun r => sender ≠ genesisAddress ∧ r = .admin sender)
      (fun r => admin.account ≠ genesisAddress ∧ r = .admin admin.account) := by
  obtain ⟨admins', hok, hsender, hget⟩ | ⟨e, herror, hsender, hnone⟩ :=
    handOver_cases sender admin cs.admins
  · rw [hok]
    apply RecordEffect.of_ok
    · rintro r ⟨hne, rfl⟩
      exact hsender hne
    · intro r
      cases r <;> simp [PovContracts.Has, hget]
  · rw [herror]
    exact RecordEffect.of_missing ⟨hsender, rfl⟩ fun hhas => hhas hnone

theorem kycAdminHandOver_effect (cs : PovContracts) :
    RecordEffect cs ((handOver sender admin cs.kycAdmins).map fun kycAdmins => { cs with kycAdmins })
      (fun r => sender ≠ genesisAddress ∧ r = .kycAdmin sender)
      (fun r => admin.account ≠ genesisAddress ∧ r = .kycAdmin admin.account) := by
  obtain ⟨admins', hok, hsender, hget⟩ | ⟨e, herror, hsender, hnone⟩ :=
    handOver_cases sender admin cs.kycAdmins
  · rw [hok]
    apply RecordEffect.of_ok
    · rintro r ⟨hne, rfl⟩
      exact hsender hne
    · intro r
      cases r <;> simp [PovContracts.Has, hget]
  · rw [herror]
    exact RecordEffect.of_missing ⟨hsender, rfl⟩ fun hhas => hhas hnone

end

/-! ### Additions and removals -/

section
variable (cs : PovContracts)

theorem actionAdd_ne_actionRemove : actionAdd ≠ actionRemove := by decide

theorem has_putAddress {kycTradeAddresses : Table Hash MixKey} (key : MixKey) (ka : KycAddress)
    (r : Record) :
    PovContracts.Has { cs with
      kycAddresses := cs.kycAddresses.put key ka, kycTradeAddresses } r ↔
      cs.Has r ∨ r = .tradeAddress key := by
  have hput := get_put_ne_none cs.kycAddresses key
  cases r <;> simp [PovContracts.Has, hput]

theorem has_putOperator (a : Address) (oa : AdminAccount) (r : Record) :
    PovContracts.Has { cs with kycOperators := cs.kycOperators.put a oa } r ↔
      cs.Has r ∨ r = .operator a := by
  have hput := get_put_ne_none cs.kycOperators a
  cases r <;> simp [PovContracts.Has, hput]

theorem kycUpdate_effect {α : Type} {record : Record} {action : UInt8} {added : PovContracts}
    {found : Option α} {cleared : α → PovContracts} (hfound : cs.Has record ↔ found ≠ none)
    (hadded : ∀ r, added.Has r ↔ cs.Has r ∨ r = record)
    (hcleared : ∀ x r, (cleared x).Has r ↔ cs.Has r ∨ r = record) :
    RecordEffect cs (kycUpdate cs action added found cleared)
      (fun r => action = actionRemove ∧ r = record)
      (fun r => action = actionAdd ∧ r = record) := by
  unfold kycUpdate
  split_ifs with hadd hremove
  · apply RecordEffect.of_ok
    · rintro r ⟨hremove, -⟩
      exact absurd (hadd.symm.trans hremove) actionAdd_ne_actionRemove
    · intro r
      rw [hadded r]
      exact or_congr_right ⟨fun h => ⟨hadd, h⟩, And.right⟩
  · cases hget : found with
    | none =>
      exact RecordEffect.of_missing ⟨hremove, rfl⟩ fun hhas => hfound.mp hhas hget
    | some x =>
      have hhas : cs.Has record := hfound.mpr (hget ▸ some_ne_none x)
      apply RecordEffect.of_ok
      · rintro r ⟨-, rfl⟩
        exact hhas
      · intro r
        rw [hcleared x r]
        exact ⟨fun h => .inl (h.elim id fun hr => hr ▸ hhas),
          fun h => .inl (h.resolve_right fun hnew => hadd hnew.1)⟩
  · apply RecordEffect.of_ok
    · exact fun r h => absurd h.1 hremove
    · exact fun r => ⟨.inl, fun h => h.resolve_right fun hnew => hadd hnew.1⟩

theorem tradeAddressUpdate_effect (b : Build) (ka : TradeAddressUpdate) :
    RecordEffect cs (tradeAddressUpdateOnPov b cs ka)
      (fun r => ka.action = actionRemove ∧ r = .tradeAddress (ka.getMixKey b.sha256))
      (fun r => ka.action = actionAdd ∧ r = .tradeAddress (ka.getMixKey b.sha256)) :=
  kycUpdate_effect cs Iff.rfl (has_putAddress cs _ _)
    fun oka => has_putAddress cs (ka.getMixKey b.sha256) { oka with valid := false }

theorem operatorUpdate_effect (oa : OperatorUpdate) :
    RecordEffect cs (operatorUpdateOnPov cs oa)
      (fun r => oa.action = actionRemove ∧ r = .operator oa.account)
      (fun r => oa.action = actionAdd ∧ r = .operator oa.account) :=
  kycUpdate_effect cs Iff.rfl (has_putOperator cs _ _)
    fun noa => has_putOperator cs oa.account { noa with valid := false }

end

/-! ### All calls -/

section
variable {b : Build} {order : MapOrder} {ctx : VmContext} {height : ℕ} {block : StateBlock}
  {cs : PovContracts}

/-- A call succeeds when its data unpacks and what it needs is there, and adds what it gives. -/
structure CallEffect (cs : PovContracts) (result : Except OnPovError PovContracts) (sound : Prop)
    (needs gives : Record → Prop) : Prop where
  ok_iff : (∃ cs', result = .ok cs') ↔ sound ∧ ∀ r, needs r → cs.Has r
  has_iff : ∀ cs', result = .ok cs' → ∀ r, cs'.Has r ↔ cs.Has r ∨ gives r

theorem unpacked_effect {α : Type} {call : Option α} {run : α → Except OnPovError PovContracts}
    {needs gives : Record → Prop} {needs' gives' : α → Record → Prop}
    (h : ∀ args, RecordEffect cs (run args) (needs' args) (gives' args))
    (hneeds : ∀ args, call = some args → ∀ r, needs r ↔ needs' args r)
    (hgives : ∀ args, call = some args → ∀ r, gives r ↔ gives' args r) :
    CallEffect cs (unpacked call run) (call ≠ none) needs gives := by
  unfold unpacked
  cases call with
  | none =>
    refine ⟨⟨?_, fun hsound => absurd rfl hsound.1⟩, fun cs' hok => by cases hok⟩
    rintro ⟨cs', hok⟩
    cases hok
  | some args =>
    have hargs := h args
    refine ⟨hargs.ok_iff.trans ?_, fun cs' hok r => ?_⟩
    · constructor
      · exact fun hall => ⟨some_ne_none args, fun r hr => hall r ((hneeds args rfl r).mp hr)⟩
      · exact fun hall r hr => hall.2 r ((hneeds args rfl r).mpr hr)
    · rw [hargs.has_iff cs' hok r, hgives args rfl r]

theorem exists_some_and {α : Type} {call : Option α} {args : α} (h : call = some args)
    (p : α → Prop) : (∃ args', call = some args' ∧ p args') ↔ p args := by
  rw [h]
  constructor
  · rintro ⟨args', heq, hp⟩
    cases heq
    exact hp
  · exact fun hp => ⟨args, rfl, hp⟩

theorem doSendOnPov_effect (m : PovMethod) :
    CallEffect cs (m.doSendOnPov b order ctx height block cs) (m.Sound b block)
      (m.Needs b ctx block) (m.Gives b block) := by
  cases m with
  | publish =>
    exact unpacked_effect (publish_effect b height block cs) (fun _ _ _ => Iff.rfl)
      fun args hargs r => exists_some_and hargs _
  | oracle =>
    exact unpacked_effect (oracle_effect b order ctx height block cs)
      (fun args hargs r => exists_some_and hargs _) fun args hargs r => exists_some_and hargs _
  | verifierHeart =>
    exact unpacked_effect (verifierHeart_effect order height block cs) (fun _ _ _ => Iff.rfl)
      fun _ _ _ => Iff.rfl
  | adminHandOver =>
    exact unpacked_effect (fun admin => adminHandOver_effect block.address admin cs)
      (fun _ _ _ => Iff.rfl) fun args hargs r => exists_some_and hargs _
  | nodeUpdate =>
    exact unpacked_effect (nodeUpdate_effect cs) (fun _ _ _ => Iff.rfl) fun _ _ _ => Iff.rfl
  | kycAdminHandOver =>
    exact unpacked_effect (fun admin => kycAdminHandOver_effect block.address admin cs)
      (fun _ _ _ => Iff.rfl) fun args hargs r => exists_some_and hargs _
  | kycStatusUpdate =>
    exact unpacked_effect (statusUpdate_effect cs) (fun _ _ _ => Iff.rfl) fun _ _ _ => Iff.rfl
  | kycTradeAddressUpdate =>
    exact unpacked_effect (tradeAddressUpdate_effect cs b)
      (fun args hargs r => exists_some_and hargs _) fun args hargs r => exists_some_and hargs _
  | kycOperatorUpdate =>
    exact unpacked_effect (operatorUpdate_effect cs)
      (fun args hargs r => exists_some_and hargs _) fun args hargs r => exists_some_and hargs _

end

/-! ## Transactions -/

section
variable (b : Build) (node : PovNode)

def TxSound (tx : PovTransaction) : Prop :=
  match povCall b node tx with
  | .error _ => False
  | .ok none => True
  | .ok (some (m, _)) => m.Sound b tx.block

def TxNeeds (tx : PovTransaction) (r : Record) : Prop :=
  match povCall b node tx with
  | .ok (some (m, ctx)) => m.Needs b ctx tx.block r
  | _ => False

def TxGives (tx : PovTransaction) (r : Record) : Prop :=
  match povCall b node tx with
  | .ok (some (m, _)) => m.Gives b tx.block r
  | _ => False

theorem update_effect (height : ℕ) (cs : PovContracts) (tx : PovTransaction) :
    CallEffect cs (updateContractState b node height cs tx) (TxSound b node tx) (TxNeeds b node tx)
      (TxGives b node tx) := by
  rw [updateContractState_eq]
  unfold TxSound TxNeeds TxGives
  cases povCall b node tx with
  | error e =>
    refine ⟨⟨?_, fun h => h.1.elim⟩, fun cs' hok => by cases hok⟩
    rintro ⟨cs', hok⟩
    cases hok
  | ok call =>
    cases call with
    | none =>
      refine ⟨⟨fun _ => ⟨trivial, fun r hr => hr.elim⟩, fun _ => ⟨cs, rfl⟩⟩, fun cs' hok r => ?_⟩
      cases hok
      rw [or_false]
    | some call =>
      obtain ⟨m, ctx⟩ := call
      exact doSendOnPov_effect m

theorem transaction_law (height : ℕ) :
    Demand.Law (applyTransaction (updateContractState b node) height)
      (fun sdb r => sdb.contracts.Has r) (TxSound b node) (TxNeeds b node) (TxGives b node) where
  ok_iff sdb tx := by
    rw [← (update_effect b node height sdb.contracts tx).ok_iff]
    unfold applyTransaction
    constructor
    · rintro ⟨s, hs⟩
      obtain ⟨contracts, hcontracts, -⟩ := bind_eq_ok.mp hs
      exact ⟨contracts, hcontracts⟩
    · rintro ⟨contracts, hcontracts⟩
      exact ⟨_, bind_eq_ok.mpr ⟨contracts, hcontracts, rfl⟩⟩
  has_iff := by
    intro sdb tx s hs
    obtain ⟨contracts, hcontracts, hreturn⟩ := bind_eq_ok.mp hs
    cases hreturn
    exact (update_effect b node height sdb.contracts tx).has_iff contracts hcontracts

/-- Each transaction is sound, and finds the record it needs in the PoV state or among those that
the transactions before it leave. -/
def Supplied (sdb : PovStateDB PovContracts) (txs : List PovTransaction) : Prop :=
  Demand.Met (fun (sdb : PovStateDB PovContracts) r => sdb.contracts.Has r) (TxSound b node)
    (TxNeeds b node) (TxGives b node) sdb txs

end

section
open Devnet

def testBuild : Build := { shortEnv 40 with sha256 := headHash 40, testnet := true }

def tradeAddress : Bytes := asciiBytes "T"

def tradeKey : MixKey := (neighbour, headHash 40 tradeAddress)

/-- The genesis account is an operator and has registered the trade address of the neighbour. -/
def kycState : PovContracts where
  kycOperators := (∅ : Table Address AdminAccount).put genesisAddress { comment := [], valid := true }
  kycStatus := (∅ : Table Address KycStatus).put neighbour
    { status := asciiBytes "KYC_STATUS_APPROVED", valid := true }
  kycAddresses := (∅ : Table MixKey KycAddress).put tradeKey
    { tradeAddress, comment := [], valid := true }
  kycTradeAddresses := (∅ : Table Hash MixKey).put tradeKey.2 tradeKey

def removal : StateBlock :=
  shortSigned 40
    { type := .contractSend, token := chainToken, address := genesisAddress
      balance := genesisBlock.balance, previous := genesisBlock.getHash (headHash 40)
      link := kycAddress, representative := genesisAddress
      data := packMethod (headHash 40) tradeAddressUpdateMethod
        (stranger, actionRemove, tradeAddress, ([] : Bytes), ()) }

def removalPool : PovTxPool := PovTxPool.addTx {} (removal.getHash (headHash 40)) removal

def povState : PovStateDB PovContracts where
  accounts := (∅ : Table Address PovAccountState).put genesisAddress
    (updateAccountState none ⟨genesisBlock.getHash (headHash 40), genesisBlock⟩)
  reps := ∅
  contracts := kycState

def quietRuntime : PoolRuntime where
  order _ addrTokens := addrTokens
  perm _ _ := .refl _
  expired _ := false

def removalNode : PovNode where
  ledger := (shortEnv 40).genesisLedger
  view := view
  order := .keep

end

end GoQlc.Pov
