import GoQlc.Vm.Registry
import GoQlc.Vm.PublicKeyDistribution
import GoQlc.Pov.State

/-!
# The states that contracts keep on the PoV chain

The public key distribution, the permission and (on the test network) the KYC contract each keep a
table of records.
-/

namespace GoQlc.Pov

open Abi Config PublicKeyDistribution VmContext

/-! ## Records -/

inductive PublishStatus where
  | init
  | verified
deriving DecidableEq, Repr

structure PovPublishState where
  oracleAccounts : List Address := []
  publishHeight : ℕ := 0
  verifiedHeight : ℕ := 0
  verifiedStatus : PublishStatus := .init
  bonusFee : ℕ
deriving DecidableEq, Repr

/-- The entries of `activeHeight` stand in the order in which they were serialised. -/
structure PovVerifierState where
  totalVerify : UInt64 := 0
  totalReward : ℕ := 0
  activeHeight : Table OracleType ℕ := ∅
deriving DecidableEq

structure AdminAccount where
  comment : Bytes
  valid : Bool
deriving DecidableEq, Repr

structure PermNode where
  nodeUrl : Bytes
  comment : Bytes
  valid : Bool
deriving DecidableEq, Repr

structure KycStatus where
  status : Bytes
  valid : Bool
deriving DecidableEq, Repr

structure KycAddress where
  tradeAddress : Bytes
  comment : Bytes
  valid : Bool
deriving DecidableEq, Repr

abbrev MixKey := Address × Hash

structure PovContracts where
  publishes : Table PublishInfoKey PovPublishState := ∅
  verifiers : Table Address PovVerifierState := ∅
  admins : Table Address AdminAccount := ∅
  nodes : Table Bytes PermNode := ∅
  kycAdmins : Table Address AdminAccount := ∅
  kycStatus : Table Address KycStatus := ∅
  kycAddresses : Table MixKey KycAddress := ∅
  kycTradeAddresses : Table Hash MixKey := ∅
  kycOperators : Table Address AdminAccount := ∅
deriving DecidableEq

inductive OnPovError where
  | methodNotFound
  | methodNotExist (ca : Address)
  | sendBlockNotFound
  | noVmContext
  | notImplemented
  | unpackMethod
  | getAdmin
  | publishInfoNotExist
  | keyNotExist
deriving DecidableEq, Repr

/-- The order in which a node's runtime visits the entries of a map when it serialises it. -/
structure MapOrder where
  visit : Address → Table OracleType ℕ → Table OracleType ℕ
  perm : ∀ a t, (visit a t).entries.Perm t.entries

def MapOrder.keep : MapOrder := ⟨fun _ t => t, fun _ _ => .refl _⟩

/-! ## Calls -/

namespace Permission

def adminHandOverMethod : Method :=
  { name := "PermissionAdminHandOver", inputs := [.address, .string] }
def nodeUpdateMethod : Method :=
  { name := "PermissionNodeUpdate", inputs := [.string, .string, .string] }

def methods : List Method := [adminHandOverMethod, nodeUpdateMethod]

end Permission

namespace Kyc

def adminHandOverMethod : Method := { name := "KYCAdminHandOver", inputs := [.address, .string] }
def statusUpdateMethod : Method := { name := "KYCStatusUpdate", inputs := [.address, .string] }
def tradeAddressUpdateMethod : Method :=
  { name := "KYCTradeAddressUpdate", inputs := [.address, .uint8, .string, .string] }
def operatorUpdateMethod : Method :=
  { name := "KYCOperatorUpdate", inputs := [.address, .uint8, .string] }

def methods : List Method :=
  [adminHandOverMethod, statusUpdateMethod, tradeAddressUpdateMethod, operatorUpdateMethod]

def actionAdd : UInt8 := 0
def actionRemove : UInt8 := 1

end Kyc

structure HandOver where
  account : Address
  comment : Bytes
deriving DecidableEq, Repr

structure NodeUpdate where
  nodeId : Bytes
  nodeUrl : Bytes
  comment : Bytes
deriving DecidableEq, Repr

structure StatusUpdate where
  chainAddress : Address
  status : Bytes
deriving DecidableEq, Repr

structure TradeAddressUpdate where
  chainAddress : Address
  action : UInt8
  tradeAddress : Bytes
  comment : Bytes
deriving DecidableEq, Repr

structure OperatorUpdate where
  account : Address
  action : UInt8
  comment : Bytes
deriving DecidableEq, Repr

section
variable (hashData : Bytes → Hash)

def Permission.unpackHandOver (data : Bytes) : Option HandOver :=
  (unpackMethod hashData Permission.methods Permission.adminHandOverMethod data).map
    fun (account, comment, _) => { account, comment }

def Permission.unpackNodeUpdate (data : Bytes) : Option NodeUpdate :=
  (unpackMethod hashData Permission.methods Permission.nodeUpdateMethod data).map
    fun (nodeId, nodeUrl, comment, _) => { nodeId, nodeUrl, comment }

def Kyc.unpackHandOver (data : Bytes) : Option HandOver :=
  (unpackMethod hashData Kyc.methods Kyc.adminHandOverMethod data).map
    fun (account, comment, _) => { account, comment }

def Kyc.unpackStatusUpdate (data : Bytes) : Option StatusUpdate :=
  (unpackMethod hashData Kyc.methods Kyc.statusUpdateMethod data).map
    fun (chainAddress, status, _) => { chainAddress, status }

def Kyc.unpackTradeAddressUpdate (data : Bytes) : Option TradeAddressUpdate :=
  (unpackMethod hashData Kyc.methods Kyc.tradeAddressUpdateMethod data).map
    fun (chainAddress, action, tradeAddress, comment, _) =>
      { chainAddress, action, tradeAddress, comment }

def Kyc.unpackOperatorUpdate (data : Bytes) : Option OperatorUpdate :=
  (unpackMethod hashData Kyc.methods Kyc.operatorUpdateMethod data).map
    fun (account, action, comment, _) => { account, action, comment }

end

def TradeAddressUpdate.getKey (sha256 : Bytes → Hash) (ka : TradeAddressUpdate) : Hash :=
  sha256 ka.tradeAddress

def TradeAddressUpdate.getMixKey (sha256 : Bytes → Hash) (ka : TradeAddressUpdate) : MixKey :=
  (ka.chainAddress, ka.getKey sha256)

/-! ## What the calls do -/

/-- `OracleExpirePovHeight`, `OracleVerifyMinAccount`, `OracleVerifyMaxAccount`. -/
def oracleExpirePovHeight : ℕ := 10
def oracleVerifyMinAccount : ℕ := 3
def oracleVerifyMaxAccount : ℕ := 5

def PovPublishState.isClosed (ps : PovPublishState) (height : ℕ) (account : Address) : Prop :=
  (ps.verifiedStatus = .verified ∧
    (ps.verifiedHeight + oracleExpirePovHeight < height ∨
      oracleVerifyMaxAccount ≤ ps.oracleAccounts.length)) ∨
  account ∈ ps.oracleAccounts

instance (ps : PovPublishState) (height : ℕ) (account : Address) :
    Decidable (ps.isClosed height account) :=
  inferInstanceAs (Decidable ((_ ∧ (_ ∨ _)) ∨ _))

/-- The publication with one more confirmation, and the verifiers it pays: all of them when it
becomes verified, the new one afterwards. -/
def PovPublishState.count (ps : PovPublishState) (height : ℕ) (account : Address) :
    PovPublishState × List Address :=
  let ps := { ps with oracleAccounts := ps.oracleAccounts ++ [account] }
  match ps.verifiedStatus with
  | .init =>
    if oracleVerifyMinAccount ≤ ps.oracleAccounts.length then
      ({ ps with verifiedStatus := .verified, verifiedHeight := height }, ps.oracleAccounts)
    else (ps, [])
  | .verified => (ps, [account])

def PovVerifierState.reward (vs : PovVerifierState) (type : OracleType) (height fee : ℕ) :
    PovVerifierState where
  totalVerify := vs.totalVerify + 1
  totalReward := vs.totalReward + fee
  activeHeight := vs.activeHeight.put type height

def setActive (height : ℕ) (vTypes : List UInt32) (active : Table OracleType ℕ) :
    Table OracleType ℕ :=
  vTypes.foldl (fun active ht => active.put (oracleTypeToString ht) height) active

namespace PovContracts

variable (order : MapOrder)

def getVerifierState (cs : PovContracts) (a : Address) : PovVerifierState :=
  (cs.verifiers.get a).getD {}

/-- A verifier state is serialised with the entries of its map in the order of this run. -/
def setVerifierState (cs : PovContracts) (a : Address) (vs : PovVerifierState) : PovContracts :=
  { cs with
    verifiers := cs.verifiers.put a { vs with activeHeight := order.visit a vs.activeHeight } }

def setPublishState (cs : PovContracts) (key : PublishInfoKey) (ps : PovPublishState) :
    PovContracts :=
  { cs with publishes := cs.publishes.put key ps }

def rewardVerifiers (type : OracleType) (height fee : ℕ) (accounts : List Address)
    (cs : PovContracts) : PovContracts :=
  accounts.foldl
    (fun cs a => cs.setVerifierState order a ((cs.getVerifierState a).reward type height fee)) cs

end PovContracts

/-- The old admin keeps its record but is no longer valid. The genesis account has none. -/
def removeAdmin (addr : Address) (admins : Table Address AdminAccount) :
    Except OnPovError (Table Address AdminAccount) :=
  if addr = genesisAddress then .ok admins
  else
    match admins.get addr with
    | none => .error .getAdmin
    | some admin => .ok (admins.put addr { admin with valid := false })

def updateAdmin (addr : Address) (comment : Bytes) (admins : Table Address AdminAccount) :
    Table Address AdminAccount :=
  if addr = genesisAddress then admins else admins.put addr { comment, valid := true }

def handOver (sender : Address) (admin : HandOver) (admins : Table Address AdminAccount) :
    Except OnPovError (Table Address AdminAccount) :=
  (removeAdmin sender admins).map (updateAdmin admin.account admin.comment)

inductive PovMethod where
  | publish
  | oracle
  | verifierHeart
  | adminHandOver
  | nodeUpdate
  | kycAdminHandOver
  | kycStatusUpdate
  | kycTradeAddressUpdate
  | kycOperatorUpdate
deriving DecidableEq, Repr

/-- A build of the node: the primitives, and whether it is one for the test network, which has
the KYC contract. -/
structure Build extends Env where
  sha256 : Bytes → Hash
  testnet : Bool

namespace PovMethod

variable (b : Build) (order : MapOrder) (ctx : VmContext) (height : ℕ) (block : StateBlock)
  (cs : PovContracts)

def publishOnPov (info : PublishInfo) : PovContracts :=
  let key := info.key b.sha256 block.previous
  match cs.publishes.get key with
  | none => cs.setPublishState key { bonusFee := info.fee, publishHeight := height }
  | some ps => cs.setPublishState key { ps with publishHeight := height }

/-- The publication on the PoV chain, else a new state for the one in the ledger. -/
def publishStateOf (key : PublishInfoKey) : Option PovPublishState :=
  (cs.publishes.get key).or ((getPublishInfoByKey ctx key).map fun info => { bonusFee := info.fee })

def countOracle (info : OracleInfo) (ps : PovPublishState) : PovContracts :=
  if ps.isClosed height block.address then cs
  else
    let counted := ps.count height block.address
    (cs.setPublishState (info.key b.sha256) counted.1).rewardVerifiers order
      (oracleTypeToString info.oType) height (ps.bonusFee / 5) counted.2

def oracleOnPov (info : OracleInfo) : Except OnPovError PovContracts :=
  match publishStateOf ctx cs (info.key b.sha256) with
  | none => .error .publishInfoNotExist
  | some ps => .ok (countOracle b order height block cs info ps)

def verifierHeartOnPov (vTypes : List UInt32) : PovContracts :=
  let vs := cs.getVerifierState block.address
  cs.setVerifierState order block.address
    { vs with activeHeight := setActive height vTypes vs.activeHeight }

def nodeUpdateOnPov (node : NodeUpdate) : PovContracts :=
  { cs with
    nodes := cs.nodes.put node.nodeId
      { nodeUrl := node.nodeUrl, comment := node.comment, valid := true } }

def statusUpdateOnPov (status : StatusUpdate) : PovContracts :=
  { cs with
    kycStatus := cs.kycStatus.put status.chainAddress { status := status.status, valid := true } }

/-- The two KYC updates with an action: one action writes the record, one clears the mark of the
record that it finds, and any other is ignored. -/
def kycUpdate {α : Type} (action : UInt8) (added : PovContracts) (found : Option α)
    (cleared : α → PovContracts) : Except OnPovError PovContracts :=
  if action = Kyc.actionAdd then .ok added
  else if action = Kyc.actionRemove then
    match found with
    | none => .error .keyNotExist
    | some old => .ok (cleared old)
  else .ok cs

def tradeAddressUpdateOnPov (ka : TradeAddressUpdate) : Except OnPovError PovContracts :=
  let key := ka.getMixKey b.sha256
  kycUpdate cs ka.action
    { cs with
      kycAddresses := cs.kycAddresses.put key
        { tradeAddress := ka.tradeAddress, comment := ka.comment, valid := true }
      kycTradeAddresses := cs.kycTradeAddresses.put (ka.getKey b.sha256) key }
    (cs.kycAddresses.get key)
    fun oka => { cs with kycAddresses := cs.kycAddresses.put key { oka with valid := false } }

def operatorUpdateOnPov (oa : OperatorUpdate) : Except OnPovError PovContracts :=
  kycUpdate cs oa.action
    { cs with
      kycOperators := cs.kycOperators.put oa.account { comment := oa.comment, valid := true } }
    (cs.kycOperators.get oa.account)
    fun noa =>
      { cs with kycOperators := cs.kycOperators.put oa.account { noa with valid := false } }

def unpacked {α : Type} (call : Option α) (run : α → Except OnPovError PovContracts) :
    Except OnPovError PovContracts :=
  match call with
  | none => .error .unpackMethod
  | some args => run args

def doSendOnPov : PovMethod → Except OnPovError PovContracts
  | publish =>
    unpacked (unpackPublish b.hashData block.data) fun info =>
      .ok (publishOnPov b height block cs info)
  | oracle =>
    unpacked (unpackOracle b.hashData block.data) (oracleOnPov b order ctx height block cs)
  | verifierHeart =>
    unpacked (unpackVerifierHeart b.hashData block.data) fun vTypes =>
      .ok (verifierHeartOnPov order height block cs vTypes)
  | adminHandOver =>
    unpacked (Permission.unpackHandOver b.hashData block.data) fun admin =>
      (handOver block.address admin cs.admins).map fun admins => { cs with admins }
  | nodeUpdate =>
    unpacked (Permission.unpackNodeUpdate b.hashData block.data) fun node =>
      .ok (nodeUpdateOnPov cs node)
  | kycAdminHandOver =>
    unpacked (Kyc.unpackHandOver b.hashData block.data) fun admin =>
      (handOver block.address admin cs.kycAdmins).map fun kycAdmins => { cs with kycAdmins }
  | kycStatusUpdate =>
    unpacked (Kyc.unpackStatusUpdate b.hashData block.data) fun status =>
      .ok (statusUpdateOnPov cs status)
  | kycTradeAddressUpdate =>
    unpacked (Kyc.unpackTradeAddressUpdate b.hashData block.data) (tradeAddressUpdateOnPov b cs)
  | kycOperatorUpdate =>
    unpacked (Kyc.unpackOperatorUpdate b.hashData block.data) (operatorUpdateOnPov cs)

end PovMethod

/-! ## The registered contracts -/

structure PovContract where
  methods : List Abi.Method
  povMethods : List (Abi.Method × PovMethod)

def pkdContract : PovContract where
  methods := PublicKeyDistribution.methods
  povMethods := [(publishMethod, .publish), (oracleMethod, .oracle),
    (verifierHeartMethod, .verifierHeart)]

def permissionContract : PovContract where
  methods := Permission.methods
  povMethods := [(Permission.adminHandOverMethod, .adminHandOver),
    (Permission.nodeUpdateMethod, .nodeUpdate)]

def kycContract : PovContract where
  methods := Kyc.methods
  povMethods := [(Kyc.adminHandOverMethod, .kycAdminHandOver),
    (Kyc.statusUpdateMethod, .kycStatusUpdate),
    (Kyc.tradeAddressUpdateMethod, .kycTradeAddressUpdate),
    (Kyc.operatorUpdateMethod, .kycOperatorUpdate)]

namespace Build

variable (b : Build)

def povContract (ca : Address) : Option PovContract :=
  if ca = pubKeyDistributionAddress then some pkdContract
  else if ca = permissionAddress then some permissionContract
  else if ca = kycAddress ∧ b.testnet = true then some kycContract
  else none

def getPovMethod (ca : Address) (methodSig : Bytes) : Except OnPovError (Option PovMethod) :=
  match b.povContract ca with
  | some p =>
    match methodById b.hashData p.methods methodSig with
    | none => .error .methodNotFound
    | some m => .ok (p.povMethods.lookup m)
  | none =>
    match b.getChainContract ca methodSig with
    | none => .error (.methodNotExist ca)
    | some _ => .ok none

end Build

/-- What a node brings to the transition: its ledger, the rest of what it reads, and the order in
which its runtime visits maps. -/
structure PovNode where
  ledger : Ledger
  view : View
  order : MapOrder

/-- A private block whose payload the node does not hold changes nothing. No contract implements
`DoReceiveOnPov`. -/
def updateContractState (b : Build) (node : PovNode) (height : ℕ) (cs : PovContracts)
    (tx : PovTransaction) : Except OnPovError PovContracts :=
  let txBlock := tx.block
  if b.isGenesisBlock txBlock then .ok cs
  else
    match txBlock.type with
    | .contractSend =>
      if txBlock.isPrivate && !txBlock.isRecipient then .ok cs
      else
        match b.getPovMethod txBlock.link txBlock.getPayload with
        | .error e => .error e
        | .ok none => .ok cs
        | .ok (some m) =>
          match newVMContextWithBlock node.view node.ledger txBlock with
          | none => .error .noVmContext
          | some vmCtx => m.doSendOnPov b node.order vmCtx height txBlock cs
    | .contractReward =>
      if txBlock.isPrivate && !txBlock.isRecipient then .ok cs
      else
        match node.ledger.getStateBlockConfirmed txBlock.link with
        | none => .error .sendBlockNotFound
        | some sendBlk =>
          if sendBlk.isPrivate && !sendBlk.isRecipient then .ok cs
          else
            match b.getPovMethod sendBlk.link sendBlk.getPayload with
            | .error e => .error e
            | .ok none => .ok cs
            | .ok (some _) =>
              match newVMContextWithBlock node.view node.ledger txBlock with
              | none => .error .noVmContext
              | some _ => .error .notImplemented
    | _ => .ok cs

/-! ## Which call a transaction makes -/

section
variable (b : Build) (node : PovNode) (tx : PovTransaction)

def callContext (m : PovMethod) : Except OnPovError (Option (PovMethod × VmContext)) :=
  match newVMContextWithBlock node.view node.ledger tx.block with
  | none => .error .noVmContext
  | some vmCtx => .ok (some (m, vmCtx))

/-- The call of a block that is seen, by the method that `link` and `payload` select. -/
def callOf (link : Address) (payload : Bytes)
    (run : PovMethod → Except OnPovError (Option (PovMethod × VmContext))) :
    Except OnPovError (Option (PovMethod × VmContext)) :=
  match b.getPovMethod link payload with
  | .error e => .error e
  | .ok none => .ok none
  | .ok (some m) => run m

def rewardCall (m : PovMethod) : Except OnPovError (Option (PovMethod × VmContext)) :=
  match callContext node tx m with
  | .error e => .error e
  | .ok _ => .error .notImplemented

/-- The method with PoV state that a transaction calls, if any, with its context. -/
def povCall : Except OnPovError (Option (PovMethod × VmContext)) :=
  if b.isGenesisBlock tx.block then .ok none
  else
    match tx.block.type with
    | .contractSend =>
      if tx.block.isPrivate && !tx.block.isRecipient then .ok none
      else callOf b tx.block.link tx.block.getPayload (callContext node tx)
    | .contractReward =>
      if tx.block.isPrivate && !tx.block.isRecipient then .ok none
      else
        match node.ledger.getStateBlockConfirmed tx.block.link with
        | none => .error .sendBlockNotFound
        | some sendBlk =>
          if sendBlk.isPrivate && !sendBlk.isRecipient then .ok none
          else callOf b sendBlk.link sendBlk.getPayload (rewardCall node tx)
    | _ => .ok none

theorem updateContractState_eq (height : ℕ) (cs : PovContracts) :
    updateContractState b node height cs tx =
      match povCall b node tx with
      | .error e => .error e
      | .ok none => .ok cs
      | .ok (some (m, vmCtx)) => m.doSendOnPov b node.order vmCtx height tx.block cs := by
  unfold updateContractState povCall callOf rewardCall callContext
  dsimp only
  by_cases hgenesis : b.isGenesisBlock tx.block = true
  · rw [if_pos hgenesis, if_pos hgenesis]
  rw [if_neg hgenesis, if_neg hgenesis]
  cases tx.block.type with
  | contractSend =>
    dsimp only
    split_ifs
    · rfl
    · cases b.getPovMethod tx.block.link tx.block.getPayload with
      | error e => rfl
      | ok m =>
        cases m with
        | none => rfl
        | some m =>
          cases newVMContextWithBlock node.view node.ledger tx.block with
          | none => rfl
          | some vmCtx => rfl
  | contractReward =>
    dsimp only
    split_ifs
    · rfl
    · cases node.ledger.getStateBlockConfirmed tx.block.link with
      | none => rfl
      | some sendBlk =>
        dsimp only
        split_ifs
        · rfl
        · cases b.getPovMethod sendBlk.link sendBlk.getPayload with
          | error e => rfl
          | ok m =>
            cases m with
            | none => rfl
            | some m =>
              cases newVMContextWithBlock node.view node.ledger tx.block with
              | none => rfl
              | some vmCtx => rfl
  | _ => rfl

end

end GoQlc.Pov

/-! ## What the KYC contract accepts -/

namespace GoQlc

namespace Pov.Kyc

open Abi Config

def errToken : ContractError := .other "token err"
def errUnpackMethod : ContractError := .other "unpack method err"
def errCheckParam : ContractError := .other "check param err"
def errInvalidLen : ContractError := .other "invalid len"
def errInvalidAdmin : ContractError := .other "invalid admin"
def errInvalidOperator : ContractError := .other "invalid operator"

def commentMaxLen : ℕ := 128

def statusNames : List Bytes :=
  ["KYC_STATUS_NOT_STARTED", "KYC_STATUS_IN_PROGRESS", "KYC_STATUS_PROCESSING",
    "KYC_STATUS_FAILED_JUMIO", "KYC_STATUS_FAILED_COMPLYADVANTAGE", "KYC_STATUS_DENIED",
    "KYC_STATUS_PENDING", "KYC_STATUS_PENDING_INSTITUTION", "KYC_STATUS_APPROVED",
    "KYC_STATUS_SET_FOR_CLOSURE"].map asciiBytes

section
variable (sha256 : Bytes → Hash) (cs : PovContracts)

def isAdmin (addr : Address) : Bool :=
  if addr = genesisAddress then !(cs.kycAdmins.values.any AdminAccount.valid)
  else (cs.kycAdmins.get addr).any AdminAccount.valid

def isOperator (addr : Address) : Bool := (cs.kycOperators.get addr).any AdminAccount.valid

def getStatusByChainAddress (address : Address) : Except OnPovError (Option KycStatus) :=
  match cs.kycStatus.get address with
  | none => .error .keyNotExist
  | some s => .ok (if s.valid then some s else none)

/-- The record is found through the trade address, whatever chain address it stands under. -/
def getStatusByTradeAddress (address : Bytes) : Except OnPovError (Option KycStatus) :=
  match cs.kycTradeAddresses.get (sha256 address) with
  | none => .error .keyNotExist
  | some key =>
    match cs.kycAddresses.get key with
    | none => .error .keyNotExist
    | some ks => if ks.valid then getStatusByChainAddress cs key.1 else .ok none

def verifyStatus (status : StatusUpdate) : Bool := statusNames.contains status.status

def verifyTradeAddress (ka : TradeAddressUpdate) : Bool :=
  (ka.action == actionAdd ||
    (ka.action == actionRemove &&
      (getStatusByTradeAddress sha256 cs ka.tradeAddress).toOption.isSome)) &&
  decide (ka.comment.length ≤ commentMaxLen) && !ka.tradeAddress.isEmpty

def verifyOperator (oa : OperatorUpdate) : Bool :=
  (oa.action == actionAdd || (oa.action == actionRemove && isOperator cs oa.account)) &&
  decide (oa.comment.length ≤ commentMaxLen)

end

/-- The steps that all four methods take: `param` and `right` are the errors of the two checks. -/
def processCall {α : Type} (call : Option α) (verify : α → Bool) (param : ContractError)
    (allowed : Bool) (right : ContractError) (packed : α → Bytes) (ctx : VmContext)
    (block : StateBlock) : SendOutcome :=
  if block.token ≠ chainToken then ⟨block.data, .error errToken⟩
  else
    match call with
    | none => ⟨block.data, .error errUnpackMethod⟩
    | some args =>
      if !verify args then ⟨block.data, .error param⟩
      else if !block.isFromSync && !allowed then ⟨block.data, .error right⟩
      else ⟨packed args, .ok (none, ctx)⟩

section
variable (b : Build) (cs : PovContracts)

def describe : Describe := { specVer := 2, signature := true, work := true }

def adminHandOver : Contract where
  describe := describe
  processSend ctx block :=
    processCall (unpackHandOver b.hashData block.data)
      (fun admin => decide (admin.comment.length ≤ commentMaxLen)) errInvalidLen
      (isAdmin cs block.address) errInvalidAdmin
      (fun admin => packMethod b.hashData adminHandOverMethod (admin.account, admin.comment, ()))
      ctx block

def statusUpdate : Contract where
  describe := describe
  processSend ctx block :=
    processCall (unpackStatusUpdate b.hashData block.data) verifyStatus errCheckParam
      (isOperator cs block.address) errInvalidOperator
      (fun status =>
        packMethod b.hashData statusUpdateMethod (status.chainAddress, status.status, ()))
      ctx block

def tradeAddressUpdate : Contract where
  describe := describe
  processSend ctx block :=
    processCall (unpackTradeAddressUpdate b.hashData block.data) (verifyTradeAddress b.sha256 cs)
      errCheckParam (isOperator cs block.address) errInvalidOperator
      (fun ka =>
        packMethod b.hashData tradeAddressUpdateMethod
          (ka.chainAddress, ka.action, ka.tradeAddress, ka.comment, ()))
      ctx block

def operatorUpdate : Contract where
  describe := describe
  processSend ctx block :=
    processCall (unpackOperatorUpdate b.hashData block.data) (verifyOperator cs) errCheckParam
      (isAdmin cs block.address) errInvalidAdmin
      (fun oa => packMethod b.hashData operatorUpdateMethod (oa.account, oa.action, oa.comment, ()))
      ctx block

def chainContract : ChainContract where
  methods := methods
  contracts := [(adminHandOverMethod, adminHandOver b cs), (statusUpdateMethod, statusUpdate b cs),
    (tradeAddressUpdateMethod, tradeAddressUpdate b cs),
    (operatorUpdateMethod, operatorUpdate b cs)]

end

end Pov.Kyc

/-- The checks of a node of this build, with `cs` the latest states of the contracts. -/
def Pov.Build.checkEnv (b : Pov.Build) (cs : Pov.PovContracts) : Env :=
  { b.toEnv with
    otherContracts := fun addr =>
      if addr = Config.kycAddress ∧ b.testnet = true then
        some (b.lookupMethod (Pov.Kyc.chainContract b cs))
      else b.otherContracts addr }

end GoQlc
