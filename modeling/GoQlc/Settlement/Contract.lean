import GoQlc.Vm.Msgp
import GoQlc.Types.Account
import GoQlc.Lib.Table
import GoQlc.Config.Genesis

/-!
# Settlement contracts

Two parties agree on a settlement contract: any account creates it with the parameters of both,
party B signs it, each party names the stops of its side, both upload call detail records, and
either may ask to terminate it.
-/

namespace GoQlc.Settlement

open Config Msgp

abbrev Text := { s : Bytes // s.length < 2 ^ 32 }

structure Contractor where
  address : Address
  name : Text
deriving DecidableEq

def Contractor.toABI (z : Contractor) : Bytes :=
  [0x82, 0xa1, 0x61] ++ appendAddress z.address ++
    [0xa1, 0x6e] ++ appendString z.name.val

structure ContractService where
  serviceId : Text
  mcc : UInt64
  mnc : UInt64
  totalAmount : UInt64
  unitPrice : UInt64
  currency : Text
deriving DecidableEq

namespace ContractService

def toABI (z : ContractService) : Bytes :=
  [0x86, 0xa2, 0x69, 0x64] ++ appendString z.serviceId.val ++
    [0xa3, 0x6d, 0x63, 0x63] ++ appendUint64 z.mcc ++
    [0xa3, 0x6d, 0x6e, 0x63] ++ appendUint64 z.mnc ++
    [0xa1, 0x74] ++ appendUint64 z.totalAmount ++
    [0xa1, 0x75] ++ appendFloat64 z.unitPrice ++
    [0xa1, 0x63] ++ appendString z.currency.val

def validate (z : ContractService) : Bool :=
  !z.serviceId.val.isEmpty && decide (1 ≤ z.totalAmount) &&
    z.unitPrice &&& 0x7fffffffffffffff != 0 && !z.currency.val.isEmpty

def balance (_ : ContractService) : ℕ := 100000000

end ContractService

inductive ContractStatus where
  | activeStage1
  | activated
  | destroyStage1
  | destroyed
  | rejected
deriving DecidableEq, Repr

inductive SettlementError where
  | invalidToken (token : Hash)
  | invalidPartyA
  | invalidPartyB
  | invalidPreviousHash
  | emptyServices
  | invalidService
  | invalidSignDate (date : Int64)
  | invalidStartDate (date : Int64)
  | invalidEndDate (date : Int64)
  | endBeforeStart (start end_ : Int64)
  | calculateAmount
  | notEnoughBalance (exp act : ℕ)
  | storageNotFound
  | invalidSavedContractData
  | invalidContractAddress
  | invalidConfirmDate
  | notPartyB (exp act : Address)
  | contractDestroyed
  | invalidStatus (status : ContractStatus)
  | invalidTerminalOperator
  | notContractor (act : Address)
  | alreadyTerminated (operator : Address)
  | invalidRequest (operator : Address) (status : ContractStatus)
  | permissionDenied (exp act : Address)
  | stopNameExists (name : Bytes)
  | stopNameNotFound (name : Bytes)
  | invalidCDRParamList
  | invalidCDRParam
  | invalidUploadingDate (date : Int64)
  | invalidSMSDate (date : Int64)
  | canNotUpload (addr : Address)
  | invalidParamsSize (size : ℕ)
deriving DecidableEq, Repr

structure CreateContractParam where
  partyA : Contractor
  partyB : Contractor
  previous : Hash
  services : List ContractService
  signDate : Int64
  startDate : Int64
  endDate : Int64
deriving DecidableEq

namespace CreateContractParam

def verify (z : CreateContractParam) : Except SettlementError Unit :=
  if z.partyA.address = 0 ∨ z.partyA.name.val.isEmpty then .error .invalidPartyA
  else if z.partyB.address = 0 ∨ z.partyB.name.val.isEmpty then .error .invalidPartyB
  else if z.previous = 0 then .error .invalidPreviousHash
  else if z.services.isEmpty then .error .emptyServices
  else if !z.services.all ContractService.validate then .error .invalidService
  else if z.signDate ≤ 0 then .error (.invalidSignDate z.signDate)
  else if z.startDate ≤ 0 then .error (.invalidStartDate z.startDate)
  else if z.endDate ≤ 0 then .error (.invalidEndDate z.endDate)
  else if z.endDate < z.startDate then .error (.endBeforeStart z.startDate z.endDate)
  else .ok ()

/-- What the address of a contract is the hash of; the start and the end date are not part of
it. -/
def addressData (z : CreateContractParam) : Bytes :=
  z.partyA.toABI ++ z.partyB.toABI ++ hashBytes z.previous ++
    z.services.flatMap ContractService.toABI ++ Bytes.beBytes 8 z.signDate.toUInt64.toNat

def address (hashData : Bytes → Hash) (z : CreateContractParam) :
    Except SettlementError Address :=
  z.verify.map fun _ => hashData z.addressData

def balance (z : CreateContractParam) : ℕ :=
  z.services.foldl (fun total service => Balance.add total service.balance) 0

end CreateContractParam

structure Terminator where
  address : Address
  request : Bool
deriving DecidableEq

structure ContractParam extends CreateContractParam where
  preStops : List Bytes := []
  nextStops : List Bytes := []
  confirmDate : Int64 := 0
  status : ContractStatus
  terminator : Option Terminator := none
deriving DecidableEq

def CreateContractParam.toContractParam (z : CreateContractParam) : ContractParam :=
  { z with status := .activeStage1 }

namespace ContractParam

def isAvailable (now : Int64) (z : ContractParam) : Bool :=
  z.status == .activated && decide (z.startDate ≤ now) && decide (now ≤ z.endDate)

def isContractor (z : ContractParam) (addr : Address) : Bool :=
  z.partyA.address == addr || z.partyB.address == addr

def doActive (z : ContractParam) (operator : Address) : Except SettlementError ContractParam :=
  if z.partyB.address ≠ operator then .error (.notPartyB z.partyB.address operator)
  else
    match z.status with
    | .activeStage1 => .ok { z with status := .activated }
    | .destroyed => .error .contractDestroyed
    | status => .error (.invalidStatus status)

def doTerminate (z : ContractParam) (operator : Terminator) :
    Except SettlementError ContractParam :=
  if operator.address = 0 then .error .invalidTerminalOperator
  else if !z.isContractor operator.address then .error (.notContractor operator.address)
  else
    match z.terminator with
    | some terminator =>
      if operator = terminator then .error (.alreadyTerminated operator.address)
      else if z.status = .destroyStage1 then
        if operator.address = terminator.address then
          -- the two differ in the request; only a cancellation has an effect
          if !operator.request then .ok { z with status := .activated, terminator := none }
          else .ok z
        else if operator.request then .ok { z with status := .destroyed }
        else .ok { z with status := .activated, terminator := none }
      else .error (.invalidStatus z.status)
    | none =>
      if !operator.request then .error (.invalidRequest operator.address z.status)
      else
        match z.status with
        | .activeStage1 =>
          if z.partyA.address = operator.address then .ok { z with status := .destroyed }
          else .ok { z with status := .rejected }
        | .activated => .ok { z with terminator := some operator, status := .destroyStage1 }
        | status => .error (.invalidStatus status)

end ContractParam

/-! ### Call detail records -/

inductive SendingStatus where
  | sent
  | error
  | empty
deriving DecidableEq, Repr

inductive DLRStatus where
  | delivered
  | rejected
  | unknown
  | undelivered
  | empty
deriving DecidableEq, Repr

structure CDRParam where
  index : UInt64
  smsDt : Int64
  account : Bytes := []
  sender : Bytes
  customer : Bytes := []
  destination : Bytes
  sendingStatus : SendingStatus
  dlrStatus : DLRStatus
  preStop : Bytes := []
  nextStop : Bytes := []
deriving DecidableEq, Repr

namespace CDRParam

def status (z : CDRParam) : Bool :=
  match z.dlrStatus with
  | .delivered => true
  | .undelivered => false
  | .unknown | .empty => z.sendingStatus == .sent
  | .rejected => false

def verify (z : CDRParam) : Except SettlementError Unit :=
  if z.index < 1 ∨ z.smsDt < 1 ∨ z.sender.isEmpty ∨ z.destination.isEmpty then
    .error .invalidCDRParam
  else .ok ()

def hashedData (z : CDRParam) : Bytes :=
  Bytes.beBytes 8 z.index.toNat ++ z.sender ++ z.destination

def toHash (hashData : Bytes → Hash) (z : CDRParam) : Hash := hashData z.hashedData

end CDRParam

structure CDRParamList where
  contractAddress : Address
  params : List CDRParam
deriving DecidableEq

def CDRParamList.verify (z : CDRParamList) : Except SettlementError Unit :=
  if z.contractAddress = 0 ∨ z.params.isEmpty then .error .invalidCDRParamList else .ok ()

inductive SettlementStatus where
  | unknown
  | stage1
  | success
  | failure
  | missing
  | duplicate
deriving DecidableEq, Repr

structure CDRStatus where
  params : Table Address (List CDRParam)
  status : SettlementStatus
deriving DecidableEq

/-- Adds an upload of `src` and settles the record; the order of the parties does not matter. -/
def CDRStatus.doSettlement (z : CDRStatus) (src : Address) (param : CDRParam) :
    Except SettlementError CDRStatus :=
  let params := z.params.put src ((z.params.get src).getD [] ++ [param])
  let uploads := params.values
  if uploads.length = 1 then .ok { params, status := .stage1 }
  else if uploads.length = 2 then
    if uploads.any fun ps => decide (1 < ps.length) then .ok { params, status := .duplicate }
    else if uploads.all fun ps => ps.head?.all CDRParam.status then
      .ok { params, status := .success }
    else .ok { params, status := .failure }
  else .error (.invalidParamsSize uploads.length)

/-! ### Storage -/

structure Store where
  contracts : Table Address ContractParam := ∅
  cdrs : Table (Address × Hash) CDRStatus := ∅
deriving DecidableEq

namespace Store

/-- The contracts that `GetPreStopNames` and `GetNextStopNames` look at. -/
def live (cp : ContractParam) : Bool := cp.status == .activated || cp.status == .activeStage1

def getPreStopNames (st : Store) (addr : Address) : List Bytes :=
  (st.contracts.values.filter fun cp => cp.partyB.address == addr && live cp).flatMap
    ContractParam.preStops

def getNextStopNames (st : Store) (addr : Address) : List Bytes :=
  (st.contracts.values.filter fun cp => cp.partyA.address == addr && live cp).flatMap
    ContractParam.nextStops

def saveContractParam (st : Store) (addr : Address) (cp : ContractParam) : Store :=
  { st with contracts := st.contracts.put addr cp }

def getContractParam (st : Store) (addr : Address) : Except SettlementError ContractParam :=
  match st.contracts.get addr with
  | none => .error .storageNotFound
  | some cp => .ok cp

end Store

/-! ### Calls -/

structure SignContractParam where
  contractAddress : Address
  confirmDate : Int64
deriving DecidableEq

structure TerminateParam where
  contractAddress : Address
  request : Bool
deriving DecidableEq

structure StopParam where
  contractAddress : Address
  stopName : Bytes
deriving DecidableEq

structure UpdateStopParam where
  contractAddress : Address
  stopName : Bytes
  new : Bytes
deriving DecidableEq

/-- The two sides of a contract: party B names the previous stops, party A the next stops. -/
inductive Side where
  | pre
  | next
deriving DecidableEq, Repr

inductive Call where
  | createContract (param : CreateContractParam)
  | signContract (param : SignContractParam)
  | terminateContract (param : TerminateParam)
  | processCDR (param : CDRParamList)
  | addStop (side : Side) (param : StopParam)
  | removeStop (side : Side) (param : StopParam)
  | updateStop (side : Side) (param : UpdateStopParam)
deriving DecidableEq

def add (s : List Bytes) (name : Bytes) : Except SettlementError (List Bytes) :=
  if s.contains name then .error (.stopNameExists name) else .ok (s ++ [name])

def remove (s : List Bytes) (name : Bytes) : Except SettlementError (List Bytes) :=
  if s.contains name then .ok (s.erase name) else .error (.stopNameNotFound name)

def update (s : List Bytes) (old new : Bytes) : Except SettlementError (List Bytes) :=
  remove s old >>= fun s => add s new

namespace Side

def party (side : Side) (cp : ContractParam) : Address :=
  match side with
  | .pre => cp.partyB.address
  | .next => cp.partyA.address

def stops (side : Side) (cp : ContractParam) : List Bytes :=
  match side with
  | .pre => cp.preStops
  | .next => cp.nextStops

def setStops (side : Side) (cp : ContractParam) (stops : List Bytes) : ContractParam :=
  match side with
  | .pre => { cp with preStops := stops }
  | .next => { cp with nextStops := stops }

/-- `GetPreStopNames` or `GetNextStopNames`. -/
def names (side : Side) (st : Store) (addr : Address) : List Bytes :=
  match side with
  | .pre => st.getPreStopNames addr
  | .next => st.getNextStopNames addr

end Side

/-- `handleSend`: the party of the side changes the stops of its contract. -/
def handleSend (st : Store) (block : StateBlock) (side : Side) (address : Address)
    (process : List Bytes → Except SettlementError (List Bytes)) :
    Except SettlementError Store :=
  if block.token ≠ gasToken then .error (.invalidToken block.token)
  else do
    let param ← st.getContractParam address
    if side.party param ≠ block.address then
      .error (.permissionDenied (side.party param) block.address)
    else
      let stops ← process (side.stops param)
      return st.saveContractParam address (side.setStops param stops)

section
variable (hashData : Bytes → Hash)

/-- `CreateContract.ProcessSend`: the sender need not be party A, and a contract that is stored is
left as it is. -/
def createContract (amount : Option ℕ) (st : Store) (block : StateBlock)
    (param : CreateContractParam) : Except SettlementError Store :=
  if block.token ≠ gasToken then .error (.invalidToken block.token)
  else do
    param.verify
    match amount with
    | none => .error .calculateAmount
    | some amount =>
      if amount < param.balance then .error (.notEnoughBalance param.balance amount)
      else
        let address ← param.address hashData
        match st.contracts.get address with
        | some param2 =>
          let saved ← param2.toCreateContractParam.address hashData
          if saved ≠ address then .error .invalidSavedContractData else .ok st
        | none => .ok (st.saveContractParam address param.toContractParam)

def signContract (st : Store) (block : StateBlock) (param : SignContractParam) :
    Except SettlementError Store :=
  if param.contractAddress = 0 then .error .invalidContractAddress
  else if param.confirmDate = 0 then .error .invalidConfirmDate
  else do
    let cp ← st.getContractParam param.contractAddress
    let cp ← cp.doActive block.address
    return st.saveContractParam param.contractAddress { cp with confirmDate := param.confirmDate }

def terminateContract (st : Store) (block : StateBlock) (param : TerminateParam) :
    Except SettlementError Store :=
  if param.contractAddress = 0 then .error .invalidContractAddress
  else do
    let cp ← st.getContractParam param.contractAddress
    let cp ← cp.doTerminate { address := block.address, request := param.request }
    return st.saveContractParam param.contractAddress cp

def uploadCDR (stored : Option CDRStatus) (addr : Address) (param : CDRParam) :
    Except SettlementError CDRStatus :=
  match stored with
  | none => .ok { params := (∅ : Table Address (List CDRParam)).put addr [param], status := .stage1 }
  | some state => state.doSettlement addr param

/-- `ProcessCDR.save`. -/
def saveCDR (block : StateBlock) (ca : Address) (contract : ContractParam) (st : Store)
    (param : CDRParam) : Except SettlementError Store := do
  param.verify
  if param.smsDt ≤ 0 ∨ param.smsDt < contract.startDate ∨ contract.endDate < param.smsDt then
    .error (.invalidSMSDate param.smsDt)
  else if !contract.isContractor block.address then .error (.canNotUpload block.address)
  else
    let key := (ca, param.toHash hashData)
    let status ← uploadCDR (st.cdrs.get key) block.address param
    return { st with cdrs := st.cdrs.put key status }

/-- `ProcessCDR.ProcessSend`: the status of the contract is not looked at. -/
def processCDR (st : Store) (block : StateBlock) (paramList : CDRParamList) :
    Except SettlementError Store := do
  paramList.verify
  let contract ← st.getContractParam paramList.contractAddress
  if block.timestamp ≤ 0 ∨ block.timestamp < contract.startDate ∨
      contract.endDate < block.timestamp then
    .error (.invalidUploadingDate block.timestamp)
  else paramList.params.foldlM (saveCDR hashData block paramList.contractAddress contract) st

def addStop (side : Side) (st : Store) (block : StateBlock) (param : StopParam) :
    Except SettlementError Store :=
  handleSend st block side param.contractAddress fun stops =>
    if (side.names st block.address).contains param.stopName then
      .error (.stopNameExists param.stopName)
    else add stops param.stopName

def removeStop (side : Side) (st : Store) (block : StateBlock) (param : StopParam) :
    Except SettlementError Store :=
  handleSend st block side param.contractAddress fun stops => remove stops param.stopName

def updateStop (side : Side) (st : Store) (block : StateBlock) (param : UpdateStopParam) :
    Except SettlementError Store :=
  handleSend st block side param.contractAddress fun stops =>
    if (side.names st block.address).contains param.new then .error (.stopNameExists param.new)
    else update stops param.stopName param.new

/-- What an accepted call leaves in the storage; `amount` is what `CalculateAmount` says of the
block. -/
def processSend (amount : Option ℕ) (st : Store) (block : StateBlock) :
    Call → Except SettlementError Store
  | .createContract param => createContract hashData amount st block param
  | .signContract param => signContract st block param
  | .terminateContract param => terminateContract st block param
  | .processCDR param => processCDR hashData st block param
  | .addStop side param => addStop side st block param
  | .removeStop side param => removeStop side st block param
  | .updateStop side param => updateStop side st block param

/-- The pending that an accepted call makes: for party A when it creates a contract, else for the
sender. -/
def pendingOf (block : StateBlock) (call : Call) : PendingKey × PendingInfo :=
  let receiver := match call with
    | .createContract param => param.partyA.address
    | _ => block.address
  ({ address := receiver, hash := block.getHash hashData },
    { source := block.link, amount := 0, type := block.token })

end
end GoQlc.Settlement
