import GoQlc.Vm.Contract

/-!
# The public key distribution contract

A publisher registers a key for an identity, verifiers confirm it, and each publication is stored
under its type, identity, key and the previous hash of its block.
-/

namespace GoQlc.PublicKeyDistribution

open Abi Config

def verifierRegisterMethod : Method :=
  { name := "PKDVerifierRegister", inputs := [.uint32, .string, .slice .uint8] }
def verifierUnregisterMethod : Method := { name := "PKDVerifierUnregister", inputs := [.uint32] }
def verifierHeartMethod : Method := { name := "PKDVerifierHeart", inputs := [.slice .uint32] }
def oracleMethod : Method :=
  { name := "PKDOracle", inputs := [.uint32, .hash, .uint16, .slice .uint8, .string, .hash] }
def publishMethod : Method :=
  { name := "PKDPublish"
    inputs :=
      [.uint32, .hash, .uint16, .slice .uint8, .slice .address, .slice .hash, .uint256] }
def unPublishMethod : Method :=
  { name := "PKDUnPublish", inputs := [.uint32, .hash, .uint16, .slice .uint8, .hash] }
def rewardMethod : Method :=
  { name := "PKDReward", inputs := [.address, .address, .uint64, .uint256] }

def methods : List Method :=
  [verifierRegisterMethod, verifierUnregisterMethod, verifierHeartMethod, oracleMethod,
    publishMethod, unPublishMethod, rewardMethod]

/-- The arguments of the stored variable `PKDPublishInfo`. -/
def publishInfoInputs : List AbiType :=
  [.address, .slice .address, .slice .hash, .uint256, .bool, .uint16, .slice .uint8]

/-- `PKDStorageTypePublisher`. -/
def storageTypePublisher : UInt8 := 1

/-- The kinds of identity a verifier can confirm, as `OracleTypeToString` names them. -/
inductive OracleType where
  | email
  | weChat
  | invalid
deriving DecidableEq, Repr

def oracleTypeToString (ot : UInt32) : OracleType :=
  if ot = 0 then .email else if ot = 1 then .weChat else .invalid

/-- A publication is named by type, identity, hash of the key and previous hash. -/
structure PublishInfoKey where
  pType : UInt32
  pID : Hash
  pubKey : Hash
  hash : Hash
deriving DecidableEq, Repr

structure PublishInfo where
  pType : UInt32
  pID : Hash
  keyType : UInt16
  pubKey : Bytes
  verifiers : List Address
  codes : List Hash
  fee : ℕ
deriving DecidableEq, Repr

structure OracleInfo where
  oType : UInt32
  oID : Hash
  keyType : UInt16
  pubKey : Bytes
  code : Bytes
  hash : Hash
deriving DecidableEq, Repr

/-- What the ledger stores of a publication. Withdrawing it clears `valid`. -/
structure PubKeyInfo where
  account : Address
  verifiers : List Address
  codes : List Hash
  fee : ℕ
  valid : Bool
  keyType : UInt16
  pubKey : Bytes
deriving DecidableEq, Repr

section
variable (hashData : Bytes → Hash)

def unpackVerifierHeart (data : Bytes) : Option (List UInt32) :=
  (unpackMethod hashData methods verifierHeartMethod data).map fun (vType, _) => vType

def unpackPublish (data : Bytes) : Option PublishInfo :=
  (unpackMethod hashData methods publishMethod data).map
    fun (pType, pID, keyType, pubKey, verifiers, codes, fee, _) =>
      { pType, pID, keyType, pubKey, verifiers, codes, fee }

def unpackOracle (data : Bytes) : Option OracleInfo :=
  (unpackMethod hashData methods oracleMethod data).map
    fun (oType, oID, keyType, pubKey, code, hash, _) =>
      { oType, oID, keyType, pubKey, code, hash }

end

def PubKeyInfo.pack (info : PubKeyInfo) : Bytes :=
  Abi.pack publishInfoInputs
    (info.account, info.verifiers, info.codes, info.fee, info.valid, info.keyType, info.pubKey, ())

def parsePubKeyInfo (data : Bytes) : Option PubKeyInfo :=
  (unpackVariable publishInfoInputs data).map
    fun (account, verifiers, codes, fee, valid, keyType, pubKey, _) =>
      { account, verifiers, codes, fee, valid, keyType, pubKey }

section
variable (sha256 : Bytes → Hash)

def publicKeyWithTypeHash (t : UInt16) (k : Bytes) : Hash :=
  sha256 (Bytes.beBytes 2 t.toNat ++ k)

def PublishInfo.key (info : PublishInfo) (previous : Hash) : PublishInfoKey where
  pType := info.pType
  pID := info.pID
  pubKey := publicKeyWithTypeHash sha256 info.keyType info.pubKey
  hash := previous

def OracleInfo.key (info : OracleInfo) : PublishInfoKey where
  pType := info.oType
  pID := info.oID
  pubKey := publicKeyWithTypeHash sha256 info.keyType info.pubKey
  hash := info.hash

end

def PublishInfoKey.storageKey (k : PublishInfoKey) : Bytes :=
  storageTypePublisher :: (Bytes.beBytes 4 k.pType.toNat ++ hashBytes k.pID ++
    hashBytes k.pubKey ++ hashBytes k.hash)

def getPublishInfoByKey (ctx : VmContext) (k : PublishInfoKey) : Option PubKeyInfo :=
  match ctx.getStorage (hashBytes pubKeyDistributionAddress) k.storageKey with
  | none => none
  | some data => (parsePubKeyInfo data).filter PubKeyInfo.valid

/-! ## Verifiers -/

def errToken : ContractError := .other "token err"
def errUnpackMethod : ContractError := .other "unpack method err"
def errNotEnoughPledge : ContractError := .other "not enough pledge"
def errCheckParam : ContractError := .other "check param err"
def errGetVerifier : ContractError := .other "get verifier err"
def errCalcAmount : ContractError := .other "calc amount err"
def errNotEnoughFee : ContractError := .other "not enough fee"

def minVerifierPledgeAmount : ℕ := 300000000000000
def oracleCost : ℕ := 10000000

/-- `PKDStorageTypeVerifier`. -/
def storageTypeVerifier : UInt8 := 0
/-- `PKDStorageTypeOracle`. -/
def storageTypeOracle : UInt8 := 2

/-- The arguments of the stored variable `PKDVerifierInfo`. -/
def verifierInfoInputs : List AbiType := [.string, .slice .uint8, .bool]

/-- The arguments of the stored variable `PKDOracleInfo`. -/
def codeInfoInputs : List AbiType := [.string, .uint16, .slice .uint8]

structure VerifierRegInfo where
  vType : UInt32
  vInfo : Bytes
  vKey : Bytes
deriving DecidableEq, Repr

structure VerifierStorage where
  vInfo : Bytes
  vKey : Bytes
  valid : Bool
deriving DecidableEq, Repr

def VerifierStorage.pack (vs : VerifierStorage) : Bytes :=
  Abi.pack verifierInfoInputs (vs.vInfo, vs.vKey, vs.valid, ())

def parseVerifierStorage (data : Bytes) : Option VerifierStorage :=
  (unpackVariable verifierInfoInputs data).map fun (vInfo, vKey, valid, _) =>
    { vInfo, vKey, valid }

def verifierKey (vType : UInt32) (account : Address) : Bytes :=
  storageTypeVerifier :: (Bytes.beBytes 4 vType.toNat ++ hashBytes account)

section
variable (hashData : Bytes → Hash)

def unpackVerifierRegister (data : Bytes) : Option VerifierRegInfo :=
  (unpackMethod hashData methods verifierRegisterMethod data).map fun (vType, vInfo, vKey, _) =>
    { vType, vInfo, vKey }

def unpackVerifierUnregister (data : Bytes) : Option UInt32 :=
  (unpackMethod hashData methods verifierUnregisterMethod data).map fun (vType, _) => vType

end

def verifierPledgeCheck (ctx : VmContext) (account : Address) : Except ContractError Unit :=
  match ctx.getAccountMeta account with
  | none => .error errNotEnoughPledge
  | some am =>
    match am.coinOracle with
    | none => .error .nilPointer
    | some oracle =>
      if oracle < minVerifierPledgeAmount then .error errNotEnoughPledge else .ok ()

section
variable (ctx : VmContext) (account : Address) (vType : UInt32)

def checkVerifierInfoExist (vInfo vKey : Bytes) : Bool :=
  match ctx.getStorage (hashBytes pubKeyDistributionAddress) (verifierKey vType account) with
  | none => false
  | some val =>
    match parseVerifierStorage val with
    | none => false
    | some info => info.valid && info.vInfo == vInfo && info.vKey == vKey

def checkVerifierExist : Bool :=
  match ctx.getStorage (hashBytes pubKeyDistributionAddress) (verifierKey vType account) with
  | none => false
  | some val =>
    match parseVerifierStorage val with
    | none => false
    | some info => info.valid

def getVerifierInfoByAccountAndType : Except ContractError (Option VerifierStorage) :=
  match ctx.getStorage (hashBytes pubKeyDistributionAddress) (verifierKey vType account) with
  | none => .error .storageNotFound
  | some val =>
    match parseVerifierStorage val with
    | none => .error .unpack
    | some vs => .ok (if vs.valid then some vs else none)

end

/-- `VerifyEmailFormat` matches a regular expression. -/
def verifierRegInfoCheck (verifyEmailFormat : Bytes → Bool) (ctx : VmContext)
    (account : Address) (reg : VerifierRegInfo) : Bool :=
  match oracleTypeToString reg.vType with
  | .email =>
    verifyEmailFormat reg.vInfo &&
      !checkVerifierInfoExist ctx account reg.vType reg.vInfo reg.vKey
  | .weChat => !checkVerifierInfoExist ctx account reg.vType reg.vInfo reg.vKey
  | .invalid => false

def verifierUnRegInfoCheck (ctx : VmContext) (account : Address) (vType : UInt32) : Bool :=
  match oracleTypeToString vType with
  | .email | .weChat => checkVerifierExist ctx account vType
  | .invalid => false

/-- The key lengths of the types `PublicKeyTypeED25519` and `PublicKeyTypeRSA4096`. -/
def publicKeyLength (keyType : UInt16) : Option ℕ :=
  if keyType = 0 then some 32 else if keyType = 1 then some 512 else none

/-- The code of the verifier must hash to the one published for it; a publication with fewer
codes than verifiers reads past the slice. -/
def oracleInfoCheck (sha256 : Bytes → Hash) (ctx : VmContext) (account : Address)
    (info : OracleInfo) : Except ContractError Unit :=
  match oracleTypeToString info.oType with
  | .invalid => .error errCheckParam
  | .email | .weChat =>
    if publicKeyLength info.keyType ≠ some info.pubKey.length then .error errCheckParam
    else
      match getPublishInfoByKey ctx (info.key sha256) with
      | none => .error errCheckParam
      | some published =>
        match published.verifiers.idxOf? account with
        | none => .error errCheckParam
        | some index =>
          match published.codes[index]? with
          | none => .error .nilPointer
          | some code =>
            if sha256 (Bytes.hexText info.pubKey ++ info.code) ≠ code then .error errCheckParam
            else .ok ()

def oracleFeeCheck (crypto : Crypto) (ctx : VmContext) (block : StateBlock) :
    Except ContractError Unit :=
  match ctx.calculateAmount crypto block with
  | none => .error errCalcAmount
  | some amount => if amount ≠ oracleCost then .error errNotEnoughFee else .ok ()

/-- `GetVerifierInfoByAccountAndType` is only asked for its error. -/
def getVerifierCheck (ctx : VmContext) (account : Address) (vTypes : List UInt32) :
    Except ContractError Unit :=
  vTypes.forM fun vt =>
    match getVerifierInfoByAccountAndType ctx account vt with
    | .error _ => .error errGetVerifier
    | .ok _ => .ok ()

/-- The pledge and the registration, which are not checked for a block from a sync. -/
def verifierCheck (ctx : VmContext) (block : StateBlock) (vTypes : List UInt32) :
    Except ContractError Unit :=
  if block.isFromSync then .ok ()
  else verifierPledgeCheck ctx block.address >>= fun _ =>
    getVerifierCheck ctx block.address vTypes

def sendOutcome (block : StateBlock) : Except ContractError (Bytes × VmContext) → SendOutcome
  | .error e => ⟨block.data, .error e⟩
  | .ok (data, ctx) => ⟨data, .ok (none, ctx)⟩

section
variable (crypto : Crypto)

def verifierRegister.run (verifyEmailFormat : Bytes → Bool) (ctx : VmContext)
    (block : StateBlock) : Except ContractError (Bytes × VmContext) :=
  if block.token ≠ chainToken then .error errToken
  else
    match unpackVerifierRegister crypto.hashData block.data with
    | none => .error errUnpackMethod
    | some reg =>
      verifierPledgeCheck ctx block.address >>= fun _ =>
      if !verifierRegInfoCheck verifyEmailFormat ctx block.address reg then .error errCheckParam
      else .ok
        (packMethod crypto.hashData verifierRegisterMethod (reg.vType, reg.vInfo, reg.vKey, ()),
          ctx.setStorage (hashBytes pubKeyDistributionAddress)
            (verifierKey reg.vType block.address)
            (VerifierStorage.pack { vInfo := reg.vInfo, vKey := reg.vKey, valid := true }))

def verifierUnregister.run (ctx : VmContext) (block : StateBlock) :
    Except ContractError (Bytes × VmContext) :=
  if block.token ≠ chainToken then .error errToken
  else
    match unpackVerifierUnregister crypto.hashData block.data with
    | none => .error errUnpackMethod
    | some vType =>
      if !verifierUnRegInfoCheck ctx block.address vType then .error errCheckParam
      else
        match getVerifierInfoByAccountAndType ctx block.address vType with
        | .error _ | .ok none => .error .nilPointer
        | .ok (some vs) => .ok
          (packMethod crypto.hashData verifierUnregisterMethod (vType, ()),
            ctx.setStorage (hashBytes pubKeyDistributionAddress)
              (verifierKey vType block.address) { vs with valid := false }.pack)

def verifierHeart.run (ctx : VmContext) (block : StateBlock) :
    Except ContractError (Bytes × VmContext) :=
  if block.token ≠ gasToken then .error errToken
  else
    match unpackVerifierHeart crypto.hashData block.data with
    | none => .error errUnpackMethod
    | some vTypes =>
      verifierCheck ctx block vTypes >>= fun _ =>
      oracleFeeCheck crypto ctx block >>= fun _ =>
      .ok (packMethod crypto.hashData verifierHeartMethod (vTypes, ()), ctx)

def oracle.run (sha256 : Bytes → Hash) (ctx : VmContext) (block : StateBlock) :
    Except ContractError (Bytes × VmContext) :=
  if block.token ≠ gasToken then .error errToken
  else
    match unpackOracle crypto.hashData block.data with
    | none => .error errUnpackMethod
    | some info =>
      verifierCheck ctx block [info.oType] >>= fun _ =>
      oracleInfoCheck sha256 ctx block.address info >>= fun _ =>
      oracleFeeCheck crypto ctx block >>= fun _ =>
      .ok
        (packMethod crypto.hashData oracleMethod
            (info.oType, info.oID, info.keyType, info.pubKey, info.code, info.hash, ()),
          ctx.setStorage (hashBytes pubKeyDistributionAddress)
            (storageTypeOracle :: ((info.key sha256).storageKey.tail ++ hashBytes block.address))
            (Abi.pack codeInfoInputs (info.code, info.keyType, info.pubKey, ())))

def verifierRegister (verifyEmailFormat : Bytes → Bool) : Contract where
  describe := { specVer := 2, signature := true, work := true }
  processSend ctx block :=
    sendOutcome block (verifierRegister.run crypto verifyEmailFormat ctx block)

def verifierUnregister : Contract where
  describe := { specVer := 2, signature := true, work := true }
  processSend ctx block := sendOutcome block (verifierUnregister.run crypto ctx block)

def verifierHeart : Contract where
  describe := { specVer := 2, signature := true }
  processSend ctx block := sendOutcome block (verifierHeart.run crypto ctx block)

def oracle (sha256 : Bytes → Hash) : Contract where
  describe := { specVer := 2, signature := true }
  processSend ctx block := sendOutcome block (oracle.run crypto sha256 ctx block)
  doGap ctx block :=
    match unpackOracle crypto.hashData block.data with
    | none => .error .unpack
    | some info =>
      match getPublishInfoByKey ctx (info.key sha256) with
      | none => .ok .dpkiGapPublish
      | some _ => .ok .noGap

def verifierContract (sha256 : Bytes → Hash) (verifyEmailFormat : Bytes → Bool)
    (payload : Bytes) : Option Contract :=
  match methodById crypto.hashData methods payload with
  | none => none
  | some m =>
    if m = verifierRegisterMethod then some (verifierRegister crypto verifyEmailFormat)
    else if m = verifierUnregisterMethod then some (verifierUnregister crypto)
    else if m = verifierHeartMethod then some (verifierHeart crypto)
    else if m = oracleMethod then some (oracle crypto sha256)
    else none

end
end GoQlc.PublicKeyDistribution
