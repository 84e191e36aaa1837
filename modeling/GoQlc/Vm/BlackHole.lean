import GoQlc.Vm.Contract

/-!
# The black hole contract

Destroys gas tokens.
-/

namespace GoQlc.BlackHole

open Abi Config

def destroyMethod : Method :=
  { name := "Destroy", inputs := [.address, .hash, .tokenId, .uint256, .signature] }

def methods : List Method := [destroyMethod]

def destroyInfoInputs : List AbiType := [.address, .hash, .tokenId, .uint256, .int64]

structure DestroyParam where
  owner : Address
  previous : Hash
  token : Hash
  amount : ℕ
  sign : Signature
deriving DecidableEq, Repr

structure DestroyInfo where
  owner : Address
  previous : Hash
  token : Hash
  amount : ℕ
  timeStamp : Int64
deriving DecidableEq, Repr

def parseDestroyParam (crypto : Crypto) (data : Bytes) : Option DestroyParam :=
  (unpackMethod crypto.hashData methods destroyMethod data).map
    fun (owner, previous, token, amount, sign, _) => { owner, previous, token, amount, sign }

def DestroyParam.toBytes (p : DestroyParam) : Bytes :=
  hashBytes p.owner ++ hashBytes p.previous ++ hashBytes p.token ++ Bytes.natBytes p.amount

def DestroyParam.isSigned (crypto : Crypto) (p : DestroyParam) : Bool :=
  crypto.verify p.owner p.toBytes p.sign

def DestroyParam.verify (crypto : Crypto) (p : DestroyParam) : Except ContractError Bool :=
  if p.owner = 0 then .error .invalidAccount
  else if p.previous = 0 then .error .invalidPrevious
  else if p.token ≠ gasToken then .error .invalidTokenToDestroy
  else if p.amount = 0 then .error .invalidAmount
  else .ok (p.isSigned crypto)

def parseDestroyInfo (data : Bytes) : Option DestroyInfo :=
  (unpackVariable destroyInfoInputs data).map
    fun (owner, previous, token, amount, timeStamp, _) =>
      { owner, previous, token, amount, timeStamp }

def DestroyInfo.toABI (i : DestroyInfo) : Bytes :=
  pack destroyInfoInputs (i.owner, i.previous, i.token, i.amount, i.timeStamp, ())

/-- The owner and the previous hash in the parameters are not compared with
the block. -/
def verify (crypto : Crypto) (ctx : VmContext) (p : DestroyParam) (block : StateBlock) :
    Except ContractError Unit :=
  match p.verify crypto with
  | .error e => .error e
  | .ok false => .error .invalidSign
  | .ok true =>
    if block.token ≠ gasToken then .error .invalidToken
    else
      match ctx.calculateAmount crypto block with
      | none => .error .calcAmount
      | some amount =>
        if amount ≠ p.amount then .error (.amountMismatch p.amount amount) else .ok ()

def checkSaved (p : DestroyParam) : Bytes → Except ContractError Unit
  | [] => .ok ()
  | saved =>
    match parseDestroyInfo saved with
    | none => .error .unpack
    | some info =>
      -- amounts are compared by their low 64 bits
      if info.token ≠ p.token ∨ info.amount % 2 ^ 64 ≠ p.amount % 2 ^ 64 ∨
          info.owner ≠ p.owner ∨ info.previous ≠ p.previous then
        .error .invalidSavedInfo
      else .ok ()

def processSend (crypto : Crypto) (ctx : VmContext) (block : StateBlock) : SendOutcome where
  data := block.data
  result :=
    match parseDestroyParam crypto block.data with
    | none => .error .unpack
    | some p => do
      verify crypto ctx p block
      checkSaved p ((ctx.getStorage (hashBytes block.address) (hashBytes block.previous)).getD [])
      let info : DestroyInfo :=
        { owner := block.address, previous := block.previous, token := block.token
          amount := p.amount, timeStamp := ctx.view.timeNow }
      let ctx := ctx.setStorage (hashBytes block.address) (hashBytes block.previous) info.toABI
      return (some
        ({ address := p.owner, hash := block.getHash crypto.hashData },
         { source := block.link, amount := 0, type := block.token }), ctx)

def doReceive (crypto : Crypto) (ctx : VmContext) (block input : StateBlock) :
    Except ContractError (List ContractBlock) :=
  match ctx.getStorage (hashBytes input.address) (hashBytes input.previous) with
  | none => .error (.invalidSendBlockData (input.getHash crypto.hashData))
  | some saved =>
    if saved.isEmpty then .error (.invalidSendBlockData (input.getHash crypto.hashData))
    else
      match parseDestroyInfo saved with
      | none => .error .unpack
      | some _ =>
        match (ctx.getAccountMeta input.address).bind fun am => am.token input.token with
        | none => .error .nilPointer
        | some rxToken =>
          let block :=
            { block with
              type := .contractReward, address := input.address
              link := input.getHash crypto.hashData, token := input.token, extra := 0
              vote := some 0, network := some 0, oracle := some 0, storage := some 0
              balance := rxToken.balance, previous := rxToken.header
              representative := input.representative }
          .ok [{ vmContext := some ctx, block, toAddress := input.address, amount := 0,
                 token := input.token, data := [] }]

def blackHole (crypto : Crypto) : Contract where
  describe := { specVer := 2, pending := true }
  processSend := processSend crypto
  doReceive := doReceive crypto

end GoQlc.BlackHole
