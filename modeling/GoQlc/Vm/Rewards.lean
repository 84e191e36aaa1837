import GoQlc.Vm.Contract

/-!
# The rewards contract

Airdrop and confidant rewards: sends of the gas token that carry a signature
of the sender over their own parameters, and need none on the block.
-/

namespace GoQlc.Rewards

open Abi Config

def unsignedInputs : List AbiType := [.hash, .address, .hash, .hash, .uint256]

def airdropRewardsMethod : Method :=
  { name := "AirdropRewards", inputs := [.hash, .address, .hash, .hash, .uint256, .signature] }

def unsignedAirdropRewardsMethod : Method :=
  { name := "UnsignedAirdropRewards", inputs := unsignedInputs }

def confidantRewardsMethod : Method :=
  { name := "ConfidantRewards"
    inputs := [.bytes32, .address, .hash, .hash, .uint256, .signature] }

def unsignedConfidantRewardsMethod : Method :=
  { name := "UnsignedConfidantRewards", inputs := unsignedInputs }

def methods : List Method :=
  [airdropRewardsMethod, unsignedAirdropRewardsMethod, confidantRewardsMethod,
    unsignedConfidantRewardsMethod]

def rewardsInfoInputs : List AbiType := [.uint8, .address, .address, .hash, .hash, .uint256]

inductive Kind where
  | airdrop
  | confidant
deriving DecidableEq, Repr

structure RewardsParam where
  id : Hash
  beneficial : Address
  txHeader : Hash
  rxHeader : Hash
  amount : ℕ
  sign : Signature
deriving DecidableEq, Repr

structure RewardsInfo where
  type : UInt8
  fromAddr : Address
  toAddr : Address
  txHeader : Hash
  rxHeader : Hash
  amount : ℕ
deriving DecidableEq, Repr

def parseRewardsParam (crypto : Crypto) (kind : Kind) (data : Bytes) : Option RewardsParam :=
  match kind with
  | .airdrop =>
    (unpackMethod crypto.hashData methods airdropRewardsMethod data).map
      fun (id, beneficial, txHeader, rxHeader, amount, sign, _) =>
        { id, beneficial, txHeader, rxHeader, amount, sign }
  | .confidant =>
    (unpackMethod crypto.hashData methods confidantRewardsMethod data).map
      fun (id, beneficial, txHeader, rxHeader, amount, sign, _) =>
        { id, beneficial, txHeader, rxHeader, amount, sign }

/-- The parameters without the signature, packed as a call of the unsigned method. -/
def RewardsParam.toUnsignedABI (crypto : Crypto) (kind : Kind) (p : RewardsParam) : Bytes :=
  match kind with
  | .airdrop =>
    packMethod crypto.hashData unsignedAirdropRewardsMethod
      (p.id, p.beneficial, p.txHeader, p.rxHeader, p.amount, ())
  | .confidant =>
    packMethod crypto.hashData unsignedConfidantRewardsMethod
      (p.id, p.beneficial, p.txHeader, p.rxHeader, p.amount, ())

/-- The embedded signature is one of `address` over the parameters. -/
def RewardsParam.isSignedBy (crypto : Crypto) (kind : Kind) (p : RewardsParam)
    (address : Address) : Bool :=
  crypto.verify address (hashBytes (crypto.hashData (p.toUnsignedABI crypto kind))) p.sign

def RewardsParam.verify (crypto : Crypto) (kind : Kind) (p : RewardsParam) (address : Address) :
    Except ContractError Unit :=
  if p.id ≠ 0 ∧ p.txHeader ≠ 0 ∧ p.beneficial ≠ 0 ∧ 0 < p.amount then
    if p.isSignedBy crypto kind address then .ok () else .error .invalidSign
  else
    .error .invalidParam

def RewardsInfo.toABI (i : RewardsInfo) : Bytes :=
  pack rewardsInfoInputs (i.type, i.fromAddr, i.toAddr, i.txHeader, i.rxHeader, i.amount, ())

def parseRewardsInfo (data : Bytes) : Option RewardsInfo :=
  (unpackVariable rewardsInfoInputs data).map
    fun (type, fromAddr, toAddr, txHeader, rxHeader, amount, _) =>
      { type, fromAddr, toAddr, txHeader, rxHeader, amount }

def getRewardsKey (p : RewardsParam) : Bytes :=
  hashBytes p.id ++ hashBytes p.txHeader ++ hashBytes p.rxHeader

def getConfidantKey (p : RewardsParam) : Bytes :=
  hashBytes p.beneficial ++ hashBytes p.id ++ hashBytes p.txHeader ++ hashBytes p.rxHeader

def storageKey : Kind → RewardsParam → Bytes
  | .airdrop => getRewardsKey
  | .confidant => getConfidantKey

def infoType : Kind → UInt8
  | .confidant => 0
  | .airdrop => 1

/-- Checks the embedded signature; the call data stays as it is. Neither the
amount nor the header in the parameters is compared with the block. -/
def doSend (crypto : Crypto) (kind : Kind) (_ctx : VmContext) (block : StateBlock) :
    Except ContractError Bytes :=
  match parseRewardsParam crypto kind block.data with
  | none => .error .unpack
  | some p => (p.verify crypto kind block.address).map fun _ => block.data

def doPending (crypto : Crypto) (kind : Kind) (block : StateBlock) :
    Except ContractError (Option (PendingKey × PendingInfo)) :=
  match parseRewardsParam crypto kind block.data with
  | none => .error .unpack
  | some p => (p.verify crypto kind block.address).map fun _ => some
      ({ address := p.beneficial, hash := block.getHash crypto.hashData },
       { source := block.link, amount := p.amount, type := block.token })

def rewardBlock (crypto : Crypto) (ctx : VmContext) (p : RewardsParam) (amount : ℕ)
    (txToken : TokenMeta) (block input : StateBlock) : StateBlock :=
  let block :=
    { block with
      type := .contractReward, address := p.beneficial, link := input.getHash crypto.hashData
      token := input.token, extra := 0
      vote := some 0, network := some 0, oracle := some 0, storage := some 0 }
  match ctx.getAccountMeta p.beneficial with
  | some rxMeta =>
    match rxMeta.tokens with
    | first :: _ =>
      match rxMeta.token input.token with
      | some rxToken =>
        { block with
          balance := Balance.add rxToken.balance amount, previous := rxToken.header
          representative := txToken.representative }
      | none =>
        { block with balance := amount, previous := 0, representative := first.representative }
    | [] => { block with balance := amount, previous := 0, representative := input.representative }
  | none => { block with balance := amount, previous := 0, representative := input.representative }

def generate (crypto : Crypto) (kind : Kind) (ctx : VmContext) (block input : StateBlock) :
    Except ContractError (List ContractBlock) :=
  match parseRewardsParam crypto kind input.data with
  | none => .error .unpack
  | some p => do
    p.verify crypto kind input.address
    match ctx.calculateAmount crypto input with
    | none => .error .calcAmount
    | some amount =>
      if 0 < amount ∧ input.token = gasToken then
        match ctx.getAccountMeta input.address with
        | none => .error .accountNotFound
        | some txMeta =>
          match txMeta.token input.token with
          | none => .error .nilPointer
          | some txToken =>
            let block := rewardBlock crypto ctx p amount txToken block input
            let info : RewardsInfo :=
              { type := infoType kind, fromAddr := input.address, toAddr := p.beneficial
                txHeader := txToken.header, rxHeader := block.previous, amount }
            let key := storageKey kind p
            let generated := fun ctx : VmContext => [{
              vmContext := some ctx, block, toAddress := p.beneficial, amount,
              token := input.token, data := [] : ContractBlock }]
            match (ctx.getStorage (hashBytes rewardsAddress) key).getD [] with
            | [] => .ok (generated (ctx.setStorage (hashBytes rewardsAddress) key info.toABI))
            | data =>
              match parseRewardsInfo data with
              | none => .error .unpack
              | some saved =>
                if saved.amount ≠ info.amount ∨ saved.type ≠ info.type ∨
                    saved.fromAddr ≠ info.fromAddr ∨ saved.toAddr ≠ info.toAddr then
                  .error .invalidSavedInfo
                else .ok (generated ctx)
      else
        .error (.invalidTokenOrAmount input.token amount)

def rewards (crypto : Crypto) (kind : Kind) : Contract where
  describe := { specVer := 1, pending := true }
  doSend := doSend crypto kind
  doPending := doPending crypto kind
  doReceive := generate crypto kind

def airdropRewards (crypto : Crypto) : Contract := rewards crypto .airdrop

def confidantRewards (crypto : Crypto) : Contract := rewards crypto .confidant

end GoQlc.Rewards
