import GoQlc.Process.Rollback

/-!
# A development network

A network with toy primitives, on which concrete runs can be evaluated: the hash is a polynomial in
the bytes, a signature is a hash under the address, and every proof of work counts.
-/

namespace GoQlc.Devnet

open Config

def hashData (bs : Bytes) : Hash :=
  BitVec.ofNat 256
    (bs.foldl (fun h b => (h * 0x100000000000000000000000000000000000000000000000000001b3 +
      b.toNat + 1) % (2 ^ 255 - 19)) 7)

def sign (address : Address) (message : Bytes) : Signature :=
  (hashData (hashBytes address ++ message)).setWidth 512

def verify (address : Address) (message : Bytes) (signature : Signature) : Bool :=
  signature == sign address message

/-- The case folding of the ASCII letters. -/
def simpleFold (r : ℕ) : ℕ :=
  if r = 0x6B then 0x212A
  else if r = 0x212A then 0x4B
  else if r = 0x73 then 0x17F
  else if r = 0x17F then 0x53
  else if 0x41 ≤ r ∧ r ≤ 0x5A then r + 0x20
  else if 0x61 ≤ r ∧ r ≤ 0x7A then r - 0x20
  else r

def env : Env where
  hashData := hashData
  verify := verify
  isValidWork := fun _ _ => true
  simpleFold := simpleFold
  isVerifiedData := fun _ => false
  otherContracts := fun _ => none

def view : View where
  blockCache := fun _ => none
  accountCache := fun _ => none
  latestPovHeight := some 0
  hasPovHeader := fun _ => true
  hasSmartContractBlock := fun _ => false
  timeNow := 1600000000

def signed (b : StateBlock) : StateBlock :=
  { b with signature := sign b.address (hashBytes (b.getHash hashData)) }

def genesisHash : Hash := genesisBlock.getHash hashData

def gasHash : Hash := gasBlock.getHash hashData

def stranger : Address := 0x57

def plainSend : StateBlock :=
  signed
    { type := .send, token := chainToken, address := genesisAddress
      balance := genesisBlock.balance - 100, previous := genesisHash, link := stranger
      representative := genesisAddress }

def pledgeSend : StateBlock :=
  signed
    { type := .contractSend, token := chainToken, address := genesisAddress
      balance := genesisBlock.balance - 100000000, previous := genesisHash
      link := nep5PledgeAddress, representative := genesisAddress
      data := Nep5Pledge.PledgeParam.toABI env.toCrypto
        { beneficial := genesisAddress, pledgeAddress := genesisAddress, pType := 1
          nep5TxId := [0x51] } }

def pledgeReward : StateBlock :=
  signed
    { type := .contractReward, token := chainToken, address := genesisAddress
      balance := genesisBlock.balance - 100000000, vote := some 100000000
      previous := pledgeSend.getHash hashData, link := pledgeSend.getHash hashData
      representative := genesisAddress
      data := Nep5Pledge.PledgeInfo.toABI
        { pType := 1, amount := 100000000, withdrawTime := Mintage.calculateDays 10 0
          beneficial := genesisAddress, pledgeAddress := genesisAddress, nep5TxId := [0x51] } }

def issueParam (tokenId : Hash) : Mintage.ParamMintage where
  tokenId := tokenId
  tokenName := Abi.asciiBytes "TOK"
  tokenSymbol := Abi.asciiBytes "TOK"
  totalSupply := 1000
  decimals := 8
  beneficial := genesisAddress
  nep5TxId := []

def issueId : Hash :=
  Mintage.newTokenHash env.toCrypto genesisAddress genesisHash (Abi.asciiBytes "TOK")

/-! ## Short hashes

Where a run needs few blocks, a hash of the first bytes keeps them apart and is
quick to evaluate: the type, the token and the first byte of the address take 34.
-/

def headHash (n : ℕ) (bs : Bytes) : Hash :=
  BitVec.ofNat 256 (1 + (bs.take n).foldl (fun h b => h * 257 + b.toNat + 1) 7 % (2 ^ 256 - 1))

/-- The network whose hash reads the first `n` bytes. -/
def shortEnv (n : ℕ) : Env := { env with hashData := headHash n }

def shortSigned (n : ℕ) (b : StateBlock) : StateBlock :=
  { b with signature := sign b.address (hashBytes (b.getHash (headHash n))) }

/-- The rest of the node during a rollback: the map is visited in the order of its entries. -/
def rollbackView : RollbackView :=
  { view with trie := fun _ => [], order := ⟨id, fun _ => .refl _⟩, capacity := 512 }

def shortSend (n : ℕ) : StateBlock :=
  shortSigned n
    { type := .send, token := chainToken, address := genesisAddress
      balance := genesisBlock.balance - 100, previous := genesisBlock.getHash (headHash n)
      link := stranger, representative := genesisAddress }

def shortOpen (n : ℕ) : StateBlock :=
  shortSigned n
    { type := .open_, token := chainToken, address := stranger, balance := 100, previous := 0
      link := (shortSend n).getHash (headHash n), representative := genesisAddress }

def neighbour : Address := 0x5700000000000000000000000000000000000000000000000000000000000000

end GoQlc.Devnet
