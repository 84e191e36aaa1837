import GoQlc.Vm.Abi

/-!
# The configured genesis

The four blocks the main network starts from (the issue and the first account
block of the chain token and of the gas token) and the contract addresses.
-/

namespace GoQlc.Config

open Abi

def mintageAddress : Address := 0xde32f02da71ef2fccd06634bfe29d3a7514a1880873478382704e3edeeaff982
def nep5PledgeAddress : Address :=
  0xb7902600dfc79387b2601edc347b854d55d6b31142e324a4e54ff00a4c519c91
def rewardsAddress : Address := 0xd614bb9d5e20ad063316ce091148e77c99136c6194d55c7ecc7ffa9620dbcaeb

/-- The address whose last byte is `suffix` and all others zero. -/
def generateBuiltinContractAddress (suffix : UInt8) : Address := BitVec.ofNat 256 suffix.toNat

def minerAddress : Address := generateBuiltinContractAddress 21
def blackHoleAddress : Address := generateBuiltinContractAddress 22
def repAddress : Address := generateBuiltinContractAddress 23
def pubKeyDistributionAddress : Address := generateBuiltinContractAddress 24
def settlementAddress : Address := generateBuiltinContractAddress 25
def permissionAddress : Address := generateBuiltinContractAddress 26
def privacyDemoKVAddress : Address := generateBuiltinContractAddress 27
def ptmKeyKVAddress : Address := generateBuiltinContractAddress 28
def doDSettlementAddress : Address := generateBuiltinContractAddress 29
def kycAddress : Address := generateBuiltinContractAddress 30

def chainContractAddressList : List Address :=
  [nep5PledgeAddress, mintageAddress, rewardsAddress, minerAddress, blackHoleAddress, repAddress,
    pubKeyDistributionAddress, settlementAddress, permissionAddress, privacyDemoKVAddress,
    ptmKeyKVAddress, doDSettlementAddress, kycAddress]

def isContractAddress (address : Address) : Bool := chainContractAddressList.contains address

def rewardContractAddressList : List Address := [minerAddress, repAddress]

def isRewardContractAddress (address : Address) : Bool :=
  rewardContractAddressList.contains address

def chainToken : Hash := 0x45dd217cd9ff89f7b64ceda4886cc68dde9dfa47a8a422d165e2ce6f9a834fad
def gasToken : Hash := 0xea842234e4dc5b17c33b35f99b5b86111a3af0bd8e4a8822602b866711de6d81
def genesisAddress : Address := 0x681bf5253c64672fc54c93d3b5b9a20d28965cb8f80ba70460ed3f99cb547bd5
def gasAddress : Address := 0xdd803c6bdb9878a35a3e447e4d88b8df4f65eecd35d7506157750ea46e2c6133

def genesisTokenInputs : List AbiType :=
  [.tokenId, .string, .string, .uint256, .uint8, .address, .uint256, .int64, .address]

/-- The call data of a genesis issue block, written for an earlier form of the
mintage method that had no transaction id. -/
def genesisMintageData (token : Hash) (name : String) (supply : ℕ) (owner : Address) : Bytes :=
  [0xe9, 0x3a, 0xdd, 0xc4] ++
  pack [.tokenId, .string, .string, .uint256, .uint8, .address]
    (token, asciiBytes name, asciiBytes name, supply, (8 : UInt8), owner, ())

def genesisTokenData (token : Hash) (name : String) (supply : ℕ) (owner : Address) : Bytes :=
  pack genesisTokenInputs
    (token, asciiBytes name, asciiBytes name, supply, (8 : UInt8), owner, (0 : ℕ), (0 : Int64),
      owner, ())

def genesisMintageBlock : StateBlock where
  type := .contractSend
  token := chainToken
  address := mintageAddress
  balance := 0
  vote := some 0
  network := some 0
  storage := some 0
  oracle := some 0
  previous := 0
  link := genesisAddress
  data := genesisMintageData chainToken "QLC" 60000000000000000 genesisAddress
  timestamp := 1553990401
  representative := genesisAddress
  work := 0x48f5b9
  signature :=
    0x0d09a049ae11a005648b9ea9f4d7f2ce2fed985a9ec0b7009c87970b99c4de7b3c53c44768e6c9565babd627c83971bae8a32001f20f7acf888a80a0897f8409

def genesisBlock : StateBlock where
  type := .contractReward
  token := chainToken
  address := genesisAddress
  balance := 60000000000000000
  vote := some 0
  network := some 0
  storage := some 0
  oracle := some 0
  previous := 0
  link := 0xc0d330096ec4ab6ccf5481e06cc54e74b14f534e99e38df486f47d1123cbd1ae
  data := genesisTokenData chainToken "QLC" 60000000000000000 genesisAddress
  timestamp := 1553990410
  representative := genesisAddress
  work := 0x48f5b9
  signature :=
    0x76fb8d1e5decf145616ee1b5713ad81b5792cadcc054a9d999d5acf026924e8ccb23f96994cf8a056b5e0a74706e4ccb7314dc989b1fccbcd88c024bb31c6b0d

def gasMintageBlock : StateBlock where
  type := .contractSend
  token := gasToken
  address := mintageAddress
  balance := 0
  vote := some 0
  network := some 0
  storage := some 0
  oracle := some 0
  previous := 0
  link := gasAddress
  data := genesisMintageData gasToken "QGAS" 10000000000000000 gasAddress
  timestamp := 1553990401
  representative := genesisAddress
  work := 0x48f5b9
  signature :=
    0x175df7302eb8d830da4d86047819b4680f5a3c425ed8bc6593a4dd724c847aceac68b63bebfbde94d368b4e24182dd503f05ac474d231c6a17455fa131f0d10f

def gasBlock : StateBlock where
  type := .contractReward
  token := gasToken
  address := gasAddress
  balance := 10000000000000000
  vote := some 0
  network := some 0
  storage := some 0
  oracle := some 0
  previous := 0
  link := 0xbdac41b3ff7ac35aee3028d60eabeb9578ea6f7bd148d611133a3b26dfa6a9be
  data := genesisTokenData gasToken "QGAS" 10000000000000000 gasAddress
  timestamp := 1553990410
  representative := genesisAddress
  work := 0x48f5b9
  signature :=
    0x4e605d4ccfe3f061c1139eecec25b1129dbe491b12c42eb34e3febadc40971ff42e7240f9f42432591172cc5a91292406fe7b3115c757945e9c8848b83836001

def allGenesisBlocks : List StateBlock :=
  [genesisMintageBlock, genesisBlock, gasMintageBlock, gasBlock]

def isGenesisBlock (hashData : Bytes → Hash) (block : StateBlock) : Bool :=
  let hash := block.getHash hashData
  allGenesisBlocks.any fun g => hash == g.getHash hashData

def isGenesisToken (hash : Hash) : Bool := hash == chainToken || hash == gasToken

end GoQlc.Config
