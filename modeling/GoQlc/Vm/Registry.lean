import GoQlc.Lib.Utf8
import GoQlc.Vm.Nep5Pledge
import GoQlc.Vm.Rewards
import GoQlc.Vm.BlackHole

/-!
# The registered chain contracts
-/

namespace GoQlc

open Config BlackHole List Mintage Nep5Pledge Rewards

/-- A registered contract: its methods, and the ones that have an implementation. -/
structure ChainContract where
  methods : List Abi.Method
  contracts : List (Abi.Method × Contract)

/-- What a node is built from besides the modelled source: the cryptographic
primitives, the case folding table, the list of exempted block hashes, and the
chain contracts that are not modelled in detail. -/
structure Env extends Crypto where
  simpleFold : ℕ → ℕ
  isVerifiedData : Hash → Bool
  otherContracts : Address → Option (Bytes → Option Contract)

namespace Env

variable (env : Env)

def mintageContract : ChainContract where
  methods := Mintage.methods
  contracts := [(mintageMethod, Mintage.mintage env.toCrypto),
    (withdrawMethod, withdrawMintage env.toCrypto)]

def nep5Contract : ChainContract where
  methods := Nep5Pledge.methods
  contracts := [(nep5PledgeMethod, nep5Pledge env.toCrypto),
    (withdrawNep5PledgeMethod, withdrawNep5Pledge env.toCrypto)]

def rewardsContract : ChainContract where
  methods := Rewards.methods
  contracts := [(airdropRewardsMethod, airdropRewards env.toCrypto),
    (confidantRewardsMethod, confidantRewards env.toCrypto)]

def blackHoleContract : ChainContract where
  methods := BlackHole.methods
  contracts := [(destroyMethod, blackHole env.toCrypto)]

/-- The implementation that the method id of `payload` selects. -/
def lookupMethod (p : ChainContract) (payload : Bytes) : Option Contract :=
  (Abi.methodById env.hashData p.methods payload).bind fun m => p.contracts.lookup m

def chainContracts (addr : Address) : Option (Bytes → Option Contract) :=
  if addr = mintageAddress then some (env.lookupMethod env.mintageContract)
  else if addr = nep5PledgeAddress then some (env.lookupMethod env.nep5Contract)
  else if addr = rewardsAddress then some (env.lookupMethod env.rewardsContract)
  else if addr = blackHoleAddress then some (env.lookupMethod env.blackHoleContract)
  else env.otherContracts addr

def getChainContract (addr : Address) (payload : Bytes) : Option Contract :=
  (env.chainContracts addr).bind fun lookup => lookup payload

def isChainContract (addr : Address) : Bool := (env.chainContracts addr).isSome

def isGenesisBlock (block : StateBlock) : Bool := Config.isGenesisBlock env.hashData block

def equalFold (s t : Bytes) : Bool := Utf8.equalFold env.simpleFold s t

def modelledAddresses : List Address :=
  [mintageAddress, nep5PledgeAddress, rewardsAddress, blackHoleAddress]

variable {env}

theorem lookupMethod_eq_some {p : ChainContract} {payload : Bytes} {c : Contract}
    (h : env.lookupMethod p payload = some c) :
    ∃ m, Abi.methodById env.hashData p.methods payload = some m ∧ (m, c) ∈ p.contracts := by
  obtain ⟨m, hm, hc⟩ := Option.bind_eq_some_iff.mp h
  obtain ⟨before, after, hsplit, -⟩ := lookup_eq_some_iff.mp hc
  exact ⟨m, hm, by rw [hsplit]; simp⟩

theorem getChainContract_cases {addr : Address} {payload : Bytes} {c : Contract}
    (h : env.getChainContract addr payload = some c) :
    (addr = mintageAddress ∧
      (c = Mintage.mintage env.toCrypto ∨ c = withdrawMintage env.toCrypto)) ∨
    (addr = nep5PledgeAddress ∧
      (c = nep5Pledge env.toCrypto ∨ c = withdrawNep5Pledge env.toCrypto)) ∨
    (addr = rewardsAddress ∧ ∃ kind, c = Rewards.rewards env.toCrypto kind) ∨
    (addr = blackHoleAddress ∧ c = blackHole env.toCrypto) ∨
    addr ∉ modelledAddresses := by
  obtain ⟨lookup, hlookup, hc⟩ := Option.bind_eq_some_iff.mp h
  unfold chainContracts at hlookup
  split_ifs at hlookup with h1 h2 h3 h4
  · cases hlookup
    obtain ⟨m, -, hmem⟩ := lookupMethod_eq_some hc
    simp only [mintageContract, mem_cons, Prod.mk.injEq, not_mem_nil, or_false] at hmem
    exact .inl ⟨h1, hmem.imp And.right And.right⟩
  · cases hlookup
    obtain ⟨m, -, hmem⟩ := lookupMethod_eq_some hc
    simp only [nep5Contract, mem_cons, Prod.mk.injEq, not_mem_nil, or_false] at hmem
    exact .inr (.inl ⟨h2, hmem.imp And.right And.right⟩)
  · cases hlookup
    obtain ⟨m, -, hmem⟩ := lookupMethod_eq_some hc
    simp only [rewardsContract, mem_cons, Prod.mk.injEq, not_mem_nil, or_false] at hmem
    refine .inr (.inr (.inl ⟨h3, ?_⟩))
    rcases hmem with ⟨-, rfl⟩ | ⟨-, rfl⟩
    · exact ⟨.airdrop, rfl⟩
    · exact ⟨.confidant, rfl⟩
  · cases hlookup
    obtain ⟨m, -, hmem⟩ := lookupMethod_eq_some hc
    simp only [blackHoleContract, mem_cons, Prod.mk.injEq, not_mem_nil, or_false] at hmem
    exact .inr (.inr (.inr (.inl ⟨h4, hmem.2⟩)))
  · refine .inr (.inr (.inr (.inr ?_)))
    simp [modelledAddresses, h1, h2, h3, h4]

end Env
end GoQlc
