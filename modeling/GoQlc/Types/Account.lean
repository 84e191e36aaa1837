import Mathlib.Data.List.Nodup
import GoQlc.Types.Block

/-!
# Accounts, pendings and representation benefits
-/

namespace GoQlc

open List StateBlock

structure TokenMeta where
  type : Hash
  header : Hash
  representative : Address
  openBlock : Hash
  balance : ℕ
  belongTo : Address
  blockCount : ℕ
deriving DecidableEq, Repr

/-- An account: the balance and weights of its chain-token chain, and one
token meta for each token it holds. -/
structure AccountMeta where
  address : Address
  coinBalance : Option ℕ := none
  coinVote : Option ℕ := none
  coinNetwork : Option ℕ := none
  coinStorage : Option ℕ := none
  coinOracle : Option ℕ := none
  tokens : List TokenMeta := []
deriving DecidableEq, Repr

namespace AccountMeta

def token (am : AccountMeta) (type : Hash) : Option TokenMeta :=
  am.tokens.find? fun tm => tm.type == type

def getBalance (am : AccountMeta) : ℕ := am.coinBalance.getD 0
def getVote (am : AccountMeta) : ℕ := am.coinVote.getD 0
def getNetwork (am : AccountMeta) : ℕ := am.coinNetwork.getD 0
def getStorage (am : AccountMeta) : ℕ := am.coinStorage.getD 0
def getOracle (am : AccountMeta) : ℕ := am.coinOracle.getD 0

def totalBalance (am : AccountMeta) : ℕ :=
  let balance := addWeight 0 am.coinBalance
  let balance := addWeight balance am.coinVote
  let balance := addWeight balance am.coinStorage
  let balance := addWeight balance am.coinNetwork
  addWeight balance am.coinOracle

def updateToken (f : TokenMeta → TokenMeta) (type : Hash) : List TokenMeta → List TokenMeta
  | [] => []
  | tm :: tms => if tm.type = type then f tm :: tms else tm :: updateToken f type tms

variable {tm : TokenMeta}

variable {am : AccountMeta} {type : Hash} {tms : List TokenMeta}

theorem token_type (h : am.token type = some tm) : tm.type = type := by
  simpa using List.find?_some h

theorem mem_of_token (h : am.token type = some tm) : tm ∈ am.tokens := mem_of_find?_eq_some h

section UpdateToken

variable {f : TokenMeta → TokenMeta} (hf : ∀ tm, (f tm).type = tm.type)
include hf

theorem find_updateToken (type type' : Hash) (tms : List TokenMeta) :
    (updateToken f type tms).find? (fun tm => tm.type == type') =
      if type' = type then (tms.find? fun tm => tm.type == type).map f
      else tms.find? fun tm => tm.type == type' := by
  induction tms with
  | nil => simp [updateToken]
  | cons tm tms ih =>
    unfold updateToken
    by_cases h : tm.type = type
    · by_cases h' : type' = type
      · simp [h, h', hf]
      · have hne : ¬ type = type' := fun heq => h' heq.symm
        simp [h, h', hf, hne]
    · by_cases h' : tm.type = type'
      · have hne : type' ≠ type := fun heq => h (h'.trans heq)
        rw [if_neg h, if_neg hne]
        simp [h']
      · rw [if_neg h, List.find?_cons_of_neg (by simpa using h'), ih,
          List.find?_cons_of_neg (by simpa using h), List.find?_cons_of_neg (by simpa using h')]

theorem map_type_updateToken (type : Hash) (tms : List TokenMeta) :
    (updateToken f type tms).map TokenMeta.type = tms.map TokenMeta.type := by
  induction tms with
  | nil => rfl
  | cons tm tms ih =>
    unfold updateToken
    split_ifs
    · simp [hf]
    · simp [ih]

end UpdateToken

theorem find_of_mem (h : (tms.map TokenMeta.type).Nodup) (hmem : tm ∈ tms) :
    tms.find? (fun tm' => tm'.type == tm.type) = some tm := by
  induction tms with
  | nil => cases hmem
  | cons tm' tms ih =>
    rw [map_cons, nodup_cons] at h
    rcases mem_cons.mp hmem with rfl | hmem
    · simp
    · have hne : ¬ tm'.type = tm.type := fun heq => h.1 (heq ▸ mem_map_of_mem hmem)
      rw [List.find?_cons_of_neg (by simpa using hne)]
      exact ih h.2 hmem

def balanceOf (type : Hash) (tms : List TokenMeta) : ℕ :=
  (tms.map fun tm => if tm.type = type then tm.balance else 0).sum

theorem balanceOf_append (type : Hash) (tms tms' : List TokenMeta) :
    balanceOf type (tms ++ tms') = balanceOf type tms + balanceOf type tms' := by
  simp [balanceOf]

theorem balanceOf_updateToken {f : TokenMeta → TokenMeta} (hf : ∀ tm, (f tm).type = tm.type)
    (h : tms.find? (fun tm => tm.type == type) = some tm) (type' : Hash) :
    balanceOf type' (updateToken f type tms) + (if type = type' then tm.balance else 0) =
      balanceOf type' tms + (if type = type' then (f tm).balance else 0) := by
  induction tms with
  | nil => simp at h
  | cons tm' tms ih =>
    unfold updateToken balanceOf
    by_cases htype : tm'.type = type
    · rw [List.find?_cons_of_pos (by simpa using htype)] at h
      cases h
      rw [if_pos htype, map_cons, map_cons, sum_cons, sum_cons, hf, htype]
      ring
    · rw [List.find?_cons_of_neg (by simpa using htype)] at h
      rw [if_neg htype, map_cons, map_cons, sum_cons, sum_cons, Nat.add_assoc,
        Nat.add_assoc]
      exact congrArg _ (ih h)

end AccountMeta

structure Benefit where
  balance : ℕ
  vote : ℕ
  network : ℕ
  storage : ℕ
  oracle : ℕ
  total : ℕ
deriving DecidableEq, Repr

namespace Benefit

def zero : Benefit := ⟨0, 0, 0, 0, 0, 0⟩

def zipWith (f : ℕ → ℕ → ℕ) (a b : Benefit) : Benefit where
  balance := f a.balance b.balance
  vote := f a.vote b.vote
  network := f a.network b.network
  storage := f a.storage b.storage
  oracle := f a.oracle b.oracle
  total := f a.total b.total

end Benefit

def Benefit.exact (balance vote network storage oracle : ℕ) : Benefit :=
  { balance, vote, network, storage, oracle, total := balance + vote + network + storage + oracle }

def AccountMeta.benefit (am : AccountMeta) : Benefit :=
  Benefit.exact am.getBalance am.getVote am.getNetwork am.getStorage am.getOracle

def StateBlock.benefit (b : StateBlock) : Benefit :=
  Benefit.exact b.balance b.getVote b.getNetwork b.getStorage b.getOracle

structure PendingKey where
  address : Address
  hash : Hash
deriving DecidableEq, Repr

structure PendingInfo where
  source : Address
  amount : ℕ
  type : Hash
deriving DecidableEq, Repr

end GoQlc
