import GoQlc.Pov.State

/-!
# The pool of transactions for the next PoV block

The pool keeps the confirmed blocks of each account and token in a list.
-/

namespace GoQlc.Pov

open Config List

variable {γ : Type}

structure AddressToken where
  address : Address
  token : Hash
deriving DecidableEq, Repr

structure PovTxEntry where
  txHash : Hash
  txBlock : StateBlock
deriving DecidableEq, Repr

structure PovTxPool where
  accountTxs : Table AddressToken (List PovTxEntry) := ∅
  allTxs : Table Hash PovTxEntry := ∅

/-- From the back of the list: after the parent of the entry, or before its child. -/
def insertTx (entry : PovTxEntry) : List PovTxEntry → Option (List PovTxEntry)
  | [] => none
  | e :: rest =>
    match insertTx entry rest with
    | some rest => some (e :: rest)
    | none =>
      if e.txHash = entry.txBlock.previous then some (e :: entry :: rest)
      else if e.txBlock.previous = entry.txHash then some (entry :: e :: rest)
      else none

namespace PovTxPool

def txsOf (pool : PovTxPool) (addrToken : AddressToken) : List PovTxEntry :=
  (pool.accountTxs.get addrToken).getD []

/-- An opening block comes first, but the blocks of a contract address have no order. -/
def addTx (pool : PovTxPool) (txHash : Hash) (txBlock : StateBlock) : PovTxPool :=
  if (pool.allTxs.get txHash).isSome then pool
  else
    let addrToken : AddressToken := ⟨txBlock.address, txBlock.token⟩
    let entry : PovTxEntry := ⟨txHash, txBlock⟩
    let txs := pool.txsOf addrToken
    let txs :=
      if txBlock.previous = 0 then
        if isContractAddress txBlock.address then txs ++ [entry] else entry :: txs
      else (insertTx entry txs).getD (txs ++ [entry])
    { accountTxs := pool.accountTxs.put addrToken txs, allTxs := pool.allTxs.put txHash entry }

end PovTxPool

/-- What is not in the pool: the order in which each round visits the map, and the answers of the
clock. -/
structure PoolRuntime where
  order : ℕ → List AddressToken → List AddressToken
  perm : ∀ round addrTokens, (order round addrTokens).Perm addrTokens
  expired : ℕ → Bool

/-- The variables of the selection. The limit is below zero when the clock has set it to zero
between two rounds and the next round goes on. -/
structure Scan where
  needScans : List AddressToken
  prevHashes : Table AddressToken Hash := ∅
  selectedTxHashes : Table AddressToken (List Hash) := ∅
  scanIters : Table AddressToken ℕ := ∅
  retTxs : List StateBlock := []
  limit : ℤ
  clock : ℕ := 0

namespace Scan

def prevHashWant (sdb : PovStateDB γ) (s : Scan) (addrToken : AddressToken) : Hash :=
  match s.prevHashes.get addrToken with
  | some hash => hash
  | none =>
    if isContractAddress addrToken.address then 0
    else
      match (sdb.accounts.get addrToken.address).bind fun as => as.getTokenState addrToken.token with
      | none => 0
      | some ts => ts.hash

/-- The first entry that is not yet selected and in order, and how far down the list it is. -/
def findInOrder (want : Hash) (selected : List Hash) : List PovTxEntry → Option (PovTxEntry × ℕ)
  | [] => none
  | e :: rest =>
    if e.txHash ∉ selected ∧ e.txBlock.previous = want then some (e, 1)
    else (findInOrder want selected rest).map fun (e, n) => (e, n + 1)

def selectedOf (s : Scan) (addrToken : AddressToken) : List Hash :=
  (s.selectedTxHashes.get addrToken).getD []

def iterOf (s : Scan) (addrToken : AddressToken) : ℕ := (s.scanIters.get addrToken).getD 0

def drop (s : Scan) (addrToken : AddressToken) : Scan :=
  { s with needScans := s.needScans.erase addrToken }

def select (s : Scan) (addrToken : AddressToken) (e : PovTxEntry) (n : ℕ) : Scan :=
  { s with
    retTxs := s.retTxs ++ [e.txBlock]
    selectedTxHashes := s.selectedTxHashes.put addrToken (s.selectedOf addrToken ++ [e.txHash])
    prevHashes :=
      if isContractAddress addrToken.address then s.prevHashes
      else s.prevHashes.put addrToken e.txHash
    scanIters := s.scanIters.put addrToken (s.iterOf addrToken + n)
    limit := s.limit - 1 }

def checkTime (rt : PoolRuntime) (s : Scan) : Scan :=
  { s with clock := s.clock + 1, limit := if rt.expired s.clock then 0 else s.limit }

variable (rt : PoolRuntime) (pool : PovTxPool) (sdb : PovStateDB γ)

def scanAccount (s : Scan) (addrToken : AddressToken) : Scan :=
  let txs := pool.txsOf addrToken
  match findInOrder (s.prevHashWant sdb addrToken) (s.selectedOf addrToken)
      (txs.drop (s.iterOf addrToken)) with
  | some (e, n) => s.select addrToken e n
  | none =>
    { s.drop addrToken with scanIters := s.scanIters.put addrToken txs.length }

def Exhausted (s : Scan) (addrToken : AddressToken) : Prop :=
  (pool.txsOf addrToken).length ≤ (s.selectedOf addrToken).length

instance decidableExhausted (s : Scan) (addrToken : AddressToken) :
    Decidable (s.Exhausted pool addrToken) := inferInstanceAs (Decidable (_ ≤ _))

/-- The turn of an account and token that is still to scan. The clock is read once in a hundred
transactions. -/
def visit (s : Scan) (addrToken : AddressToken) : Scan :=
  if s.Exhausted pool addrToken then s.drop addrToken
  else
    let s := s.scanAccount pool sdb addrToken
    if s.retTxs.length % 100 = 0 then s.checkTime rt else s

/-- The `continue` of an exhausted account skips the look at the limit. -/
def visitAll : List AddressToken → Scan → Scan
  | [], s => s
  | addrToken :: rest, s =>
    let s' := s.visit rt pool sdb addrToken
    if s'.limit = 0 ∧ ¬ s.Exhausted pool addrToken then s' else visitAll rest s'

def rounds : ℕ → ℕ → Scan → Scan
  | 0, _, s => s
  | fuel + 1, round, s =>
    if s.needScans = [] then s
    else
      let s := visitAll rt pool sdb (rt.order round s.needScans) s
      if s.limit = 0 then s else rounds fuel (round + 1) (s.checkTime rt)

def leftOf (s : Scan) (addrToken : AddressToken) : ℕ :=
  1 + ((pool.txsOf addrToken).length - s.iterOf addrToken)

def left (s : Scan) : ℕ := (s.needScans.map (s.leftOf pool)).sum

end Scan

namespace PovTxPool

def startScan (pool : PovTxPool) (limit : ℤ) : Scan where
  needScans := pool.accountTxs.keys.filter fun addrToken => 0 < (pool.txsOf addrToken).length
  limit := limit

def selectPendingTxsByFair (rt : PoolRuntime) (pool : PovTxPool) (sdb : PovStateDB γ) (limit : ℤ) :
    List StateBlock :=
  if limit ≤ 0 ∨ pool.accountTxs.keys.length = 0 then []
  else
    let s := pool.startScan limit
    (Scan.rounds rt pool sdb (s.left pool + 1) 0 s).retTxs

/-- The transactions of the next PoV block, as the miner makes them from the selected blocks. -/
def selectTxs (hashData : Bytes → Hash) (rt : PoolRuntime) (pool : PovTxPool) (sdb : PovStateDB γ)
    (limit : ℤ) : List PovTransaction :=
  (pool.selectPendingTxsByFair rt sdb limit).map fun block => ⟨block.getHash hashData, block⟩

end PovTxPool

/-! ## The selection ends -/

namespace Scan

theorem findInOrder_eq_some {want : Hash} {selected : List Hash} {txs : List PovTxEntry}
    {e : PovTxEntry} {n : ℕ} (h : findInOrder want selected txs = some (e, n)) :
    e ∈ txs.take n ∧ e.txBlock.previous = want ∧ 1 ≤ n ∧ n ≤ txs.length := by
  induction txs generalizing n with
  | nil => cases h
  | cons e' rest ih =>
    unfold findInOrder at h
    split_ifs at h with hfound
    · cases h
      exact ⟨mem_cons_self, hfound.2, le_refl 1, Nat.succ_le_succ (Nat.zero_le _)⟩
    · obtain ⟨⟨e₀, n₀⟩, hrest, heq⟩ := Option.map_eq_some_iff.mp h
      cases heq
      obtain ⟨hmem, hwant, hpos, hle⟩ := ih hrest
      exact ⟨mem_cons_of_mem _ hmem, hwant, Nat.le_add_left _ _, Nat.succ_le_succ hle⟩

variable (rt : PoolRuntime) (pool : PovTxPool) (sdb : PovStateDB γ) (s : Scan)
  (addrToken : AddressToken)

def Done : Prop := s.needScans = [] ∨ s.limit = 0

/-- What a turn of `addrToken` does to the work that is left: it leaves the round, or it advances
in its list. -/
structure Turn (s s' : Scan) : Prop where
  le : ∀ x, s'.leftOf pool x ≤ s.leftOf pool x
  progress : s'.needScans = s.needScans.erase addrToken ∨
    (s'.needScans = s.needScans ∧ s'.leftOf pool addrToken < s.leftOf pool addrToken)

variable {pool s addrToken} in
theorem Turn.left_lt {s' : Scan} (h : Turn pool addrToken s s') (hmem : addrToken ∈ s.needScans) :
    s'.left pool < s.left pool := by
  unfold left
  obtain hdrop | ⟨hkeep, hlt⟩ := h.progress
  · have hsum := sum_map_erase (s.leftOf pool) hmem
    have hpos : 1 ≤ s.leftOf pool addrToken := Nat.le_add_right 1 _
    have hle : (s'.needScans.map (s'.leftOf pool)).sum ≤
        (s'.needScans.map (s.leftOf pool)).sum := sum_le_sum fun x _ => h.le x
    rw [hdrop] at hle ⊢
    omega
  · rw [hkeep]
    exact sum_lt_sum _ _ (fun x _ => h.le x) ⟨addrToken, hmem, hlt⟩

variable {pool s addrToken} in
theorem Turn.left_le {s' : Scan} (h : Turn pool addrToken s s') : s'.left pool ≤ s.left pool := by
  by_cases hmem : addrToken ∈ s.needScans
  · exact (h.left_lt hmem).le
  · have hkeep : s'.needScans = s.needScans := by
      obtain hdrop | ⟨hkeep, -⟩ := h.progress
      · rw [hdrop, erase_of_not_mem hmem]
      · exact hkeep
    unfold left
    rw [hkeep]
    exact sum_le_sum fun x _ => h.le x

theorem leftOf_put {s' : Scan} {n : ℕ} (h : s'.scanIters = s.scanIters.put addrToken n)
    (x : AddressToken) :
    s'.leftOf pool x =
      if x = addrToken then 1 + ((pool.txsOf addrToken).length - n) else s.leftOf pool x := by
  unfold leftOf iterOf
  rw [h, Table.get_put]
  split_ifs with hx
  · rw [hx, Option.getD_some]
  · rfl

theorem scanAccount_turn : Turn pool addrToken s (s.scanAccount pool sdb addrToken) := by
  unfold scanAccount
  dsimp only
  cases hfind : findInOrder (s.prevHashWant sdb addrToken) (s.selectedOf addrToken)
      ((pool.txsOf addrToken).drop (s.iterOf addrToken)) with
  | none =>
    have hput := @leftOf_put pool s addrToken { s.drop addrToken with
      scanIters := s.scanIters.put addrToken (pool.txsOf addrToken).length } _ rfl
    refine ⟨fun x => ?_, .inl rfl⟩
    rw [hput]
    split_ifs with hx
    · rw [hx, Nat.sub_self]
      exact Nat.le_add_right 1 _
    · exact le_refl _
  | some found =>
    obtain ⟨e, n⟩ := found
    obtain ⟨-, -, hpos, hle⟩ := findInOrder_eq_some hfind
    rw [length_drop] at hle
    have hput := @leftOf_put pool s addrToken (s.select addrToken e n) _ rfl
    have hlt : (s.select addrToken e n).leftOf pool addrToken < s.leftOf pool addrToken := by
      rw [hput, if_pos rfl]
      unfold leftOf
      omega
    refine ⟨fun x => ?_, .inr ⟨rfl, hlt⟩⟩
    by_cases hx : x = addrToken
    · rw [hx]
      exact hlt.le
    · dsimp only
      rw [hput, if_neg hx]

theorem visit_turn : Turn pool addrToken s (s.visit rt pool sdb addrToken) := by
  unfold visit
  split_ifs with hall
  · exact ⟨fun x => le_refl _, .inl rfl⟩
  · have hturn := scanAccount_turn pool sdb s addrToken
    dsimp only
    split_ifs
    · exact ⟨hturn.le, hturn.progress⟩
    · exact hturn

theorem left_visitAll_le (addrTokens : List AddressToken) :
    (visitAll rt pool sdb addrTokens s).left pool ≤ s.left pool := by
  induction addrTokens generalizing s with
  | nil => exact le_refl _
  | cons addrToken rest ih =>
    have hturn := (visit_turn rt pool sdb s addrToken).left_le
    unfold visitAll
    dsimp only
    split_ifs
    · exact hturn
    · exact (ih _).trans hturn

theorem left_round_lt (round : ℕ) (h : s.needScans ≠ []) :
    (visitAll rt pool sdb (rt.order round s.needScans) s).left pool < s.left pool := by
  have hperm := rt.perm round s.needScans
  cases horder : rt.order round s.needScans with
  | nil =>
    rw [horder] at hperm
    exact absurd hperm.symm.eq_nil h
  | cons addrToken rest =>
    have hmem : addrToken ∈ s.needScans := hperm.mem_iff.mp (horder ▸ mem_cons_self)
    have hturn := (visit_turn rt pool sdb s addrToken).left_lt hmem
    unfold visitAll
    dsimp only
    split_ifs
    · exact hturn
    · exact (left_visitAll_le rt pool sdb _ rest).trans_lt hturn

theorem rounds_done (fuel round : ℕ) (h : s.left pool < fuel) :
    (rounds rt pool sdb fuel round s).Done ∧
      ∀ more, rounds rt pool sdb (fuel + more) round s = rounds rt pool sdb fuel round s := by
  induction fuel generalizing s round with
  | zero => exact absurd h (Nat.not_lt_zero _)
  | succ fuel ih =>
    simp only [Nat.add_right_comm, rounds]
    split_ifs with hscans hlimit
    · exact ⟨.inl hscans, fun _ => rfl⟩
    · exact ⟨.inr hlimit, fun _ => rfl⟩
    · apply ih
      exact Nat.lt_of_lt_of_le (left_round_lt rt pool sdb s round hscans) (Nat.lt_succ_iff.mp h)

/-- The selection ends, whatever the order of the map and the clock: its rounds are enough, and
no account is left to scan or the limit is used up. -/
theorem selection_ends (limit : ℤ) :
    (rounds rt pool sdb ((pool.startScan limit).left pool + 1) 0 (pool.startScan limit)).Done ∧
      ∀ more, rounds rt pool sdb ((pool.startScan limit).left pool + 1 + more) 0
          (pool.startScan limit) =
        rounds rt pool sdb ((pool.startScan limit).left pool + 1) 0 (pool.startScan limit) :=
  rounds_done rt pool sdb _ _ 0 (Nat.lt_succ_self _)

end Scan

end GoQlc.Pov
