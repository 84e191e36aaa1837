import GoQlc.Lib.Table
import GoQlc.Lib.Result
import GoQlc.Types.Account
import GoQlc.Config.Genesis

/-!
# The state of the PoV chain

`TransitStateDB` applies the transactions of a block, one after another, to the accounts, the
representatives and the states of the contracts.
-/

namespace GoQlc.Pov

open Config

structure PovTokenState where
  type : Hash
  hash : Hash
  representative : Address
  balance : ℕ
deriving DecidableEq, Repr

structure PovAccountState where
  balance : ℕ := 0
  vote : ℕ := 0
  network : ℕ := 0
  storage : ℕ := 0
  oracle : ℕ := 0
  tokenStates : List PovTokenState := []
deriving DecidableEq, Repr

inductive RepStatus where
  | offline
  | online
deriving DecidableEq, Repr

structure PovRepState where
  benefit : Benefit := Benefit.zero
  status : RepStatus := .offline
  height : ℕ := 0
deriving DecidableEq, Repr

structure PovTransaction where
  hash : Hash
  block : StateBlock
deriving DecidableEq, Repr

/-- `PovGlobalStateDB`. -/
structure PovStateDB (γ : Type) where
  accounts : Table Address PovAccountState
  reps : Table Address PovRepState
  contracts : γ

namespace PovAccountState

def getTokenState (as : PovAccountState) (type : Hash) : Option PovTokenState :=
  as.tokenStates.find? fun ts => ts.type == type

def totalBalance (as : PovAccountState) : ℕ :=
  Balance.add (Balance.add (Balance.add (Balance.add as.balance as.vote) as.storage) as.network)
    as.oracle

end PovAccountState

def setTokenState (ts : PovTokenState) : List PovTokenState → List PovTokenState
  | [] => [ts]
  | t :: states => if t.type = ts.type then ts :: states else t :: setTokenState ts states

def updateAccountState (oldAs : Option PovAccountState) (tx : PovTransaction) : PovAccountState :=
  let block := tx.block
  let tsNew : PovTokenState :=
    { type := block.token, hash := tx.hash
      representative := block.representative, balance := block.balance }
  let newAs := oldAs.getD {}
  let newAs :=
    if block.token = chainToken then
      { newAs with
        balance := block.balance, oracle := block.getOracle, network := block.getNetwork
        vote := block.getVote, storage := block.getStorage }
    else newAs
  { newAs with tokenStates := setTokenState tsNew newAs.tokenStates }

def PovAccountState.share (as : PovAccountState) : Benefit where
  balance := as.balance
  vote := as.vote
  network := as.network
  storage := as.storage
  oracle := as.oracle
  total := as.totalBalance

def blockShare (block : StateBlock) : Benefit where
  balance := block.balance
  vote := block.getVote
  network := block.getNetwork
  storage := block.getStorage
  oracle := block.getOracle
  total := block.totalBalance

/-- The old account balance is taken from the last representative, if it has a state. -/
def minusOld (reps : Table Address PovRepState) (oldAs : Option PovAccountState) (token : Hash) :
    Table Address PovRepState :=
  match oldAs with
  | none => reps
  | some oldAs =>
    match oldAs.getTokenState token with
    | none => reps
    | some oldTs =>
      if oldTs.representative = 0 then reps
      else
        match reps.get oldTs.representative with
        | none => reps
        | some rs =>
          reps.put oldTs.representative
            { rs with benefit := Benefit.zipWith Balance.sub rs.benefit oldAs.share }

def plusNew (reps : Table Address PovRepState) (newAs : PovAccountState) (block : StateBlock) :
    Table Address PovRepState :=
  match newAs.getTokenState block.token with
  | none => reps
  | some newTs =>
    if newTs.representative = 0 then reps
    else
      let rs := (reps.get newTs.representative).getD {}
      reps.put newTs.representative
        { rs with benefit := Benefit.zipWith Balance.add rs.benefit (blockShare block) }

def updateRepState (reps : Table Address PovRepState) (block : StateBlock)
    (oldAs : Option PovAccountState) (newAs : PovAccountState) : Table Address PovRepState :=
  if block.token ≠ chainToken then reps
  else plusNew (minusOld reps oldAs block.token) newAs block

def updateRepOnline (height : ℕ) (reps : Table Address PovRepState) (block : StateBlock) :
    Table Address PovRepState :=
  let rs := (reps.get block.address).getD {}
  reps.put block.address { rs with status := .online, height }

section
variable {γ ε : Type} (updateContractState : ℕ → γ → PovTransaction → Except ε γ)

def applyTransaction (height : ℕ) (sdb : PovStateDB γ) (tx : PovTransaction) :
    Except ε (PovStateDB γ) := do
  let oldAs := sdb.accounts.get tx.block.address
  let newAs := updateAccountState oldAs tx
  let reps :=
    if tx.block.type = .online then updateRepOnline height sdb.reps tx.block
    else updateRepState sdb.reps tx.block oldAs newAs
  let contracts ← updateContractState height sdb.contracts tx
  return { accounts := sdb.accounts.put tx.block.address newAs, reps, contracts }

def transitStateDB (height : ℕ) (txs : List PovTransaction) (sdb : PovStateDB γ) :
    Except ε (PovStateDB γ) :=
  txs.foldlM (applyTransaction updateContractState height) sdb

end

theorem find_setTokenState (ts : PovTokenState) (states : List PovTokenState) (type : Hash) :
    (setTokenState ts states).find? (fun t => t.type == type) =
      if ts.type = type then some ts else states.find? fun t => t.type == type := by
  induction states with
  | nil =>
    by_cases h : ts.type = type <;> simp [setTokenState, h]
  | cons t states ih =>
    unfold setTokenState
    by_cases h : t.type = ts.type
    · rw [if_pos h, List.find?_cons, List.find?_cons, h]
      by_cases htype : ts.type = type
      · rw [beq_iff_eq.mpr htype, if_pos htype]
      · rw [beq_eq_false_iff_ne.mpr htype, if_neg htype]
    · rw [if_neg h, List.find?_cons, List.find?_cons, ih]
      by_cases htype : t.type = type
      · have hts : ts.type ≠ type := fun heq => h (htype.trans heq.symm)
        rw [beq_iff_eq.mpr htype]
        exact (if_neg hts).symm
      · rw [beq_eq_false_iff_ne.mpr htype]

theorem getTokenState_updateAccountState (oldAs : Option PovAccountState) (tx : PovTransaction)
    (token : Hash) :
    (updateAccountState oldAs tx).getTokenState token =
      if tx.block.token = token then
        some ⟨tx.block.token, tx.hash, tx.block.representative, tx.block.balance⟩
      else oldAs.bind fun as => as.getTokenState token := by
  unfold PovAccountState.getTokenState updateAccountState
  dsimp only
  rw [find_setTokenState]
  by_cases h : tx.block.token = token
  · rw [if_pos h, if_pos h]
  · rw [if_neg h, if_neg h]
    by_cases hchain : tx.block.token = chainToken
    · rw [if_pos hchain]
      cases oldAs with
      | none => rfl
      | some as => rfl
    · rw [if_neg hchain]
      cases oldAs with
      | none => rfl
      | some as => rfl

end GoQlc.Pov
