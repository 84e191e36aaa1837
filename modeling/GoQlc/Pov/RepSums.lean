import GoQlc.Pov.State
import GoQlc.Properties.Representation

/-!
# The sums of the representatives

A transaction takes the old share of its account from one representative and gives the new one to
another.
-/

namespace GoQlc.Pov

open Config Balance Benefit Option PovAccountState Table

variable {as : PovAccountState}

namespace PovAccountState

def benefit (as : PovAccountState) : Benefit :=
  Benefit.exact as.balance as.vote as.network as.storage as.oracle

theorem share_of_lt (h : as.benefit.total < 2 ^ 64) : as.share = as.benefit := by
  have htotal : as.totalBalance = as.benefit.total := by
    simp only [benefit, Benefit.exact] at h ⊢
    unfold totalBalance
    have h₁ : as.balance + as.vote < 2 ^ 64 := by omega
    have h₂ : as.balance + as.vote + as.storage < 2 ^ 64 := by omega
    have h₃ : as.balance + as.vote + as.storage + as.network < 2 ^ 64 := by omega
    rw [add_of_lt h₁, add_of_lt h₂, add_of_lt h₃,
      add_of_lt (by omega)]
    omega
  unfold share
  rw [htotal]
  rfl

end PovAccountState

theorem blockShare_of_lt {block : StateBlock} (h : block.benefit.total < 2 ^ 64) :
    blockShare block = block.benefit := by
  unfold blockShare
  rw [StateBlock.totalBalance_of_lt h]
  rfl

variable {accounts : Table Address PovAccountState} {reps : Table Address PovRepState}
  {tx : PovTransaction} {c : Component} {r : Address}

/-- What an account adds to the sum of `r`. -/
def povShare (c : Component) (r : Address) (as : PovAccountState) : ℕ :=
  if (as.getTokenState chainToken).map PovTokenState.representative = some r then
    as.benefit.component c
  else 0

def named (accounts : Table Address PovAccountState) (c : Component) (r : Address) : ℕ :=
  accounts.total fun _ as => povShare c r as

def SumsBelow (accounts : Table Address PovAccountState) : Prop :=
  ∀ r, r ≠ 0 → named accounts .total r < 2 ^ 64

def PovRepState.component (c : Component) (rs : PovRepState) : ℕ := rs.benefit.component c

/-- The states of the representatives show the sums; the zero address has none. -/
structure RepsExact (accounts : Table Address PovAccountState)
    (reps : Table Address PovRepState) : Prop where
  sums : ∀ r, r ≠ 0 → ∀ c, ((reps.get r).getD {}).component c = named accounts c r
  zero : reps.get 0 = none

theorem povShare_le_total (as : PovAccountState) : povShare c r as ≤ povShare .total r as := by
  unfold povShare
  split_ifs
  · exact component_exact_le ..
  · exact le_rfl

theorem named_le_total : named accounts c r ≤ named accounts .total r :=
  total_mono (fun _ as => povShare_le_total as) _

def oldShare (accounts : Table Address PovAccountState) (a : Address) (c : Component)
    (r : Address) : ℕ :=
  Table.weight (fun _ as => povShare c r as) accounts a

variable {a : Address}

theorem oldShare_le : oldShare accounts a c r ≤ named accounts c r :=
  weight_le_total _ _ _

theorem oldShare_some (h : accounts.get a = some as) : oldShare accounts a c r = povShare c r as :=
  weight_of_get h

theorem oldShare_none (h : accounts.get a = none) : oldShare accounts a c r = 0 :=
  weight_of_get_none h

theorem named_put (a : Address) (as : PovAccountState) :
    named (accounts.put a as) c r + oldShare accounts a c r = named accounts c r + povShare c r as :=
  total_put_add _ _ _ _

theorem povShare_updateAccountState (oldAs : Option PovAccountState)
    (ht : tx.block.token = chainToken) :
    povShare c r (updateAccountState oldAs tx) =
      if tx.block.representative = r then tx.block.benefit.component c else 0 := by
  unfold povShare getTokenState updateAccountState
  dsimp only
  rw [find_setTokenState]
  simp only [ht, if_true, map_some, Option.some.injEq]
  rfl

theorem povShare_updateAccountState_of_ne (ht : tx.block.token ≠ chainToken) :
    povShare c r (updateAccountState (accounts.get tx.block.address) tx) =
      oldShare accounts tx.block.address c r := by
  have htoken : ∀ as : PovAccountState, povShare c r (updateAccountState (some as) tx) =
      povShare c r as := by
    intro as
    unfold povShare getTokenState updateAccountState
    dsimp only
    rw [find_setTokenState]
    simp only [ht, if_false]
    rfl
  cases has : accounts.get tx.block.address with
  | none =>
    rw [oldShare_none has]
    unfold povShare getTokenState updateAccountState
    dsimp only
    rw [find_setTokenState]
    simp [ht]
  | some as =>
    rw [oldShare_some has]
    exact htoken as

theorem component_minusOld (hsum : SumsBelow accounts) (hexact : RepsExact accounts reps)
    (a : Address) (hr : r ≠ 0) (c : Component) :
    (((minusOld reps (accounts.get a) chainToken).get r).getD {}).component c +
      oldShare accounts a c r = named accounts c r := by
  have hstored := hexact.sums r hr
  unfold minusOld
  cases has : accounts.get a with
  | none =>
    rw [oldShare_none has, Nat.add_zero]
    exact hstored c
  | some as =>
    dsimp only
    cases hts : as.getTokenState chainToken with
    | none =>
      have hold : oldShare accounts a c r = 0 := by
        rw [oldShare_some has, povShare, hts]
        rfl
      rw [hold, Nat.add_zero]
      exact hstored c
    | some ts =>
      have hold : ∀ c, oldShare accounts a c r =
          if ts.representative = r then as.benefit.component c else 0 := by
        intro c
        rw [oldShare_some has, povShare, hts, map_some]
        simp only [Option.some.injEq]
      dsimp only
      by_cases hzero : ts.representative = 0
      · rw [if_pos hzero, hold, if_neg (fun h => hr (h.symm.trans hzero)), Nat.add_zero]
        exact hstored c
      rw [if_neg hzero]
      by_cases hown : ts.representative = r
      · subst hown
        have hle := @oldShare_le accounts c ts.representative a
        have hletotal := @oldShare_le accounts .total ts.representative a
        have hlt := hsum _ hr
        have hc := @named_le_total accounts c ts.representative
        have hval := hstored c
        rw [hold, if_pos rfl] at hle hletotal
        rw [hold, if_pos rfl]
        cases hrs : reps.get ts.representative with
        | none =>
          -- a representative without a state has no share to lose
          rw [hrs] at hval
          have hnone : (({} : PovRepState)).component c = 0 := component_zero c
          rw [getD_none, hnone] at hval
          dsimp only
          rw [hrs, getD_none, hnone]
          omega
        | some rs =>
          have hshare : as.share = as.benefit :=
            share_of_lt (lt_of_le_of_lt hletotal hlt)
          rw [hrs, getD_some] at hval
          dsimp only
          rw [get_put_self, getD_some]
          unfold PovRepState.component at hval ⊢
          dsimp only
          rw [component_zipWith, hshare, hval, sub_of_lt (by omega) (by omega)]
          omega
      · rw [hold, if_neg hown, Nat.add_zero]
        cases hrs : reps.get ts.representative with
        | none => exact hstored c
        | some rs =>
          dsimp only
          rw [get_put_of_ne _ (fun h => hown h.symm)]
          exact hstored c

theorem minusOld_zero (hzero : reps.get 0 = none) (oldAs : Option PovAccountState) (token : Hash) :
    (minusOld reps oldAs token).get 0 = none := by
  unfold minusOld
  cases oldAs with
  | none => exact hzero
  | some as =>
    dsimp only
    cases as.getTokenState token with
    | none => exact hzero
    | some ts =>
      dsimp only
      split_ifs with hrep
      · exact hzero
      · cases reps.get ts.representative with
        | none => exact hzero
        | some rs => exact (get_put_of_ne _ (fun h => hrep h.symm) _).trans hzero

theorem RepsExact.updateRepState (hexact : RepsExact accounts reps) (hsum : SumsBelow accounts)
    (ht : tx.block.token = chainToken)
    (hsum' : SumsBelow (accounts.put tx.block.address
      (updateAccountState (accounts.get tx.block.address) tx))) :
    RepsExact
      (accounts.put tx.block.address (updateAccountState (accounts.get tx.block.address) tx))
      (updateRepState reps tx.block (accounts.get tx.block.address)
        (updateAccountState (accounts.get tx.block.address) tx)) := by
  unfold Pov.updateRepState plusNew
  rw [if_neg (not_not.mpr ht), getTokenState_updateAccountState, if_pos rfl, ht]
  dsimp only
  constructor
  · intro r hr c
    have hput : ∀ c, _ := fun c => @named_put accounts c r tx.block.address
      (updateAccountState (accounts.get tx.block.address) tx)
    have hrest := component_minusOld hsum hexact tx.block.address hr
    have hlt := hsum' r hr
    have hc := @named_le_total (accounts.put tx.block.address
      (updateAccountState (accounts.get tx.block.address) tx)) c r
    have hputc := hput c
    have hrestc := hrest c
    rw [povShare_updateAccountState _ ht] at hputc
    by_cases hown : tx.block.representative = r
    · have htotal := hput .total
      have hresttotal := hrest .total
      rw [povShare_updateAccountState _ ht, if_pos hown] at htotal
      rw [if_pos hown] at hputc
      have hshare : blockShare tx.block = tx.block.benefit := by
        apply blockShare_of_lt
        change tx.block.benefit.component .total < 2 ^ 64
        omega
      rw [if_neg (hown ▸ hr), hown, get_put_self, getD_some]
      unfold PovRepState.component at hrestc ⊢
      dsimp only
      rw [component_zipWith, hshare, add_of_lt (by omega)]
      omega
    · rw [if_neg hown] at hputc
      split_ifs
      · omega
      · rw [get_put_of_ne _ (fun h => hown h.symm)]
        omega
  · split_ifs with hzero
    · exact minusOld_zero hexact.zero _ _
    · rw [get_put_of_ne _ (fun h => hzero h.symm)]
      exact minusOld_zero hexact.zero _ _

theorem RepsExact.of_share (hexact : RepsExact accounts reps)
    (hshare : ∀ c r, povShare c r as = oldShare accounts a c r) :
    RepsExact (accounts.put a as) reps := by
  refine ⟨fun r hr c => ?_, hexact.zero⟩
  have hput := @named_put accounts c r a as
  rw [hshare] at hput
  rw [hexact.sums r hr c]
  omega

theorem RepsExact.updateRepOnline (hexact : RepsExact accounts reps) {block : StateBlock}
    (ha : block.address ≠ 0) (height : ℕ) :
    RepsExact accounts (updateRepOnline height reps block) := by
  unfold Pov.updateRepOnline
  refine ⟨fun r hr c => ?_, ?_⟩
  · rw [← hexact.sums r hr c]
    by_cases hr' : r = block.address
    · rw [hr', get_put_self]
      rfl
    · rw [get_put_of_ne _ hr']
  · rw [get_put_of_ne _ (fun h => ha h.symm)]
    exact hexact.zero

/-- The condition on a transaction: an online block, which is not one of the zero address, says
what the state has: the representative and the five amounts of its account. -/
def OnlineUnchanged (accounts : Table Address PovAccountState) (tx : PovTransaction) : Prop :=
  tx.block.type = .online → tx.block.address ≠ 0 ∧
    (tx.block.token = chainToken → ∃ as ts, accounts.get tx.block.address = some as ∧
      as.getTokenState chainToken = some ts ∧ ts.representative = tx.block.representative ∧
      as.benefit = tx.block.benefit)

theorem RepsExact.applyTransaction {γ ε : Type}
    {updateContractState : ℕ → γ → PovTransaction → Except ε γ} {height : ℕ}
    {sdb sdb' : PovStateDB γ} (hexact : RepsExact sdb.accounts sdb.reps)
    (hsum : SumsBelow sdb.accounts) (hcond : OnlineUnchanged sdb.accounts tx)
    (hok : applyTransaction updateContractState height sdb tx = .ok sdb')
    (hsum' : SumsBelow sdb'.accounts) : RepsExact sdb'.accounts sdb'.reps := by
  obtain ⟨contracts, _, hret⟩ := Result.bind_eq_ok.mp hok
  cases hret
  dsimp only at hsum' ⊢
  split_ifs with htype
  · obtain ⟨haddr, hsame⟩ := hcond htype
    refine RepsExact.updateRepOnline ?_ haddr height
    refine hexact.of_share fun c r => ?_
    by_cases ht : tx.block.token = chainToken
    · obtain ⟨as, ts, has, hts, hrep, hbenefit⟩ := hsame ht
      rw [povShare_updateAccountState _ ht, oldShare_some has, povShare, hts, map_some,
        hrep, hbenefit]
      simp only [Option.some.injEq]
    · exact povShare_updateAccountState_of_ne ht
  · by_cases ht : tx.block.token = chainToken
    · exact hexact.updateRepState hsum ht hsum'
    · unfold Pov.updateRepState
      rw [if_pos ht]
      exact hexact.of_share fun c r => povShare_updateAccountState_of_ne ht

/-! ## Runs -/

/-- The states that transactions lead to from the empty state, where no sum reaches 64 bits and
every transaction meets the condition. -/
inductive Applied {γ ε : Type} (updateContractState : ℕ → γ → PovTransaction → Except ε γ)
    (empty : γ) (P : Table Address PovAccountState → PovTransaction → Prop) :
    PovStateDB γ → Prop where
  | empty : Applied updateContractState empty P ⟨∅, ∅, empty⟩
  | step {sdb sdb' : PovStateDB γ} {height : ℕ} {tx : PovTransaction} :
      Applied updateContractState empty P sdb → P sdb.accounts tx →
      applyTransaction updateContractState height sdb tx = .ok sdb' → SumsBelow sdb'.accounts →
      Applied updateContractState empty P sdb'

theorem repsExact_empty : RepsExact ∅ ∅ ∧ SumsBelow ∅ := by
  refine ⟨⟨fun r _ c => ?_, rfl⟩, fun r _ => ?_⟩
  · exact component_zero c
  · exact Nat.two_pow_pos 64

theorem Applied.repsExact {γ ε : Type}
    {updateContractState : ℕ → γ → PovTransaction → Except ε γ} {empty : γ} {sdb : PovStateDB γ}
    (h : Applied updateContractState empty OnlineUnchanged sdb) :
    RepsExact sdb.accounts sdb.reps ∧ SumsBelow sdb.accounts := by
  induction h with
  | empty => exact repsExact_empty
  | step _ hcond hok hsum ih => exact ⟨ih.1.applyTransaction ih.2 hcond hok hsum, hsum⟩

def openTx : PovTransaction where
  hash := 1
  block :=
    { type := .open_, token := chainToken, address := 5, balance := 10, previous := 0, link := 3
      representative := 7 }

def onlineTx (representative : Address) : PovTransaction where
  hash := 2
  block :=
    { type := .online, token := chainToken, address := 5, balance := 10, previous := 1, link := 0
      representative }

theorem named_put_le (a : Address) (as : PovAccountState) :
    named (accounts.put a as) .total r ≤ named accounts .total r + as.benefit.total := by
  have hput := @named_put accounts .total r a as
  have hshare : povShare .total r as ≤ as.benefit.total := by
    unfold povShare
    split_ifs
    · exact Nat.le_refl _
    · exact Nat.zero_le _
  omega

def noContracts : ℕ → Unit → PovTransaction → Except Unit Unit := fun _ _ _ => .ok ()

end GoQlc.Pov
