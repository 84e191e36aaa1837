import GoQlc.Config.Devnet
import GoQlc.Process.Run

/-!
# The representation table

The table of benefits is maintained by subtracting the old share of an account and adding the new
one.
-/

namespace GoQlc

open Config Benefit Ledger Option StateBlock Table

inductive Component where
  | balance
  | vote
  | network
  | storage
  | oracle
  | total
deriving DecidableEq, Repr

namespace Benefit

def component : Component → Benefit → ℕ
  | .balance, b => b.balance
  | .vote, b => b.vote
  | .network, b => b.network
  | .storage, b => b.storage
  | .oracle, b => b.oracle
  | .total, b => b.total

theorem component_zero (c : Component) : zero.component c = 0 := by cases c <;> rfl

theorem component_zipWith (f : ℕ → ℕ → ℕ) (a b : Benefit) (c : Component) :
    (zipWith f a b).component c = f (a.component c) (b.component c) := by cases c <;> rfl

theorem component_exact_le (balance vote network storage oracle : ℕ) (c : Component) :
    (exact balance vote network storage oracle).component c ≤
      (exact balance vote network storage oracle).component .total := by
  cases c <;> simp only [component, exact] <;> omega

end Benefit

/-! ## Totals that do not overflow -/

theorem StateBlock.addWeight_of_lt {total : ℕ} {w : Option ℕ} (h : total + w.getD 0 < 2 ^ 64) :
    addWeight total w = total + w.getD 0 := by
  cases w with
  | none => rfl
  | some w => exact Balance.add_of_lt h

theorem StateBlock.totalBalance_of_lt {b : StateBlock} (h : b.benefit.total < 2 ^ 64) :
    b.totalBalance = b.benefit.total := by
  simp only [benefit, Benefit.exact, getVote, getNetwork, getStorage, getOracle] at h ⊢
  unfold totalBalance
  rw [addWeight_of_lt (w := b.vote) (by omega), addWeight_of_lt (w := b.network) (by omega),
    addWeight_of_lt (w := b.oracle) (by omega), addWeight_of_lt (w := b.storage) (by omega)]
  omega

theorem AccountMeta.totalBalance_of_lt {am : AccountMeta} (h : am.benefit.total < 2 ^ 64) :
    am.totalBalance = am.benefit.total := by
  simp only [benefit, Benefit.exact, getBalance, getVote, getNetwork, getStorage, getOracle] at h ⊢
  unfold totalBalance
  simp only []
  rw [addWeight_of_lt (w := am.coinBalance) (by omega),
    addWeight_of_lt (w := am.coinVote) (by omega),
    addWeight_of_lt (w := am.coinStorage) (by omega),
    addWeight_of_lt (w := am.coinNetwork) (by omega),
    addWeight_of_lt (w := am.coinOracle) (by omega)]
  omega

namespace Env

variable {env : Env} {v : View} {l l' : Ledger} {b : StateBlock}

theorem oldBenefit_of_lt {am : AccountMeta} (h : am.benefit.total < 2 ^ 64) :
    oldBenefit am = am.benefit := by
  unfold oldBenefit
  rw [AccountMeta.totalBalance_of_lt h]
  rfl

theorem newBenefit_of_lt (h : b.benefit.total < 2 ^ 64) : newBenefit b = b.benefit := by
  unfold newBenefit
  rw [totalBalance_of_lt h]
  rfl

/-! ## Sums over the accounts -/

/-- What an account adds to the sum of `r`. -/
def share (c : Component) (r : Address) (am : AccountMeta) : ℕ :=
  if (am.token chainToken).map TokenMeta.representative = some r then am.benefit.component c else 0

def represented (l : Ledger) (c : Component) (r : Address) : ℕ :=
  l.accounts.total fun _ am => share c r am

def SumsBelow (l : Ledger) : Prop := ∀ r, r ≠ 0 → represented l .total r < 2 ^ 64

def RepresentationExact (l : Ledger) : Prop :=
  ∀ r, r ≠ 0 → ∀ c, ((l.representations.get r).getD zero).component c = represented l c r

theorem share_le_total (c : Component) (r : Address) (am : AccountMeta) :
    share c r am ≤ share .total r am := by
  unfold share
  split_ifs
  · exact component_exact_le ..
  · exact le_rfl

theorem represented_le_total (c : Component) (r : Address) :
    represented l c r ≤ represented l .total r :=
  total_mono (fun _ am => share_le_total c r am) _

def oldShare (l : Ledger) (b : StateBlock) (c : Component) (r : Address) : ℕ :=
  Table.weight (fun _ am => share c r am) l.accounts b.address

theorem oldShare_le (c : Component) (r : Address) : oldShare l b c r ≤ represented l c r :=
  weight_le_total _ _ _

theorem represented_step (hk : l.WellKept env.hashData) (hp : env.Processed v l b l')
    (c : Component) (r : Address) :
    represented l' c r + oldShare l b c r =
      represented l c r + share c r (env.accountAfter l (env.resentBlock v l b)) := by
  obtain ⟨d, hd⟩ := sameButData_resentBlock (v := v) (l := l) (b := b)
  have haddr : (env.accountAfter l (env.resentBlock v l b)).address = b.address := by
    rw [hd]
    exact accountAfter_address (hk.keyed _)
  unfold represented oldShare
  rw [hp.accounts, haddr]
  exact total_put_add _ _ _ _

theorem tokenAfter_representative : (env.tokenAfter l b).representative = b.representative := by
  unfold tokenAfter
  cases l.getTokenMetaConfirmed b.address b.token <;> rfl

theorem share_accountAfter (ht : b.token = chainToken) (c : Component) (r : Address) :
    share c r (env.accountAfter l b) =
      if b.representative = r then b.benefit.component c else 0 := by
  unfold share
  rw [accountAfter_token, if_pos ht.symm, accountAfter_benefit, if_pos ht, map_some,
    tokenAfter_representative]
  simp only [Option.some.injEq]

theorem share_accountAfter_of_ne (ht : b.token ≠ chainToken) (c : Component) (r : Address) :
    share c r (env.accountAfter l b) = oldShare l b c r := by
  unfold oldShare
  have htoken : (env.accountAfter l b).token chainToken =
      l.getTokenMetaConfirmed b.address chainToken := by
    rw [accountAfter_token, if_neg (fun h => ht h.symm)]
  cases ham : l.accounts.get b.address with
  | none =>
    rw [weight_of_get_none ham]
    unfold share
    rw [htoken]
    simp [getTokenMetaConfirmed, getAccountMetaConfirmed, ham]
  | some am =>
    rw [weight_of_get ham]
    unfold share
    rw [htoken, accountAfter_benefit, if_neg ht]
    simp [getTokenMetaConfirmed, getAccountMetaConfirmed, ham]

theorem component_shareRemoved (hsum : SumsBelow l) (hexact : RepresentationExact l)
    (ht : b.token = chainToken) {t : Table Address Benefit} (h : ShareRemoved l b t)
    {r : Address} (hr : r ≠ 0) (c : Component) :
    ((t.get r).getD zero).component c + oldShare l b c r = represented l c r := by
  have hstored := hexact r hr c
  rw [← hstored]
  rcases h with ⟨am, tm, value, ham, htm, hrep, hvalue, rfl⟩ | ⟨hnone, rfl⟩
  · rw [ht] at htm
    have hold : ∀ c, oldShare l b c r =
        if tm.representative = r then am.benefit.component c else 0 := by
      intro c
      rw [oldShare, weight_of_get ham, share, htm, map_some]
      simp only [Option.some.injEq]
    by_cases hown : tm.representative = r
    · subst hown
      have hle := oldShare_le (l := l) (b := b) c tm.representative
      have hletotal := oldShare_le (l := l) (b := b) .total tm.representative
      have hlt := hsum _ hr
      have hc := represented_le_total (l := l) c tm.representative
      rw [hold, if_pos rfl] at hle hletotal
      have hbenefit : oldBenefit am = am.benefit :=
        oldBenefit_of_lt (lt_of_le_of_lt hletotal hlt)
      rw [hvalue, getD_some] at hstored
      rw [get_put_self, getD_some, component_zipWith, hbenefit, hold,
        if_pos rfl, hvalue, getD_some, hstored,
        Balance.sub_of_lt (by omega) (by omega)]
      omega
    · rw [hold, if_neg hown, get_put_of_ne _ (fun h => hown h.symm), Nat.add_zero]
  · have hold : oldShare l b c r = 0 := by
      unfold oldShare
      cases ham : l.accounts.get b.address with
      | none => exact weight_of_get_none ham
      | some am =>
        rw [weight_of_get ham, share, if_neg]
        intro hmap
        obtain ⟨tm, htm, htmr⟩ := map_eq_some_iff.mp hmap
        apply hr
        rw [← htmr]
        exact hnone am tm ham (by rw [ht]; exact htm)
    rw [hold, Nat.add_zero]

theorem RepresentationExact.step (hk : l.WellKept env.hashData) (hsum : SumsBelow l)
    (hsum' : SumsBelow l') (hp : env.Processed v l b l') (hexact : RepresentationExact l) :
    RepresentationExact l' := by
  intro r hr c
  obtain ⟨d, hd⟩ := sameButData_resentBlock (v := v) (l := l) (b := b)
  have hstep := fun c => represented_step hk hp c r
  rcases hp.representations with ⟨ht, t, hremoved, htable⟩ | ⟨ht, htable⟩
  · have hshare : ∀ c, share c r (env.accountAfter l (env.resentBlock v l b)) =
        if b.representative = r then b.benefit.component c else 0 := by
      intro c
      rw [hd, share_accountAfter (by exact ht)]
      rfl
    have hrest := component_shareRemoved hsum hexact ht hremoved hr
    have hlt := hsum' r hr
    have hc := represented_le_total (l := l') c r
    rw [htable, addShare]
    by_cases hown : b.representative = r
    · have htotal := hstep .total
      have hsumc := hstep c
      rw [hshare, if_pos hown] at htotal hsumc
      have hleft := hrest .total
      have hleftc := hrest c
      have hbenefit : newBenefit b = b.benefit := by
        apply newBenefit_of_lt
        change b.benefit.component .total < 2 ^ 64
        omega
      rw [hown, get_put_self, getD_some, component_zipWith, hbenefit,
        Balance.add_of_lt (by omega)]
      omega
    · have hsumc := hstep c
      have hleftc := hrest c
      rw [hshare, if_neg hown] at hsumc
      rw [get_put_of_ne _ (fun h => hown h.symm)]
      omega
  · have hsumc := hstep c
    have hsame : share c r (env.accountAfter l (env.resentBlock v l b)) = oldShare l b c r := by
      rw [hd, share_accountAfter_of_ne (by exact ht)]
      rfl
    rw [hsame] at hsumc
    rw [htable, hexact r hr c]
    omega

/-! ## Runs -/

theorem sumsBelow_of_supply (h : ∀ r, represented l .total r ≤
    if l.accounts.get genesisAddress = none then 0 else genesisBlock.balance) : SumsBelow l := by
  intro r _
  apply lt_of_le_of_lt (h r)
  split_ifs <;> decide

theorem represented_first (hb : b ∈ [genesisBlock, gasBlock]) (hk : l.WellKept env.hashData)
    (hnew : l.accounts.get b.address = none) (hp : env.Processed v l b l')
    (h : ∀ r, represented l .total r ≤
      if l.accounts.get genesisAddress = none then 0 else genesisBlock.balance) (r : Address) :
    represented l' .total r ≤
      if l'.accounts.get genesisAddress = none then 0 else genesisBlock.balance := by
  have hstep := represented_step hk hp .total r
  have hold : oldShare l b .total r = 0 := weight_of_get_none hnew
  have hsame : env.resentBlock v l b = b := by
    unfold resentBlock sentBlock
    simp [type_of_firstBlock hb]
  rw [hsame, hold, Nat.add_zero] at hstep
  have hr := h r
  simp only [List.mem_cons, List.not_mem_nil, or_false] at hb
  rcases hb with rfl | rfl
  · have hshare : share .total r (env.accountAfter l genesisBlock) ≤ genesisBlock.balance := by
      rw [share_accountAfter rfl]
      split_ifs <;> decide
    have hget : l'.accounts.get genesisAddress ≠ none := by
      rw [hp.get_account hk, if_pos (by decide)]
      exact some_ne_none _
    rw [if_pos (by exact hnew)] at hr
    rw [if_neg hget]
    omega
  · have hshare : share .total r (env.accountAfter l gasBlock) = 0 := by
      rw [share_accountAfter_of_ne (by decide), hold]
    have hget : l'.accounts.get genesisAddress = l.accounts.get genesisAddress := by
      rw [hp.get_account hk]
      exact if_neg (by decide)
    rw [hget]
    omega

theorem representation_genesis :
    RepresentationExact env.genesisLedger ∧ SumsBelow env.genesisLedger := by
  suffices h : RepresentationExact env.genesisLedger ∧ ∀ r, represented env.genesisLedger .total r ≤
      if env.genesisLedger.accounts.get genesisAddress = none then 0 else genesisBlock.balance by
    exact ⟨h.1, sumsBelow_of_supply h.2⟩
  apply genesis_invariant (I := fun l => RepresentationExact l ∧ ∀ r, represented l .total r ≤
      if l.accounts.get genesisAddress = none then 0 else genesisBlock.balance)
  · refine ⟨fun r _ c => ?_, fun r => ?_⟩
    · simp [represented, Table.total, component_zero]
    · simp [represented, Table.total]
  · intro l b _ hl _
    exact hl
  · intro l b l' hb hk hl hfresh hnew hp
    have hbound := represented_first hb hk hnew hp hl.2
    exact ⟨hl.1.step hk (sumsBelow_of_supply hl.2) (sumsBelow_of_supply hbound) hp, hbound⟩
  · intro _ l hl
    exact hl

def KeepsSums (env : Env) : Condition :=
  fun _ v l b => ∀ l', env.blockProcess v l b = .ok l' → SumsBelow l'

theorem Reachable.representation (h : env.Reachable env.KeepsSums l) :
    RepresentationExact l ∧ SumsBelow l := by
  suffices hall : l.WellKept env.hashData ∧ RepresentationExact l ∧ SumsBelow l from hall.2
  apply h.invariant (I := fun l => l.WellKept env.hashData ∧ RepresentationExact l ∧ SumsBelow l)
    ⟨wellKept_genesis, representation_genesis⟩
  rintro v v' l b l' hs hkeeps ⟨hk, hexact, hsum⟩
  have hp := blockProcess_ok hs.applied
  have hsum' := hkeeps l' hs.applied
  exact ⟨hp.wellKept hk, hexact.step hk hsum hsum' hp, hsum'⟩

/-- In every run whose sums stay below 64 bits, the stored benefit of every
representative but the zero address is, component by component, the sum over
the accounts that name it. -/
theorem stored_benefit_eq_sum (h : env.Reachable env.KeepsSums l) {r : Address} (hr : r ≠ 0)
    (c : Component) :
    ((l.representations.get r).getD zero).component c =
      l.accounts.total fun _ am =>
        if (am.token chainToken).map TokenMeta.representative = some r then
          am.benefit.component c else 0 :=
  h.representation.1 r hr c

theorem represented_le_coins (c : Component) (r : Address) :
    represented l c r ≤ l.accounts.total fun _ am => am.benefit.component c := by
  apply total_mono
  intro _ am
  unfold share
  split_ifs
  · exact le_rfl
  · exact Nat.zero_le _

theorem sumsBelow_of_coins (h : (l.accounts.total fun _ am => am.benefit.total) < 2 ^ 64) :
    SumsBelow l := fun r _ => lt_of_le_of_lt (represented_le_coins .total r) h

def CoinsBelow (env : Env) : Condition :=
  fun _ v l b => ((env.blockProcess v l b).toOption.all fun l' =>
    decide ((l'.accounts.total fun _ am => am.benefit.total) < 2 ^ 64)) = true

instance (v v' : View) (l : Ledger) (b : StateBlock) : Decidable (env.CoinsBelow v v' l b) :=
  inferInstanceAs (Decidable (_ = true))

theorem CoinsBelow.keepsSums {u : View} (h : env.CoinsBelow u v l b) : env.KeepsSums u v l b := by
  intro l' hl'
  unfold CoinsBelow at h
  rw [Result.toOption_eq_some.mpr hl', all_some] at h
  exact sumsBelow_of_coins (of_decide_eq_true h)

end Env

def Devnet.changeBlock : StateBlock :=
  Devnet.signed
    { type := .change, token := chainToken, address := genesisAddress
      balance := genesisBlock.balance, previous := Devnet.genesisHash, link := 0
      representative := gasAddress }

open Devnet Env in
theorem stored_benefit_after_change :
    ∃ l, env.Reachable env.KeepsSums l ∧
      ((l.representations.get gasAddress).getD zero).balance = genesisBlock.balance ∧
      ((l.representations.get gasAddress).getD zero).component .balance =
        l.accounts.total fun _ am =>
          if (am.token chainToken).map TokenMeta.representative = some gasAddress then
            am.benefit.component .balance else 0 := by
  have hrun : ((env.runIf view env.CoinsBelow env.genesisLedger [changeBlock]).any fun l =>
      decide (((l.representations.get gasAddress).getD zero).balance =
        genesisBlock.balance)) = true := by
    decide +kernel
  obtain ⟨l, hl, hbalance⟩ := (any_eq_true _ _).mp hrun
  have hreach : env.Reachable env.KeepsSums l :=
    (reachable_of_runIf hl).mono fun _ _ _ _ h => h.keepsSums
  exact ⟨l, hreach, of_decide_eq_true hbalance, stored_benefit_eq_sum hreach (by decide) .balance⟩

end GoQlc
