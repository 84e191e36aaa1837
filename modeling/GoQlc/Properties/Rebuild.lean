import GoQlc.Properties.Representation

/-!
# The start-up rebuild of the representation table

At start-up the table is computed once more from the stored accounts.
-/

namespace GoQlc

open Config List StateBlock Benefit

namespace Balance

theorem foldl_add_lt {b : ℕ} (hb : b < 2 ^ 64) (ns : List ℕ) : ns.foldl add b < 2 ^ 64 := by
  induction ns generalizing b with
  | nil => exact hb
  | cons n ns ih => exact ih (add_lt b n)

theorem foldl_add_of_lt {b : ℕ} {ns : List ℕ} (h : b + ns.sum < 2 ^ 64) :
    ns.foldl add b = b + ns.sum := by
  induction ns generalizing b with
  | nil => simp
  | cons n ns ih =>
    rw [sum_cons] at h ⊢
    rw [foldl_cons, add_of_lt (by omega), ih (by omega)]
    omega

end Balance

def AccountMeta.voteWeight (am : AccountMeta) : ℕ :=
  let balance := addWeight 0 am.coinBalance
  let balance := addWeight balance am.coinVote
  addWeight balance am.coinNetwork

theorem AccountMeta.voteWeight_of_lt {am : AccountMeta}
    (h : am.getBalance + am.getVote + am.getNetwork < 2 ^ 64) :
    am.voteWeight = am.getBalance + am.getVote + am.getNetwork := by
  simp only [getBalance, getVote, getNetwork] at h ⊢
  unfold voteWeight
  simp only []
  rw [addWeight_of_lt (w := am.coinBalance) (by omega),
    addWeight_of_lt (w := am.coinVote) (by omega),
    addWeight_of_lt (w := am.coinNetwork) (by omega)]
  omega

namespace Ledger

/-- Adds one account to a benefit: three of the five amounts, and the vote weight. -/
def addVoteWeight (am : AccountMeta) (value : Benefit) : Benefit :=
  { value with
    balance := Balance.add value.balance am.getBalance
    vote := Balance.add value.vote am.getVote
    network := Balance.add value.network am.getNetwork
    total := Balance.add value.total am.voteWeight }

def rebuildAccount (representMap : Table Address Benefit) (am : AccountMeta) :
    Table Address Benefit :=
  match am.token chainToken with
  | none => representMap
  | some tm =>
    representMap.put tm.representative
      (addVoteWeight am ((representMap.get tm.representative).getD zero))

def updateRepresentation (l : Ledger) : Ledger :=
  { l with representations := (l.accounts.entries.map Sigma.snd).foldl rebuildAccount ∅ }

end Ledger

namespace Env

open Ledger

variable {l : Ledger} {am : AccountMeta} {m : Table Address Benefit} {r : Address}

/-- The chain-token meta of the account names `r`. -/
def Names (r : Address) (am : AccountMeta) : Prop :=
  (am.token chainToken).map TokenMeta.representative = some r

instance (r : Address) : DecidablePred (Names r) := fun am =>
  inferInstanceAs (Decidable ((am.token chainToken).map TokenMeta.representative = some r))

/-- The benefit of `r` in a map. -/
def benefitAt (m : Table Address Benefit) (r : Address) : Benefit := (m.get r).getD zero

theorem benefitAt_rebuildAccount :
    benefitAt (rebuildAccount m am) r =
      if Names r am then addVoteWeight am (benefitAt m r) else benefitAt m r := by
  unfold rebuildAccount benefitAt
  cases htm : am.token chainToken with
  | none => simp [Names, htm]
  | some tm =>
    have hnames : Names r am ↔ tm.representative = r := by simp [Names, htm]
    simp only [hnames, Table.get_put]
    by_cases hr : tm.representative = r
    · simp [hr]
    · rw [if_neg (fun h => hr h.symm), if_neg hr]

theorem benefitAt_foldl (ams : List AccountMeta) :
    benefitAt (ams.foldl rebuildAccount m) r =
      (ams.filter (Names r)).foldl (fun value am => addVoteWeight am value) (benefitAt m r) := by
  induction ams generalizing m with
  | nil => rfl
  | cons am ams ih =>
    rw [foldl_cons, ih, benefitAt_rebuildAccount]
    by_cases hn : Names r am
    · rw [if_pos hn, filter_cons_of_pos (by simpa using hn), foldl_cons]
    · rw [if_neg hn, filter_cons_of_neg (by simpa using hn)]

def rebuildAmount : Component → AccountMeta → Option ℕ
  | .balance, am => some am.getBalance
  | .vote, am => some am.getVote
  | .network, am => some am.getNetwork
  | .total, am => some am.voteWeight
  | .storage, _ => none
  | .oracle, _ => none

theorem component_foldl (c : Component) (ams : List AccountMeta) (value : Benefit) :
    (ams.foldl (fun value am => addVoteWeight am value) value).component c =
      (ams.filterMap (rebuildAmount c)).foldl Balance.add (value.component c) := by
  induction ams generalizing value with
  | nil => rfl
  | cons am ams ih =>
    rw [foldl_cons, ih]
    cases c <;> rfl

/-- The accounts that name `r`. -/
def naming (l : Ledger) (r : Address) : List AccountMeta :=
  (l.accounts.entries.map Sigma.snd).filter (Names r)

theorem component_updateRepresentation (c : Component) :
    (benefitAt (updateRepresentation l).representations r).component c =
      ((naming l r).filterMap (rebuildAmount c)).foldl Balance.add 0 := by
  unfold updateRepresentation naming
  rw [benefitAt_foldl, component_foldl]
  simp [benefitAt, component_zero]

theorem component_updateRepresentation_lt (c : Component) :
    (benefitAt (updateRepresentation l).representations r).component c < 2 ^ 64 := by
  rw [component_updateRepresentation]
  exact Balance.foldl_add_lt (by decide) _

theorem represented_eq_sum (c : Component) :
    represented l c r = ((naming l r).map fun am => am.benefit.component c).sum := by
  unfold represented Table.total naming
  induction l.accounts.entries with
  | nil => rfl
  | cons e es ih =>
    have hshare : share c r e.2 = if Names r e.2 then e.2.benefit.component c else 0 := rfl
    rw [map_cons, sum_cons, ih, map_cons]
    dsimp only
    rw [hshare]
    by_cases hn : Names r e.2
    · rw [if_pos hn, filter_cons_of_pos (by simpa using hn), map_cons, sum_cons]
    · rw [if_neg hn, filter_cons_of_neg (by simpa using hn), Nat.zero_add]

theorem rebuildAmount_eq (hstorage : am.getStorage = 0) (horacle : am.getOracle = 0)
    (hlt : am.benefit.total < 2 ^ 64) (c : Component) :
    (rebuildAmount c am).getD 0 = am.benefit.component c := by
  have htotal : am.benefit.total = am.getBalance + am.getVote + am.getNetwork := by
    simp [AccountMeta.benefit, exact, hstorage, horacle]
  cases c with
  | balance | vote | network => rfl
  | storage => exact hstorage.symm
  | oracle => exact horacle.symm
  | total => exact (AccountMeta.voteWeight_of_lt (by omega)).trans htotal.symm

theorem sum_filterMap_getD (f : AccountMeta → Option ℕ) (ams : List AccountMeta) :
    (ams.filterMap f).sum = (ams.map fun am => (f am).getD 0).sum := by
  induction ams with
  | nil => rfl
  | cons am ams ih => cases hf : f am <;> simp [hf, ih]

/-- The rebuild keeps the benefit of a representative exactly if no account that
names it has storage or oracle weight, and the total fits in a word. -/
theorem benefit_rebuilt_iff
    (hexact : ∀ c, (benefitAt l.representations r).component c = represented l c r) :
    (∀ c, (benefitAt (updateRepresentation l).representations r).component c =
        (benefitAt l.representations r).component c) ↔
      represented l .storage r = 0 ∧ represented l .oracle r = 0 ∧
        represented l .total r < 2 ^ 64 := by
  constructor
  · intro hsame
    have hnone : ∀ c, (∀ am, rebuildAmount c am = none) → represented l c r = 0 := by
      intro c hc
      rw [← hexact, ← hsame, component_updateRepresentation]
      simp [funext hc]
    refine ⟨hnone .storage fun _ => rfl, hnone .oracle fun _ => rfl, ?_⟩
    rw [← hexact, ← hsame]
    exact component_updateRepresentation_lt .total
  · rintro ⟨hstorage, horacle, htotal⟩ c
    rw [hexact, component_updateRepresentation]
    have hc := lt_of_le_of_lt (represented_le_total (l := l) c r) htotal
    rw [represented_eq_sum] at hstorage horacle htotal hc ⊢
    -- a sum of zero has only zero terms, a small sum only small ones
    have hterm : ∀ c', ∀ am ∈ naming l r, am.benefit.component c' ≤
        ((naming l r).map fun am => am.benefit.component c').sum := by
      intro c' am ham
      exact single_le_sum (fun _ _ => Nat.zero_le _) _ (mem_map_of_mem ham)
    have hamount : (naming l r).map (fun am => (rebuildAmount c am).getD 0) =
        (naming l r).map fun am => am.benefit.component c := by
      apply map_congr_left
      intro am ham
      apply rebuildAmount_eq
      · exact Nat.le_zero.mp (hstorage ▸ hterm .storage am ham)
      · exact Nat.le_zero.mp (horacle ▸ hterm .oracle am ham)
      · exact lt_of_le_of_lt (hterm .total am ham) htotal
    have hsum : ((naming l r).filterMap (rebuildAmount c)).sum =
        ((naming l r).map fun am => am.benefit.component c).sum := by
      rw [sum_filterMap_getD, hamount]
    rw [Balance.foldl_add_of_lt (by rw [hsum]; omega), hsum, Nat.zero_add]

/-- Where the table shows the sums of all representatives, the rebuild leaves
every benefit as it is exactly if no account has storage or oracle weight and
every total fits in a word. -/
theorem rebuild_neutral_iff
    (hexact : ∀ r c, (benefitAt l.representations r).component c = represented l c r) :
    (∀ r c, (benefitAt (updateRepresentation l).representations r).component c =
        (benefitAt l.representations r).component c) ↔
      ∀ r, represented l .storage r = 0 ∧ represented l .oracle r = 0 ∧
        represented l .total r < 2 ^ 64 :=
  forall_congr' fun r => benefit_rebuilt_iff (hexact r)

end Env

namespace Devnet

/-- A withdrawal call that turns a hundred coins of the first account into oracle weight. -/
def oracleSend : StateBlock :=
  shortSigned 34
    { type := .contractSend, token := chainToken, address := genesisAddress
      balance := genesisBlock.balance - 100, oracle := some 100
      previous := genesisBlock.getHash (headHash 34)
      link := mintageAddress, representative := genesisAddress
      data := Abi.packMethod (headHash 34) Mintage.withdrawMethod (chainToken, ()) }

end Devnet

open Devnet Env in
theorem oracleSend_lost_by_rebuild :
    ∃ l, (shortEnv 34).Reachable anyBlock l ∧
      (∀ r c, (benefitAt l.representations r).component c = represented l c r) ∧
      (benefitAt l.representations genesisAddress).oracle = 100 ∧
      (benefitAt l.updateRepresentation.representations genesisAddress).oracle = 0 := by
  have hrun : (((shortEnv 34).run view (shortEnv 34).genesisLedger [oracleSend]).any fun l =>
      decide ((l.accounts.total fun _ am => am.benefit.total) < 2 ^ 64) &&
      decide (benefitAt l.representations 0 = zero ∧ represented l .total 0 = 0) &&
      decide ((benefitAt l.representations genesisAddress).oracle = 100 ∧
        (benefitAt l.updateRepresentation.representations genesisAddress).oracle = 0)) = true := by
    decide +kernel
  obtain ⟨l, hl, hfacts⟩ := (Option.any_eq_true _ _).mp hrun
  simp only [Bool.and_eq_true, decide_eq_true_eq] at hfacts
  obtain ⟨⟨hcoins, hzero, hnone⟩, hlost⟩ := hfacts
  refine ⟨l, reachable_of_run hl, ?_, hlost⟩
  obtain ⟨l₁, hstep, hdone⟩ := step_of_run hl
  obtain rfl := Option.some.inj hdone
  have hkeeps : (shortEnv 34).KeepsSums view view (shortEnv 34).genesisLedger oracleSend := by
    intro l' hl'
    obtain rfl : l₁ = l' := Except.ok.inj (hstep.applied.symm.trans hl')
    exact sumsBelow_of_coins hcoins
  have hreach : (shortEnv 34).Reachable (shortEnv 34).KeepsSums l₁ :=
    .single ⟨view, view, oracleSend, hstep, hkeeps⟩
  intro r c
  by_cases hr : r = 0
  · subst hr
    rw [hzero, component_zero]
    exact (Nat.le_zero.mp (hnone ▸ represented_le_total c 0)).symm
  · exact hreach.representation.1 r hr c

open Devnet Env in
theorem genesis_rebuild_neutral :
    (benefitAt (shortEnv 34).genesisLedger.representations genesisAddress).balance =
        genesisBlock.balance ∧
      ∀ r c, (benefitAt (shortEnv 34).genesisLedger.updateRepresentation.representations
          r).component c =
        (benefitAt (shortEnv 34).genesisLedger.representations r).component c := by
  have hfacts : (benefitAt (shortEnv 34).genesisLedger.representations genesisAddress).balance =
        genesisBlock.balance ∧
      benefitAt (shortEnv 34).genesisLedger.representations 0 = zero ∧
      represented (shortEnv 34).genesisLedger .total 0 = 0 ∧
      ((shortEnv 34).genesisLedger.accounts.total fun _ am => am.benefit.storage) = 0 ∧
      ((shortEnv 34).genesisLedger.accounts.total fun _ am => am.benefit.oracle) = 0 := by
    decide +kernel
  obtain ⟨hbalance, hzero, hnone, hstorage, horacle⟩ := hfacts
  have hgenesis : RepresentationExact (shortEnv 34).genesisLedger ∧
      SumsBelow (shortEnv 34).genesisLedger := representation_genesis
  obtain ⟨hexact, hsums⟩ := hgenesis
  refine ⟨hbalance, (rebuild_neutral_iff ?_).mpr ?_⟩
  · intro r c
    by_cases hr : r = 0
    · subst hr
      rw [hzero, component_zero]
      exact (Nat.le_zero.mp (hnone ▸ represented_le_total c 0)).symm
    · exact hexact r hr c
  · intro r
    refine ⟨Nat.le_zero.mp (hstorage ▸ represented_le_coins .storage r),
      Nat.le_zero.mp (horacle ▸ represented_le_coins .oracle r), ?_⟩
    by_cases hr : r = 0
    · rw [hr, hnone]
      decide
    · exact hsums r hr

end GoQlc
