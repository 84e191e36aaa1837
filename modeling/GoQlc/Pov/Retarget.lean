import GoQlc.Pov.Target

/-!
# The normalised target along a chain

The target of a header, divided by the efficiency of its algorithm, is passed on from header to
header and adjusted at the end of a cycle.
-/

namespace GoQlc.Pov.Wire

variable {n : ℕ}

theorem getAlgoEfficiency_mem (version : UInt32) :
    getAlgoEfficiency version ∈ [1, 12984, 513, 1973648, 257849, 1000000000] := by
  unfold getAlgoEfficiency
  dsimp only
  split_ifs <;> decide

theorem compactToBig_efficiency :
    ∀ e ∈ [1, 12984, 513, 1973648, 257849, 1000000000],
      compactToBig (bigToCompact (e : ℕ)) = (e : ℕ) := by
  decide +kernel

def carried (n : ℤ) (version : UInt32) : ℤ :=
  compactToBig (bigToCompact (n * getAlgoEfficiency version)) / getAlgoEfficiency version

theorem carried_zero (version : UInt32) : carried 0 version = 0 := by
  simp [carried, bigToCompact, compactToBig]

theorem getAlgoEfficiency_bounds (version : UInt32) :
    0 < getAlgoEfficiency version ∧ getAlgoEfficiency version < 2 ^ 32 := by
  have hall : ∀ e ∈ [1, 12984, 513, 1973648, 257849, 1000000000], 0 < e ∧ e < 2 ^ 32 := by
    decide
  exact hall _ (getAlgoEfficiency_mem version)

theorem carried_spec (hpos : 0 < n) (hlimit : n < 2 ^ 224) (version : UInt32) :
    ∃ r : ℕ, carried n version = r ∧ 0 < r ∧ r ≤ n ∧ n * (2 ^ 15 - 1) < (r + 1) * 2 ^ 15 := by
  have hmem := getAlgoEfficiency_mem version
  obtain ⟨hepos, helt⟩ := getAlgoEfficiency_bounds version
  unfold carried
  generalize getAlgoEfficiency version = e at *
  have hbig : n * e < 256 ^ 32 := by
    calc n * e < 2 ^ 224 * 2 ^ 32 := Nat.mul_lt_mul'' hlimit helt
      _ = 256 ^ 32 := by norm_num
  obtain ⟨k, hk, hsmall, -⟩ := compactToBig_bigToCompact (Nat.mul_pos hpos hepos)
    ((byteLength_le hbig).trans (by decide))
  set t := n * e / 256 ^ k * 256 ^ k with ht
  have hle : t ≤ n * e := Nat.div_mul_le_self _ _
  have hloss : n * e * 2 ^ 15 ≤ t * 2 ^ 15 + n * e := by
    rcases hsmall with rfl | hsmall
    · rw [ht]
      simp
    · have hgranule : n * e < t + 256 ^ k := Nat.lt_div_mul_add (by positivity)
      omega
  have hone : e ≤ t := by
    by_cases hn : n = 1
    · have hexact := compactToBig_efficiency e hmem
      rw [hn, Nat.one_mul] at hk
      rw [hk] at hexact
      exact (Int.natCast_inj.mp hexact).ge
    · have htwo : 2 * e ≤ n * e := Nat.mul_le_mul_right e (by omega)
      omega
  refine ⟨t / e, ?_, Nat.div_pos hone hepos, ?_, ?_⟩
  · rw [← Int.natCast_mul, hk]
    rfl
  · exact Nat.div_le_of_le_mul (hle.trans_eq (Nat.mul_comm n e))
  · have hround : t < (t / e + 1) * e := by
      rw [Nat.add_mul, Nat.one_mul]
      exact Nat.lt_div_mul_add hepos
    apply Nat.lt_of_mul_lt_mul_right (a := e)
    calc n * (2 ^ 15 - 1) * e = n * e * 2 ^ 15 - n * e := by
          rw [Nat.mul_right_comm, Nat.mul_sub, Nat.mul_one]
      _ ≤ t * 2 ^ 15 := by omega
      _ < (t / e + 1) * e * 2 ^ 15 := Nat.mul_lt_mul_of_pos_right hround (by norm_num)
      _ = (t / e + 1) * 2 ^ 15 * e := Nat.mul_right_comm _ _ _

section Chain

variable {γ ε : Type}

/-- The target before rounding: that of the last header, or at the end of a cycle the adjusted
one. -/
inductive Required (last : PovBaseHeader) (m : ℤ) : Prop
  | keep (hcycle : (last.height + 1).toNat % povChainTargetCycle ≠ 0)
      (hm : m = getNormTargetInt last)
  | adjust (hcycle : (last.height + 1).toNat % povChainTargetCycle = 0) (span : ℕ)
      (hlow : povChainRetargetTimespan / 4 ≤ span) (hhigh : span ≤ povChainRetargetTimespan * 4)
      (hm : m = min (getNormTargetInt last * span / povChainRetargetTimespan) povPowLimitInt)

variable {pv : PovVerifier γ ε} {last : ChainHeader}

theorem calcNextRequiredTarget_spec {version : UInt32} {bits : UInt32}
    (h : pv.calcNextRequiredTarget last version = some bits) :
    ∃ m, Required last.toPovBaseHeader m ∧
      bits = bigToCompact (m * getAlgoEfficiency version) := by
  unfold PovVerifier.calcNextRequiredTarget at h
  split_ifs at h with hcycle
  · exact ⟨_, .keep hcycle rfl, (Option.some.inj h).symm⟩
  · cases hfirst : pv.relativeAncestor last (povChainTargetCycle - 1) with
    | none =>
      rw [hfirst] at h
      cases h
    | some first =>
      rw [hfirst] at h
      refine ⟨_, .adjust (not_not.mp hcycle) _ ?_ ?_ rfl, (Option.some.inj h).symm⟩
      · exact le_min (le_max_right _ _) (by decide)
      · exact min_le_right _ _

theorem verifyTarget_eq_ok {block : PovBlock}
    (hlast : pv.getHeaderByHash block.header.basHdr.previous = some last) :
    pv.verifyTarget block = .ok () ↔
      pv.calcNextRequiredTarget last block.header.basHdr.version =
          some block.header.basHdr.bits ∧
        (hashToBig (pv.computePowHash block) : ℤ) ≤ compactToBig block.header.basHdr.bits := by
  unfold PovVerifier.verifyTarget
  simp only [hlast]
  cases pv.calcNextRequiredTarget last block.header.basHdr.version with
  | none =>
    apply iff_of_false
    · rintro ⟨⟩
    · rintro ⟨⟨⟩, -⟩
  | some expected => simp only [Result.seq_eq_ok, Halt.require_eq_ok, Option.some.injEq]

/-- The headers of the chains on which every proof of work meets `powOk`. -/
inductive OnChain (γ ε : Type) (powOk : Hash → Prop) (genesis : PovBaseHeader) :
    PovBaseHeader → Prop
  | genesis : OnChain γ ε powOk genesis genesis
  | next {pv : PovVerifier γ ε} {block : PovBlock} {last : ChainHeader}
      (h : OnChain γ ε powOk genesis last.toPovBaseHeader)
      (hlast : pv.getHeaderByHash block.header.basHdr.previous = some last)
      (hok : pv.verifyTarget block = .ok ()) (hpow : powOk (pv.computePowHash block)) :
      OnChain γ ε powOk genesis block.header.basHdr

/-- The version, the bits and the height of the genesis block are those of the main network. -/
def povGenesisHeader : PovBaseHeader where
  version := 0
  previous := 0
  merkleRoot := 0x0ca279bf861acd7acb33bbc6c44471185ea88f4fad36fb3f973423b73aa9aa07
  timestamp := 1575590409
  bits := 486604799
  nonce := 1908745832
  hash := 0x92bafc7a0079ffd173c1228bbeb2bf95285df578bf1c7a9b5881b1a500000000
  height := 0

theorem getNormTargetInt_genesis : getNormTargetInt povGenesisHeader = 65535 * 2 ^ 208 := by
  decide +kernel

theorem Required.bounds {last : PovBaseHeader} {m : ℤ} (h : Required last m)
    (hn : getNormTargetInt last = n) (hlimit : n < 2 ^ 224) :
    ∃ k : ℕ, m = k ∧ k < 2 ^ 224 ∧ n < 4 * (k + 1) ∧ k ≤ 4 * n ∧
      ((last.height + 1).toNat % povChainTargetCycle ≠ 0 → k = n) := by
  cases h with
  | keep hcycle hm => exact ⟨n, hm.trans hn, hlimit, by omega, by omega, fun _ => rfl⟩
  | adjust hcycle span hlow hhigh hm =>
    have hspan : n * span / povChainRetargetTimespan ≤ 4 * n := by
      apply Nat.div_le_of_le_mul
      calc n * span ≤ n * (povChainRetargetTimespan * 4) := Nat.mul_le_mul_left n hhigh
        _ = povChainRetargetTimespan * (4 * n) := by ring
    have hquarter : n / 4 ≤ n * span / povChainRetargetTimespan := by
      calc n / 4 = n * (povChainRetargetTimespan / 4) / povChainRetargetTimespan := by
            unfold povChainRetargetTimespan povChainTargetCycle
            omega
        _ ≤ _ := Nat.div_le_div_right (Nat.mul_le_mul_left n hlow)
    refine ⟨min (n * span / povChainRetargetTimespan) (2 ^ 224 - 1), ?_, by omega, by omega,
      by omega, fun hne => absurd hcycle hne⟩
    rw [hm, hn]
    unfold povPowLimitInt
    push_cast
    rfl

/-- An accepted header carries a required target of the header before it; if its proof of work is
not zero, neither is that target. -/
theorem verifyTarget_carried {block : PovBlock}
    (hlast : pv.getHeaderByHash block.header.basHdr.previous = some last)
    (hok : pv.verifyTarget block = .ok ()) (hn : getNormTargetInt last.toPovBaseHeader = n)
    (hlimit : n < 2 ^ 224) :
    ∃ k : ℕ, getNormTargetInt block.header.basHdr = carried k block.header.basHdr.version ∧
      k < 2 ^ 224 ∧ n < 4 * (k + 1) ∧ k ≤ 4 * n ∧
      (hashToBig (pv.computePowHash block) ≠ 0 → 0 < k) := by
  obtain ⟨hnext, hpow⟩ := (verifyTarget_eq_ok hlast).mp hok
  obtain ⟨m, hm, hbits⟩ := calcNextRequiredTarget_spec hnext
  obtain ⟨k, rfl, hk, hquarter, hfour, -⟩ := hm.bounds hn hlimit
  refine ⟨k, ?_, hk, hquarter, hfour, fun hne => ?_⟩
  · rw [getNormTargetInt, hbits, carried]
  · apply Nat.pos_of_ne_zero
    rintro rfl
    have hzero : compactToBig block.header.basHdr.bits = 0 := by
      rw [hbits]
      simp [bigToCompact, compactToBig]
    rw [hzero] at hpow
    omega

theorem OnChain.normTarget {hd : PovBaseHeader}
    (h : OnChain γ ε (fun powHash => hashToBig powHash ≠ 0) povGenesisHeader hd) :
    ∃ n : ℕ, getNormTargetInt hd = n ∧ 0 < n ∧ n < 2 ^ 224 := by
  induction h with
  | genesis => exact ⟨65535 * 2 ^ 208, getNormTargetInt_genesis, by decide, by decide⟩
  | next h hlast hok hpow ih =>
    obtain ⟨n, hn, hpos, hlimit⟩ := ih
    obtain ⟨k, hcarried, hk, -, -, hkpos⟩ := verifyTarget_carried hlast hok hn hlimit
    obtain ⟨r, hr, hrpos, hle, -⟩ := carried_spec (hkpos hpow) hk _
    exact ⟨r, hcarried.trans hr, hrpos, hle.trans_lt hk⟩

/-- On a chain without a zero proof of work the normalised target is positive and within the limit;
and the next header after a cycle carries, up to the rounding of its compact form, a target between
a quarter and four times the last. -/
theorem normTarget_in_bounds {hd : PovBaseHeader}
    (h : OnChain γ ε (fun powHash => hashToBig powHash ≠ 0) povGenesisHeader hd) :
    (0 < getNormTargetInt hd ∧ getNormTargetInt hd ≤ povPowLimitInt) ∧
      ∀ (pv : PovVerifier γ ε) (block : PovBlock) (last : ChainHeader),
        last.toPovBaseHeader = hd →
        pv.getHeaderByHash block.header.basHdr.previous = some last →
        pv.verifyTarget block = .ok () → hashToBig (pv.computePowHash block) ≠ 0 →
        (hd.height + 1).toNat % povChainTargetCycle = 0 →
        ∃ m, getNormTargetInt hd < 4 * (m + 1) ∧ m ≤ 4 * getNormTargetInt hd ∧
          getNormTargetInt block.header.basHdr ≤ m ∧
          m * (2 ^ 15 - 1) < (getNormTargetInt block.header.basHdr + 1) * 2 ^ 15 := by
  obtain ⟨n, hn, hpos, hlimit⟩ := h.normTarget
  refine ⟨?_, ?_⟩
  · rw [hn, povPowLimitInt]
    omega
  rintro pv block last rfl hlast hok hpow -
  obtain ⟨k, hcarried, hk, hquarter, hfour, hkpos⟩ := verifyTarget_carried hlast hok hn hlimit
  obtain ⟨r, hr, -, hle, hround⟩ := carried_spec (hkpos hpow) hk block.header.basHdr.version
  refine ⟨k, ?_⟩
  rw [hn, hcarried, hr]
  omega

end Chain

/-! ## Chains built on one hash -/

def constantVerifier (powHash : Hash) (last : ChainHeader) : PovVerifier Unit Unit where
  sha256d := fun _ => powHash
  scrypt := fun _ => powHash
  x11 := fun _ => powHash
  hashData := fun _ => 0
  now := 0
  genesisHash := 0
  mode := .pow
  minerPledge := 0
  getHeaderByHash := fun _ => some last
  relativeAncestor := fun _ _ => some last
  getStateBlockConfirmed := fun _ => none
  hasTrie := fun _ => false
  newStateDB := fun _ => { accounts := ∅, reps := ∅, contracts := () }
  getCurHash := fun _ => 0
  updateContractState := fun _ _ _ => .ok ()

def quickBlock (last : PovBaseHeader) (bits : UInt32) : PovBlock where
  header := { basHdr := { last with version := 0, bits, height := last.height + 1 }
              auxHdr := none
              cbTx := none }
  txs := []

theorem carried_exists (hlimit : n < 2 ^ 224) (version : UInt32) :
    ∃ r : ℕ, carried n version = r ∧ r ≤ n ∧ (0 < n → 0 < r) := by
  rcases Nat.eq_zero_or_pos n with rfl | hpos
  · exact ⟨0, carried_zero version, le_rfl, id⟩
  · obtain ⟨r, hr, hrpos, hle, -⟩ := carried_spec hpos hlimit version
    exact ⟨r, hr, hle, fun _ => hrpos⟩

/-- On the header of a chain another one can be built without any time passing, if the hash is zero,
or one and the target above three. -/
theorem exists_quickBlock (powOk : Hash → Prop) (powHash : Hash) (hpow : powOk powHash)
    {hd : PovBaseHeader} (h : OnChain Unit Unit powOk povGenesisHeader hd)
    (hn : getNormTargetInt hd = n) (hlimit : n < 2 ^ 224)
    (hreach : hashToBig powHash = 0 ∨ hashToBig powHash = 1 ∧ 4 ≤ n) :
    ∃ next, OnChain Unit Unit powOk povGenesisHeader next ∧ next.height = hd.height + 1 ∧
      ∃ r : ℕ, getNormTargetInt next = r ∧ r ≤ n ∧
        ((hd.height + 1).toNat % povChainTargetCycle = 0 → r ≤ n / 4) := by
  set last : ChainHeader := { hd with stateHash := 0 } with hlast
  set pv := constantVerifier powHash last with hpv
  -- Without time passing the target is kept, or divided by four.
  obtain ⟨k, hk, hle, hquarter, hkpos⟩ : ∃ k : ℕ,
      pv.calcNextRequiredTarget last 0 = some (bigToCompact (k * getAlgoEfficiency 0)) ∧ k ≤ n ∧
      ((hd.height + 1).toNat % povChainTargetCycle = 0 → k ≤ n / 4) ∧ (4 ≤ n → 0 < k) := by
    unfold PovVerifier.calcNextRequiredTarget
    by_cases hcycle : (hd.height + 1).toNat % povChainTargetCycle = 0
    · refine ⟨n / 4, ?_, by omega, fun _ => le_rfl, by omega⟩
      have hspan : min (max (if hd.timestamp < hd.timestamp then
          hd.timestamp.toNat - hd.timestamp.toNat else 1) (povChainRetargetTimespan / 4))
          (povChainRetargetTimespan * 4) = 300 := by
        rw [if_neg (UInt32.lt_irrefl hd.timestamp)]
        decide
      have hquarter : min ((n : ℤ) * (300 : ℕ) / povChainRetargetTimespan) povPowLimitInt =
          (n / 4 : ℕ) := by
        unfold povChainRetargetTimespan povChainTargetCycle povPowLimitInt
        omega
      rw [if_neg (not_not.mpr hcycle)]
      simp only [hpv, constantVerifier, hlast, hspan, hn, hquarter]
    · refine ⟨n, ?_, le_rfl, fun hzero => absurd hzero hcycle, by omega⟩
      rw [if_pos hcycle]
      exact congrArg (fun t : ℤ => some (bigToCompact (t * getAlgoEfficiency 0))) hn
  obtain ⟨r, hr, hrle, hrpos⟩ := carried_exists (hle.trans_lt hlimit) 0
  set block := quickBlock hd (bigToCompact (k * getAlgoEfficiency 0)) with hblock
  have hnorm : getNormTargetInt block.header.basHdr = r := hr
  have hprev : pv.getHeaderByHash block.header.basHdr.previous = some last := rfl
  have halgo : getAlgoType 0 = algoSha256d := by decide
  have hhash : pv.computePowHash block = powHash := if_pos halgo
  have hok : pv.verifyTarget block = .ok () := by
    rw [verifyTarget_eq_ok hprev, hhash]
    refine ⟨hk, ?_⟩
    have hvalue : compactToBig block.header.basHdr.bits = r := (Int.ediv_one _).symm.trans hr
    rw [hvalue]
    omega
  exact ⟨_, .next h hprev hok (hhash.symm ▸ hpow), rfl, r, hnorm, hrle.trans hle,
    fun hcycle => hrle.trans (hquarter hcycle)⟩

theorem normTarget_in_bounds_after_genesis :
    ∃ next, OnChain Unit Unit (fun powHash => hashToBig powHash ≠ 0) povGenesisHeader next ∧
      next.height = 1 ∧ 0 < getNormTargetInt next ∧ getNormTargetInt next ≤ povPowLimitInt := by
  have hone : hashToBig (1 <<< 248) = 1 := by decide +kernel
  have hpow : hashToBig (1 <<< 248) ≠ 0 := by omega
  obtain ⟨next, hnext, hheight, -⟩ :=
    exists_quickBlock (fun powHash => hashToBig powHash ≠ 0) (1 <<< 248) hpow .genesis
      getNormTargetInt_genesis (by decide) (Or.inr ⟨hone, by decide⟩)
  exact ⟨next, hnext, hheight, (normTarget_in_bounds hnext).1⟩

/-- With a zero hash at every height the target is divided by four at the end of each cycle, and
after 113 cycles it is zero. -/
theorem normTarget_reaches_zero :
    ∃ hd, OnChain Unit Unit (fun _ => True) povGenesisHeader hd ∧ getNormTargetInt hd = 0 := by
  have hsteps : ∀ k ≤ 2260, ∃ hd, OnChain Unit Unit (fun _ => True) povGenesisHeader hd ∧
      hd.height.toNat = k ∧ ∃ n : ℕ, getNormTargetInt hd = n ∧ n * 4 ^ (k / 20) < 2 ^ 224 := by
    intro k hk
    induction k with
    | zero =>
      exact ⟨_, .genesis, rfl, 65535 * 2 ^ 208, getNormTargetInt_genesis, by decide⟩
    | succ k ih =>
      obtain ⟨hd, h, hheight, n, hn, hbound⟩ := ih (by omega)
      have hlimit : n < 2 ^ 224 := (Nat.le_mul_of_pos_right n (by positivity)).trans_lt hbound
      obtain ⟨next, hnext, hnextheight, r, hr, hle, hquarter⟩ :=
        exists_quickBlock (fun _ => True) 0 trivial h hn hlimit (Or.inl (by decide +kernel))
      have hsucc : (hd.height + 1).toNat = k + 1 := by
        rw [UInt64.toNat_add, hheight]
        change (k + 1) % 2 ^ 64 = k + 1
        exact Nat.mod_eq_of_lt (by omega)
      refine ⟨next, hnext, hnextheight ▸ hsucc, r, hr, ?_⟩
      rw [hsucc, povChainTargetCycle] at hquarter
      by_cases hcycle : (k + 1) % 20 = 0
      · rw [show (k + 1) / 20 = k / 20 + 1 by omega, pow_succ]
        calc r * (4 ^ (k / 20) * 4) ≤ n / 4 * (4 ^ (k / 20) * 4) :=
              Nat.mul_le_mul_right _ (hquarter hcycle)
          _ = n / 4 * 4 * 4 ^ (k / 20) := by ring
          _ ≤ n * 4 ^ (k / 20) := Nat.mul_le_mul_right _ (Nat.div_mul_le_self n 4)
          _ < 2 ^ 224 := hbound
      · rw [show (k + 1) / 20 = k / 20 by omega]
        exact (Nat.mul_le_mul_right _ hle).trans_lt hbound
  obtain ⟨hd, h, -, n, hn, hbound⟩ := hsteps 2260 (by omega)
  have hzero : n = 0 := by
    by_contra hne
    have hlarge : 2 ^ 224 ≤ 1 * 4 ^ (2260 / 20) := by decide
    have hle : 1 * 4 ^ (2260 / 20) ≤ n * 4 ^ (2260 / 20) :=
      Nat.mul_le_mul_right _ (Nat.pos_of_ne_zero hne)
    omega
  exact ⟨hd, h, by rw [hn, hzero]; rfl⟩

end GoQlc.Pov.Wire
