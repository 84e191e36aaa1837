import GoQlc.Lib.Result
import GoQlc.Process.Check

/-!
# What acceptance means

One specification for each validator: the exact condition under which it passes.
-/

namespace GoQlc.Env

open Config Result Ledger StateBlock VmContext

variable {env : Env} {v : View} {l : Ledger} {b : StateBlock}

theorem errorP_ne_ok {α : Type} {r : ProcessResult} {d : Option CheckDetail} {a : α} :
    errorP r d ≠ .ok a := by
  intro h
  cases h

theorem hasStateBlockConfirmed_eq_false {h : Hash} :
    l.hasStateBlockConfirmed h = false ↔ l.blocks.get h = none := by
  simp [hasStateBlockConfirmed]

variable {c : Option Contract} {input : StateBlock}

theorem checkWorkSign_ok :
    env.checkWorkSign b c = .ok () ↔
      (needsWork c = true → b.isValid env.toCrypto = true) ∧
      (needsSignature c = true → b.isSigned env.toCrypto = true) := by
  unfold checkWorkSign errorP
  simp only [ite_error_eq_ok, Bool.and_eq_true, Bool.not_eq_true', not_and, Bool.not_eq_false,
    and_true]

theorem baseInfo_ok :
    env.baseInfo l b = .ok () ↔
      l.blocks.get (b.getHash env.hashData) = none ∧
      (isHiddenContract b ∨
        ¬ isHiddenContract b ∧ ∃ c, env.descriptorOf l b = .ok c ∧ env.checkWorkSign b c = .ok ()) := by
  unfold baseInfo errorP
  rw [ite_error_eq_ok, Bool.not_eq_true, hasStateBlockConfirmed_eq_false]
  refine and_congr_right fun _ => ?_
  by_cases hh : isHiddenContract b
  · simp [hh]
  · simp [hh, bind_eq_ok]

def FollowsHeader (env : Env) (l : Ledger) (b previous : StateBlock) : Prop :=
  ∀ tm, l.getTokenMetaConfirmed b.address b.token = some tm →
    previous.getHash env.hashData = tm.header

theorem forkPrevious_ok :
    env.forkPrevious l b = .ok () ↔
      ∃ previous, l.blocks.get b.previous = some previous ∧ env.FollowsHeader l b previous := by
  unfold forkPrevious FollowsHeader getStateBlockConfirmed errorP
  cases hp : l.blocks.get b.previous with
  | none => simp
  | some previous =>
    cases ht : l.getTokenMetaConfirmed b.address b.token with
    | none => simp
    | some tm => simp

theorem forkOpen_ok :
    forkOpen l b = .ok () ↔ l.getTokenMetaConfirmed b.address b.token = none := by
  unfold forkOpen errorP
  cases l.getTokenMetaConfirmed b.address b.token <;> simp

theorem pendingReceive_ok :
    pendingReceive l b = .ok () ↔
      ∃ previous pending tm, l.blocks.get b.previous = some previous ∧
        l.getPending (pendingKeyOf b) = some pending ∧
        l.getTokenMetaConfirmed b.address b.token = some tm ∧
        pending.amount = Balance.sub b.balance tm.balance ∧ pending.type = b.token ∧
        sameWeights previous b := by
  unfold pendingReceive getStateBlockConfirmed errorP
  cases hp : l.blocks.get b.previous with
  | none => simp
  | some previous =>
    cases hq : l.getPending (pendingKeyOf b) with
    | none => simp
    | some pending =>
      cases ht : l.getTokenMetaConfirmed b.address b.token with
      | none => simp
      | some tm => simp [ite_error_eq_ok, and_assoc]

theorem pendingOpen_ok :
    pendingOpen l b = .ok () ↔
      ∃ pending, l.getPending (pendingKeyOf b) = some pending ∧
        pending.amount = b.balance ∧ pending.type = b.token ∧
        b.getVote = 0 ∧ b.getNetwork = 0 ∧ b.getStorage = 0 ∧ b.getOracle = 0 := by
  unfold pendingOpen errorP
  cases hq : l.getPending (pendingKeyOf b) with
  | none => simp
  | some pending => simp [ite_error_eq_ok, and_assoc]

theorem balance_send_ok (ht : b.type = .send) :
    balance l b = .ok () ↔
      ∃ previous, l.blocks.get b.previous = some previous ∧
        b.balance < previous.balance ∧ sameWeights previous b := by
  unfold balance getStateBlockConfirmed errorP
  rw [ht]
  cases hp : l.blocks.get b.previous with
  | none => simp
  | some previous => simp [ite_error_eq_ok]

theorem balance_contractSend_ok (ht : b.type = .contractSend) :
    balance l b = .ok () ↔
      ∃ previous, l.blocks.get b.previous = some previous ∧
        b.totalBalance ≤ previous.totalBalance := by
  unfold balance getStateBlockConfirmed errorP
  rw [ht]
  cases hp : l.blocks.get b.previous with
  | none => simp
  | some previous => simp

theorem balance_change_ok (ht : b.type = .change ∨ b.type = .online) :
    balance l b = .ok () ↔
      ∃ previous, l.blocks.get b.previous = some previous ∧
        b.balance = previous.balance ∧ sameWeights previous b := by
  unfold balance getStateBlockConfirmed errorP
  cases hp : l.blocks.get b.previous with
  | none => rcases ht with ht | ht <;> simp [ht]
  | some previous =>
    by_cases hb : b.balance = previous.balance <;> rcases ht with ht | ht <;> simp [ht, hb]

theorem source_ok (ht : b.type = .receive ∨ b.type = .open_) :
    source l b = .ok () ↔ ∃ send, l.blocks.get b.link = some send := by
  unfold source errorP
  cases hs : l.blocks.get b.link <;>
    rcases ht with ht | ht <;> simp [ht, hs, hasStateBlockConfirmed]

def SendProduces (c : Contract) (ctx : VmContext) (block : StateBlock) (data : Bytes) : Prop :=
  (c.describe.specVer = 1 ∧ c.doSend ctx block = .ok data) ∨
  (c.describe.specVer = 2 ∧ c.doGap ctx block = .ok .noGap ∧
    (c.processSend ctx block).data = data ∧ ∃ r, (c.processSend ctx block).result = .ok r)

theorem checkSendData_ok {c : Contract} :
    env.checkSendData v l b c = .ok () ↔
      ∃ ctx data, newVMContextWithBlock v l b = some ctx ∧
        SendProduces c ctx b.clone data ∧ env.equalFold b.data data = true := by
  unfold checkSendData SendProduces errorP
  cases hctx : newVMContextWithBlock v l b with
  | none => simp
  | some ctx =>
    match hver : c.describe.specVer with
    | 0 => simp
    | 1 => cases hsend : c.doSend ctx b.clone <;> simp [hsend]
    | 2 =>
      match hgap : c.doGap ctx b.clone, hres : (c.processSend ctx b.clone).result with
      | .error _, _ => simp [hgap]
      | .ok .rewardGapPov, _ => simp [hgap]
      | .ok .dpkiGapPublish, _ => simp [hgap]
      | .ok .doDOrderState, _ => simp [hgap]
      | .ok .noGap, .error _ | .ok .noGap, .ok (_, _) => simp [hgap, hres]
    | n + 3 => simp

theorem checkContractSendBlock_ok (hv : b.isHidden = false) :
    env.checkContractSendBlock v l b = .ok () ↔
      ∃ c, env.getChainContract b.link b.getPayload = some c ∧
        env.checkSendData v l b c = .ok () := by
  have hchain : ∀ c, env.getChainContract b.link b.getPayload = some c →
      env.isChainContract b.link = true := by
    intro c hc
    obtain ⟨lookup, hlookup, -⟩ := Option.bind_eq_some_iff.mp hc
    simp [isChainContract, hlookup]
  unfold checkContractSendBlock errorP
  cases hc : env.getChainContract b.link b.getPayload with
  | none => simp [hv, ite_error_eq_ok]
  | some c => simp [hv, hchain c hc]

def RewardProduces (env : Env) (v : View) (l : Ledger) (b input : StateBlock) (g : ContractBlock) :
    Prop :=
  ∃ c ctx gs, env.getChainContract input.link input.getPayload = some c ∧
    newVMContextWithBlock v l b = some ctx ∧
    c.doReceive ctx b.clone input = .ok (g :: gs)

theorem RewardProduces.unique {g g' : ContractBlock} (h : env.RewardProduces v l b input g)
    (h' : env.RewardProduces v l b input g') : g = g' := by
  obtain ⟨c, ctx, gs, hc, hctx, hg⟩ := h
  obtain ⟨c', ctx', gs', hc', hctx', hg'⟩ := h'
  obtain rfl : c = c' := Option.some.inj (hc.symm.trans hc')
  obtain rfl : ctx = ctx' := Option.some.inj (hctx.symm.trans hctx')
  exact (List.cons.inj (Except.ok.inj (hg.symm.trans hg'))).1

theorem checkContractReward_ok :
    env.checkContractReward v l b = .ok () ↔
      ∃ input, l.blocks.get b.link = some input ∧
        (input.isHidden = true ∨ input.isHidden = false ∧
          ∃ g amount, env.RewardProduces v l b input g ∧
            l.calculateAmount env.toCrypto v b = some amount ∧
            env.equalFold g.block.data b.data = true ∧ g.token = b.token ∧
            g.amount = amount ∧ g.toAddress = b.address) := by
  unfold checkContractReward RewardProduces getStateBlockConfirmed errorP
  cases hi : l.blocks.get b.link with
  | none => simp
  | some input =>
    cases hh : input.isHidden with
    | true => simp [hh]
    | false =>
      cases hc : env.getChainContract input.link input.getPayload with
      | none => simp [hh, hc]
      | some c =>
        cases hctx : newVMContextWithBlock v l b with
        | none => simp [hh, hc]
        | some ctx =>
          match hr : c.doReceive ctx b.clone input with
          | .error e | .ok [] => simp [hh, hc, hr]
          | .ok (g :: gs) =>
            cases ha : l.calculateAmount env.toCrypto v b with
            | none => simp [hh, hc, hr]
            | some amount =>
              simp only [hh, hc, hr, Option.some.injEq, Bool.false_eq_true, if_false, ite_ok_eq_ok,
                and_true]
              constructor
              · rintro ⟨hdata, htoken, hamount, hto⟩
                exact ⟨input, rfl, .inr ⟨hh, g, amount, ⟨c, ctx, gs, hc, rfl, hr⟩, rfl, hdata,
                  htoken, hamount, hto⟩⟩
              · rintro ⟨_, rfl, hhid | ⟨-, g', _, ⟨c', _, gs', hc', rfl, hr'⟩, rfl, hdata, hrest⟩⟩
                · rw [hh] at hhid
                  cases hhid
                · obtain rfl : c = c' := Option.some.inj (hc.symm.trans hc')
                  obtain ⟨rfl, -⟩ := List.cons.inj (Except.ok.inj (hr.symm.trans hr'))
                  exact ⟨hdata, hrest⟩

/-! ## Acceptance by block type -/

theorem exists_get_and {h : Hash} {p q : StateBlock → Prop} :
    (∃ x, l.blocks.get h = some x ∧ p x) ∧ (∃ x, l.blocks.get h = some x ∧ q x) ↔
      ∃ x, l.blocks.get h = some x ∧ p x ∧ q x := by
  constructor
  · rintro ⟨⟨x, hx, hp⟩, y, hy, hq⟩
    obtain rfl : x = y := Option.some.inj (hx.symm.trans hy)
    exact ⟨x, hx, hp, hq⟩
  · rintro ⟨x, hx, hp, hq⟩
    exact ⟨⟨x, hx, hp⟩, x, hx, hq⟩

theorem send_ok (ht : b.type = .send) :
    env.checkByType v l b = .ok () ↔
      env.baseInfo l b = .ok () ∧
      ∃ previous, l.blocks.get b.previous = some previous ∧ env.FollowsHeader l b previous ∧
        b.balance < previous.balance ∧ sameWeights previous b := by
  have hfork : env.fork l b = env.forkPrevious l b := by rw [fork, ht]
  have hcheck : env.checkByType v l b = env.sendBlockCheck l b := by rw [checkByType, ht]
  rw [hcheck, sendBlockCheck, seq_eq_ok, seq_eq_ok, hfork, forkPrevious_ok, balance_send_ok ht,
    exists_get_and]

theorem change_ok (ht : b.type = .change ∨ b.type = .online) :
    env.checkByType v l b = .ok () ↔
      b.link = 0 ∧ b.token = chainToken ∧ env.baseInfo l b = .ok () ∧
      ∃ previous, l.blocks.get b.previous = some previous ∧ env.FollowsHeader l b previous ∧
        b.balance = previous.balance ∧ sameWeights previous b := by
  have hfork : env.fork l b = env.forkPrevious l b := by rcases ht with ht | ht <;> rw [fork, ht]
  have hcheck : env.checkByType v l b = env.changeBlockCheck l b := by
    rcases ht with ht | ht <;> rw [checkByType, ht]
    rfl
  rw [hcheck, changeBlockCheck, errorP, errorP, ite_error_eq_ok, ite_error_eq_ok, not_not, not_not,
    seq_eq_ok, seq_eq_ok, hfork, forkPrevious_ok, balance_change_ok ht, exists_get_and]

theorem receive_ok (ht : b.type = .receive) :
    env.checkByType v l b = .ok () ↔
      env.baseInfo l b = .ok () ∧ (∃ send, l.blocks.get b.link = some send) ∧
      ∃ previous pending tm, l.blocks.get b.previous = some previous ∧
        l.getPending (pendingKeyOf b) = some pending ∧
        l.getTokenMetaConfirmed b.address b.token = some tm ∧
        previous.getHash env.hashData = tm.header ∧
        pending.amount = Balance.sub b.balance tm.balance ∧ pending.type = b.token ∧
        sameWeights previous b := by
  have hfork : env.fork l b = env.forkPrevious l b := by rw [fork, ht]
  have hpending : env.pending l b = pendingReceive l b := by rw [pending, ht]
  have hcheck : env.checkByType v l b = env.receiveBlockCheck l b := by rw [checkByType, ht]
  rw [hcheck, receiveBlockCheck, seq_eq_ok, seq_eq_ok, seq_eq_ok, hfork, hpending,
    source_ok (.inl ht), forkPrevious_ok, pendingReceive_ok]
  constructor
  · rintro ⟨hbase, ⟨prev, hprev, hfollows⟩, hsource, prev', p, tm, hprev', hp, htm, hrest⟩
    obtain rfl : prev = prev' := Option.some.inj (hprev.symm.trans hprev')
    exact ⟨hbase, hsource, prev, p, tm, hprev, hp, htm, hfollows tm htm, hrest⟩
  · rintro ⟨hbase, hsource, prev, p, tm, hprev, hp, htm, hhead, hrest⟩
    refine ⟨hbase, ⟨prev, hprev, ?_⟩, hsource, prev, p, tm, hprev, hp, htm, hrest⟩
    intro tm' htm'
    obtain rfl : tm = tm' := Option.some.inj (htm.symm.trans htm')
    exact hhead

theorem open_ok (ht : b.type = .open_) :
    env.checkByType v l b = .ok () ↔
      b.previous = 0 ∧ env.baseInfo l b = .ok () ∧ (∃ send, l.blocks.get b.link = some send) ∧
      l.getTokenMetaConfirmed b.address b.token = none ∧
      ∃ pending, l.getPending (pendingKeyOf b) = some pending ∧
        pending.amount = b.balance ∧ pending.type = b.token ∧
        b.getVote = 0 ∧ b.getNetwork = 0 ∧ b.getStorage = 0 ∧ b.getOracle = 0 := by
  have hfork : env.fork l b = forkOpen l b := by rw [fork, ht]
  have hpending : env.pending l b = pendingOpen l b := by rw [pending, ht]
  have hcheck : env.checkByType v l b = env.openBlockCheck l b := by rw [checkByType, ht]
  rw [hcheck, openBlockCheck, errorP, ite_error_eq_ok, not_not, seq_eq_ok, seq_eq_ok, seq_eq_ok,
    hfork, hpending, source_ok (.inr ht), forkOpen_ok, pendingOpen_ok]

theorem contractSend_ok (ht : b.type = .contractSend) (hgen : env.isGenesisBlock b = false) :
    env.checkByType v l b = .ok () ↔
      env.baseInfo l b = .ok () ∧
      (∃ previous, l.blocks.get b.previous = some previous ∧ env.FollowsHeader l b previous ∧
        b.totalBalance ≤ previous.totalBalance) ∧
      (b.isHidden = true ∨ b.isHidden = false ∧
        ∃ c, env.getChainContract b.link b.getPayload = some c ∧
          env.checkSendData v l b c = .ok ()) := by
  have hfork : env.fork l b = env.forkPrevious l b := by rw [fork, ht]
  have hcontract : env.contract v l b = .ok () ↔
      b.isHidden = true ∨ b.isHidden = false ∧
        ∃ c, env.getChainContract b.link b.getPayload = some c ∧
          env.checkSendData v l b c = .ok () := by
    cases hh : b.isHidden with
    | true => simp [contract, hh]
    | false => simp [contract, hh, ht, checkContractSendBlock_ok hh]
  have hcheck : env.checkByType v l b = env.contractSendBlockCheck v l b := by rw [checkByType, ht]
  rw [hcheck, contractSendBlockCheck, if_neg (by simp [hgen]), seq_eq_ok, seq_eq_ok, seq_eq_ok,
    hfork, forkPrevious_ok, balance_contractSend_ok ht, hcontract, ← exists_get_and]
  tauto

def RewardFork (env : Env) (l : Ledger) (b : StateBlock) : Prop :=
  (b.previous = 0 ∧ l.getTokenMetaConfirmed b.address b.token = none) ∨
  (b.previous ≠ 0 ∧
    ∃ previous, l.blocks.get b.previous = some previous ∧ env.FollowsHeader l b previous)

theorem fork_reward_ok (ht : b.type = .contractReward) :
    env.fork l b = .ok () ↔ env.RewardFork l b := by
  have hopen : b.isOpen = true ↔ b.previous = 0 := by simp [StateBlock.isOpen]
  simp only [fork, ht, hopen]
  by_cases h0 : b.previous = 0
  · rw [if_pos h0, forkOpen_ok, RewardFork]
    simp only [h0, true_and, ne_eq, not_true_eq_false, false_and, or_false]
  · rw [if_neg h0, forkPrevious_ok, RewardFork]
    simp only [h0, ne_eq, false_and, not_false_eq_true, true_and, false_or]

theorem contractReward_ok (ht : b.type = .contractReward) (hgen : env.isGenesisBlock b = false) :
    env.checkByType v l b = .ok () ↔
      env.baseInfo l b = .ok () ∧ env.RewardFork l b ∧
      env.checkContractPending l b = .ok () ∧
      (b.isHidden = true ∨ b.isHidden = false ∧ env.checkContractReward v l b = .ok ()) := by
  have hpending : env.pending l b = env.checkContractPending l b := by rw [pending, ht]
  have hsource : source l b = .ok () := by rw [source, ht]
  have hcontract : env.contract v l b = .ok () ↔
      b.isHidden = true ∨ b.isHidden = false ∧ env.checkContractReward v l b = .ok () := by
    cases hh : b.isHidden with
    | true => simp [contract, hh]
    | false => simp [contract, hh, ht]
  have hcheck : env.checkByType v l b = env.contractReceiveBlockCheck v l b := by
    rw [checkByType, ht]
  rw [hcheck, contractReceiveBlockCheck, if_neg (by simp [hgen]), seq_eq_ok, seq_eq_ok, seq_eq_ok,
    seq_eq_ok, fork_reward_ok ht, hpending, hcontract]
  simp only [hsource, true_and]

/-! ## The exemption list -/

def Exempt (env : Env) (v : View) (l : Ledger) (b : StateBlock) : Prop :=
  env.isVerifiedData (b.getHash env.hashData) = true ∧
    ∃ e, env.checkByType v l b = .error e ∧ e.result = .unReceivable

theorem blockCheck_ok :
    env.blockCheck v l b = .ok () ↔ env.checkByType v l b = .ok () ∨ env.Exempt v l b := by
  unfold blockCheck Exempt
  cases hc : env.checkByType v l b with
  | ok u => simp
  | error e =>
    simp only [reduceCtorEq, false_or, Except.error.injEq]
    by_cases he : e.result = .unReceivable ∧ env.isVerifiedData (b.getHash env.hashData) = true
    · rw [if_pos he]
      simp [he.1, he.2]
    · rw [if_neg he]
      simp only [reduceCtorEq, false_iff]
      rintro ⟨hv, _, rfl, hu⟩
      exact he ⟨hu, hv⟩

theorem blockCheck_ok_of_not_verified (hv : env.isVerifiedData (b.getHash env.hashData) = false) :
    env.blockCheck v l b = .ok () ↔ env.checkByType v l b = .ok () := by
  rw [blockCheck_ok, or_iff_left]
  rintro ⟨hv', -⟩
  rw [hv] at hv'
  cases hv'

variable {e : CheckError}

theorem checkWorkSign_error (h : env.checkWorkSign b c = .error e) : e.result ≠ .unReceivable := by
  unfold checkWorkSign errorP at h
  split_ifs at h <;> cases h <;> simp

theorem descriptorOf_error (h : env.descriptorOf l b = .error e) : e.result ≠ .unReceivable := by
  unfold descriptorOf errorP at h
  split at h <;> try cases h
  split at h <;> cases h
  simp

theorem baseInfo_error (h : env.baseInfo l b = .error e) : e.result ≠ .unReceivable := by
  unfold baseInfo errorP at h
  split_ifs at h
  · cases h
    simp
  · cases hd : env.descriptorOf l b with
    | error e' =>
      rw [hd] at h
      cases h
      exact descriptorOf_error hd
    | ok c =>
      rw [hd] at h
      exact checkWorkSign_error h

theorem checkByType_of_baseInfo_error (hgen : env.isGenesisBlock b = false)
    (h : env.baseInfo l b = .error e) :
    ∃ e', env.checkByType v l b = .error e' ∧ e'.result ≠ .unReceivable := by
  have hne := baseInfo_error h
  have hseq : ∀ {α : Type} (k : Unit → CheckM α), (env.baseInfo l b >>= k) = .error e := by
    intro α k
    rw [h]
    rfl
  unfold checkByType
  cases ht : b.type with
  | send | receive => exact ⟨e, hseq _, hne⟩
  | contractSend | contractReward =>
    have hguard : ¬ env.isGenesisBlock b = true := by simp [hgen]
    exact ⟨e, (if_neg hguard).trans (hseq _), hne⟩
  | open_ =>
    by_cases h0 : b.previous = 0
    · exact ⟨e, (if_neg (not_not.mpr h0)).trans (hseq _), hne⟩
    · exact ⟨_, if_pos h0, by simp⟩
  | change | online =>
    by_cases h0 : b.link = 0
    · by_cases h1 : b.token = chainToken
      · exact ⟨e, (if_neg (not_not.mpr h0)).trans ((if_neg (not_not.mpr h1)).trans (hseq _)), hne⟩
      · exact ⟨_, (if_neg (not_not.mpr h0)).trans (if_pos h1), by simp⟩
    · exact ⟨_, if_pos h0, by simp⟩
  | state | contractRefund | contractError | smartContract | invalid =>
    exact ⟨_, rfl, by simp⟩

theorem baseInfo_of_blockCheck (hgen : env.isGenesisBlock b = false)
    (h : env.blockCheck v l b = .ok ()) : env.baseInfo l b = .ok () := by
  cases hbase : env.baseInfo l b with
  | ok u => rfl
  | error e =>
    obtain ⟨e', he', hne⟩ := checkByType_of_baseInfo_error (v := v) hgen hbase
    rcases blockCheck_ok.mp h with hok | ⟨-, e'', he'', hu⟩
    · rw [he'] at hok
      cases hok
    · obtain rfl : e' = e'' := Except.error.inj (he'.symm.trans he'')
      exact absurd hu hne

theorem fresh_of_blockCheck (hgen : env.isGenesisBlock b = false)
    (h : env.blockCheck v l b = .ok ()) : l.blocks.get (b.getHash env.hashData) = none :=
  (baseInfo_ok.mp (baseInfo_of_blockCheck hgen h)).1

theorem readable_reward_ok (ht : b.type = .contractReward) (hgen : env.isGenesisBlock b = false)
    (hvis : b.isHidden = false) (hinput : l.blocks.get b.link = some input)
    (hin : input.isHidden = false) (h : env.checkByType v l b = .ok ()) :
    ∃ g amount, env.RewardProduces v l b input g ∧
      l.calculateAmount env.toCrypto v b = some amount ∧
      env.equalFold g.block.data b.data = true ∧ g.token = b.token ∧
      g.amount = amount ∧ g.toAddress = b.address := by
  obtain ⟨-, -, -, hcontract⟩ := (contractReward_ok ht hgen).mp h
  rcases hcontract with hhid | ⟨-, hreward⟩
  · rw [hvis] at hhid
    cases hhid
  · obtain ⟨input', hinput', hrest⟩ := checkContractReward_ok.mp hreward
    obtain rfl : input = input' := Option.some.inj (hinput.symm.trans hinput')
    rcases hrest with hhid | ⟨-, hrest⟩
    · rw [hin] at hhid
      cases hhid
    · exact hrest

/-! ### Only a missing pending makes a block unreceivable -/

theorem forkPrevious_error (h : env.forkPrevious l b = .error e) : e.result ≠ .unReceivable := by
  unfold forkPrevious errorP at h
  split at h
  · cases h
    simp
  · split at h
    · cases h
    · simp only [] at h
      split_ifs at h
      cases h
      simp

theorem forkOpen_error (h : forkOpen l b = .error e) : e.result ≠ .unReceivable := by
  unfold forkOpen errorP at h
  split at h <;> cases h
  simp

theorem fork_error (h : env.fork l b = .error e) : e.result ≠ .unReceivable := by
  unfold fork errorP at h
  split at h
  iterate 5 exact forkPrevious_error h
  · exact forkOpen_error h
  · split_ifs at h
    · exact forkOpen_error h
    · exact forkPrevious_error h
  · cases h
    simp

theorem balance_error (h : balance l b = .error e) : e.result ≠ .unReceivable := by
  unfold balance errorP at h
  split at h <;> first
    | (split at h <;> first
        | (split_ifs at h <;> cases h <;> simp)
        | (cases h; simp))
    | (cases h; simp)

theorem source_error (h : source l b = .error e) : e.result ≠ .unReceivable := by
  unfold source errorP at h
  split at h
  iterate 2
    · split_ifs at h
      cases h
      simp
  · cases h
  · cases h
    simp

theorem checkSendData_error {c : Contract} (h : env.checkSendData v l b c = .error e) :
    e.result ≠ .unReceivable := by
  unfold checkSendData errorP at h
  simp only [] at h
  split at h
  · cases h
    simp
  · split at h
    · split at h
      · cases h
        simp
      · split_ifs at h
        cases h
        simp
    · split at h
      iterate 4
        · cases h
          simp
      · split at h
        · cases h
          simp
        · split_ifs at h
          cases h
          simp
    · cases h
      simp

theorem checkContractReward_error (h : env.checkContractReward v l b = .error e) :
    e.result ≠ .unReceivable := by
  unfold checkContractReward errorP at h
  split at h
  · cases h
    simp
  · split_ifs at h
    split at h
    · cases h
      simp
    · split at h
      · cases h
        simp
      · split at h
        · cases h
          unfold doReceiveError
          split_ifs <;> simp
        · cases h
          simp
        · split at h
          · cases h
            simp
          · split_ifs at h
            cases h
            simp

theorem contract_error (h : env.contract v l b = .error e) : e.result ≠ .unReceivable := by
  unfold contract errorP at h
  split_ifs at h
  split at h
  · unfold checkContractSendBlock errorP at h
    split_ifs at h
    · cases h
      simp
    · split at h
      · cases h
        simp
      · exact checkSendData_error h
  · exact checkContractReward_error h
  · cases h
    simp

theorem pending_error (h : env.pending l b = .error e) (hu : e.result = .unReceivable) :
    l.getPending (pendingKeyOf b) = none := by
  unfold pending errorP at h
  split at h
  · unfold pendingReceive errorP at h
    split at h
    · cases h
      simp at hu
    · split at h
      · assumption
      · split at h
        · cases h
          simp at hu
        · simp only [] at h
          split_ifs at h <;> cases h <;> simp at hu
  · unfold pendingOpen errorP at h
    split at h
    · assumption
    · split_ifs at h <;> cases h <;> simp at hu
  · unfold checkContractPending errorP at h
    split at h
    · cases h
      simp at hu
    · split_ifs at h
      split at h
      · cases h
        simp at hu
      · split_ifs at h with hcond
        simpa using (Bool.and_eq_true_iff.mp hcond).2
  · cases h
    simp at hu

theorem getPending_of_exempt (h : env.Exempt v l b) :
    b.isReceiveBlock = true ∧ l.getPending (pendingKeyOf b) = none := by
  obtain ⟨-, e, he, hu⟩ := h
  unfold checkByType at he
  cases ht : b.type with
  | send =>
    simp only [ht, sendBlockCheck, seq_eq_error] at he
    rcases he with he | ⟨-, he | ⟨-, he⟩⟩
    · exact absurd hu (baseInfo_error he)
    · exact absurd hu (fork_error he)
    · exact absurd hu (balance_error he)
  | receive =>
    simp only [ht, receiveBlockCheck, seq_eq_error] at he
    rcases he with he | ⟨-, he | ⟨-, he | ⟨-, he⟩⟩⟩
    · exact absurd hu (baseInfo_error he)
    · exact absurd hu (fork_error he)
    · exact absurd hu (source_error he)
    · exact ⟨by simp [isReceiveBlock, ht], pending_error he hu⟩
  | open_ =>
    simp only [ht, openBlockCheck, errorP] at he
    split_ifs at he
    · cases he
      simp at hu
    · simp only [seq_eq_error] at he
      rcases he with he | ⟨-, he | ⟨-, he | ⟨-, he⟩⟩⟩
      · exact absurd hu (baseInfo_error he)
      · exact absurd hu (source_error he)
      · exact absurd hu (fork_error he)
      · exact ⟨by simp [isReceiveBlock, ht], pending_error he hu⟩
  | change | online =>
    simp only [ht, onlineBlockCheck, changeBlockCheck, errorP] at he
    split_ifs at he
    · cases he
      simp at hu
    · cases he
      simp at hu
    · simp only [seq_eq_error] at he
      rcases he with he | ⟨-, he | ⟨-, he⟩⟩
      · exact absurd hu (baseInfo_error he)
      · exact absurd hu (fork_error he)
      · exact absurd hu (balance_error he)
  | contractSend =>
    simp only [ht, contractSendBlockCheck] at he
    split_ifs at he
    simp only [seq_eq_error] at he
    rcases he with he | ⟨-, he | ⟨-, he | ⟨-, he⟩⟩⟩
    · exact absurd hu (baseInfo_error he)
    · exact absurd hu (fork_error he)
    · exact absurd hu (balance_error he)
    · exact absurd hu (contract_error he)
  | contractReward =>
    simp only [ht, contractReceiveBlockCheck] at he
    split_ifs at he
    simp only [seq_eq_error] at he
    rcases he with he | ⟨-, he | ⟨-, he | ⟨-, he | ⟨-, he⟩⟩⟩⟩
    · exact absurd hu (baseInfo_error he)
    · exact absurd hu (fork_error he)
    · exact ⟨by simp [isReceiveBlock, ht], pending_error he hu⟩
    · exact absurd hu (source_error he)
    · exact absurd hu (contract_error he)
  | state | contractRefund | contractError | smartContract | invalid =>
    simp only [ht, errorP] at he
    cases he
    simp at hu

end GoQlc.Env
