import GoQlc.Pov.Contracts

/-!
# Contract calls that depend on the chain alone

A hook sees more than the chain: an oracle call looks for its publication in the ledger when the PoV
state has none, and a verifier state is serialised in the order in which the runtime visits a map.
-/

namespace GoQlc.Pov

open PublicKeyDistribution List PovContracts PovMethod Table

/-! ## Maps of one type -/

def OneType (types : List OracleType) : Prop := ∀ t ∈ types, ∀ t' ∈ types, t = t'

theorem OneType.mono {types types' : List OracleType} (h : OneType types)
    (hsub : ∀ t ∈ types', t ∈ types) : OneType types' := by
  intro t ht t' ht'
  exact h t (hsub t ht) t' (hsub t' ht')

theorem mem_keys_put (active : Table OracleType ℕ) (type t : OracleType) (height : ℕ) :
    t ∈ (active.put type height).keys ↔ t = type ∨ t ∈ active.keys := AList.mem_insert active

theorem mem_keys_setActive (height : ℕ) (vTypes : List UInt32) (active : Table OracleType ℕ)
    (t : OracleType) :
    t ∈ (setActive height vTypes active).keys ↔
      t ∈ vTypes.map oracleTypeToString ++ active.keys := by
  induction vTypes generalizing active with
  | nil => rfl
  | cons ht vTypes ih =>
    change t ∈ (setActive height vTypes (active.put (oracleTypeToString ht) height)).keys ↔ _
    rw [ih, mem_append, mem_keys_put, map_cons, cons_append, mem_cons,
      mem_append]
    tauto

theorem visit_eq (order : MapOrder) (a : Address) {active : Table OracleType ℕ}
    (h : OneType active.keys) : order.visit a active = active := by
  have hperm := order.perm a active
  apply AList.ext
  obtain ⟨entries, hnodup⟩ := active
  match entries with
  | [] => exact hperm.eq_nil
  | [e] => exact hperm.eq_singleton
  | e :: e' :: rest =>
    have hsame : e.1 = e'.1 := h e.1 (by simp [AList.keys]) e'.1 (by simp [AList.keys])
    simp [List.NodupKeys, List.keys, hsame] at hnodup

def backwards (active : Table OracleType ℕ) : Table OracleType ℕ :=
  ⟨active.entries.reverse, (perm_nodupKeys (reverse_perm _)).mpr active.nodupKeys⟩

theorem backwards_ne {active : Table OracleType ℕ} (h : ¬ OneType active.keys) :
    backwards active ≠ active := by
  intro heq
  apply h
  have hreverse : active.entries.reverse = active.entries := congrArg AList.entries heq
  have hnodup : active.entries.keys.Nodup := active.nodupKeys
  change OneType active.entries.keys
  generalize active.entries = entries at hreverse hnodup
  match entries with
  | [] => exact fun t ht => absurd ht not_mem_nil
  | [e] =>
    intro t ht t' ht'
    rw [mem_singleton.mp ht, mem_singleton.mp ht']
  | e :: e' :: rest =>
    -- the first entry would also be the last
    have hlast : (e :: e' :: rest).getLast (cons_ne_nil _ _) = e := by
      have := getLast_reverse (l := e :: e' :: rest) (by simp)
      simpa [hreverse] using this
    have hmem : e ∈ e' :: rest := by
      rw [← hlast, getLast_cons (cons_ne_nil e' rest)]
      exact getLast_mem _
    exact absurd (mem_map_of_mem hmem) (nodup_cons.mp hnodup).1

/-! ## Calls that depend on the chain alone -/

def PovPublishState.paid (ps : PovPublishState) (height : ℕ) (account : Address) : List Address :=
  if ps.isClosed height account then [] else (ps.count height account).2

/-- The call reads and leaves the same on every node: an oracle call has its publication in the PoV
state, and no verifier that the call writes is active under two types. -/
def Steady (b : Build) (height : ℕ) (cs : PovContracts) (block : StateBlock) : PovMethod → Prop
  | .oracle =>
    ∀ info, unpackOracle b.hashData block.data = some info →
      ∃ ps, cs.publishes.get (info.key b.sha256) = some ps ∧
        ∀ a ∈ ps.paid height block.address,
          OneType (oracleTypeToString info.oType :: (cs.getVerifierState a).activeHeight.keys)
  | .verifierHeart =>
    ∀ vTypes, unpackVerifierHeart b.hashData block.data = some vTypes →
      OneType (vTypes.map oracleTypeToString ++
        (cs.getVerifierState block.address).activeHeight.keys)
  | _ => True

theorem getVerifierState_setVerifierState (order : MapOrder) (cs : PovContracts) (a a' : Address)
    (vs : PovVerifierState) :
    (cs.setVerifierState order a vs).getVerifierState a' =
      if a' = a then { vs with activeHeight := order.visit a vs.activeHeight }
      else cs.getVerifierState a' := by
  unfold getVerifierState setVerifierState
  dsimp only
  rw [get_put]
  split_ifs with h
  · rfl
  · rfl

theorem setVerifierState_eq (order order' : MapOrder) (cs : PovContracts) (a : Address)
    {vs : PovVerifierState} (h : OneType vs.activeHeight.keys) :
    cs.setVerifierState order a vs = cs.setVerifierState order' a vs := by
  unfold setVerifierState
  rw [visit_eq order a h, visit_eq order' a h]

section
variable {type : OracleType} {height fee : ℕ}

theorem oneType_reward {vs : PovVerifierState} (h : OneType (type :: vs.activeHeight.keys)) :
    OneType (vs.reward type height fee).activeHeight.keys :=
  h.mono fun t ht => mem_cons.mpr ((mem_keys_put vs.activeHeight type t height).mp ht)

theorem rewardVerifiers_eq (order order' : MapOrder) (accounts : List Address) (cs : PovContracts)
    (h : ∀ a ∈ accounts, OneType (type :: (cs.getVerifierState a).activeHeight.keys)) :
    cs.rewardVerifiers order type height fee accounts =
      cs.rewardVerifiers order' type height fee accounts := by
  unfold rewardVerifiers
  induction accounts generalizing cs with
  | nil => rfl
  | cons a accounts ih =>
    have ha := @oneType_reward type height fee _ (h a mem_cons_self)
    rw [foldl_cons, foldl_cons, setVerifierState_eq order order' cs a ha]
    apply ih
    intro a' ha'
    rw [getVerifierState_setVerifierState]
    split_ifs with heq
    · rw [visit_eq order' a ha]
      apply (h a mem_cons_self).mono
      intro t ht
      rcases mem_cons.mp ht with rfl | ht
      · exact mem_cons_self
      · exact mem_cons.mpr ((mem_keys_put _ type t height).mp ht)
    · exact h a' (mem_cons_of_mem _ ha')

end

section
variable {b : Build} {height : ℕ} {cs : PovContracts} {block : StateBlock}

theorem countOracle_eq (order order' : MapOrder) (info : OracleInfo) (ps : PovPublishState)
    (h : ∀ a ∈ ps.paid height block.address,
      OneType (oracleTypeToString info.oType :: (cs.getVerifierState a).activeHeight.keys)) :
    countOracle b order height block cs info ps =
      countOracle b order' height block cs info ps := by
  unfold countOracle
  split_ifs with hclosed
  · rfl
  · have hpaid : ps.paid height block.address = (ps.count height block.address).2 :=
      if_neg hclosed
    rw [hpaid] at h
    exact rewardVerifiers_eq order order' _ _ h

theorem publishStateOf_eq (ctx : VmContext) {key : PublishInfoKey} {ps : PovPublishState}
    (h : cs.publishes.get key = some ps) : publishStateOf ctx cs key = some ps := by
  unfold publishStateOf
  rw [h, Option.some_or]

theorem doSendOnPov_eq {m : PovMethod} (h : Steady b height cs block m) (order order' : MapOrder)
    (ctx ctx' : VmContext) :
    m.doSendOnPov b order ctx height block cs = m.doSendOnPov b order' ctx' height block cs := by
  cases m with
  | oracle =>
    unfold doSendOnPov
    cases hcall : unpackOracle b.hashData block.data with
    | none => rfl
    | some info =>
      obtain ⟨ps, hps, hpaid⟩ := h info hcall
      unfold unpacked oracleOnPov
      dsimp only
      rw [publishStateOf_eq ctx hps, publishStateOf_eq ctx' hps]
      exact congrArg Except.ok (countOracle_eq order order' info ps hpaid)
  | verifierHeart =>
    unfold doSendOnPov
    cases hcall : unpackVerifierHeart b.hashData block.data with
    | none => rfl
    | some vTypes =>
      have hone := h vTypes hcall
      refine congrArg Except.ok (setVerifierState_eq order order' cs block.address ?_)
      exact hone.mono fun t ht => (mem_keys_setActive height vTypes _ t).mp ht
  | publish => rfl
  | adminHandOver => rfl
  | nodeUpdate => rfl
  | kycAdminHandOver => rfl
  | kycStatusUpdate => rfl
  | kycTradeAddressUpdate => rfl
  | kycOperatorUpdate => rfl

end

/-! ## Calls that do not -/

def MapOrder.avoid (active : Table OracleType ℕ) : MapOrder where
  visit _ t := if t = active then backwards t else t
  perm a t := by
    split_ifs with h
    · exact reverse_perm _
    · exact .refl _

theorem avoid_visit_ne {active : Table OracleType ℕ} (h : ¬ OneType active.keys) (a : Address)
    (t : Table OracleType ℕ) : (MapOrder.avoid active).visit a t ≠ active := by
  unfold MapOrder.avoid
  dsimp only
  split_ifs with ht
  · rw [ht]
    exact backwards_ne h
  · exact ht

section
variable (order : MapOrder) (type : OracleType) (height fee : ℕ)

theorem rewardVerifiers_cons (a : Address) (accounts : List Address) (cs : PovContracts) :
    cs.rewardVerifiers order type height fee (a :: accounts) =
      (cs.setVerifierState order a ((cs.getVerifierState a).reward type height fee)).rewardVerifiers
        order type height fee accounts := rfl

theorem rewardVerifiers_frame {a : Address} (accounts : List Address) (cs : PovContracts)
    (h : a ∉ accounts) :
    (cs.rewardVerifiers order type height fee accounts).verifiers.get a = cs.verifiers.get a := by
  induction accounts generalizing cs with
  | nil => rfl
  | cons a' accounts ih =>
    rw [mem_cons, not_or] at h
    rw [rewardVerifiers_cons, ih _ h.2]
    exact get_put_of_ne _ h.1 _

theorem exists_visit_of_rewardVerifiers {a : Address} (accounts : List Address) (cs : PovContracts)
    (h : a ∈ accounts) :
    ∃ vs active, (cs.rewardVerifiers order type height fee accounts).verifiers.get a = some vs ∧
      vs.activeHeight = order.visit a active := by
  induction accounts generalizing cs with
  | nil => exact absurd h not_mem_nil
  | cons a' accounts ih =>
    rw [rewardVerifiers_cons]
    by_cases hrest : a ∈ accounts
    · exact ih _ hrest
    · have ha : a = a' := (mem_cons.mp h).resolve_right hrest
      subst ha
      rw [rewardVerifiers_frame order type height fee accounts _ hrest]
      exact ⟨_, _, get_put_self _ _ _, rfl⟩

theorem mem_keys_rewardVerifiers {a : Address} (accounts : List Address) (cs : PovContracts)
    (h : a ∈ accounts) {t : OracleType}
    (ht : t ∈ type :: (cs.getVerifierState a).activeHeight.keys) :
    t ∈ ((cs.rewardVerifiers .keep type height fee accounts).getVerifierState a).activeHeight.keys
    := by
  induction accounts generalizing cs with
  | nil => exact absurd h not_mem_nil
  | cons a' accounts ih =>
    rw [rewardVerifiers_cons]
    have hput : t ∈ ((cs.getVerifierState a).activeHeight.put type height).keys :=
      (mem_keys_put _ type t height).mpr (mem_cons.mp ht)
    by_cases hrest : a ∈ accounts
    · apply ih _ hrest
      rw [getVerifierState_setVerifierState]
      split_ifs with ha
      · subst ha
        exact mem_cons_of_mem _ hput
      · exact ht
    · have ha : a = a' := (mem_cons.mp h).resolve_right hrest
      subst ha
      unfold getVerifierState at hput ⊢
      rw [rewardVerifiers_frame .keep type height fee accounts _ hrest]
      unfold setVerifierState
      dsimp only
      rw [get_put_self]
      exact hput

end

def Differ (r r' : Except OnPovError PovContracts) : Prop :=
  ∃ cs cs' a, r = .ok cs ∧ r' = .ok cs' ∧ cs.verifiers.get a ≠ cs'.verifiers.get a

section
variable {b : Build} {height : ℕ} {cs : PovContracts} {block : StateBlock}

theorem differ_rewardVerifiers {type : OracleType} {fee : ℕ} {accounts : List Address} {a : Address}
    (ha : a ∈ accounts) (h : ¬ OneType (type :: (cs.getVerifierState a).activeHeight.keys)) :
    ∃ order, Differ (.ok (cs.rewardVerifiers .keep type height fee accounts))
      (.ok (cs.rewardVerifiers order type height fee accounts)) := by
  obtain ⟨vs, active, hvs, hactive⟩ :=
    exists_visit_of_rewardVerifiers .keep type height fee accounts cs ha
  have hkeys : ¬ OneType vs.activeHeight.keys := by
    intro hone
    apply h
    refine hone.mono fun t ht => ?_
    have hmem := mem_keys_rewardVerifiers type height fee accounts cs ha ht
    unfold getVerifierState at hmem
    rwa [hvs, Option.getD_some] at hmem
  obtain ⟨vs', active', hvs', hactive'⟩ :=
    exists_visit_of_rewardVerifiers (.avoid vs.activeHeight) type height fee accounts cs ha
  refine ⟨.avoid vs.activeHeight, _, _, a, rfl, rfl, ?_⟩
  rw [hvs, hvs']
  intro heq
  have hsame : vs.activeHeight = vs'.activeHeight :=
    congrArg PovVerifierState.activeHeight (Option.some.inj heq)
  exact avoid_visit_ne hkeys a active' (hactive'.symm.trans hsame.symm)

theorem differ_setVerifierState {a : Address} {vs : PovVerifierState}
    (h : ¬ OneType vs.activeHeight.keys) :
    Differ (.ok (cs.setVerifierState .keep a vs))
      (.ok (cs.setVerifierState (.avoid vs.activeHeight) a vs)) := by
  refine ⟨_, _, a, rfl, rfl, ?_⟩
  unfold setVerifierState
  dsimp only
  rw [get_put_self, get_put_self]
  intro heq
  have hsame : vs.activeHeight = (MapOrder.avoid vs.activeHeight).visit a vs.activeHeight :=
    congrArg PovVerifierState.activeHeight (Option.some.inj heq)
  exact avoid_visit_ne h a _ hsame.symm

theorem of_not_steady {m : PovMethod} (h : ¬ Steady b height cs block m) :
    (m = .oracle ∧ ∃ info, unpackOracle b.hashData block.data = some info ∧
      cs.publishes.get (info.key b.sha256) = none) ∨
    ∃ order, ∀ ctx ctx', Differ (m.doSendOnPov b .keep ctx height block cs)
      (m.doSendOnPov b order ctx' height block cs) := by
  cases m with
  | oracle =>
    unfold Steady at h
    push Not at h
    obtain ⟨info, hcall, h⟩ := h
    cases hps : cs.publishes.get (info.key b.sha256) with
    | none => exact .inl ⟨rfl, info, hcall, hps⟩
    | some ps =>
      obtain ⟨a, ha, hone⟩ := h ps hps
      unfold PovPublishState.paid at ha
      by_cases hclosed : ps.isClosed height block.address
      · rw [if_pos hclosed] at ha
        exact absurd ha not_mem_nil
      · rw [if_neg hclosed] at ha
        have hmoved : ¬ OneType (oracleTypeToString info.oType ::
            ((cs.setPublishState (info.key b.sha256)
              (ps.count height block.address).1).getVerifierState a).activeHeight.keys) := hone
        obtain ⟨order, hdiffer⟩ :=
          @differ_rewardVerifiers height _ _ (ps.bonusFee / 5) _ a ha hmoved
        refine .inr ⟨order, fun ctx ctx' => ?_⟩
        unfold doSendOnPov oracleOnPov
        rw [hcall]
        unfold unpacked
        dsimp only
        rw [publishStateOf_eq ctx hps, publishStateOf_eq ctx' hps]
        unfold countOracle
        dsimp only
        rw [if_neg hclosed, if_neg hclosed]
        exact hdiffer
  | verifierHeart =>
    unfold Steady at h
    push Not at h
    obtain ⟨vTypes, hcall, hone⟩ := h
    have hkeys : ¬ OneType (setActive height vTypes
        (cs.getVerifierState block.address).activeHeight).keys := fun hall =>
      hone (hall.mono fun t ht => (mem_keys_setActive height vTypes _ t).mpr ht)
    refine .inr ⟨.avoid (setActive height vTypes (cs.getVerifierState block.address).activeHeight),
      fun ctx ctx' => ?_⟩
    unfold doSendOnPov
    rw [hcall]
    exact differ_setVerifierState hkeys
  | publish | adminHandOver | nodeUpdate | kycAdminHandOver
  | kycStatusUpdate | kycTradeAddressUpdate | kycOperatorUpdate => exact absurd trivial h

end

end GoQlc.Pov
