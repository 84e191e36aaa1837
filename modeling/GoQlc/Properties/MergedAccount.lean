import GoQlc.Vm.Contract

/-!
# The merged view of an account

`GetAccountMeta` merges what the unconfirmed cache and the confirmed table know of an account.
-/

namespace GoQlc

open Config AccountMeta List Option TokenMeta

namespace AccountMeta

def coins (am : AccountMeta) : ℕ × ℕ × ℕ × ℕ × ℕ :=
  (am.getBalance, am.getVote, am.getNetwork, am.getOracle, am.getStorage)

def OneEach (am : AccountMeta) : Prop := (am.tokens.map type).Nodup

instance (am : AccountMeta) : Decidable am.OneEach := inferInstanceAs (Decidable (List.Nodup _))

theorem updateToken_congr {f g : TokenMeta → TokenMeta} {type : Hash}
    (h : ∀ tm, tm.type = type → f tm = g tm) (tms : List TokenMeta) :
    updateToken f type tms = updateToken g type tms := by
  induction tms with
  | nil => rfl
  | cons tm tms ih =>
    unfold updateToken
    split_ifs with htype
    · rw [h tm htype]
    · rw [ih]

def headOf (v tm : TokenMeta) : TokenMeta := { v with type := tm.type }

theorem headOf_type (v tm : TokenMeta) : (headOf v tm).type = tm.type := rfl

theorem headOf_of_type_eq {v tm : TokenMeta} (h : tm.type = v.type) : headOf v tm = v := by
  rw [headOf, h]

theorem updateToken_const (v : TokenMeta) (tms : List TokenMeta) :
    updateToken (fun _ => v) v.type tms = updateToken (headOf v) v.type tms :=
  updateToken_congr (fun _ htype => (headOf_of_type_eq htype).symm) tms

end AccountMeta

def furtherMeta : Option TokenMeta → Option TokenMeta → Option TokenMeta
  | some c, some v => if c.blockCount < v.blockCount then some v else some c
  | some c, none => some c
  | none, v => v

def chainTokenSide (cached confirmed : Option AccountMeta) : Option AccountMeta :=
  match cached.bind (token · chainToken), confirmed.bind (token · chainToken)
    with
  | some c, some v => if c.blockCount < v.blockCount then confirmed else cached
  | some _, none => cached
  | none, some _ => confirmed
  | none, none => none

/-- The merged view: one head for each token of either side, the further one, and the coin fields
of the side that has the further head of the chain token. -/
structure Merged (cached confirmed : Option AccountMeta) (am : AccountMeta) : Prop where
  oneEach : am.OneEach
  tokens : ∀ t, am.token t =
    furtherMeta (cached.bind (token · t)) (confirmed.bind (token · t))
  coins : ∀ side, chainTokenSide cached confirmed = some side → am.coins = side.coins

namespace Ledger

variable {confirmed am : AccountMeta} {v : TokenMeta}

def mergeToken (confirmed : AccountMeta) (v : TokenMeta) (am : AccountMeta) : AccountMeta :=
  match am.token v.type with
  | some temp =>
    if temp.blockCount < v.blockCount then
      let am := { am with tokens := updateToken (fun _ => v) v.type am.tokens }
      if v.type = chainToken then
        { am with
          coinBalance := some confirmed.getBalance, coinOracle := some confirmed.getOracle
          coinNetwork := some confirmed.getNetwork, coinVote := some confirmed.getVote
          coinStorage := some confirmed.getStorage }
      else am
    else am
  | none => { am with tokens := am.tokens ++ [v] }

theorem mergeTokens_cons (vs : List TokenMeta) :
    mergeTokens confirmed (v :: vs) am = mergeTokens confirmed vs (mergeToken confirmed v am) := rfl

theorem mergeToken_tokens :
    (mergeToken confirmed v am).tokens =
      match am.token v.type with
      | some temp =>
        if temp.blockCount < v.blockCount then
          updateToken (headOf v) v.type am.tokens
        else am.tokens
      | none => am.tokens ++ [v] := by
  unfold mergeToken
  cases am.token v.type with
  | none => rfl
  | some temp =>
    dsimp only
    split_ifs
    · exact updateToken_const v am.tokens
    · exact updateToken_const v am.tokens
    · rfl

theorem token_mergeToken (t : Hash) :
    (mergeToken confirmed v am).token t =
      if t = v.type then furtherMeta (am.token t) (some v) else am.token t := by
  unfold token
  rw [mergeToken_tokens]
  unfold token
  by_cases ht : t = v.type
  · subst ht
    rw [if_pos rfl]
    cases hfind : am.tokens.find? fun tm => tm.type == v.type with
    | none => simp [hfind, furtherMeta]
    | some temp =>
      have htype : temp.type = v.type := by simpa using List.find?_some hfind
      dsimp only [furtherMeta]
      split_ifs
      · rw [find_updateToken (headOf_type v), if_pos rfl, hfind,
          map_some, headOf_of_type_eq htype]
      · exact hfind
  · rw [if_neg ht]
    have hne : ¬ v.type = t := fun h => ht h.symm
    cases am.tokens.find? fun tm => tm.type == v.type with
    | none => simp [hne]
    | some temp =>
      dsimp only
      split_ifs
      · rw [find_updateToken (headOf_type v), if_neg ht]
      · rfl

theorem oneEach_mergeToken (h : am.OneEach) : (mergeToken confirmed v am).OneEach := by
  unfold AccountMeta.OneEach at *
  rw [mergeToken_tokens]
  cases hfind : am.token v.type with
  | none =>
    have hnew : v.type ∉ am.tokens.map type := by
      intro hmem
      obtain ⟨tm, htm, htype⟩ := mem_map.mp hmem
      have := List.find?_eq_none.mp hfind tm htm
      simp [htype] at this
    rw [map_append, map_singleton]
    exact nodup_append.mpr ⟨h, nodup_singleton _, fun t ht t' ht' heq =>
      hnew (by rwa [← mem_singleton.mp ht', ← heq])⟩
  | some temp =>
    dsimp only
    split_ifs
    · rwa [map_type_updateToken (headOf_type v)]
    · exact h

def Replaces (am : AccountMeta) (v : TokenMeta) : Prop :=
  v.type = chainToken ∧ ∃ temp, am.token chainToken = some temp ∧ temp.blockCount < v.blockCount

instance (am : AccountMeta) (v : TokenMeta) : Decidable (Replaces am v) :=
  inferInstanceAs (Decidable (_ ∧ _))

theorem coins_mergeToken :
    (mergeToken confirmed v am).coins = if Replaces am v then confirmed.coins else am.coins := by
  unfold mergeToken
  cases hfind : am.token v.type with
  | none =>
    have hno : ¬ Replaces am v := by
      rintro ⟨htype, temp, htemp, -⟩
      rw [← htype, hfind] at htemp
      cases htemp
    rw [if_neg hno]
    rfl
  | some temp =>
    dsimp only
    by_cases hcount : temp.blockCount < v.blockCount
    · by_cases htype : v.type = chainToken
      · have hyes : Replaces am v := ⟨htype, temp, htype ▸ hfind, hcount⟩
        rw [if_pos hyes, if_pos hcount, if_pos htype]
        rfl
      · have hno : ¬ Replaces am v := fun h => htype h.1
        rw [if_neg hno, if_pos hcount, if_neg htype]
        rfl
    · have hno : ¬ Replaces am v := by
        rintro ⟨htype, temp', htemp', hcount'⟩
        rw [← htype, hfind] at htemp'
        cases htemp'
        exact hcount hcount'
      rw [if_neg hno, if_neg hcount]

/-! ### All confirmed heads -/

theorem token_mergeTokens {vs : List TokenMeta} (hvs : (vs.map type).Nodup) (t : Hash) :
    (mergeTokens confirmed vs am).token t =
      furtherMeta (am.token t) (vs.find? fun tm => tm.type == t) := by
  induction vs generalizing am with
  | nil =>
    rw [List.find?_nil, mergeTokens]
    cases am.token t <;> rfl
  | cons v vs ih =>
    rw [map_cons, nodup_cons] at hvs
    rw [mergeTokens_cons, ih hvs.2, token_mergeToken]
    by_cases ht : t = v.type
    · have hrest : vs.find? (fun tm => tm.type == t) = none := by
        refine List.find?_eq_none.mpr fun tm htm hmatch => hvs.1 ?_
        rw [← ht, ← beq_iff_eq.mp hmatch]
        exact mem_map_of_mem htm
      rw [if_pos ht, hrest, List.find?_cons_of_pos (by simp [ht])]
      cases furtherMeta (am.token t) (some v) <;> rfl
    · rw [if_neg ht, List.find?_cons_of_neg (by simpa using fun h => ht h.symm)]

theorem oneEach_mergeTokens (vs : List TokenMeta) (h : am.OneEach) :
    (mergeTokens confirmed vs am).OneEach := by
  induction vs generalizing am with
  | nil => exact h
  | cons v vs ih => exact ih (oneEach_mergeToken h)

theorem coins_mergeTokens {vs : List TokenMeta} (hvs : (vs.map type).Nodup) :
    (mergeTokens confirmed vs am).coins =
      if ∃ v, (vs.find? fun tm => tm.type == chainToken) = some v ∧ Replaces am v then
        confirmed.coins
      else am.coins := by
  induction vs generalizing am with
  | nil => simp [mergeTokens]
  | cons v vs ih =>
    rw [map_cons, nodup_cons] at hvs
    rw [mergeTokens_cons, ih hvs.2, coins_mergeToken]
    by_cases htype : v.type = chainToken
    · have hrest : vs.find? (fun tm => tm.type == chainToken) = none := by
        refine List.find?_eq_none.mpr fun tm htm hmatch => hvs.1 ?_
        rw [htype, ← beq_iff_eq.mp hmatch]
        exact mem_map_of_mem htm
      rw [hrest, List.find?_cons_of_pos (by simp [htype])]
      simp
    · have hkeep : (mergeToken confirmed v am).token chainToken = am.token chainToken := by
        rw [token_mergeToken, if_neg fun h => htype h.symm]
      have hno : ¬ Replaces am v := fun h => htype h.1
      rw [List.find?_cons_of_neg (by simpa using htype), if_neg hno]
      exact if_congr (by simp only [Replaces, hkeep]) rfl rfl

/-- What the merge leaves to be asked: where only the confirmed side has a head of the chain token,
the coin fields of the two sides agree. -/
def CoinsAgree (cached confirmed : Option AccountMeta) : Prop :=
  ∀ c k, cached = some c → confirmed = some k → (c.token chainToken).isNone →
    (k.token chainToken).isSome → c.coins = k.coins

theorem getAccountMeta_merged_iff (l : Ledger) (v : View) (address : Address)
    (hcached : ∀ c, v.accountCache address = some c → c.OneEach)
    (hconfirmed : ∀ k, l.getAccountMetaConfirmed address = some k → k.OneEach)
    {am : AccountMeta} (h : l.getAccountMeta v address = some am) :
    Merged (v.accountCache address) (l.getAccountMetaConfirmed address) am ↔
      CoinsAgree (v.accountCache address) (l.getAccountMetaConfirmed address) := by
  unfold getAccountMeta at h
  cases hc : v.accountCache address with
  | none =>
    cases hk : l.getAccountMetaConfirmed address with
    | none => simp [hc, hk] at h
    | some k =>
      simp only [hc, hk, Option.some.injEq] at h
      subst h
      refine ⟨fun _ c k hc => (by cases hc), fun _ => ⟨hconfirmed k hk, fun t => rfl, ?_⟩⟩
      intro side hside
      unfold chainTokenSide at hside
      cases htoken : k.token chainToken with
      | none => simp [htoken] at hside
      | some tm =>
        simp only [bind_none, bind_some, htoken, Option.some.injEq] at hside
        rw [hside]
  | some c =>
    cases hk : l.getAccountMetaConfirmed address with
    | none =>
      simp only [hc, hk, Option.some.injEq] at h
      subst h
      refine ⟨fun _ c k _ hk => (by cases hk), fun _ => ⟨hcached c hc, fun t => ?_, ?_⟩⟩
      · simp only [bind_some, bind_none]
        cases c.token t <;> rfl
      · intro side hside
        unfold chainTokenSide at hside
        cases htoken : c.token chainToken with
        | none => simp [htoken] at hside
        | some tm =>
          simp only [bind_none, bind_some, htoken, Option.some.injEq] at hside
          rw [hside]
    | some k =>
      simp only [hc, hk, Option.some.injEq] at h
      subst h
      have hone := hconfirmed k hk
      have htokens : ∀ t, (mergeTokens k k.tokens c).token t =
          furtherMeta (c.token t) (k.token t) := token_mergeTokens hone
      have hcoins : (mergeTokens k k.tokens c).coins =
          if ∃ v, k.token chainToken = some v ∧ Replaces c v then k.coins else c.coins :=
        coins_mergeTokens hone
      have hmerged : Merged (some c) (some k) (mergeTokens k k.tokens c) ↔
          ∀ side, chainTokenSide (some c) (some k) = some side →
            (mergeTokens k k.tokens c).coins = side.coins :=
        ⟨fun h => h.coins, fun h => ⟨oneEach_mergeTokens k.tokens (hcached c hc), htokens, h⟩⟩
      rw [hmerged]
      unfold chainTokenSide CoinsAgree
      -- by which side has a head of the chain token
      cases hkt : k.token chainToken with
      | none =>
        rw [hcoins, if_neg (by simp [hkt])]
        cases hct : c.token chainToken <;> simp [hct, hkt]
      | some tm =>
        have htype := token_type hkt
        cases hct : c.token chainToken with
        | none =>
          rw [hcoins, if_neg (by simp [Replaces, hct])]
          simp [hct, hkt]
        | some temp =>
          by_cases hcount : temp.blockCount < tm.blockCount
          · rw [hcoins, if_pos ⟨tm, hkt, htype, temp, hct, hcount⟩]
            simp [hct, hkt, hcount]
          · rw [hcoins, if_neg (by simp [Replaces, hct, hkt, hcount])]
            simp [hct, hkt, hcount]

/-! ### Two views -/

def sampleMeta (type : Hash) (blockCount balance : ℕ) : TokenMeta where
  type := type
  header := 0
  representative := 0
  openBlock := 0
  balance := balance
  belongTo := genesisAddress
  blockCount := blockCount

def sampleConfirmed : AccountMeta where
  address := genesisAddress
  coinBalance := some 5
  tokens := [sampleMeta chainToken 2 5]

def sampleLedger : Ledger where
  accounts := Table.put ∅ genesisAddress sampleConfirmed

def sampleView (cached : AccountMeta) : View where
  blockCache := fun _ => none
  accountCache := fun _ => some cached
  latestPovHeight := none
  hasPovHeader := fun _ => false
  hasSmartContractBlock := fun _ => false
  timeNow := 0

def cachedBehind : AccountMeta where
  address := genesisAddress
  coinBalance := some 9
  tokens := [sampleMeta chainToken 1 9, sampleMeta gasToken 1 1]

def cachedGas : AccountMeta where
  address := genesisAddress
  tokens := [sampleMeta gasToken 1 1]

def mergedBehind : AccountMeta where
  address := genesisAddress
  coinBalance := some 5
  coinVote := some 0
  coinNetwork := some 0
  coinStorage := some 0
  coinOracle := some 0
  tokens := [sampleMeta chainToken 2 5, sampleMeta gasToken 1 1]

def mergedGas : AccountMeta where
  address := genesisAddress
  tokens := [sampleMeta gasToken 1 1, sampleMeta chainToken 2 5]

theorem getAccountMeta_merged_behind :
    Merged (some cachedBehind) (some sampleConfirmed) mergedBehind := by
  have hfacts : sampleLedger.getAccountMetaConfirmed genesisAddress = some sampleConfirmed ∧
      sampleLedger.getAccountMeta (sampleView cachedBehind) genesisAddress = some mergedBehind ∧
      cachedBehind.OneEach ∧ sampleConfirmed.OneEach ∧
      (cachedBehind.token chainToken).isNone = false := by
    decide +kernel
  obtain ⟨hconfirmed, hget, hcached, hone, hchain⟩ := hfacts
  have hmerged := getAccountMeta_merged_iff sampleLedger (sampleView cachedBehind) genesisAddress
    (fun c hc => (Option.some.inj hc) ▸ hcached)
    (fun k hk => (Option.some.inj (hconfirmed.symm.trans hk)) ▸ hone) hget
  rw [hconfirmed] at hmerged
  refine hmerged.mpr fun c k hc _ hnone => ?_
  cases hc
  rw [hchain] at hnone
  cases hnone

/-- The merged account has the confirmed head of the chain token and none of its coins. -/
theorem getAccountMeta_loses_coins :
    sampleLedger.getAccountMetaConfirmed genesisAddress = some sampleConfirmed ∧
    sampleLedger.getAccountMeta (sampleView cachedGas) genesisAddress = some mergedGas ∧
    chainTokenSide (some cachedGas) (some sampleConfirmed) = some sampleConfirmed ∧
    mergedGas.token chainToken = sampleConfirmed.token chainToken ∧
    mergedGas.coins = (0, 0, 0, 0, 0) ∧ sampleConfirmed.coins = (5, 0, 0, 0, 0) := by
  decide +kernel

end Ledger
end GoQlc
