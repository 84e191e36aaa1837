import GoQlc.Ledger.Cache
import GoQlc.Types.Account

/-!
# The pending total of an account

The ledger keeps the sum of the pending amounts of an account and a token once it was asked for.
-/

namespace GoQlc.PendingTotals

open CachedLedger List Option Table

/-- The ledger with the batch that is open and the sums that are known, by the hash of address and
token. -/
structure State where
  ledger : CachedLedger PendingKey PendingInfo := CachedLedger.new
  batch : Cache PendingKey PendingInfo := ∅
  accountPending : Table Hash ℕ := ∅

section Model

variable (serialize : PendingInfo → Option Bytes) (deserialize : Bytes → Option PendingInfo)
  (hashPair : Address → Hash → Hash)

def updateAccountPending (totals : Table Hash ℕ) (key : PendingKey) (info : PendingInfo)
    (add : Bool) : Table Hash ℕ :=
  let th := hashPair key.address info.type
  match totals.get th with
  | some amount =>
    totals.put th (if add then Balance.add amount info.amount else Balance.sub amount info.amount)
  | none => totals

def getPending (l : CachedLedger PendingKey PendingInfo) (key : PendingKey) : Option PendingInfo :=
  match l.getObject key none with
  | .object (.object info) => some info
  | .object _ => none
  | .stored b => deserialize b
  | .keyNotFound => none

/-- Called inside a batch, like `deletePending`. -/
def State.addPending (s : State) (key : PendingKey) (value : PendingInfo) : State :=
  { s with
    batch := s.batch.put key (.value (.object value))
    accountPending := updateAccountPending hashPair s.accountPending key value true }

-- The read does not see the batch.
def State.deletePending (s : State) (key : PendingKey) : State :=
  match getPending deserialize s.ledger key with
  | some info =>
    { s with
      batch := s.batch.put key .deleteKeyTag
      accountPending := updateAccountPending hashPair s.accountPending key info false }
  | none => s

/-- The end of the batch; `none` while the write cache waits for a flush. -/
def State.commit (s : State) (intervalPassed : Bool) : Option State :=
  (s.ledger.step serialize (.batchUpdate intervalPassed s.batch)).map fun l =>
    { s with ledger := l, batch := ∅ }

def storeAmount (store : Table PendingKey Bytes) (address : Address) (token : Hash) : Option ℕ :=
  (store.entries.filter fun e => e.1.address = address).foldlM (fun sum e => do
    let info ← deserialize e.2
    return if info.type = token then Balance.add sum info.amount else sum) 0

def State.pendingAmount (s : State) (address : Address) (token : Hash) : Option (ℕ × State) :=
  match s.accountPending.get (hashPair address token) with
  | some amount => some (amount, s)
  | none =>
    (storeAmount deserialize s.ledger.store address token).map fun amount =>
      (amount, { s with accountPending := s.accountPending.put (hashPair address token) amount })

end Model

/-! ## The live entries -/

abbrev Live := Table PendingKey PendingInfo

def part (address : Address) (token : Hash) (key : PendingKey) (info : PendingInfo) : ℕ :=
  if key.address = address ∧ info.type = token then info.amount else 0

def pendingSum (live : Live) (address : Address) (token : Hash) : ℕ :=
  Table.total (part address token) live

section Runs

variable (serialize : PendingInfo → Option Bytes) (deserialize : Bytes → Option PendingInfo)
  (hashPair : Address → Hash → Hash) (used : Set (Address × Hash))

/-- What a query needs if its sum is not known: every write of the account is in the store. -/
def Settled (s : State) (address : Address) (token : Hash) : Prop :=
  s.accountPending.get (hashPair address token) = none →
    ∀ key : PendingKey, key.address = address →
      s.batch.get key = none ∧ s.ledger.cache.get key = none

/-- The runs, with the live entries. -/
inductive Reached : State → Live → Prop
  | start : Reached {} ∅
  | addPending {s : State} {live : Live} (h : Reached s live) (key : PendingKey)
      (value : PendingInfo) (hused : (key.address, value.type) ∈ used)
      (hnew : live.get key = none)
      (hsum : pendingSum live key.address value.type + value.amount < 2 ^ 64) :
      Reached (s.addPending hashPair key value) (live.put key value)
  | deletePending {s : State} {live : Live} (h : Reached s live) (key : PendingKey)
      (hbatch : s.batch.get key = none) :
      Reached (s.deletePending deserialize hashPair key) (live.delete key)
  | commit {s s' : State} {live : Live} (h : Reached s live) (intervalPassed : Bool)
      (hstep : s.commit serialize intervalPassed = some s') : Reached s' live
  | query {s s' : State} {live : Live} (h : Reached s live) (address : Address) (token : Hash)
      (hused : (address, token) ∈ used) (hsettled : Settled hashPair s address token) (amount : ℕ)
      (hstep : s.pendingAmount deserialize hashPair address token = some (amount, s')) :
      Reached s' live
  -- Flushes, timer ticks and the rebuild at the end: nothing is written.
  | flush {s : State} {live : Live} (h : Reached s live)
      (op : CachedLedger.Op PendingKey PendingInfo) (hop : ∀ key, op.item key = none)
      (l : CachedLedger PendingKey PendingInfo) (hstep : s.ledger.step serialize op = some l) :
      Reached { s with ledger := l } live
  -- The sums are in a cache that may drop them.
  | evict {s : State} {live : Live} (h : Reached s live) (th : Hash) :
      Reached { s with accountPending := s.accountPending.delete th } live

end Runs

variable {key : PendingKey}

theorem pendingSum_put {live : Live} (hnew : live.get key = none) (value : PendingInfo)
    (address : Address) (token : Hash) :
    pendingSum (live.put key value) address token =
      pendingSum live address token + part address token key value := by
  have hput := total_put_add (part address token) live key value
  rwa [weight_of_get_none hnew, Nat.add_zero] at hput

theorem pendingSum_delete {live : Live} {info : PendingInfo} (hlive : live.get key = some info)
    (address : Address) (token : Hash) :
    pendingSum (live.delete key) address token + part address token key info =
      pendingSum live address token := by
  have hdelete := total_delete_add (part address token) live key
  rwa [weight_of_get hlive] at hdelete

variable {address : Address} {token : Hash}

theorem part_of_ne {info : PendingInfo} (h : (address, token) ≠ (key.address, info.type)) :
    part address token key info = 0 := by
  apply if_neg
  rintro ⟨rfl, rfl⟩
  exact h rfl

theorem part_self (key : PendingKey) (info : PendingInfo) :
    part key.address info.type key info = info.amount := if_pos ⟨rfl, rfl⟩

section Totals

variable {hashPair : Address → Hash → Hash} {used : Set (Address × Hash)}
  {totals : Table Hash ℕ} {live : Live} {key : PendingKey} {info : PendingInfo}

def Exact (hashPair : Address → Hash → Hash) (used : Set (Address × Hash))
    (totals : Table Hash ℕ) (live : Live) : Prop :=
  ∀ address token, (address, token) ∈ used →
    ∀ amount, totals.get (hashPair address token) = some amount →
      amount = pendingSum live address token

theorem get_updateAccountPending (add : Bool) (th : Hash) :
    (updateAccountPending hashPair totals key info add).get th =
      if th = hashPair key.address info.type then
        (totals.get th).map fun amount =>
          if add then Balance.add amount info.amount else Balance.sub amount info.amount
      else totals.get th := by
  unfold updateAccountPending
  dsimp only
  cases htotal : totals.get (hashPair key.address info.type) with
  | none =>
    by_cases hth : th = hashPair key.address info.type
    · rw [if_pos hth, hth, htotal]
      rfl
    · rw [if_neg hth]
  | some amount =>
    dsimp only
    rw [get_put]
    by_cases hth : th = hashPair key.address info.type
    · rw [if_pos hth, if_pos hth, hth, htotal]
      rfl
    · rw [if_neg hth, if_neg hth]

variable (hinj : Set.InjOn (fun p : Address × Hash => hashPair p.1 p.2) used)
  (h : Exact hashPair used totals live)

include hinj h

variable (hused : (key.address, info.type) ∈ used)

include hused

theorem Exact.update {live' : Live} {add : Bool}
    (hown : (if add then Balance.add (pendingSum live key.address info.type) info.amount
      else Balance.sub (pendingSum live key.address info.type) info.amount) =
        pendingSum live' key.address info.type)
    (hother : ∀ address token, (address, token) ≠ (key.address, info.type) →
      pendingSum live' address token = pendingSum live address token) :
    Exact hashPair used (updateAccountPending hashPair totals key info add) live' := by
  intro address token hpair amount hget
  rw [get_updateAccountPending] at hget
  by_cases heq : (address, token) = (key.address, info.type)
  · obtain ⟨rfl, rfl⟩ := Prod.mk.inj heq
    rw [if_pos rfl] at hget
    obtain ⟨old, hold, rfl⟩ := map_eq_some_iff.mp hget
    rw [h _ _ hpair old hold, hown]
  · have hne : hashPair address token ≠ hashPair key.address info.type :=
      fun hcollision => heq (hinj hpair hused hcollision)
    rw [if_neg hne] at hget
    rw [hother address token heq]
    exact h _ _ hpair amount hget

theorem Exact.addPending (hnew : live.get key = none)
    (hsum : pendingSum live key.address info.type + info.amount < 2 ^ 64) :
    Exact hashPair used (updateAccountPending hashPair totals key info true)
      (live.put key info) := by
  apply h.update hinj hused
  · rw [if_pos rfl, pendingSum_put hnew, part_self, Balance.add_of_lt hsum]
  · intro address token hne
    rw [pendingSum_put hnew, part_of_ne hne, Nat.add_zero]

theorem Exact.deletePending (hlive : live.get key = some info)
    (hbelow : pendingSum live key.address info.type < 2 ^ 64) :
    Exact hashPair used (updateAccountPending hashPair totals key info false)
      (live.delete key) := by
  have hsum := pendingSum_delete hlive
  apply h.update hinj hused
  · have hown := hsum key.address info.type
    rw [part_self] at hown
    have hamount : info.amount < 2 ^ 64 := by omega
    rw [if_neg Bool.false_ne_true, Balance.sub_of_lt hbelow hamount]
    omega
  · intro address token hne
    have hother := hsum address token
    rwa [part_of_ne hne, Nat.add_zero] at hother

end Totals

section Reads

variable {serialize : PendingInfo → Option Bytes} {deserialize : Bytes → Option PendingInfo}

def Matches (item : Option (CacheItem PendingInfo)) (info : Option PendingInfo) : Prop :=
  (∃ i, item = some (.value (.object i)) ∧ info = some i) ∨
    (item = none ∨ item = some .deleteKeyTag) ∧ info = none

variable {l : CachedLedger PendingKey PendingInfo} {key : PendingKey}
  {item : Option (CacheItem PendingInfo)} {info : Option PendingInfo}
  (hround : ∀ info b, serialize info = some b → deserialize b = some info)
  (hrep : Layers.Represents (CacheItem.dumpToLevelDb serialize) l.cache.layers l.store key item)
  (hmatch : Matches item info)

include hround hrep hmatch

theorem getPending_eq : getPending deserialize l key = info := by
  have hnil : l.cache.get key ≠ some (.value .nil) := by
    intro hcache
    unfold Layers.Represents at hrep
    rw [← MemoryCache.get_eq, hcache] at hrep
    dsimp only at hrep
    rcases hmatch with ⟨i, hitem, _⟩ | ⟨hitem | hitem, _⟩ <;> simp [hitem] at hrep
  have hreturns := (reads_iff hrep).2.mpr hnil
  unfold getPending
  rcases hmatch with ⟨i, rfl, rfl⟩ | ⟨rfl | rfl, rfl⟩
  · rcases hreturns with hobject | ⟨b, hb, hstored⟩
    · rw [hobject]
    · rw [hstored]
      exact hround i b hb
  · rw [show l.getObject key none = .keyNotFound from hreturns]
  · rw [show l.getObject key none = .keyNotFound from hreturns]

theorem stored_eq (hcache : l.cache.get key = none) :
    (l.store.get key = none ∧ info = none) ∨
      ∃ b i, l.store.get key = some b ∧ deserialize b = some i ∧ info = some i := by
  unfold Layers.Represents at hrep
  rw [← MemoryCache.get_eq, hcache] at hrep
  rcases stored_cases hrep with ⟨hstore, hitem⟩ | ⟨v, b, hstore, hitem, hv⟩
  · rcases hmatch with ⟨i, hobject, _⟩ | ⟨_, hnone⟩
    · rcases hitem with hitem | hitem <;> simp [hitem] at hobject
    · exact Or.inl ⟨hstore, hnone⟩
  · rcases hmatch with ⟨i, hobject, hsome⟩ | ⟨hnone | htag, _⟩
    · rw [hitem] at hobject
      obtain rfl : v = .object i := by simpa using hobject
      exact Or.inr ⟨b, i, hstore, hround i b hv, hsome⟩
    · simp [hitem] at hnone
    · simp [hitem] at htag

omit hround hrep hmatch

def storePart (deserialize : Bytes → Option PendingInfo) (address : Address) (token : Hash)
    (key : PendingKey) (b : Bytes) : ℕ := (deserialize b).elim 0 (part address token key)

theorem foldlM_entries (address : Address) (token : Hash)
    (entries : List (Sigma fun _ : PendingKey => Bytes)) (sum : ℕ)
    (hreads : ∀ e ∈ entries, e.1.address = address → ∃ info, deserialize e.2 = some info)
    (hlt : sum + (entries.map fun e => storePart deserialize address token e.1 e.2).sum < 2 ^ 64) :
    (entries.filter fun e => e.1.address = address).foldlM (fun sum e => do
      let info ← deserialize e.2
      return if info.type = token then Balance.add sum info.amount else sum) sum =
      some (sum + (entries.map fun e => storePart deserialize address token e.1 e.2).sum) := by
  induction entries generalizing sum with
  | nil => rfl
  | cons e entries ih =>
    have hrest : ∀ e ∈ entries, e.1.address = address → ∃ info, deserialize e.2 = some info :=
      fun e he => hreads e (mem_cons_of_mem _ he)
    rw [map_cons, sum_cons] at hlt ⊢
    by_cases haddress : e.1.address = address
    · obtain ⟨info, hinfo⟩ := hreads e mem_cons_self haddress
      have hpart : storePart deserialize address token e.1 e.2 =
          if info.type = token then info.amount else 0 := by
        simp [storePart, hinfo, part, haddress]
      rw [hpart] at hlt ⊢
      have hsum : (if info.type = token then Balance.add sum info.amount else sum) =
          sum + if info.type = token then info.amount else 0 := by
        split_ifs at hlt ⊢
        · exact Balance.add_of_lt (by omega)
        · rfl
      rw [filter_cons_of_pos (by simpa using haddress), foldlM_cons, hinfo]
      change List.foldlM _ (if info.type = token then Balance.add sum info.amount else sum) _ = _
      rw [hsum, ih _ hrest (by omega), Nat.add_assoc]
    · have hpart : storePart deserialize address token e.1 e.2 = 0 := by
        cases hinfo : deserialize e.2 <;> simp [storePart, hinfo, part, haddress]
      rw [hpart, Nat.zero_add] at hlt ⊢
      rw [filter_cons_of_neg (by simpa using haddress)]
      exact ih sum hrest hlt

theorem storeAmount_eq {store : Table PendingKey Bytes}
    (hreads : ∀ key b, store.get key = some b → key.address = address →
      ∃ info, deserialize b = some info)
    (hbelow : Table.total (storePart deserialize address token) store < 2 ^ 64) :
    storeAmount deserialize store address token =
      some (Table.total (storePart deserialize address token) store) := by
  have hfold := foldlM_entries address token store.entries 0
    (fun e he => hreads e.1 e.2 (AList.mem_lookup_iff.mpr he)) (by rwa [Nat.zero_add])
  rwa [Nat.zero_add] at hfold

end Reads

section Invariant

variable {serialize : PendingInfo → Option Bytes} {deserialize : Bytes → Option PendingInfo}
  {hashPair : Address → Hash → Hash} {used : Set (Address × Hash)}
  (hinj : Set.InjOn (fun p : Address × Hash => hashPair p.1 p.2) used)
  (hround : ∀ info b, serialize info = some b → deserialize b = some info)

/-- The invariant: store, caches and the open batch hold the live entries, and the sums that are
known are exact. -/
structure Inv (serialize : PendingInfo → Option Bytes) (hashPair : Address → Hash → Hash)
    (used : Set (Address × Hash)) (s : State) (live : Live) : Prop where
  keeps : ∃ committed, CachedLedger.Keeps serialize s.ledger committed ∧
    ∀ key, Matches ((s.batch.get key).or (committed key)) (live.get key)
  pairs : ∀ key info, live.get key = some info → (key.address, info.type) ∈ used
  below : ∀ address token, pendingSum live address token < 2 ^ 64
  exact : Exact hashPair used s.accountPending live

namespace Inv

variable {s : State} {live : Live}

theorem start : Inv serialize hashPair used {} ∅ where
  keeps := by
    refine ⟨fun _ => none, ⟨new_refines, ?_⟩, ?_⟩
    · change (1 : CacheIndex) ≠ 0
      decide
    · intro key
      exact Or.inr ⟨Or.inl rfl, rfl⟩
  pairs key info h := by simp at h
  below _ _ := Nat.two_pow_pos 64
  exact address token _ amount h := by simp at h

include hinj in
theorem addPending (h : Inv serialize hashPair used s live) {value : PendingInfo}
    (hused : (key.address, value.type) ∈ used) (hnew : live.get key = none)
    (hsum : pendingSum live key.address value.type + value.amount < 2 ^ 64) :
    Inv serialize hashPair used (s.addPending hashPair key value) (live.put key value) where
  keeps := by
    obtain ⟨committed, hkeeps, hmatches⟩ := h.keeps
    refine ⟨committed, hkeeps, fun key' => ?_⟩
    change Matches (((s.batch.put key _).get key').or _) _
    rw [get_put, get_put]
    split_ifs with hkey
    · exact Or.inl ⟨value, rfl, rfl⟩
    · exact hmatches key'
  pairs key' info hget := by
    rw [get_put] at hget
    split_ifs at hget with hkey
    · cases hget
      rwa [hkey]
    · exact h.pairs key' info hget
  below address token := by
    rw [pendingSum_put hnew]
    by_cases heq : (address, token) = (key.address, value.type)
    · obtain ⟨rfl, rfl⟩ := Prod.mk.inj heq
      rwa [part_self]
    · rw [part_of_ne heq]
      exact h.below address token
  exact := h.exact.addPending hinj hused hnew hsum

include hinj hround in
theorem deletePending (h : Inv serialize hashPair used s live) (hbatch : s.batch.get key = none) :
    Inv serialize hashPair used (s.deletePending deserialize hashPair key) (live.delete key) := by
  obtain ⟨committed, hkeeps, hmatches⟩ := h.keeps
  have hread : getPending deserialize s.ledger key = live.get key := by
    have hmatch := hmatches key
    rw [hbatch, none_or] at hmatch
    exact getPending_eq hround (hkeeps.refines.represents key) hmatch
  unfold State.deletePending
  rw [hread]
  cases hlive : live.get key with
  | none =>
    -- Nothing is deleted on either side.
    have hsame : ∀ key', (live.delete key).get key' = live.get key' := by
      intro key'
      rw [get_delete]
      split_ifs with hkey
      · rw [hkey, hlive]
      · rfl
    have hsum : ∀ address token, pendingSum (live.delete key) address token =
        pendingSum live address token := by
      intro address token
      have hdelete := total_delete_add (part address token) live key
      rwa [weight_of_get_none hlive, Nat.add_zero] at hdelete
    constructor
    · exact ⟨committed, hkeeps, fun key' => by rw [hsame]; exact hmatches key'⟩
    · intro key' info hget
      exact h.pairs key' info (by rwa [hsame] at hget)
    · intro address token
      rw [hsum]
      exact h.below address token
    · intro address token hpair amount hget
      rw [hsum]
      exact h.exact address token hpair amount hget
  | some info =>
    have hused := h.pairs key info hlive
    constructor
    · refine ⟨committed, hkeeps, fun key' => ?_⟩
      dsimp only
      rw [get_put, get_delete]
      split_ifs with hkey
      · exact Or.inr ⟨Or.inr rfl, rfl⟩
      · exact hmatches key'
    · intro key' info' hget
      rw [get_delete] at hget
      split_ifs at hget with hkey
      exact h.pairs key' info' hget
    · intro address token
      have hdelete := pendingSum_delete hlive address token
      have hbelow := h.below address token
      omega
    · exact h.exact.deletePending hinj hused hlive (h.below _ _)

section
variable (h : Inv serialize hashPair used s live)

include h

theorem commit {intervalPassed : Bool} {s' : State}
    (hstep : s.commit serialize intervalPassed = some s') :
    Inv serialize hashPair used s' live := by
  obtain ⟨l, hl, rfl⟩ := map_eq_some_iff.mp hstep
  obtain ⟨committed, hkeeps, hmatches⟩ := h.keeps
  exact { h with keeps := ⟨_, hkeeps.step hl, hmatches⟩ }

theorem flush {op : CachedLedger.Op PendingKey PendingInfo} (hop : ∀ key, op.item key = none)
    {l : CachedLedger PendingKey PendingInfo} (hstep : s.ledger.step serialize op = some l) :
    Inv serialize hashPair used { s with ledger := l } live := by
  obtain ⟨committed, hkeeps, hmatches⟩ := h.keeps
  refine { h with keeps := ⟨_, hkeeps.step hstep, fun key => ?_⟩ }
  rw [hop, none_or]
  exact hmatches key

theorem evict (th : Hash) :
    Inv serialize hashPair used { s with accountPending := s.accountPending.delete th } live := by
  refine { h with exact := ?_ }
  intro address token hpair amount hget
  rw [get_delete] at hget
  split_ifs at hget with hth
  exact h.exact address token hpair amount hget

end

include hround in
theorem storeAmount (h : Inv serialize hashPair used s live) (token : Hash)
    (hstored : ∀ key : PendingKey, key.address = address →
      s.batch.get key = none ∧ s.ledger.cache.get key = none) :
    storeAmount deserialize s.ledger.store address token =
      some (pendingSum live address token) := by
  obtain ⟨committed, hkeeps, hmatches⟩ := h.keeps
  have hstore : ∀ key : PendingKey, key.address = address →
      (s.ledger.store.get key = none ∧ live.get key = none) ∨
        ∃ b i, s.ledger.store.get key = some b ∧ deserialize b = some i ∧
          live.get key = some i := by
    intro key haddress
    obtain ⟨hbatch, hcache⟩ := hstored key haddress
    have hmatch := hmatches key
    rw [hbatch, none_or] at hmatch
    exact stored_eq hround (hkeeps.refines.represents key) hmatch hcache
  have htotal : Table.total (storePart deserialize address token) s.ledger.store =
      pendingSum live address token := by
    apply total_eq_of_weight
    intro key
    by_cases haddress : key.address = address
    · rcases hstore key haddress with ⟨hnone, hlive⟩ | ⟨b, i, hget, hi, hlive⟩
      · rw [weight_of_get_none hnone, weight_of_get_none hlive]
      · rw [weight_of_get hget, weight_of_get hlive, storePart, hi, elim_some]
    · -- An entry of another address adds nothing on either side.
      have hpart : ∀ info, part address token key info = 0 := fun info =>
        if_neg fun hkey => haddress hkey.1
      have hstorePart : ∀ b, storePart deserialize address token key b = 0 := by
        intro b
        unfold storePart
        cases deserialize b with
        | none => rfl
        | some info => exact hpart info
      unfold Table.weight
      cases s.ledger.store.get key <;> cases live.get key <;> simp [hpart, hstorePart]
  rw [← htotal]
  apply storeAmount_eq
  · intro key b hget haddress
    rcases hstore key haddress with ⟨hnone, _⟩ | ⟨b', i, hget', hi, _⟩
    · rw [hnone] at hget
      cases hget
    · rw [hget] at hget'
      exact ⟨i, Option.some.inj hget' ▸ hi⟩
  · rw [htotal]
    exact h.below address token

include hround in
theorem pendingAmount (h : Inv serialize hashPair used s live) (hused : (address, token) ∈ used)
    (hsettled : Settled hashPair s address token) :
    ∃ s', s.pendingAmount deserialize hashPair address token =
      some (pendingSum live address token, s') := by
  unfold State.pendingAmount
  cases hknown : s.accountPending.get (hashPair address token) with
  | some amount =>
    refine ⟨s, ?_⟩
    dsimp only
    rw [h.exact address token hused amount hknown]
  | none =>
    dsimp only
    rw [h.storeAmount hround token (hsettled hknown)]
    exact ⟨_, rfl⟩

include hinj hround in
theorem query (h : Inv serialize hashPair used s live) (hused : (address, token) ∈ used)
    (hsettled : Settled hashPair s address token) {amount : ℕ} {s' : State}
    (hstep : s.pendingAmount deserialize hashPair address token = some (amount, s')) :
    Inv serialize hashPair used s' live := by
  unfold State.pendingAmount at hstep
  cases hknown : s.accountPending.get (hashPair address token) with
  | some known =>
    rw [hknown] at hstep
    obtain ⟨_, rfl⟩ := Prod.mk.inj (Option.some.inj hstep)
    exact h
  | none =>
    rw [hknown] at hstep
    dsimp only at hstep
    rw [h.storeAmount hround token (hsettled hknown), map_some] at hstep
    obtain ⟨_, rfl⟩ := Prod.mk.inj (Option.some.inj hstep)
    refine { h with exact := ?_ }
    intro address' token' hpair amount' hget
    rw [get_put] at hget
    split_ifs at hget with hth
    · obtain ⟨rfl, rfl⟩ := Prod.mk.inj (hinj hpair hused hth)
      exact (Option.some.inj hget).symm
    · exact h.exact address' token' hpair amount' hget

end Inv

include hinj hround in
theorem Reached.inv {s : State} {live : Live}
    (h : Reached serialize deserialize hashPair used s live) :
    Inv serialize hashPair used s live := by
  induction h with
  | start => exact Inv.start
  | addPending _ key value hused hnew hsum ih => exact ih.addPending hinj hused hnew hsum
  | deletePending _ key hbatch ih => exact ih.deletePending hinj hround hbatch
  | commit _ passed hstep ih => exact ih.commit hstep
  | query _ address token hused hsettled amount hstep ih =>
    exact ih.query hinj hround hused hsettled hstep
  | flush _ op hop l hstep ih => exact ih.flush hop hstep
  | evict _ th ih => exact ih.evict th

/-- In every run that meets the conditions, a settled query returns the sum of the live entries of
the address and the token. -/
theorem pendingAmount_eq_pendingSum
    (hinj : Set.InjOn (fun p : Address × Hash => hashPair p.1 p.2) used)
    (hround : ∀ info b, serialize info = some b → deserialize b = some info) {s : State}
    {live : Live} (h : Reached serialize deserialize hashPair used s live) {address : Address}
    {token : Hash} (hused : (address, token) ∈ used)
    (hsettled : Settled hashPair s address token) :
    ∃ s', s.pendingAmount deserialize hashPair address token =
      some (pendingSum live address token, s') :=
  (h.inv hinj hround).pendingAmount hround hused hsettled

end Invariant

/-! ## A query before the first flush -/

def fiveKey : PendingKey := { address := 1, hash := 10 }

def fiveInfo : PendingInfo := { source := 2, amount := 5, type := 3 }

def serializeFive (info : PendingInfo) : Option Bytes := if info = fiveInfo then some [5] else none

def deserializeFive (b : Bytes) : Option PendingInfo := if b = [5] then some fiveInfo else none

def pairHash (address : Address) (token : Hash) : Hash := address * 16 + token

def committedFive : Option State :=
  (State.addPending pairHash {} fiveKey fiveInfo).commit serializeFive false

def State.flushFive (s : State) : Option State := do
  let l ← s.ledger.step serializeFive (.tick true)
  let l ← l.step serializeFive .flush
  return { s with ledger := l }

/-- A query before the flush finds nothing in the store, and the zero it keeps is still the answer
when the entry has been flushed. -/
theorem pendingAmount_misses_waiting :
    (do
      let s ← committedFive
      let before ← s.pendingAmount deserializeFive pairHash 1 3
      let s ← before.2.flushFive
      let after ← s.pendingAmount deserializeFive pairHash 1 3
      return (before.1, after.1, s.ledger.store.get fiveKey)) = some (0, 0, some [5]) ∧
    pendingSum (Table.put ∅ fiveKey fiveInfo) 1 3 = 5 := by decide

/-- With the flush before the query the answer is the sum. -/
theorem pendingAmount_of_flushed :
    ∃ s s', committedFive.bind State.flushFive = some s ∧
      s.pendingAmount deserializeFive pairHash 1 3 =
        some (pendingSum (Table.put ∅ fiveKey fiveInfo) 1 3, s') := by
  have hround : ∀ info b, serializeFive info = some b → deserializeFive b = some info := by
    intro info b h
    unfold serializeFive at h
    split_ifs at h with hinfo
    rw [← Option.some.inj h, hinfo]
    rfl
  have hinj : Set.InjOn (fun p : Address × Hash => pairHash p.1 p.2) {(1, 3)} :=
    Set.injOn_singleton _ _
  obtain ⟨s, hcommit⟩ : ∃ s, committedFive = some s := ⟨_, rfl⟩
  obtain ⟨l₁, htick⟩ : ∃ l, s.ledger.step serializeFive (.tick true) = some l := by
    cases hcommit
    exact ⟨_, rfl⟩
  obtain ⟨l₂, hflush⟩ : ∃ l, l₁.step serializeFive .flush = some l := by
    cases hcommit
    cases htick
    exact ⟨_, rfl⟩
  have hreached : Reached serializeFive deserializeFive pairHash {(1, 3)}
      { s with ledger := l₂ } (Table.put ∅ fiveKey fiveInfo) := by
    have hadd : Reached serializeFive deserializeFive pairHash {(1, 3)} _ _ :=
      .addPending .start fiveKey fiveInfo rfl rfl (by decide)
    have hticked := (hadd.commit false hcommit).flush (.tick true) (fun _ => rfl) l₁ htick
    exact hticked.flush .flush (fun _ => rfl) l₂ hflush
  have hsettled : Settled pairHash { s with ledger := l₂ } 1 3 := by
    cases hcommit
    cases htick
    cases hflush
    intro _ key _
    exact ⟨rfl, rfl⟩
  obtain ⟨s', hs'⟩ := pendingAmount_eq_pendingSum hinj hround hreached rfl hsettled
  refine ⟨_, s', ?_, hs'⟩
  rw [hcommit, bind_some]
  unfold State.flushFive
  rw [htick]
  change (l₁.step serializeFive .flush).bind _ = _
  rw [hflush]
  rfl

end GoQlc.PendingTotals
