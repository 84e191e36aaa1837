import GoQlc.Ledger.Cache

/-!
# Flushes that fail

A flush writes a cache into the store in one batch.
-/

namespace GoQlc

open CacheItem List MemoryCache Option

variable {K Obj : Type} [DecidableEq K]
variable (serialize : Obj → Option Bytes) (convertToSchema : Obj → Bool)

def CacheItem.dumpToRelation : CacheItem Obj → Bool
  | value (.object o) => convertToSchema o
  | value _ => true
  | deleteKeyTag => true

/-- The store after the flush of a cache; `none` is an error, which leaves the store
as it was. -/
def Cache.flush (putBatchFails : Bool) (c : Cache K Obj) (store : Table K Bytes) :
    Option (Table K Bytes) :=
  if c.entries.length = 0 then
    some store
  else if c.entries.all (fun e => e.2.dumpToRelation convertToSchema) && !putBatchFails then
    Layers.settle (dumpToLevelDb serialize) c store
  else
    none

theorem settle_of_flush {putBatchFails : Bool} {c : Cache K Obj} {store store' : Table K Bytes}
    (h : Cache.flush serialize convertToSchema putBatchFails c store = some store') :
    Layers.settle (dumpToLevelDb serialize) c store = some store' := by
  unfold Cache.flush at h
  split_ifs at h with hempty
  · rw [Layers.settle, length_eq_zero_iff.mp hempty]
    exact h
  · exact h

namespace CachedLedger

open MemoryCache

def skip (l : CachedLedger K Obj) : CachedLedger K Obj :=
  { l with cache := { l.cache with readIndex := l.cache.readIndex + 1 } }

def flushNext (l : CachedLedger K Obj) (putBatchFails : Bool) : CachedLedger K Obj :=
  let index := l.cache.readIndex + 1
  if index ≠ l.cache.writeIndex then
    match Cache.flush serialize convertToSchema putBatchFails (l.cache.caches index) l.store with
    | some store =>
      { cache := { l.cache with
          caches := Function.update l.cache.caches index ∅
          readIndex := index }
        store := store }
    -- `MemoryCache.flush` logs the error and goes on
    | none => l.skip
  else
    l

/-- A commit writes a batch into the write cache, which moves on first when a flush is
due; `Put` and `Delete` commit one item, and the timer commits nothing. -/
inductive Event (K Obj : Type) where
  | commit (intervalPassed : Bool) (batch : Cache K Obj)
  | flush (putBatchFails : Bool)

def Event.batch : Event K Obj → Cache K Obj
  | .commit _ batch => batch
  | .flush _ => ∅

/-- One event; `none` while a commit waits for the next cache. -/
def attempt (l : CachedLedger K Obj) : Event K Obj → Option (CachedLedger K Obj)
  | .commit passed batch => l.writeWith passed fun c => c.putAll batch
  | .flush putBatchFails => some (l.flushNext serialize convertToSchema putBatchFails)

def runAttempts (events : List (Event K Obj)) : Option (CachedLedger K Obj) :=
  events.foldlM (attempt serialize convertToSchema) new

def lastCommit (events : List (Event K Obj)) (k : K) : Option (CacheItem Obj) :=
  events.foldl (fun before e => (e.batch.get k).or before) none

/-- The readers see `committed`: the waiting caches show it, or they do not have the key and
the store holds what a flush writes for it. -/
def Shows (l : CachedLedger K Obj) (k : K) (committed : Option (CacheItem Obj)) : Prop :=
  match l.cache.get k with
  | some item => committed = some item
  | none => committed.elim (some none) (dumpToLevelDb serialize) = some (l.store.get k)

/-- What an event must not meet. A commit must not go to a cache that still holds something
other than the last commit of a key. The cache of a failing flush must hold nothing that
neither a newer cache nor the store has. -/
def Harmless (latest : K → Option (CacheItem Obj)) (l : CachedLedger K Obj) : Event K Obj → Prop
  | .commit passed batch => ∀ lc, l.cache.getCache passed = some lc →
      ∀ k item, (lc.caches lc.writeIndex).get k = some item → batch.get k = none →
        latest k = some item
  | .flush putBatchFails =>
    let index := l.cache.readIndex + 1
    index ≠ l.cache.writeIndex →
      Cache.flush serialize convertToSchema putBatchFails (l.cache.caches index) l.store = none →
      ∀ k item, (l.cache.caches index).get k = some item → l.skip.cache.get k = none →
        item.dumpToLevelDb serialize = some (l.store.get k)

def HarmlessRun (events : List (Event K Obj)) : Prop :=
  ∀ t l e, runAttempts serialize convertToSchema (events.take t) = some l →
    events[t]? = some e → Harmless serialize convertToSchema (lastCommit (events.take t)) l e

/-! ## One event -/

variable {serialize convertToSchema}
variable {l l' : CachedLedger K Obj} {latest : K → Option (CacheItem Obj)}

theorem shows_iff {k : K} {committed : Option (CacheItem Obj)} :
    Shows serialize l k committed ↔
      Layers.Represents (dumpToLevelDb serialize) l.cache.layers l.store k committed := by
  unfold Shows Layers.Represents
  rw [get_eq]
  cases Layers.lookup l.cache.layers k <;> exact Iff.rfl

omit [DecidableEq K] in
theorem layers_of_getCache {lc : MemoryCache K Obj} {passed : Bool}
    (hne : l.cache.writeIndex ≠ l.cache.readIndex) (h : l.cache.getCache passed = some lc) :
    lc.writeIndex ≠ lc.readIndex ∧
      (lc = l.cache ∨ ∀ f, (lc.write f).layers = f (lc.caches lc.writeIndex) :: l.cache.layers) := by
  refine ⟨indexes_ne_of_getCache hne h, ?_⟩
  unfold getCache at h
  dsimp only at h
  split_ifs at h with _ hnext
  · cases h
    have hback : ∀ w : CacheIndex, w + 1 - 1 = w := by decide
    refine Or.inr fun f => ?_
    rw [layers_write _ _ hnext]
    dsimp only
    rw [hback]
    rfl
  · exact Or.inl (Option.some.inj h).symm

variable (serialize convertToSchema) in
theorem flushNext_cases (l : CachedLedger K Obj) (putBatchFails : Bool)
    (hne : l.cache.writeIndex ≠ l.cache.readIndex) :
    let l' := l.flushNext serialize convertToSchema putBatchFails
    l'.cache.writeIndex ≠ l'.cache.readIndex ∧
      (l' = l ∧ l.cache.readIndex + 1 = l.cache.writeIndex ∨
        l.cache.readIndex + 1 ≠ l.cache.writeIndex ∧
          l.cache.layers = l'.cache.layers ++ [l.cache.caches (l.cache.readIndex + 1)] ∧
          (Layers.settle (dumpToLevelDb serialize)
              (l.cache.caches (l.cache.readIndex + 1)) l.store = some l'.store ∧
            Cache.flush serialize convertToSchema putBatchFails
              (l.cache.caches (l.cache.readIndex + 1)) l.store ≠ none ∨
          l' = l.skip ∧ Cache.flush serialize convertToSchema putBatchFails
              (l.cache.caches (l.cache.readIndex + 1)) l.store = none)) := by
  intro l'
  by_cases hnext : l.cache.readIndex + 1 = l.cache.writeIndex
  · have hl' : l' = l := by
      simp only [l', flushNext, ne_eq, hnext, not_true_eq_false, if_false]
    rw [hl']
    exact ⟨hne, Or.inl ⟨rfl, hnext⟩⟩
  · have hflush : l' = match Cache.flush serialize convertToSchema putBatchFails
          (l.cache.caches (l.cache.readIndex + 1)) l.store with
        | some store =>
          { cache := { l.cache with
              caches := Function.update l.cache.caches (l.cache.readIndex + 1) ∅
              readIndex := l.cache.readIndex + 1 }
            store := store }
        | none => l.skip := if_pos hnext
    cases hout : Cache.flush serialize convertToSchema putBatchFails
        (l.cache.caches (l.cache.readIndex + 1)) l.store with
    | some store =>
      rw [hout] at hflush
      refine ⟨?_, Or.inr ⟨hnext, ?_, Or.inl ⟨?_, nofun⟩⟩⟩
      · rw [hflush]
        exact Ne.symm hnext
      · rw [layers_eq_append _ hne, hflush]
        unfold layers
        dsimp only
        rw [layersFrom_update _ _ _ _ _ (Nat.le_refl _)]
      · rw [hflush]
        exact settle_of_flush _ _ hout
    | none =>
      rw [hout] at hflush
      refine ⟨?_, Or.inr ⟨hnext, ?_, Or.inr ⟨hflush, rfl⟩⟩⟩
      · rw [hflush]
        exact Ne.symm hnext
      · rw [layers_eq_append _ hne, hflush]
        rfl

variable {e : Event K Obj}

theorem shows_attempt_iff (hne : l.cache.writeIndex ≠ l.cache.readIndex)
    (h : ∀ k, Shows serialize l k (latest k))
    (hstep : l.attempt serialize convertToSchema e = some l') :
    (∀ k, Shows serialize l' k ((e.batch.get k).or (latest k))) ↔
      Harmless serialize convertToSchema latest l e := by
  simp only [shows_iff] at h ⊢
  cases e with
  | commit passed batch =>
    obtain ⟨lc, hget, rfl⟩ := map_eq_some_iff.mp hstep
    have hput := fun k => Table.get_putAll (lc.caches lc.writeIndex) batch k
    simp only [Harmless, hget, Option.some.injEq, forall_eq']
    obtain ⟨hne', rfl | hlayers⟩ := layers_of_getCache hne hget
    · have hcons := layers_eq_cons l.cache hne
      rw [hcons] at h
      constructor
      · intro _ k item hitem _
        have hk := h k
        unfold Layers.Represents at hk
        rw [Layers.lookup_cons, hitem] at hk
        exact hk
      · intro _ k
        rw [layers_write _ _ hne]
        exact (h k).write (hput k)
    · constructor
      · intro hshows k item hitem hbatch
        have hk := hshows k
        rw [hlayers] at hk
        exact ((h k).push_iff (hput k)).mp hk item hitem hbatch
      · intro hkept k
        rw [hlayers]
        exact ((h k).push_iff (hput k)).mpr (hkept k)
  | flush putBatchFails =>
    cases hstep
    obtain ⟨_, ⟨hsame, hnext⟩ | ⟨hnext, hlayers, ⟨hsettle, hok⟩ | ⟨hskip, hfail⟩⟩⟩ :=
      flushNext_cases serialize convertToSchema l putBatchFails hne
    · rw [hsame]
      exact ⟨fun _ hnext' => absurd hnext hnext', fun _ => h⟩
    · rw [hlayers] at h
      exact ⟨fun _ _ hfail => absurd hfail hok, fun _ k => (h k).settle hsettle⟩
    · rw [hlayers] at h
      rw [hskip] at h ⊢
      simp only [Harmless, hfail, hnext, ne_eq, not_false_eq_true, forall_const,
        get_eq]
      exact ⟨fun hshows k => (h k).drop_iff.mp (hshows k),
        fun hkept k => (h k).drop_iff.mpr (hkept k)⟩

theorem indexes_ne_of_attempt (hne : l.cache.writeIndex ≠ l.cache.readIndex)
    (hstep : l.attempt serialize convertToSchema e = some l') :
    l'.cache.writeIndex ≠ l'.cache.readIndex := by
  cases e with
  | commit passed batch =>
    obtain ⟨lc, hget, rfl⟩ := map_eq_some_iff.mp hstep
    have hne' := indexes_ne_of_getCache hne hget
    exact hne'
  | flush putBatchFails =>
    cases hstep
    exact (flushNext_cases serialize convertToSchema l putBatchFails hne).1

def Stores (serialize : Obj → Option Bytes) (l : CachedLedger K Obj) (k : K)
    (committed : Option (CacheItem Obj)) : Prop :=
  committed.elim (some none) (dumpToLevelDb serialize) = some (l.store.get k)

variable {t : ℕ}

theorem ordered_attempt {k : K} {history : ℕ → Option (CacheItem Obj)} {s : ℕ}
    (hne : l.cache.writeIndex ≠ l.cache.readIndex)
    (hshows : Shows serialize l' k (history (t + 1)))
    (hharmless : Harmless serialize convertToSchema latest l e)
    (horder : Layers.Ordered history k s l.cache.layers t)
    (hstored : Stores serialize l k (history s))
    (hstep : l.attempt serialize convertToSchema e = some l') :
    ∃ s', s ≤ s' ∧ Layers.Ordered history k s' l'.cache.layers (t + 1) ∧
      Stores serialize l' k (history s') := by
  cases e with
  | commit passed batch =>
    obtain ⟨lc, hget, rfl⟩ := map_eq_some_iff.mp hstep
    -- the layers below the write cache are older than the commit
    obtain ⟨top, rest, hlayers, hrest⟩ : ∃ top rest,
        (lc.write fun c => c.putAll batch).layers = top :: rest ∧
          Layers.Ordered history k s rest t := by
      obtain ⟨_, rfl | hpush⟩ := layers_of_getCache hne hget
      · rw [layers_eq_cons _ hne] at horder
        exact ⟨_, _, layers_write _ _ hne, horder.tail⟩
      · exact ⟨_, _, hpush _, horder⟩
    refine ⟨s, Nat.le_refl _, ?_, hstored⟩
    dsimp only
    rw [hlayers]
    refine (hrest.mono (Nat.le_succ t)).push fun x hx => ?_
    rw [shows_iff] at hshows
    dsimp only at hshows
    rw [hlayers] at hshows
    unfold Layers.Represents at hshows
    rwa [Layers.lookup_cons, hx] at hshows
  | flush putBatchFails =>
    cases hstep
    obtain ⟨_, ⟨hsame, -⟩ | ⟨hnext, hlayers, hcases⟩⟩ :=
      flushNext_cases serialize convertToSchema l putBatchFails hne
    · rw [hsame]
      exact ⟨s, Nat.le_refl _, horder.mono (Nat.le_succ t), hstored⟩
    rw [hlayers] at horder
    replace horder := (horder.mono (Nat.le_succ t)).oldest
    rcases hcases with ⟨hsettle, -⟩ | ⟨hskip, hfail⟩
    · have hget := Layers.get_settle hsettle k
      rcases horder with ⟨hnone, horder⟩ | ⟨n, hn, hitem, hsome, horder⟩
      · rw [hnone] at hget
        exact ⟨s, Nat.le_refl _, horder, hstored.trans hget⟩
      · obtain ⟨item, hget'⟩ := ne_none_iff_exists'.mp hsome
        rw [hget'] at hget hitem
        refine ⟨n, hn, horder, ?_⟩
        rw [Stores, hitem]
        exact hget
    · rw [hskip] at horder ⊢
      rcases horder with ⟨-, horder⟩ | ⟨n, hn, hitem, hsome, horder⟩
      · exact ⟨s, Nat.le_refl _, horder, hstored⟩
      · obtain ⟨item, hget'⟩ := ne_none_iff_exists'.mp hsome
        by_cases hhidden : l.skip.cache.get k = none
        · refine ⟨n, hn, horder, ?_⟩
          rw [Stores, hitem, hget']
          exact hharmless hnext hfail k item hget' hhidden
        · exact ⟨s, Nat.le_refl _, horder.anti hn, hstored⟩

/-! ## Runs -/

variable {events : List (Event K Obj)}

theorem lastCommit_append (events : List (Event K Obj)) (e : Event K Obj) (k : K) :
    lastCommit (events ++ [e]) k = (e.batch.get k).or (lastCommit events k) := by
  simp [lastCommit]

theorem runAttempts_append (events : List (Event K Obj)) (e : Event K Obj) :
    runAttempts serialize convertToSchema (events ++ [e]) =
      (runAttempts serialize convertToSchema events).bind fun l =>
        l.attempt serialize convertToSchema e := by
  simp [runAttempts, foldlM_append, bind_eq_bind]

theorem run_succ (he : events[t]? = some e) :
    runAttempts serialize convertToSchema (events.take (t + 1)) =
      (runAttempts serialize convertToSchema (events.take t)).bind fun l =>
        l.attempt serialize convertToSchema e := by
  rw [take_add_one, he, toList_some, runAttempts_append]

theorem lastCommit_succ (he : events[t]? = some e) (k : K) :
    lastCommit (events.take (t + 1)) k = (e.batch.get k).or (lastCommit (events.take t) k) := by
  rw [take_add_one, he, toList_some, lastCommit_append]

theorem run_induction {P : ℕ → CachedLedger K Obj → Prop} (hnew : P 0 new)
    (hstep : ∀ t l l' e, runAttempts serialize convertToSchema (events.take t) = some l →
      P t l → events[t]? = some e → l.attempt serialize convertToSchema e = some l' → P (t + 1) l')
    (hend : ∀ t l, P t l → events[t]? = none → P (t + 1) l) (t : ℕ) (l : CachedLedger K Obj)
    (h : runAttempts serialize convertToSchema (events.take t) = some l) : P t l := by
  induction t generalizing l with
  | zero =>
    cases h
    exact hnew
  | succ t ih =>
    cases he : events[t]? with
    | none =>
      rw [take_add_one, he, toList_none, append_nil] at h
      exact hend t l (ih l h) he
    | some e =>
      rw [run_succ he] at h
      obtain ⟨l₀, hl₀, hl⟩ := bind_eq_some_iff.mp h
      exact hstep t l₀ l e hl₀ (ih l₀ hl₀) he hl

theorem indexes_ne_of_run (h : runAttempts serialize convertToSchema (events.take t) = some l) :
    l.cache.writeIndex ≠ l.cache.readIndex := by
  revert t l
  have hinit : (1 : CacheIndex) ≠ 0 := by decide
  exact fun {l t} => run_induction (P := fun _ l => l.cache.writeIndex ≠ l.cache.readIndex) hinit
    (fun _ _ _ _ _ hne _ hstep => indexes_ne_of_attempt hne hstep) (fun _ _ hne _ => hne) t l

theorem shows_new (k : K) : Shows serialize (new : CachedLedger K Obj) k none :=
  shows_iff.mpr (new_refines.represents k)

theorem shows_of_harmless (h : HarmlessRun serialize convertToSchema events) (t : ℕ)
    (l : CachedLedger K Obj)
    (hrun : runAttempts serialize convertToSchema (events.take t) = some l) (k : K) :
    Shows serialize l k (lastCommit (events.take t) k) := by
  revert k
  revert hrun
  refine run_induction (P := fun t l => ∀ k, Shows serialize l k (lastCommit (events.take t) k))
    shows_new ?_ ?_ t l
  · intro t l l' e hrun hshows he hstep k
    rw [lastCommit_succ he]
    exact (shows_attempt_iff (indexes_ne_of_run hrun) hshows hstep).mpr (h t l e hrun he) k
  · intro t l hshows he
    rwa [take_add_one, he, toList_none, append_nil]

theorem harmless_of_shows
    (h : ∀ t l, runAttempts serialize convertToSchema (events.take t) = some l →
      ∀ k, Shows serialize l k (lastCommit (events.take t) k)) :
    HarmlessRun serialize convertToSchema events := by
  intro t l e hrun he
  cases hstep : l.attempt serialize convertToSchema e with
  | some l' =>
    refine (shows_attempt_iff (indexes_ne_of_run hrun) (h t l hrun) hstep).mp fun k => ?_
    rw [← lastCommit_succ he]
    exact h (t + 1) l' (by rw [run_succ he, hrun, bind_some, hstep]) k
  | none =>
    -- only a commit waits, and then it has no cache to write to
    cases e with
    | commit passed batch =>
      intro lc hget
      rw [attempt, writeWith, hget] at hstep
      cases hstep
    | flush putBatchFails => cases hstep

theorem stores_in_order (h : HarmlessRun serialize convertToSchema events) (k : K) :
    ∃ n : ℕ → ℕ, Monotone n ∧ ∀ t, n t ≤ t ∧
      ∀ l, runAttempts serialize convertToSchema (events.take t) = some l →
        Stores serialize l k (lastCommit (events.take (n t)) k) := by
  let history := fun i => lastCommit (events.take i) k
  -- the time of what is stored, with the order of what still waits
  let R := fun t s => s ≤ t ∧ ∀ l,
    runAttempts serialize convertToSchema (events.take t) = some l →
      Layers.Ordered history k s l.cache.layers t ∧ Stores serialize l k (history s)
  have hzero : R 0 0 := by
    refine ⟨Nat.le_refl _, fun l hrun => ?_⟩
    cases hrun
    exact ⟨Or.inl ⟨rfl, Nat.le_refl _⟩, rfl⟩
  have hstep : ∀ t s, R t s → ∃ s', s ≤ s' ∧ R (t + 1) s' := by
    rintro t s ⟨hst, hs⟩
    cases hrun' : runAttempts serialize convertToSchema (events.take (t + 1)) with
    | none =>
      refine ⟨s, Nat.le_refl _, hst.trans (Nat.le_succ t), fun l hrun => ?_⟩
      rw [hrun'] at hrun
      cases hrun
    | some l' =>
      suffices hnext : ∃ s', s ≤ s' ∧ Layers.Ordered history k s' l'.cache.layers (t + 1) ∧
          Stores serialize l' k (history s') by
        obtain ⟨s', hs', horder, hstored⟩ := hnext
        refine ⟨s', hs', horder.le, fun l hrun => ?_⟩
        rw [hrun'] at hrun
        cases hrun
        exact ⟨horder, hstored⟩
      have hshows := shows_of_harmless h (t + 1) l' hrun' k
      cases he : events[t]? with
      | none =>
        rw [take_add_one, he, toList_none, append_nil] at hrun'
        obtain ⟨horder, hstored⟩ := hs l' hrun'
        exact ⟨s, Nat.le_refl _, horder.mono (Nat.le_succ t), hstored⟩
      | some e =>
        rw [run_succ he] at hrun'
        obtain ⟨l, hrun, hattempt⟩ := bind_eq_some_iff.mp hrun'
        obtain ⟨horder, hstored⟩ := hs l hrun
        exact ordered_attempt (indexes_ne_of_run hrun) hshows (h t l e hrun he) horder hstored
          hattempt
  obtain ⟨n, hmono, hn⟩ := Layers.exists_monotone_of_step hzero hstep
  exact ⟨n, hmono, fun t => ⟨(hn t).1, fun l hrun => ((hn t).2 l hrun).2⟩⟩

/-- Over a run with flushes that fail, every key always shows its last commit exactly if every event
is harmless. -/
theorem failed_flush_loses_nothing_iff (events : List (Event K Obj)) :
    ((∀ t l, runAttempts serialize convertToSchema (events.take t) = some l →
        ∀ k, Shows serialize l k (lastCommit (events.take t) k)) ↔
      HarmlessRun serialize convertToSchema events) ∧
    (HarmlessRun serialize convertToSchema events →
      (∀ t l, runAttempts serialize convertToSchema (events.take t) = some l →
        ∀ k, (∀ v, lastCommit (events.take t) k = some (.value v) → ∃ b, v = .bytes b) →
          GetReturns serialize (lastCommit (events.take t) k) (l.get k none)) ∧
      ∀ k, ∃ n : ℕ → ℕ, Monotone n ∧ ∀ t, n t ≤ t ∧
        ∀ l, runAttempts serialize convertToSchema (events.take t) = some l →
          Stores serialize l k (lastCommit (events.take (n t)) k)) := by
  refine ⟨⟨harmless_of_shows, shows_of_harmless⟩, fun h => ⟨?_, stores_in_order h⟩⟩
  intro t l hrun k hbytes
  have hshows := shows_of_harmless h t l hrun k
  refine (reads_iff (shows_iff.mp hshows)).1.mpr fun v hv => hbytes v ?_
  unfold Shows at hshows
  rwa [hv] at hshows

/-! ## A store that refuses one batch -/

section Refused

def commitBytes (passed : Bool) (b : UInt8) : Event ℕ Unit :=
  .commit passed (Table.put ∅ 1 (.value (.bytes [b])))

def refused : List (Event ℕ Unit) := [commitBytes false 7, .commit true ∅, .flush true]

def comeRound : List (Event ℕ Unit) :=
  List.flatten (List.replicate 5 [commitBytes true 8, .flush false]) ++ [.commit true ∅]

/-- The committed bytes are not found after the refused flush. -/
theorem failed_flush_hides_commits :
    let run := runAttempts (fun _ : Unit => some []) fun _ => true
    let get (events : List (Event ℕ Unit)) := (run events).map fun l => l.get 1 none
    let stored (events : List (Event ℕ Unit)) := (run events).map fun l => l.store.get 1
    get (refused.take 2) = some (.found [7]) ∧
      get refused = some .keyNotFound ∧
      get (refused ++ comeRound.dropLast) = some (.found [8]) ∧
      get (refused ++ comeRound) = some (.found [7]) ∧
      stored (refused ++ comeRound) = some (some [8]) ∧
      stored (refused ++ comeRound ++ [.flush false, .commit true ∅, .flush false]) =
        some (some [7]) := by
  decide

def overwritten : List (Event ℕ Unit) := [commitBytes false 7, commitBytes true 8, .flush true]

theorem overwritten_harmless :
    HarmlessRun (fun _ : Unit => some []) (fun _ => true) overwritten := by
  have hsingle : ∀ (v item : CacheItem Unit) (k : ℕ),
      (Table.put (∅ : Cache ℕ Unit) 1 v).get k = some item → k = 1 := by
    intro v item k h
    by_contra hk
    rw [Table.get_put_of_ne _ hk, Table.get_empty] at h
    cases h
  intro t l e hrun he
  match t with
  | 0 | 1 =>
    cases hrun
    cases he
    rintro lc ⟨⟩ k item ⟨⟩
  | 2 =>
    cases hrun
    cases he
    rintro - - k item hitem hhidden
    obtain rfl := hsingle _ _ _ hitem
    cases hhidden
  | t + 3 => cases he

theorem overwritten_read :
    ∃ l, runAttempts (fun _ : Unit => some []) (fun _ => true) overwritten = some l ∧
      l.get 1 none = .found [8] := by
  obtain ⟨hreads, -⟩ := (failed_flush_loses_nothing_iff overwritten).2 overwritten_harmless
  refine ⟨_, rfl, ?_⟩
  obtain ⟨b, hb, hget⟩ := hreads 3 _ rfl 1 fun v hv => by
    cases hv
    exact ⟨[8], rfl⟩
  cases hb
  exact hget

end Refused

end CachedLedger

end GoQlc
