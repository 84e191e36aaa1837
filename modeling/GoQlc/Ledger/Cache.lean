import GoQlc.Lib.Layers
import GoQlc.Types.Block

/-!
# The write-behind cache

The ledger writes into a ring of memory caches.
-/

namespace GoQlc

open Function Option

/-- What the source passes as `interface{}`. -/
inductive CacheValue (Obj : Type) where
  | nil
  | bytes (b : Bytes)
  | object (o : Obj)
deriving DecidableEq, Repr

inductive CacheItem (Obj : Type) where
  | deleteKeyTag
  | value (v : CacheValue Obj)
deriving DecidableEq, Repr

abbrev Cache (K Obj : Type) := Table K (CacheItem Obj)

abbrev CacheIndex := Fin 6

instance cacheIndex_neZero : NeZero 6 := inferInstance

structure MemoryCache (K Obj : Type) where
  caches : CacheIndex → Cache K Obj
  writeIndex : CacheIndex
  readIndex : CacheIndex

structure CachedLedger (K Obj : Type) where
  cache : MemoryCache K Obj
  store : Table K Bytes

inductive GetResult where
  | found (v : Bytes)
  | keyNotFound
  | typePanic
deriving DecidableEq, Repr

inductive GetObjectResult (Obj : Type) where
  | object (r : CacheValue Obj)
  | stored (v : Bytes)
  | keyNotFound
deriving DecidableEq, Repr

variable {K Obj : Type} [DecidableEq K]

namespace CacheValue

def encode (serialize : Obj → Option Bytes) : CacheValue Obj → Option Bytes
  | nil => none
  | bytes b => some b
  | object o => serialize o

end CacheValue

/-- The write of one item; `none` is the error of a value without encoding. -/
def CacheItem.dumpToLevelDb (serialize : Obj → Option Bytes) :
    CacheItem Obj → Option (Option Bytes)
  | deleteKeyTag => some none
  | value v => (v.encode serialize).map some

namespace MemoryCache

def new : MemoryCache K Obj where
  caches := fun _ => ∅
  writeIndex := 1
  readIndex := 0

def needsFlush (lc : MemoryCache K Obj) (intervalPassed : Bool) : Bool :=
  intervalPassed && (lc.caches lc.writeIndex).entries.length != 0

/-- Moves on to the next cache when a flush is due. `none` stands for the loop
that waits until that cache has been flushed. -/
def getCache (lc : MemoryCache K Obj) (intervalPassed : Bool) : Option (MemoryCache K Obj) :=
  if lc.needsFlush intervalPassed then
    let newWriteIndex := lc.writeIndex + 1
    if newWriteIndex ≠ lc.readIndex then
      some { lc with writeIndex := newWriteIndex }
    else
      none
  else
    some lc

def write (lc : MemoryCache K Obj) (f : Cache K Obj → Cache K Obj) : MemoryCache K Obj :=
  { lc with caches := update lc.caches lc.writeIndex (f (lc.caches lc.writeIndex)) }

/-- The loop of `Get` from `index` on. -/
def search (lc : MemoryCache K Obj) (key : K) : ℕ → CacheIndex → Option (CacheItem Obj)
  | 0, _ => none
  | fuel + 1, index =>
    if index = lc.readIndex then
      none
    else
      ((lc.caches index).get key).or (lc.search key fuel (index - 1))

-- Six rounds pass every cache once, so the fuel never ends the search.
def get (lc : MemoryCache K Obj) (key : K) : Option (CacheItem Obj) :=
  lc.search key 6 lc.writeIndex

end MemoryCache

namespace CachedLedger

/-- A read of an item as bytes; `none` goes on to the next place. -/
def itemBytes : Option (CacheItem Obj) → Option GetResult
  | some (.value (.bytes b)) => some (.found b)
  | some (.value (.object _)) => some .typePanic
  | some .deleteKeyTag => some .keyNotFound
  | some (.value .nil) => none
  | none => none

def itemObject : Option (CacheItem Obj) → Option (GetObjectResult Obj)
  | some (.value .nil) => none
  | some (.value v) => some (.object v)
  | some .deleteKeyTag => some .keyNotFound
  | none => none

def get (l : CachedLedger K Obj) (k : K) (c : Option (Cache K Obj)) : GetResult :=
  ((itemBytes (c.bind fun c => c.get k)).or (itemBytes (l.cache.get k))).getD
    ((l.store.get k).elim .keyNotFound .found)

def getObject (l : CachedLedger K Obj) (k : K) (c : Option (Cache K Obj)) :
    GetObjectResult Obj :=
  ((itemObject (c.bind fun c => c.get k)).or (itemObject (l.cache.get k))).getD
    ((l.store.get k).elim .keyNotFound .stored)

def flushCache (serialize : Obj → Option Bytes) (l : CachedLedger K Obj) (index : CacheIndex) :
    Option (CachedLedger K Obj) :=
  (Layers.settle (CacheItem.dumpToLevelDb serialize) (l.cache.caches index) l.store).map
    fun store =>
      { cache := { l.cache with
          caches := update l.cache.caches index ∅
          readIndex := index }
        store := store }

/-- The loop of `close`: unlike `flush` it also takes the cache of the writes. -/
def close (serialize : Obj → Option Bytes) : ℕ → CachedLedger K Obj → Option (CachedLedger K Obj)
  | 0, _ => none
  | fuel + 1, l =>
    let index := l.cache.readIndex + 1
    (l.flushCache serialize index).bind fun l' =>
      if index = l.cache.writeIndex then some l' else close serialize fuel l'

def rebuild (serialize : Obj → Option Bytes) (l : CachedLedger K Obj) :
    Option (CachedLedger K Obj) :=
  (close serialize 6 l).map fun l =>
    { l with cache := { l.cache with writeIndex := 1, readIndex := 0 } }

/-- The operations on the cache. Those that ask for the write cache say whether
the flush interval had passed then. `batchUpdate` is the commit of a temporary
cache, `tick` the timer and `flush` one round of the flush loop. -/
inductive Op (K Obj : Type) where
  | put (intervalPassed : Bool) (key : K) (value : CacheValue Obj)
  | delete (intervalPassed : Bool) (key : K)
  | batchUpdate (intervalPassed : Bool) (c : Cache K Obj)
  | tick (intervalPassed : Bool)
  | flush
  | rebuild

def writeWith (l : CachedLedger K Obj) (intervalPassed : Bool) (f : Cache K Obj → Cache K Obj) :
    Option (CachedLedger K Obj) :=
  (l.cache.getCache intervalPassed).map fun lc => { l with cache := lc.write f }

/-- One operation; `none` when it waits or when its flush fails. -/
def step (serialize : Obj → Option Bytes) (l : CachedLedger K Obj) :
    Op K Obj → Option (CachedLedger K Obj)
  | .put passed key v => l.writeWith passed fun c => c.put key (.value v)
  | .delete passed key => l.writeWith passed fun c => c.put key .deleteKeyTag
  | .batchUpdate passed batch => l.writeWith passed fun c => c.putAll batch
  | .tick passed => l.writeWith passed id
  | .flush =>
    let index := l.cache.readIndex + 1
    if index ≠ l.cache.writeIndex then l.flushCache serialize index else some l
  | .rebuild => l.rebuild serialize

def new : CachedLedger K Obj where
  cache := .new
  store := ∅

def run (serialize : Obj → Option Bytes) (ops : List (Op K Obj)) : Option (CachedLedger K Obj) :=
  ops.foldlM (step serialize) new

/-! ## The map the cache stands for -/

def Op.item (k : K) : Op K Obj → Option (CacheItem Obj)
  | .put _ key v => if k = key then some (.value v) else none
  | .delete _ key => if k = key then some .deleteKeyTag else none
  | .batchUpdate _ batch => batch.get k
  | .tick _ => none
  | .flush => none
  | .rebuild => none

def latest (ops : List (Op K Obj)) (k : K) : Option (CacheItem Obj) :=
  ops.foldl (fun before op => (op.item k).or before) none

def GetReturns (serialize : Obj → Option Bytes) (committed : Option (CacheItem Obj))
    (r : GetResult) : Prop :=
  match committed with
  | none => r = .keyNotFound
  | some .deleteKeyTag => r = .keyNotFound
  | some (.value v) => ∃ b, v.encode serialize = some b ∧ r = .found b

def GetObjectReturns (serialize : Obj → Option Bytes) (committed : Option (CacheItem Obj))
    (r : GetObjectResult Obj) : Prop :=
  match committed with
  | none => r = .keyNotFound
  | some .deleteKeyTag => r = .keyNotFound
  | some (.value v) => r = .object v ∨ ∃ b, v.encode serialize = some b ∧ r = .stored b

end CachedLedger

/-! ## The waiting caches as layers -/

namespace MemoryCache

/-- The `n` caches from `index` down. -/
def layersFrom (caches : CacheIndex → Cache K Obj) : ℕ → CacheIndex → List (Cache K Obj)
  | 0, _ => []
  | n + 1, index => caches index :: layersFrom caches n (index - 1)

def layers (lc : MemoryCache K Obj) : List (Cache K Obj) :=
  layersFrom lc.caches (lc.writeIndex - lc.readIndex).val lc.writeIndex

def Idle (lc : MemoryCache K Obj) (i : CacheIndex) : Prop :=
  (lc.writeIndex - lc.readIndex).val ≤ (lc.writeIndex - i).val

theorem search_eq (lc : MemoryCache K Obj) (key : K) (fuel : ℕ) (index : CacheIndex)
    (hfuel : (index - lc.readIndex).val ≤ fuel) :
    lc.search key fuel index =
      Layers.lookup (layersFrom lc.caches (index - lc.readIndex).val index) key := by
  induction fuel generalizing index with
  | zero =>
    rw [Nat.le_zero.mp hfuel]
    rfl
  | succ fuel ih =>
    rw [search]
    split_ifs with hindex
    · rw [hindex, Fin.sub_self]
      rfl
    · have hsucc : ∀ i r : CacheIndex, i ≠ r → (i - r).val = (i - 1 - r).val + 1 := by decide
      rw [hsucc _ _ hindex] at hfuel ⊢
      rw [layersFrom, Layers.lookup_cons, ih (index - 1) (Nat.le_of_succ_le_succ hfuel)]

theorem get_eq (lc : MemoryCache K Obj) (key : K) :
    lc.get key = Layers.lookup lc.layers key :=
  lc.search_eq key 6 lc.writeIndex (Nat.le_of_lt (lc.writeIndex - lc.readIndex).isLt)

omit [DecidableEq K] in
theorem layersFrom_succ (caches : CacheIndex → Cache K Obj) (n : ℕ) (index : CacheIndex) :
    layersFrom caches (n + 1) index =
      layersFrom caches n index ++ [caches (index - Fin.ofNat 6 n)] := by
  induction n generalizing index with
  | zero =>
    have hsub : index - Fin.ofNat 6 0 = index := by
      apply Fin.ext
      simp [Fin.sub_def, Fin.ofNat]
    rw [hsub]
    rfl
  | succ n ih =>
    have hsub : index - 1 - Fin.ofNat 6 n = index - Fin.ofNat 6 (n + 1) := by
      apply Fin.ext
      simp only [Fin.sub_def, Fin.ofNat]
      omega
    rw [layersFrom, ih (index - 1), layersFrom, List.cons_append, hsub]

omit [DecidableEq K] in
theorem layersFrom_update (caches : CacheIndex → Cache K Obj) (n : ℕ) (index i : CacheIndex)
    (t : Cache K Obj) (h : n ≤ (index - i).val) :
    layersFrom (update caches i t) n index = layersFrom caches n index := by
  induction n generalizing index with
  | zero => rfl
  | succ n ih =>
    have hprev : ∀ (index i : CacheIndex), 0 < (index - i).val →
        index ≠ i ∧ (index - i).val = (index - 1 - i).val + 1 := by decide
    obtain ⟨hne, hval⟩ := hprev index i (Nat.lt_of_lt_of_le (Nat.succ_pos n) h)
    rw [layersFrom, layersFrom, update_of_ne hne, ih (index - 1) (by omega)]

omit [DecidableEq K] in
theorem layers_eq_append (lc : MemoryCache K Obj) (h : lc.writeIndex ≠ lc.readIndex) :
    lc.layers = layersFrom lc.caches (lc.writeIndex - (lc.readIndex + 1)).val lc.writeIndex ++
      [lc.caches (lc.readIndex + 1)] := by
  have hval : ∀ w r : CacheIndex, w ≠ r → (w - r).val = (w - (r + 1)).val + 1 ∧
      w - Fin.ofNat 6 (w - (r + 1)).val = r + 1 := by decide
  obtain ⟨hsucc, hlast⟩ := hval _ _ h
  rw [layers, hsucc, layersFrom_succ, hlast]

omit [DecidableEq K] in
theorem layers_eq_cons (lc : MemoryCache K Obj) (h : lc.writeIndex ≠ lc.readIndex) :
    lc.layers = lc.caches lc.writeIndex ::
      layersFrom lc.caches (lc.writeIndex - 1 - lc.readIndex).val (lc.writeIndex - 1) := by
  have hval : ∀ w r : CacheIndex, w ≠ r → (w - r).val = (w - 1 - r).val + 1 := by decide
  rw [layers, hval _ _ h, layersFrom]

omit [DecidableEq K] in
theorem layers_write (lc : MemoryCache K Obj) (f : Cache K Obj → Cache K Obj)
    (h : lc.writeIndex ≠ lc.readIndex) :
    (lc.write f).layers = f (lc.caches lc.writeIndex) ::
      layersFrom lc.caches (lc.writeIndex - 1 - lc.readIndex).val (lc.writeIndex - 1) := by
  have hval : ∀ w r : CacheIndex, w ≠ r → (w - 1 - r).val ≤ (w - 1 - w).val := by decide
  rw [layers_eq_cons (lc.write f) h]
  simp only [write, update_self]
  rw [layersFrom_update _ _ _ _ _ (hval _ _ h)]

end MemoryCache

namespace CachedLedger

open MemoryCache

variable {serialize : Obj → Option Bytes}

/-- The caches that do not wait are empty, and layers and store represent `committed`. -/
structure Refines (serialize : Obj → Option Bytes) (l : CachedLedger K Obj)
    (committed : K → Option (CacheItem Obj)) : Prop where
  idle : ∀ i, l.cache.Idle i → l.cache.caches i = ∅
  represents : ∀ k, Layers.Represents (CacheItem.dumpToLevelDb serialize) l.cache.layers l.store k
    (committed k)

theorem new_refines : Refines serialize (new : CachedLedger K Obj) fun _ => none where
  idle _ _ := rfl
  represents _ := Layers.Represents.cons_empty_iff.mpr Layers.Represents.empty

variable {passed : Bool}

namespace Refines

variable {l l' : CachedLedger K Obj} {committed : K → Option (CacheItem Obj)}

variable (h : Refines serialize l committed)

include h

theorem getCache {lc : MemoryCache K Obj} (hget : l.cache.getCache passed = some lc) :
    Refines serialize { l with cache := lc } committed := by
  unfold MemoryCache.getCache at hget
  dsimp only at hget
  split_ifs at hget with hflush hnext
  · cases hget
    have hidle : l.cache.Idle (l.cache.writeIndex + 1) := by
      have hlast : ∀ w r : CacheIndex, (w - r).val ≤ (w - (w + 1)).val := by decide
      exact hlast _ _
    have hback : l.cache.writeIndex + 1 - 1 = l.cache.writeIndex := by
      have hall : ∀ w : CacheIndex, w + 1 - 1 = w := by decide
      exact hall _
    constructor
    · intro i hi
      have hstep : ∀ w r i : CacheIndex, w + 1 ≠ r → (w + 1 - r).val ≤ (w + 1 - i).val →
          (w - r).val ≤ (w - i).val := by decide
      exact h.idle i (hstep _ _ _ hnext hi)
    · intro k
      rw [layers_eq_cons _ hnext]
      dsimp only
      rw [h.idle _ hidle, hback]
      exact Layers.Represents.cons_empty_iff.mpr (h.represents k)
  · cases hget
    exact h

theorem write (hne : l.cache.writeIndex ≠ l.cache.readIndex) {f : Cache K Obj → Cache K Obj}
    {item : K → Option (CacheItem Obj)} (hf : ∀ c k, (f c).get k = (item k).or (c.get k)) :
    Refines serialize { l with cache := l.cache.write f } fun k => (item k).or (committed k) := by
  constructor
  · intro i hi
    have hlive : ∀ w r : CacheIndex, w ≠ r → ¬ (w - r).val ≤ (w - w).val := by decide
    have hiw : i ≠ l.cache.writeIndex := by
      rintro rfl
      exact hlive _ _ hne hi
    exact (update_of_ne hiw _ _).trans (h.idle i hi)
  · intro k
    have hk := h.represents k
    rw [layers_eq_cons _ hne] at hk
    dsimp only
    rw [layers_write _ _ hne]
    exact hk.write (hf _ k)

theorem flushCache (hne : l.cache.writeIndex ≠ l.cache.readIndex)
    (hflush : l.flushCache serialize (l.cache.readIndex + 1) = some l') :
    Refines serialize l' committed := by
  obtain ⟨store, hstore, rfl⟩ := map_eq_some_iff.mp hflush
  constructor
  · intro i hi
    by_cases hir : i = l.cache.readIndex + 1
    · rw [hir]
      exact update_self _ _ _
    · have hstep : ∀ w r i : CacheIndex, w ≠ r → i ≠ r + 1 → (w - (r + 1)).val ≤ (w - i).val →
          (w - r).val ≤ (w - i).val := by decide
      exact (update_of_ne hir _ _).trans (h.idle i (hstep _ _ _ hne hir hi))
  · intro k
    have hk := h.represents k
    rw [layers_eq_append _ hne] at hk
    unfold layers
    dsimp only
    rw [layersFrom_update _ _ _ _ _ (Nat.le_refl _)]
    exact hk.settle hstore

theorem close {fuel : ℕ} (hne : l.cache.writeIndex ≠ l.cache.readIndex)
    (hclose : l.close serialize fuel = some l') :
    Refines serialize l' committed ∧ l'.cache.writeIndex = l'.cache.readIndex := by
  induction fuel generalizing l with
  | zero => cases hclose
  | succ fuel ih =>
    obtain ⟨l₁, hflush, hrest⟩ := bind_eq_some_iff.mp hclose
    have h₁ := h.flushCache hne hflush
    obtain ⟨store, _, rfl⟩ := map_eq_some_iff.mp hflush
    split_ifs at hrest with hlast
    · cases hrest
      exact ⟨h₁, hlast.symm⟩
    · exact ih h₁ (Ne.symm hlast) hrest

theorem reset (heq : l.cache.writeIndex = l.cache.readIndex) :
    Refines serialize { l with cache := { l.cache with writeIndex := 1, readIndex := 0 } }
      committed := by
  have hempty : ∀ i, l.cache.caches i = ∅ := by
    intro i
    apply h.idle
    rw [Idle, heq, Fin.sub_self]
    exact Nat.zero_le _
  constructor
  · exact fun i _ => hempty i
  · intro k
    have hk := h.represents k
    rw [layers, heq, Fin.sub_self] at hk
    change Layers.Represents _ [l.cache.caches 1] l.store k (committed k)
    rw [hempty 1]
    exact Layers.Represents.cons_empty_iff.mpr hk

end Refines

omit [DecidableEq K] in
theorem indexes_ne_of_getCache {lc lc' : MemoryCache K Obj} (hne : lc.writeIndex ≠ lc.readIndex)
    (h : lc.getCache passed = some lc') : lc'.writeIndex ≠ lc'.readIndex := by
  unfold MemoryCache.getCache at h
  dsimp only at h
  split_ifs at h with _ hnext
  · cases h
    exact hnext
  · cases h
    exact hne

structure Keeps (serialize : Obj → Option Bytes) (l : CachedLedger K Obj)
    (committed : K → Option (CacheItem Obj)) : Prop where
  refines : Refines serialize l committed
  indexes : l.cache.writeIndex ≠ l.cache.readIndex

namespace Keeps

variable {l l' : CachedLedger K Obj} {committed : K → Option (CacheItem Obj)}

variable (h : Keeps serialize l committed)

include h

theorem writeWith {f : Cache K Obj → Cache K Obj} {item : K → Option (CacheItem Obj)}
    (hf : ∀ c k, (f c).get k = (item k).or (c.get k)) (hstep : l.writeWith passed f = some l') :
    Keeps serialize l' fun k => (item k).or (committed k) := by
  obtain ⟨lc, hget, rfl⟩ := map_eq_some_iff.mp hstep
  have hne := indexes_ne_of_getCache h.indexes hget
  exact ⟨(h.refines.getCache hget).write hne hf, hne⟩

theorem step {op : Op K Obj} (hstep : l.step serialize op = some l') :
    Keeps serialize l' fun k => (op.item k).or (committed k) := by
  cases op with
  | put passed key v | delete passed key =>
    refine h.writeWith (fun c k => ?_) hstep
    rw [Table.get_put, Op.item]
    split_ifs <;> rfl
  | batchUpdate passed batch => exact h.writeWith (fun c k => Table.get_putAll c batch k) hstep
  | tick passed => exact h.writeWith (fun c k => (none_or).symm) hstep
  | flush =>
    unfold CachedLedger.step at hstep
    dsimp only at hstep
    split_ifs at hstep with hnext
    · have hrefines := h.refines.flushCache h.indexes hstep
      obtain ⟨store, _, rfl⟩ := map_eq_some_iff.mp hstep
      exact ⟨hrefines, Ne.symm hnext⟩
    · cases hstep
      exact h
  | rebuild =>
    obtain ⟨l₁, hclose, rfl⟩ := map_eq_some_iff.mp hstep
    obtain ⟨hrefines, heq⟩ := h.refines.close h.indexes hclose
    exact ⟨hrefines.reset heq, by change (1 : CacheIndex) ≠ 0; decide⟩

theorem foldlM {ops : List (Op K Obj)}
    (hrun : ops.foldlM (CachedLedger.step serialize) l = some l') :
    Keeps serialize l' fun k => ops.foldl (fun before op => (op.item k).or before) (committed k) := by
  induction ops generalizing l committed with
  | nil =>
    cases hrun
    exact h
  | cons op ops ih =>
    rw [List.foldlM_cons] at hrun
    obtain ⟨l₁, hstep, hrest⟩ := bind_eq_some_iff.mp hrun
    exact ih (h.step hstep) hrest

end Keeps

variable {l : CachedLedger K Obj}

theorem run_keeps {ops : List (Op K Obj)} (h : run serialize ops = some l) :
    Keeps serialize l (latest ops) :=
  Keeps.foldlM ⟨new_refines, by change (1 : CacheIndex) ≠ 0; decide⟩ h

theorem stored_cases {k : K} {committed : Option (CacheItem Obj)}
    (h : committed.elim (some none) (CacheItem.dumpToLevelDb serialize) = some (l.store.get k)) :
    (l.store.get k = none ∧ (committed = none ∨ committed = some .deleteKeyTag)) ∨
      ∃ v b, l.store.get k = some b ∧ committed = some (.value v) ∧ v.encode serialize = some b := by
  cases committed with
  | none => exact Or.inl ⟨(Option.some.inj h).symm, Or.inl rfl⟩
  | some item =>
    cases item with
    | deleteKeyTag => exact Or.inl ⟨(Option.some.inj h).symm, Or.inr rfl⟩
    | value v =>
      obtain ⟨b, hb, hget⟩ := map_eq_some_iff.mp h
      exact Or.inr ⟨v, b, hget.symm, rfl, hb⟩

theorem reads_iff {k : K} {committed : Option (CacheItem Obj)}
    (h : Layers.Represents (CacheItem.dumpToLevelDb serialize) l.cache.layers l.store k committed) :
    (GetReturns serialize committed (l.get k none) ↔
      ∀ v, l.cache.get k = some (.value v) → ∃ b, v = .bytes b) ∧
    (GetObjectReturns serialize committed (l.getObject k none) ↔
      l.cache.get k ≠ some (.value .nil)) := by
  unfold Layers.Represents at h
  rw [← MemoryCache.get_eq] at h
  unfold get getObject
  cases hcache : l.cache.get k with
  | none =>
    rw [hcache] at h
    rcases stored_cases h with ⟨hstore, hlatest | hlatest⟩ | ⟨v, b, hstore, hlatest, hv⟩
    · simp [hstore, hlatest, GetReturns, GetObjectReturns, itemBytes, itemObject]
    · simp [hstore, hlatest, GetReturns, GetObjectReturns, itemBytes, itemObject]
    · simp [hstore, hlatest, hv, GetReturns, GetObjectReturns, itemBytes, itemObject]
  | some item =>
    rw [hcache] at h
    dsimp only at h
    rw [h]
    cases item with
    | deleteKeyTag => simp [GetReturns, GetObjectReturns, itemBytes, itemObject]
    | value v =>
      cases v with
      | nil =>
        cases l.store.get k <;>
          simp [GetReturns, GetObjectReturns, itemBytes, itemObject, CacheValue.encode]
      | bytes b => simp [GetReturns, GetObjectReturns, itemBytes, itemObject, CacheValue.encode]
      | object o => simp [GetReturns, GetObjectReturns, itemBytes, itemObject]

/-- Over a run, `Get` answers with what was committed last exactly if the caches hold
neither an object nor nil under the key, and `GetObject` exactly if they do not hold nil. -/
theorem reads_latest_iff {ops : List (Op K Obj)} {l : CachedLedger K Obj}
    (h : run serialize ops = some l) (k : K) :
    (GetReturns serialize (latest ops k) (l.get k none) ↔
      ∀ v, l.cache.get k = some (.value v) → ∃ b, v = .bytes b) ∧
    (GetObjectReturns serialize (latest ops k) (l.getObject k none) ↔
      l.cache.get k ≠ some (.value .nil)) :=
  reads_iff ((run_keeps h).refines.represents k)

def childKey (parent : Hash) : Bytes := 9 :: hashBytes parent

/-- The put that `setBlockChild` makes: the hash is an object of the cache. -/
def putChild (parent child : Hash) : Op Bytes Hash :=
  .put false (childKey parent) (.object child)

def serializeHash (h : Hash) : Option Bytes := some (hashBytes h)

/-- While the object waits in the ring `Get` panics on it; once it is flushed `Get` returns
its bytes. -/
theorem get_panics_on_waiting_object :
    ∃ l l', run serializeHash [putChild 1 2] = some l ∧
      run serializeHash [putChild 1 2, .tick true, .flush] = some l' ∧
      l.get (childKey 1) none = .typePanic ∧ l'.get (childKey 1) none = .found (hashBytes 2) ∧
      ¬ GetReturns serializeHash (latest [putChild 1 2] (childKey 1))
        (l.get (childKey 1) none) := by
  have hwaits : (run serializeHash [putChild 1 2]).map (fun l => l.get (childKey 1) none) =
      some .typePanic := by decide
  have hflushed : (run serializeHash [putChild 1 2, .tick true, .flush]).map
      (fun l => l.get (childKey 1) none) = some (.found (hashBytes 2)) := by decide
  obtain ⟨l, hrun, hget⟩ := map_eq_some_iff.mp hwaits
  obtain ⟨l', hrun', hget'⟩ := map_eq_some_iff.mp hflushed
  refine ⟨l, l', hrun, hrun', hget, hget', ?_⟩
  rw [hget]
  rintro ⟨b, _, hfound⟩
  cases hfound

def twoPuts : List (Op Bytes Hash) :=
  [putChild 1 2, .put true (childKey 3) (.bytes [7]), .flush]

theorem reads_latest_of_twoPuts :
    ∃ l, run serializeHash twoPuts = some l ∧
      GetReturns serializeHash (latest twoPuts (childKey 1)) (l.get (childKey 1) none) ∧
      GetReturns serializeHash (latest twoPuts (childKey 3)) (l.get (childKey 3) none) := by
  have hheld : (run serializeHash twoPuts).map
      (fun l => (l.cache.get (childKey 1), l.cache.get (childKey 3))) =
        some (none, some (.value (.bytes [7]))) := by decide
  obtain ⟨l, hrun, hget⟩ := map_eq_some_iff.mp hheld
  obtain ⟨h₁, h₃⟩ := Prod.mk.inj hget
  refine ⟨l, hrun, (reads_latest_iff hrun _).1.mpr ?_, (reads_latest_iff hrun _).1.mpr ?_⟩
  · rw [h₁]
    rintro v ⟨⟩
  · rw [h₃]
    rintro v ⟨⟩
    exact ⟨[7], rfl⟩

end CachedLedger

end GoQlc
