import Mathlib.Data.List.TakeWhile
import GoQlc.Ledger.Cache
import GoQlc.Lib.Utf8

/-!
# Iteration over the ring and the store

`Iterator` visits the waiting caches from the newest to the oldest, each in the order in which its
map is ranged over, and then the store.
-/

namespace GoQlc

open List MemoryCache Utf8

namespace CachedLedger

variable {Obj : Type}

abbrev CacheEntry (Obj : Type) := Sigma fun _ : Bytes => CacheItem Obj

structure Visit (Obj : Type) where
  keys : List Bytes
  calls : List (Bytes × CacheValue Obj)

section Model

variable (simpleFold : ℕ → ℕ) (accepts : CacheValue Obj → Bool) (pre : Bytes)

def hasPrefix (key pre : Bytes) : Bool := pre.isPrefixOf key

def contain (kvs : List Bytes) (key : Bytes) : Bool :=
  kvs.any fun kv => equalFold simpleFold kv key

/-- One item of the loop over a cache; `none` is the panic of a call whose value does not have
the type that the callback takes. -/
def visitItem (s : Visit Obj) (e : CacheEntry Obj) : Option (Visit Obj) :=
  if hasPrefix e.1 pre then
    match e.2 with
    | .deleteKeyTag => some { s with keys := s.keys ++ [e.1] }
    | .value v =>
      if contain simpleFold s.keys e.1 then
        some { s with keys := s.keys ++ [e.1] }
      else if accepts v then
        some { keys := s.keys ++ [e.1], calls := s.calls ++ [(e.1, v)] }
      else
        none
  else
    some s

/-- The loop over the caches from `index` down. -/
def prefixIterator (l : CachedLedger Bytes Obj) (order : CacheIndex → List (CacheEntry Obj)) :
    ℕ → CacheIndex → Visit Obj → Option (Visit Obj)
  | 0, _, s => some s
  | fuel + 1, index, s =>
    if index = l.cache.readIndex then
      some s
    else
      ((order index).foldlM (visitItem simpleFold accepts pre) s).bind
        (prefixIterator l order fuel (index - 1))

/-- The calls for the store, whose keys are visited in the order of `storeOrder`. The store
refuses an empty prefix. -/
def storeCalls (keys : List Bytes) (storeOrder : List (Sigma fun _ : Bytes => Bytes)) :
    List (Bytes × CacheValue Obj) :=
  if pre.length = 0 then
    []
  else
    (storeOrder.filter fun e => hasPrefix e.1 pre && !contain simpleFold keys e.1).map
      fun e => (e.1, .bytes e.2)

def iterate (l : CachedLedger Bytes Obj) (order : CacheIndex → List (CacheEntry Obj))
    (storeOrder : List (Sigma fun _ : Bytes => Bytes)) : Option (List (Bytes × CacheValue Obj)) :=
  (prefixIterator simpleFold accepts pre l order 6 l.cache.writeIndex ⟨[], []⟩).map fun s =>
    s.calls ++ storeCalls simpleFold pre s.keys storeOrder

end Model

/-- What `v.([]byte)` does not panic on. -/
def isBytes : CacheValue Obj → Bool
  | .bytes _ => true
  | .nil => false
  | .object _ => false

/-- `Iterator` calls back with bytes. -/
def iterator (simpleFold : ℕ → ℕ) (pre : Bytes) (l : CachedLedger Bytes Obj)
    (order : CacheIndex → List (CacheEntry Obj))
    (storeOrder : List (Sigma fun _ : Bytes => Bytes)) : Option (List (Bytes × CacheValue Obj)) :=
  iterate simpleFold isBytes pre l order storeOrder

/-- `IteratorObject` calls back with any value. -/
def iteratorObject (simpleFold : ℕ → ℕ) (pre : Bytes) (l : CachedLedger Bytes Obj)
    (order : CacheIndex → List (CacheEntry Obj))
    (storeOrder : List (Sigma fun _ : Bytes => Bytes)) : Option (List (Bytes × CacheValue Obj)) :=
  iterate simpleFold (fun _ => true) pre l order storeOrder

def Live (l : CachedLedger Bytes Obj) (k : Bytes) (v : CacheValue Obj) : Prop :=
  match l.cache.get k with
  | some (.value w) => v = w
  | some .deleteKeyTag => False
  | none => ∃ b, l.store.get k = some b ∧ v = .bytes b

def Complete (l : CachedLedger Bytes Obj) (pre : Bytes) (calls : List (Bytes × CacheValue Obj)) :
    Prop :=
  (calls.map Prod.fst).Nodup ∧ ∀ k v, (k, v) ∈ calls ↔ hasPrefix k pre = true ∧ Live l k v

def visitedFrom (order : CacheIndex → List (CacheEntry Obj)) :
    ℕ → CacheIndex → List (CacheEntry Obj)
  | 0, _ => []
  | n + 1, index => order index ++ visitedFrom order n (index - 1)

def visited (l : CachedLedger Bytes Obj) (order : CacheIndex → List (CacheEntry Obj)) :
    List (CacheEntry Obj) :=
  visitedFrom order (l.cache.writeIndex - l.cache.readIndex).val l.cache.writeIndex

def MetFirst (simpleFold : ℕ → ℕ) (pre : Bytes) (es : List (CacheEntry Obj)) (k : Bytes) : Prop :=
  ∀ e ∈ es.takeWhile fun e => e.1 ≠ k, hasPrefix e.1 pre = true →
    equalFold simpleFold e.1 k = false

/-! ## The calls for the caches -/

variable {k : Bytes} {keys : List Bytes} {v : CacheValue Obj}

section Calls

variable {simpleFold : ℕ → ℕ} {accepts : CacheValue Obj → Bool} {pre : Bytes}

def prefixed (pre : Bytes) (es : List (CacheEntry Obj)) : List Bytes :=
  (es.map Sigma.fst).filter fun k => hasPrefix k pre

def callFor (simpleFold : ℕ → ℕ) (pre : Bytes) (keys : List Bytes) (e : CacheEntry Obj) :
    Option (Bytes × CacheValue Obj) :=
  match e.2 with
  | .deleteKeyTag => none
  | .value v =>
    if hasPrefix e.1 pre && !contain simpleFold keys e.1 then some (e.1, v) else none

def ringCalls (simpleFold : ℕ → ℕ) (pre : Bytes) :
    List Bytes → List (CacheEntry Obj) → List (Bytes × CacheValue Obj)
  | _, [] => []
  | keys, e :: es =>
    (callFor simpleFold pre keys e).toList ++ ringCalls simpleFold pre (keys ++ prefixed pre [e]) es

theorem contain_append (keys keys' : List Bytes) (k : Bytes) :
    contain simpleFold (keys ++ keys') k =
      (contain simpleFold keys k || contain simpleFold keys' k) :=
  any_append

theorem callFor_eq_some {e : CacheEntry Obj} :
    callFor simpleFold pre keys e = some (k, v) ↔
      e = ⟨k, .value v⟩ ∧ hasPrefix k pre = true ∧ contain simpleFold keys k = false := by
  obtain ⟨k', item⟩ := e
  cases item with
  | deleteKeyTag => simp [callFor]
  | value w =>
    unfold callFor
    dsimp only
    split_ifs with h
    · rw [Bool.and_eq_true, Bool.not_eq_true'] at h
      constructor
      · rintro ⟨⟩
        exact ⟨rfl, h⟩
      · rintro ⟨⟨⟩, -⟩
        rfl
    · constructor
      · rintro ⟨⟩
      · rintro ⟨⟨⟩, hpre, hmet⟩
        exact absurd (by rw [hpre, hmet]; rfl) h

theorem visitItem_eq (s : Visit Obj) (e : CacheEntry Obj) :
    visitItem simpleFold accepts pre s e =
      if (callFor simpleFold pre s.keys e).all fun c => accepts c.2 then
        some ⟨s.keys ++ prefixed pre [e], s.calls ++ (callFor simpleFold pre s.keys e).toList⟩
      else
        none := by
  obtain ⟨k, item⟩ := e
  unfold visitItem prefixed callFor
  by_cases hpre : hasPrefix k pre
  · cases item with
    | deleteKeyTag => simp [hpre]
    | value v =>
      by_cases hmet : contain simpleFold s.keys k
      · simp [hpre, hmet]
      · by_cases haccepts : accepts v <;> simp [hpre, hmet, haccepts]
  · cases item <;> simp [hpre]

theorem foldlM_visitItem (es : List (CacheEntry Obj)) (s : Visit Obj) :
    es.foldlM (visitItem simpleFold accepts pre) s =
      if (ringCalls simpleFold pre s.keys es).all fun c => accepts c.2 then
        some ⟨s.keys ++ prefixed pre es, s.calls ++ ringCalls simpleFold pre s.keys es⟩
      else
        none := by
  induction es generalizing s with
  | nil => simp [ringCalls, prefixed]
  | cons e es ih =>
    have hall : ((ringCalls simpleFold pre s.keys (e :: es)).all fun c => accepts c.2) =
        (((callFor simpleFold pre s.keys e).all fun c => accepts c.2) &&
          (ringCalls simpleFold pre (s.keys ++ prefixed pre [e]) es).all fun c => accepts c.2) := by
      rw [ringCalls, all_append]
      cases callFor simpleFold pre s.keys e <;> simp
    have hkeys : prefixed pre (e :: es) = prefixed pre [e] ++ prefixed pre es := by
      simp [prefixed, filter_cons]
      split_ifs <;> rfl
    rw [foldlM_cons, visitItem_eq, hall]
    by_cases haccepts : (callFor simpleFold pre s.keys e).all fun c => accepts c.2
    · rw [if_pos haccepts, haccepts, Bool.true_and, hkeys, ringCalls]
      simp only [Option.bind_eq_bind, Option.bind_some, ih, append_assoc]
    · rw [if_neg haccepts, if_neg (by simp [haccepts])]
      rfl

theorem mem_ringCalls (keys : List Bytes) (es : List (CacheEntry Obj)) (k : Bytes)
    (v : CacheValue Obj) :
    (k, v) ∈ ringCalls simpleFold pre keys es ↔
      hasPrefix k pre = true ∧ es.dlookup k = some (.value v) ∧
        contain simpleFold keys k = false ∧ MetFirst simpleFold pre es k := by
  unfold MetFirst
  induction es generalizing keys with
  | nil => simp [ringCalls]
  | cons e es ih =>
    rw [ringCalls, mem_append, Option.mem_toList, callFor_eq_some, ih, contain_append,
       Bool.or_eq_false_iff]
    by_cases hk : e.1 = k
    · -- the item of the key itself: it is called for here or never
      subst hk
      have htake : List.takeWhile (fun e' : CacheEntry Obj => decide (e'.1 ≠ e.1)) (e :: es) = [] := by
        simp
      have hself : hasPrefix e.1 pre = true → contain simpleFold (prefixed pre [e]) e.1 = true := by
        intro hpre
        simp [prefixed, hpre, contain, equalFold_refl]
      have hlookup : (e :: es).dlookup e.1 = some e.2 := dlookup_cons_eq es e.1 e.2
      rw [htake, hlookup]
      obtain ⟨k, item⟩ := e
      constructor
      · rintro (⟨heq, hpre, hmet⟩ | ⟨hpre, -, ⟨-, hnot⟩, -⟩)
        · obtain rfl : item = .value v := by simpa using heq
          exact ⟨hpre, rfl, hmet, nofun⟩
        · rw [hself hpre] at hnot
          cases hnot
      · rintro ⟨hpre, heq, hmet, -⟩
        cases heq
        exact Or.inl ⟨rfl, hpre, hmet⟩
    · have htake : List.takeWhile (fun e' : CacheEntry Obj => decide (e'.1 ≠ k)) (e :: es) =
          e :: List.takeWhile (fun e' : CacheEntry Obj => decide (e'.1 ≠ k)) es := by
        simp [hk]
      have hother : contain simpleFold (prefixed pre [e]) k = false ↔
          (hasPrefix e.1 pre = true → equalFold simpleFold e.1 k = false) := by
        by_cases hpre : hasPrefix e.1 pre <;> simp [prefixed, hpre, contain]
      have hne : e ≠ ⟨k, .value v⟩ := by
        rintro rfl
        exact hk rfl
      rw [htake, dlookup_cons_ne _ _ (Ne.symm hk), forall_mem_cons, hother]
      simp only [hne, false_and, false_or, and_assoc]

theorem nodup_ringCalls (keys : List Bytes) (es : List (CacheEntry Obj)) :
    ((ringCalls simpleFold pre keys es).map Prod.fst).Nodup := by
  induction es generalizing keys with
  | nil => exact nodup_nil
  | cons e es ih =>
    rw [ringCalls]
    cases hcall : callFor simpleFold pre keys e with
    | none => exact ih _
    | some c =>
      obtain ⟨k, v⟩ := c
      obtain ⟨rfl, hpre, -⟩ := callFor_eq_some.mp hcall
      rw [Option.toList_some, singleton_append, map_cons, nodup_cons]
      refine ⟨fun hmem => ?_, ih _⟩
      obtain ⟨⟨k', w⟩, hw, hk'⟩ := mem_map.mp hmem
      obtain rfl : k' = k := hk'
      have hnot := ((mem_ringCalls _ _ _ _).mp hw).2.2.1
      simp [prefixed, hpre, contain, equalFold_refl] at hnot

end Calls

/-! ## The whole iteration -/

section Whole

variable {simpleFold : ℕ → ℕ} {accepts : CacheValue Obj → Bool} {pre : Bytes}
variable {l : CachedLedger Bytes Obj} {order : CacheIndex → List (CacheEntry Obj)}
variable {storeOrder : List (Sigma fun _ : Bytes => Bytes)}

theorem prefixIterator_eq (fuel : ℕ) (index : CacheIndex) (s : Visit Obj)
    (hfuel : (index - l.cache.readIndex).val ≤ fuel) :
    prefixIterator simpleFold accepts pre l order fuel index s =
      (visitedFrom order (index - l.cache.readIndex).val index).foldlM
        (visitItem simpleFold accepts pre) s := by
  induction fuel generalizing index s with
  | zero =>
    rw [Nat.le_zero.mp hfuel]
    rfl
  | succ fuel ih =>
    rw [prefixIterator]
    split_ifs with hindex
    · rw [hindex, Fin.sub_self]
      rfl
    · have hsucc : ∀ i r : CacheIndex, i ≠ r → (i - r).val = (i - 1 - r).val + 1 := by decide
      rw [hsucc _ _ hindex] at hfuel ⊢
      rw [visitedFrom, foldlM_append]
      congr 1
      funext s'
      exact ih (index - 1) s' (Nat.le_of_succ_le_succ hfuel)

theorem dlookup_visitedFrom (horder : ∀ i, (order i).Perm (l.cache.caches i).entries) (n : ℕ)
    (index : CacheIndex) (k : Bytes) :
    (visitedFrom order n index).dlookup k =
      Layers.lookup (layersFrom l.cache.caches n index) k := by
  induction n generalizing index with
  | zero => rfl
  | succ n ih =>
    rw [visitedFrom, dlookup_append, layersFrom, Layers.lookup_cons, ih]
    congr 1
    exact (perm_dlookup k (l.cache.caches index).nodupKeys (horder index).symm).symm

theorem dlookup_visited (horder : ∀ i, (order i).Perm (l.cache.caches i).entries) (k : Bytes) :
    (visited l order).dlookup k = l.cache.get k := by
  rw [get_eq]
  exact dlookup_visitedFrom horder _ _ k

theorem iterate_eq (l : CachedLedger Bytes Obj) (order : CacheIndex → List (CacheEntry Obj))
    (storeOrder : List (Sigma fun _ : Bytes => Bytes)) :
    iterate simpleFold accepts pre l order storeOrder =
      if (ringCalls simpleFold pre [] (visited l order)).all fun c => accepts c.2 then
        some (ringCalls simpleFold pre [] (visited l order) ++
          storeCalls simpleFold pre (prefixed pre (visited l order)) storeOrder)
      else
        none := by
  have hfuel : (l.cache.writeIndex - l.cache.readIndex).val ≤ 6 :=
    Nat.le_of_lt (l.cache.writeIndex - l.cache.readIndex).isLt
  rw [iterate, prefixIterator_eq 6 _ _ hfuel, foldlM_visitItem]
  change Option.map _ (if (ringCalls simpleFold pre [] (visited l order)).all _ = true then _
    else none) = _
  split_ifs <;> rfl

variable {es : List (CacheEntry Obj)}

theorem contain_prefixed_eq_false :
    contain simpleFold (prefixed pre es) k = false ↔
      ∀ e ∈ es, hasPrefix e.1 pre = true → equalFold simpleFold e.1 k = false := by
  rw [contain, any_eq_false]
  simp only [prefixed, mem_filter, mem_map, Bool.not_eq_true]
  constructor
  · exact fun h e he hpre => h e.1 ⟨⟨e, he, rfl⟩, hpre⟩
  · rintro h _ ⟨⟨e, he, rfl⟩, hpre⟩
    exact h e he hpre

theorem mem_storeCalls (hstore : storeOrder.Perm l.store.entries) :
    (k, v) ∈ storeCalls simpleFold pre keys storeOrder ↔
      pre ≠ [] ∧ hasPrefix k pre = true ∧ contain simpleFold keys k = false ∧
        ∃ b, l.store.get k = some b ∧ v = .bytes b := by
  have hget : ∀ b, ⟨k, b⟩ ∈ storeOrder ↔ l.store.get k = some b := by
    intro b
    rw [hstore.mem_iff]
    exact (mem_dlookup_iff l.store.nodupKeys).symm
  unfold storeCalls
  by_cases hpre : pre = []
  · simp [hpre]
  · rw [if_neg (by simpa using hpre), mem_map]
    simp only [mem_filter, Bool.and_eq_true, Bool.not_eq_true']
    constructor
    · rintro ⟨⟨k', b⟩, ⟨hmem, hk, hmet⟩, heq⟩
      obtain ⟨rfl, rfl⟩ := Prod.mk.inj heq
      exact ⟨hpre, hk, hmet, b, (hget b).mp hmem, rfl⟩
    · rintro ⟨-, hk, hmet, b, hb, rfl⟩
      exact ⟨⟨k, b⟩, ⟨(hget b).mpr hb, hk, hmet⟩, rfl⟩

theorem nodup_storeCalls (hstore : storeOrder.Perm l.store.entries) :
    ((storeCalls simpleFold pre keys storeOrder : List (Bytes × CacheValue Obj)).map
      Prod.fst).Nodup := by
  have hkeys : (storeOrder.map Sigma.fst).Nodup :=
    ((hstore.map Sigma.fst).nodup_iff).mpr l.store.nodupKeys
  unfold storeCalls
  split_ifs
  · exact nodup_nil
  · rw [map_map]
    exact hkeys.sublist (List.Sublist.map Sigma.fst filter_sublist)

theorem metFirst_of_not_held (h : es.dlookup k = none) :
    MetFirst simpleFold pre es k ↔ contain simpleFold (prefixed pre es) k = false := by
  have htake : es.takeWhile (fun e => decide (e.1 ≠ k)) = es := by
    rw [takeWhile_eq_self_iff]
    intro e he
    have hnot := dlookup_eq_none.mp h
    rw [decide_eq_true_eq]
    rintro rfl
    exact hnot (mem_keys_of_mem he)
  rw [MetFirst, htake, contain_prefixed_eq_false]

theorem contain_of_held {item : CacheItem Obj} (h : es.dlookup k = some item)
    (hpre : hasPrefix k pre = true) : contain simpleFold (prefixed pre es) k = true := by
  rw [← Bool.not_eq_false, contain_prefixed_eq_false]
  intro hall
  have hmem := of_mem_dlookup (Option.mem_def.mpr h)
  have hself := hall _ hmem hpre
  rw [equalFold_refl] at hself
  cases hself

theorem mem_calls (horder : ∀ i, (order i).Perm (l.cache.caches i).entries)
    (hstore : storeOrder.Perm l.store.entries) :
    (k, v) ∈ ringCalls simpleFold pre [] (visited l order) ++
        storeCalls simpleFold pre (prefixed pre (visited l order)) storeOrder ↔
      hasPrefix k pre = true ∧ Live l k v ∧ MetFirst simpleFold pre (visited l order) k ∧
        (l.cache.get k = none → pre ≠ []) := by
  rw [mem_append, mem_ringCalls, mem_storeCalls hstore, dlookup_visited horder]
  unfold Live
  cases hget : l.cache.get k with
  | some item =>
    have hheld := (dlookup_visited horder k).trans hget
    have hcontain : hasPrefix k pre = true →
        contain simpleFold (prefixed pre (visited l order)) k = true := contain_of_held hheld
    cases item with
    | deleteKeyTag =>
      constructor
      · rintro (⟨-, heq, -⟩ | ⟨-, hpre, hnot, -⟩)
        · cases heq
        · rw [hcontain hpre] at hnot
          cases hnot
      · rintro ⟨-, hfalse, -⟩
        exact hfalse.elim
    | value w =>
      constructor
      · rintro (⟨hpre, heq, -, hmet⟩ | ⟨-, hpre, hnot, -⟩)
        · cases heq
          exact ⟨hpre, rfl, hmet, nofun⟩
        · rw [hcontain hpre] at hnot
          cases hnot
      · rintro ⟨hpre, rfl, hmet, -⟩
        exact Or.inl ⟨hpre, rfl, rfl, hmet⟩
  | none =>
    rw [metFirst_of_not_held ((dlookup_visited horder k).trans hget)]
    constructor
    · rintro (⟨-, heq, -⟩ | ⟨hne, hpre, hmet, hb⟩)
      · cases heq
      · exact ⟨hpre, hb, hmet, fun _ => hne⟩
    · rintro ⟨hpre, hb, hmet, hne⟩
      exact Or.inr ⟨hne rfl, hpre, hmet, hb⟩

theorem nodup_calls (hstore : storeOrder.Perm l.store.entries) :
    ((ringCalls simpleFold pre [] (visited l order) ++
      storeCalls simpleFold pre (prefixed pre (visited l order)) storeOrder).map Prod.fst).Nodup := by
  rw [map_append, nodup_append]
  refine ⟨nodup_ringCalls _ _, nodup_storeCalls hstore, ?_⟩
  rintro k hring _ hstored rfl
  obtain ⟨⟨k', v⟩, hv, rfl⟩ := mem_map.mp hring
  obtain ⟨⟨k'', w⟩, hw, heq⟩ := mem_map.mp hstored
  obtain rfl : k'' = k' := heq
  obtain ⟨hpre, hlookup, -⟩ := (mem_ringCalls _ _ _ _).mp hv
  obtain ⟨-, -, hnot, -⟩ := (mem_storeCalls hstore).mp hw
  rw [contain_of_held hlookup hpre] at hnot
  cases hnot

/-- An iteration calls back once for every live key with the prefix, with its newest value,
exactly if no other key taken for a live one is met before it, the caches hold only values
that the callback takes, and with the empty prefix the store has no live key. -/
theorem iterate_complete_iff (horder : ∀ i, (order i).Perm (l.cache.caches i).entries)
    (hstore : storeOrder.Perm l.store.entries) :
    (∃ calls, iterate simpleFold accepts pre l order storeOrder = some calls ∧
        Complete l pre calls) ↔
      ∀ k v, hasPrefix k pre = true → Live l k v →
        MetFirst simpleFold pre (visited l order) k ∧ (l.cache.get k ≠ none → accepts v = true) ∧
          (l.cache.get k = none → pre ≠ []) := by
  rw [iterate_eq]
  have hring : ∀ {k v}, (k, v) ∈ ringCalls simpleFold pre [] (visited l order) ↔
      hasPrefix k pre = true ∧ l.cache.get k = some (.value v) ∧
        MetFirst simpleFold pre (visited l order) k := by
    intro k v
    rw [mem_ringCalls, dlookup_visited horder]
    simp [contain]
  constructor
  · rintro ⟨calls, hcalls, -, hcomplete⟩ k v hpre hlive
    split_ifs at hcalls with hall
    cases hcalls
    obtain ⟨-, -, hmet, hempty⟩ := (mem_calls horder hstore).mp ((hcomplete k v).mpr ⟨hpre, hlive⟩)
    refine ⟨hmet, fun hheld => ?_, hempty⟩
    have hitem : l.cache.get k = some (.value v) := by
      unfold Live at hlive
      cases hget : l.cache.get k with
      | none => exact absurd hget hheld
      | some item =>
        rw [hget] at hlive
        cases item with
        | deleteKeyTag => exact hlive.elim
        | value w => rw [hlive]
    exact all_eq_true.mp hall (k, v) (hring.mpr ⟨hpre, hitem, hmet⟩)
  · intro h
    have hall : ((ringCalls simpleFold pre [] (visited l order)).all fun c => accepts c.2) = true := by
      rw [all_eq_true]
      rintro ⟨k, v⟩ hmem
      obtain ⟨hpre, hget, -⟩ := hring.mp hmem
      exact (h k v hpre (by rw [Live, hget])).2.1 (by rw [hget]; exact nofun)
    refine ⟨_, if_pos hall, nodup_calls hstore, fun k v => ?_⟩
    rw [mem_calls horder hstore]
    constructor
    · exact fun ⟨hpre, hlive, _⟩ => ⟨hpre, hlive⟩
    · intro ⟨hpre, hlive⟩
      obtain ⟨hmet, -, hempty⟩ := h k v hpre hlive
      exact ⟨hpre, hlive, hmet, hempty⟩

/-- Both iterators against the live keys. -/
theorem iterators_complete_iff (horder : ∀ i, (order i).Perm (l.cache.caches i).entries)
    (hstore : storeOrder.Perm l.store.entries) :
    ((∃ calls, iterator simpleFold pre l order storeOrder = some calls ∧ Complete l pre calls) ↔
      ∀ k v, hasPrefix k pre = true → Live l k v →
        MetFirst simpleFold pre (visited l order) k ∧ (l.cache.get k ≠ none → ∃ b, v = .bytes b) ∧
          (l.cache.get k = none → pre ≠ [])) ∧
    ((∃ calls, iteratorObject simpleFold pre l order storeOrder = some calls ∧
        Complete l pre calls) ↔
      ∀ k v, hasPrefix k pre = true → Live l k v →
        MetFirst simpleFold pre (visited l order) k ∧ (l.cache.get k = none → pre ≠ [])) := by
  have hbytes : ∀ v : CacheValue Obj, isBytes v = true ↔ ∃ b, v = .bytes b := by
    intro v
    cases v <;> simp [isBytes]
  constructor
  · rw [iterator, iterate_complete_iff horder hstore]
    simp only [hbytes]
  · rw [iteratorObject, iterate_complete_iff horder hstore]
    simp only [implies_true, true_and]

/-! ## Two keys taken for one -/

def twoKeys (flushed waiting : Bytes) : List (Op Bytes Unit) :=
  [.put false flushed (.bytes [1]), .tick true, .flush, .put false waiting (.bytes [2])]

/-- The callback is not called for the flushed key: its last byte and that of the waiting key are
both malformed as text. -/
theorem iterator_skips_live_key :
    ∃ l, run (fun _ => some []) (twoKeys [9, 0x80] [9, 0x81]) = some l ∧
      l.get [9, 0x80] none = .found [1] ∧ l.get [9, 0x81] none = .found [2] ∧
      ∀ simpleFold,
        iterator simpleFold [9] l (fun i => (l.cache.caches i).entries) l.store.entries =
          some [([9, 0x81], .bytes [2])] ∧
        iteratorObject simpleFold [9] l (fun i => (l.cache.caches i).entries) l.store.entries =
          some [([9, 0x81], .bytes [2])] :=
  ⟨_, rfl, by decide, by decide, fun _ => ⟨rfl, rfl⟩⟩

theorem iterator_finds_both_keys :
    ∃ l, run (fun _ => some []) (twoKeys [9, 1] [9, 2]) = some l ∧
      ∃ calls, iterator id [9] l (fun i => (l.cache.caches i).entries) l.store.entries = some calls ∧
        Complete l [9] calls := by
  refine ⟨_, rfl, (iterators_complete_iff (fun _ => List.Perm.refl _) (List.Perm.refl _)).1.mpr ?_⟩
  intro k v hpre hlive
  by_cases hk : k = [9, 2]
  · subst hk
    refine ⟨?_, fun _ => ⟨[2], hlive⟩, ?_⟩
    · intro e he
      cases he
    · intro hnone
      cases hnone
  · -- the waiting cache does not hold the key, so the store does
    have hcache : ((Table.put ∅ [9, 2] (.value (.bytes [2])) : Cache Bytes Unit).get k).or none =
        none := by
      rw [Table.get_put_of_ne _ hk]
      rfl
    have hkey : k = [9, 1] := by
      by_contra hne
      unfold Live at hlive
      split at hlive
      · rename_i hget
        cases hcache.symm.trans hget
      · exact hlive
      · obtain ⟨b, hb, -⟩ := hlive
        have hnone : (Table.put ∅ [9, 1] [1] : Table Bytes Bytes).get k = none := by
          rw [Table.get_put_of_ne _ hne]
          rfl
        cases hnone.symm.trans hb
    subst hkey
    refine ⟨?_, fun hheld => absurd hcache hheld, ?_⟩
    · rintro e he -
      obtain rfl := mem_singleton.mp he
      decide
    · intro hstore hsame
      cases hsame

end Whole

end CachedLedger

end GoQlc
