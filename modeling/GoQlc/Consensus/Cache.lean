import GoQlc.Lib.Table

/-!
# The cache of the consensus

The items stand in a map and, newest first, in the list whose end is evicted.
-/

namespace GoQlc.Dpos

open List Table

structure Item (K V : Type) where
  key : K
  value : V
  expiration : ℤ
deriving DecidableEq

/-- An element of the list is told by its item, as no two items of the list have one key. -/
structure Cache (K V : Type) where
  size : ℕ
  expiration : ℤ
  items : Table K (Item K V)
  evictList : List (Item K V)

namespace Cache

variable {K V : Type} [DecidableEq K] [DecidableEq V]

def new (size : ℕ) (expiration : ℤ) : Cache K V := ⟨size, expiration, ∅, []⟩

def remove (c : Cache K V) (it : Item K V) : Cache K V :=
  { c with items := c.items.delete it.key, evictList := c.evictList.erase it }

def insert (c : Cache K V) (it : Item K V) : Cache K V :=
  { c with items := c.items.put it.key it, evictList := it :: c.evictList }

def makeRoom (c : Cache K V) : Cache K V :=
  if c.size ≤ c.evictList.length then
    match c.evictList.getLast? with
    | some it => c.remove it
    | none => c
  else c

/-- A key that is present is left as it is, expired or not. -/
def set (now : ℤ) (key : K) (val : V) (c : Cache K V) : Cache K V :=
  if (c.items.get key).isSome then c
  else c.makeRoom.insert { key, value := val, expiration := now + c.expiration }

def get (now : ℤ) (key : K) (c : Cache K V) : Option V :=
  ((c.items.get key).filter fun it => ¬ it.expiration < now).map Item.value

def has (now : ℤ) (key : K) (c : Cache K V) : Bool :=
  (c.items.get key).any fun it => ¬ it.expiration < now

/-- One key of the loop of `gc`, with the time at which it is looked at. -/
def collect (c : Cache K V) (visit : K × ℤ) : Cache K V :=
  match c.items.get visit.1 with
  | none => c
  | some it => if it.expiration < visit.2 then c.remove it else c

def gc (visits : List (K × ℤ)) (c : Cache K V) : Cache K V := visits.foldl collect c

inductive Call (K V : Type) where
  | set (now : ℤ) (key : K) (val : V)
  | get (now : ℤ) (key : K)
  | has (now : ℤ) (key : K)
  | gc (visits : List (K × ℤ))

def call (c : Cache K V) : Call K V → Cache K V
  | .set now key val => c.set now key val
  | .get _ _ | .has _ _ => c
  | .gc visits => c.gc visits

/-- The calls other than `set`, made at times up to `t`. -/
def Call.Before (t : ℤ) : Call K V → Prop
  | .set _ _ _ => False
  | .get now _ | .has now _ => now ≤ t
  | .gc visits => ∀ visit ∈ visits, visit.2 ≤ t

structure Consistent (size : ℕ) (lifetime : ℤ) (c : Cache K V) : Prop where
  size_eq : c.size = size
  expiration_eq : c.expiration = lifetime
  listed : ∀ k it, c.items.get k = some it → it ∈ c.evictList ∧ it.key = k
  filed : ∀ it ∈ c.evictList, c.items.get it.key = some it
  nodup : c.evictList.Nodup
  length_le : c.evictList.length ≤ size

variable {size : ℕ} {lifetime t : ℤ} {key : K} {c : Cache K V} {it : Item K V}

namespace Consistent

theorem remove (h : c.Consistent size lifetime) (hit : it ∈ c.evictList) :
    (c.remove it).Consistent size lifetime where
  size_eq := h.size_eq
  expiration_eq := h.expiration_eq
  listed k other hget := by
    change (c.items.delete it.key).get k = _ at hget
    rw [get_delete] at hget
    split_ifs at hget with hk
    obtain ⟨hmem, rfl⟩ := h.listed k other hget
    have hne : other ≠ it := fun heq => hk (by rw [heq])
    exact ⟨(mem_erase_of_ne hne).mpr hmem, rfl⟩
  filed other hmem := by
    have hother := h.filed other (mem_of_mem_erase hmem)
    have hkey : other.key ≠ it.key := by
      intro hkey
      have heq : some it = some other := by rw [← h.filed it hit, ← hother, hkey]
      cases heq
      exact h.nodup.not_mem_erase hmem
    exact (get_delete_of_ne _ hkey).trans hother
  nodup := h.nodup.erase it
  length_le := length_erase_le.trans h.length_le

omit [DecidableEq V] in
theorem insert (h : c.Consistent size lifetime) (hnone : c.items.get it.key = none)
    (hroom : c.evictList.length < size) : (c.insert it).Consistent size lifetime := by
  have hnew : ∀ other ∈ c.evictList, other.key ≠ it.key := by
    intro other hmem heq
    rw [← heq, h.filed other hmem] at hnone
    cases hnone
  refine ⟨h.size_eq, h.expiration_eq, ?_, ?_, ?_, hroom⟩
  · intro k other hget
    change (c.items.put it.key it).get k = _ at hget
    rw [get_put] at hget
    split_ifs at hget with hk
    · cases hget
      exact ⟨mem_cons_self, hk.symm⟩
    · exact (h.listed k other hget).imp_left (mem_cons_of_mem _)
  · intro other hmem
    rcases mem_cons.mp hmem with rfl | hmem
    · exact get_put_self _ _ _
    · exact (get_put_of_ne _ (hnew other hmem) _).trans (h.filed other hmem)
  · exact nodup_cons.mpr ⟨fun hmem => hnew it hmem rfl, h.nodup⟩

theorem makeRoom (h : c.Consistent size lifetime) (hsize : 0 < size)
    (hnone : c.items.get key = none) :
    c.makeRoom.Consistent size lifetime ∧ c.makeRoom.items.get key = none ∧
      c.makeRoom.evictList.length < size := by
  have hlength := h.length_le
  unfold Cache.makeRoom
  rw [h.size_eq]
  split_ifs with hfull
  · have hpos : c.evictList ≠ [] := by
      rintro hnil
      rw [hnil] at hfull
      exact absurd hfull (Nat.not_le.mpr hsize)
    have hlast := getLast_mem hpos
    rw [getLast?_eq_some_getLast hpos]
    refine ⟨h.remove hlast, ?_, ?_⟩
    · change (c.items.delete _).get key = none
      rw [get_delete, hnone, ite_self]
    · change (c.evictList.erase _).length < size
      rw [length_erase_of_mem hlast]
      omega
  · exact ⟨h, hnone, Nat.not_le.mp hfull⟩

theorem set (h : c.Consistent size lifetime) (hsize : 0 < size) (now : ℤ) (key : K) (val : V) :
    (c.set now key val).Consistent size lifetime := by
  unfold Cache.set
  split_ifs with hsome
  · exact h
  · obtain ⟨hroom, hnone, hlt⟩ := h.makeRoom hsize (by simpa using hsome)
    exact hroom.insert hnone hlt

/-- An item that is in time at `t` is not collected before. -/
theorem collect (h : c.Consistent size lifetime) (visit : K × ℤ) :
    (c.collect visit).Consistent size lifetime ∧
      ∀ t key, visit.2 ≤ t → (c.collect visit).has t key = c.has t key := by
  unfold Cache.collect
  split
  · exact ⟨h, fun _ _ _ => rfl⟩
  · rename_i it hit
    split_ifs with hexpired
    · refine ⟨h.remove (h.listed _ _ hit).1, fun t key hvisit => ?_⟩
      change ((c.items.delete it.key).get key).any _ = (c.items.get key).any _
      rw [get_delete]
      split_ifs with hkey
      · rw [hkey, (h.listed _ _ hit).2, hit]
        simp [lt_of_lt_of_le hexpired hvisit]
      · rfl
    · exact ⟨h, fun _ _ _ => rfl⟩

theorem gc (visits : List (K × ℤ)) (h : c.Consistent size lifetime) :
    (c.gc visits).Consistent size lifetime ∧
      ∀ t key, (∀ visit ∈ visits, visit.2 ≤ t) → (c.gc visits).has t key = c.has t key := by
  induction visits generalizing c with
  | nil => exact ⟨h, fun _ _ _ => rfl⟩
  | cons visit rest ih =>
    obtain ⟨hvisit, hhas⟩ := h.collect visit
    obtain ⟨hrest, hhas'⟩ := ih hvisit
    refine ⟨hrest, fun t key hbefore => ?_⟩
    rw [forall_mem_cons] at hbefore
    exact (hhas' t key hbefore.2).trans (hhas t key hbefore.1)

theorem run (hsize : 0 < size) (calls : List (Call K V)) (h : c.Consistent size lifetime) :
    (calls.foldl call c).Consistent size lifetime ∧
      ∀ t key, (∀ op ∈ calls, op.Before t) → (calls.foldl call c).has t key = c.has t key := by
  induction calls generalizing c with
  | nil => exact ⟨h, fun _ _ _ => rfl⟩
  | cons op rest ih =>
    have hcall : (c.call op).Consistent size lifetime ∧
        ∀ t key, op.Before t → (c.call op).has t key = c.has t key := by
      cases op with
      | set now key val => exact ⟨h.set hsize now key val, fun _ _ => False.elim⟩
      | get | has => exact ⟨h, fun _ _ _ => rfl⟩
      | gc visits => exact h.gc visits
    obtain ⟨hrest, hhas⟩ := ih hcall.1
    refine ⟨hrest, fun t key hbefore => ?_⟩
    rw [forall_mem_cons] at hbefore
    exact (hhas t key hbefore.2).trans (hcall.2 t key hbefore.1)

omit [DecidableEq V] in
theorem mem_keys (h : c.Consistent size lifetime) (k : K) :
    k ∈ c.items.keys ↔ k ∈ c.evictList.map Item.key := by
  rw [← AList.mem_keys, ← AList.lookup_isSome, Option.isSome_iff_exists, mem_map]
  constructor
  · rintro ⟨it, hit⟩
    exact ⟨it, h.listed k it hit⟩
  · rintro ⟨it, hmem, rfl⟩
    exact ⟨it, h.filed it hmem⟩

end Consistent

omit [DecidableEq V] in
theorem has_eq_true : c.has t key = true ↔ ∃ it, c.items.get key = some it ∧ t ≤ it.expiration := by
  simp [has, Option.any_eq_true]

theorem has_set {now : ℤ} (ht : t ≤ now + c.expiration) (val : V) :
    (c.set now key val).has t key = true ↔
      ∀ it, c.items.get key = some it → t ≤ it.expiration := by
  rw [has_eq_true]
  cases hget : c.items.get key with
  | some it => simp [set, hget]
  | none => simpa [set, hget, insert] using ht

/-- The map and the list agree and stay in size. A key that was just set is there exactly when the
item it had before, if any, has not expired: `set` does not replace it. -/
theorem cache_run (hsize : 0 < size) (calls : List (Call K V)) :
    let c := calls.foldl call (new size lifetime)
    (∀ k, k ∈ c.items.keys ↔ k ∈ c.evictList.map Item.key) ∧
    c.items.keys.length ≤ size ∧
    ∀ now key val t (between : List (Call K V)), (∀ op ∈ between, op.Before t) →
      now ≤ t → t ≤ now + lifetime →
      ((between.foldl call (c.set now key val)).has t key = true ↔
        ∀ it, c.items.get key = some it → t ≤ it.expiration) := by
  intro c
  have hnew : (new size lifetime : Cache K V).Consistent size lifetime :=
    ⟨rfl, rfl, by simp [new], by simp [new], nodup_nil, Nat.zero_le _⟩
  have h : c.Consistent size lifetime := (hnew.run hsize calls).1
  refine ⟨h.mem_keys, ?_, ?_⟩
  · have hsub : c.items.keys ⊆ c.evictList.map Item.key := fun k => (h.mem_keys k).mp
    have hle := (subperm_of_subset c.items.keys_nodup hsub).length_le
    rw [length_map] at hle
    exact hle.trans h.length_le
  · intro now key val t between hbefore _ ht
    rw [((h.set hsize now key val).run hsize between).2 t key hbefore]
    exact has_set (h.expiration_eq ▸ ht) val

theorem has_set_in_time :
    (([Call.set 0 true ()].foldl call (new 1 10)).set 5 true ()).has 8 true = true :=
  ((cache_run Nat.one_pos [.set 0 true ()]).2.2 5 true () 8 [] (by simp) (by decide)
    (by decide)).mpr (by decide)

/-- The second `set` finds the expired item and leaves it. -/
theorem has_set_expired :
    (([Call.set 0 true ()].foldl call (new 1 10)).set 20 true ()).has 20 true = false := by decide

end Cache

end GoQlc.Dpos
