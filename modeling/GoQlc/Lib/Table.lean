import Mathlib.Algebra.BigOperators.Group.Finset.Basic
import Mathlib.Algebra.Order.BigOperators.Group.List
import Mathlib.Data.List.AList
import Mathlib.Tactic.Ring

/-!
# Finite tables

Key-value tables without duplicate keys, and sums over their entries.
-/

namespace GoQlc

open AList List

abbrev Table (K V : Type) := AList (fun _ : K => V)

namespace Table

variable {K V : Type} [DecidableEq K]

instance [DecidableEq V] : DecidableEq (Table K V) := fun s t =>
  decidable_of_iff (s.entries = t.entries) AList.ext_iff.symm

def get (t : Table K V) (k : K) : Option V := t.lookup k

def put (t : Table K V) (k : K) (v : V) : Table K V := t.insert k v

def delete (t : Table K V) (k : K) : Table K V := t.erase k

/-- The sum of `f` over all entries. -/
def total (f : K → V → ℕ) (t : Table K V) : ℕ := (t.entries.map fun e => f e.1 e.2).sum

/-- What the entry at `k`, if any, adds to a sum. -/
def weight (f : K → V → ℕ) (t : Table K V) (k : K) : ℕ := (t.get k).elim 0 (f k)

@[simp] theorem get_empty (k : K) : get (∅ : Table K V) k = none := lookup_empty k

@[simp] theorem get_put_self (t : Table K V) (k : K) (v : V) : (t.put k v).get k = some v :=
  lookup_insert t

variable {k : K} {t : Table K V} {v : V} {f : K → V → ℕ}

theorem get_put_of_ne (t : Table K V) {k' : K} (h : k' ≠ k) (v : V) :
    (t.put k v).get k' = t.get k' := lookup_insert_ne h

theorem get_put (t : Table K V) (k k' : K) (v : V) :
    (t.put k v).get k' = if k' = k then some v else t.get k' := by
  split_ifs with h
  · rw [h, get_put_self]
  · exact get_put_of_ne t h v

@[simp] theorem get_delete_self (t : Table K V) (k : K) : (t.delete k).get k = none :=
  lookup_erase k t

theorem get_delete_of_ne (t : Table K V) {k' : K} (h : k' ≠ k) : (t.delete k).get k' = t.get k' := lookup_erase_ne h

theorem get_delete (t : Table K V) (k k' : K) :
    (t.delete k).get k' = if k' = k then none else t.get k' := by
  split_ifs with h
  · rw [h, get_delete_self]
  · exact get_delete_of_ne t h

theorem delete_of_get_none (h : t.get k = none) : t.delete k = t := by
  have hk : k ∉ t.entries.keys := fun hmem => lookup_eq_none.mp h hmem
  apply AList.ext
  exact kerase_of_notMem_keys hk

def values (t : Table K V) : List V := t.entries.map Sigma.snd

theorem mem_values : v ∈ t.values ↔ ∃ k, t.get k = some v := by
  unfold values get
  rw [mem_map]
  constructor
  · rintro ⟨⟨k, v⟩, hmem, rfl⟩
    exact ⟨k, mem_lookup_iff.mpr hmem⟩
  · rintro ⟨k, hk⟩
    exact ⟨⟨k, v⟩, mem_lookup_iff.mp hk, rfl⟩

def putWith {W : Type} (f : K → W → V) (t : Table K V) (batch : Table K W) : Table K V :=
  batch.entries.foldr (fun e t => t.put e.1 (f e.1 e.2)) t

theorem get_putWith {W : Type} (f : K → W → V) (t : Table K V) (batch : Table K W) (k : K) :
    (t.putWith f batch).get k = ((batch.get k).map (f k)).or (t.get k) := by
  change _ = ((batch.entries.dlookup k).map (f k)).or (t.get k)
  unfold putWith
  induction batch.entries with
  | nil => simp
  | cons e es ih =>
    rw [foldr_cons, get_put, ih]
    split_ifs with hk
    · rw [hk, dlookup_cons_eq, Option.map_some, Option.some_or]
    · rw [dlookup_cons_ne _ _ hk]

/-- Writes all entries of `batch` into `t`. -/
def putAll (t batch : Table K V) : Table K V := batch.entries.foldr (fun e t => t.put e.1 e.2) t

theorem get_putAll (t batch : Table K V) (k : K) :
    (t.putAll batch).get k = (batch.get k).or (t.get k) := by
  have hput := get_putWith (fun _ v => v) t batch k
  rwa [Option.map_id'] at hput

theorem weight_of_get (h : t.get k = some v) : weight f t k = f k v := by
  rw [weight, h, Option.elim_some]

theorem weight_of_get_none (h : t.get k = none) : weight f t k = 0 := by
  rw [weight, h, Option.elim_none]

theorem sum_kerase_add (f : K → V → ℕ) (k : K) (l : List (Sigma fun _ : K => V)) :
    ((l.kerase k).map fun e => f e.1 e.2).sum + (l.dlookup k).elim 0 (f k) =
      (l.map fun e => f e.1 e.2).sum := by
  induction l with
  | nil => simp
  | cons e l ih =>
    by_cases h : k = e.1
    · subst h
      rw [kerase_cons_eq rfl, dlookup_cons_eq, map_cons, sum_cons,
        Option.elim_some, Nat.add_comm]
    · rw [kerase_cons_ne h, dlookup_cons_ne _ _ h, map_cons, sum_cons,
        Nat.add_assoc, ih, map_cons, sum_cons]

theorem total_delete_add (f : K → V → ℕ) (t : Table K V) (k : K) :
    total f (t.delete k) + weight f t k = total f t := sum_kerase_add f k t.entries

theorem total_put_add (f : K → V → ℕ) (t : Table K V) (k : K) (v : V) :
    total f (t.put k v) + weight f t k = total f t + f k v := by
  have hput : total f (t.put k v) = f k v + total f (t.delete k) := by
    have hdelete : (t.delete k).entries = t.entries.kerase k := rfl
    simp [total, put, hdelete, entries_insert]
  rw [hput, ← total_delete_add f t k]
  ring

theorem weight_le_total (f : K → V → ℕ) (t : Table K V) (k : K) : weight f t k ≤ total f t := by
  rw [← total_delete_add f t k]
  exact Nat.le_add_left _ _

omit [DecidableEq K] in
theorem total_mono {g : K → V → ℕ} (h : ∀ k v, f k v ≤ g k v) (t : Table K V) :
    total f t ≤ total g t := by
  apply sum_le_sum
  intro e _
  exact h e.1 e.2

theorem le_total (h : t.get k = some v) : f k v ≤ total f t := by
  have hw := weight_le_total f t k
  rwa [weight_of_get h] at hw

theorem total_eq_sum (f : K → V → ℕ) (t : Table K V) {s : Finset K}
    (h : ∀ k ∈ t.keys, k ∈ s) : total f t = ∑ k ∈ s, weight f t k := by
  have hentries : total f t = (t.keys.map (weight f t)).sum := by
    unfold total AList.keys List.keys
    rw [List.map_map]
    congr 1
    apply List.map_congr_left
    intro e he
    exact (weight_of_get (AList.mem_lookup_iff.mpr he)).symm
  rw [hentries, ← List.sum_toFinset _ t.keys_nodup]
  apply Finset.sum_subset
  · intro k hk
    exact h k (List.mem_toFinset.mp hk)
  · intro k _ hk
    apply weight_of_get_none
    exact AList.lookup_eq_none.mpr fun hmem => hk (List.mem_toFinset.mpr hmem)

theorem total_eq_of_weight {W : Type} {f : K → V → ℕ} {g : K → W → ℕ} {t : Table K V}
    {t' : Table K W} (h : ∀ k, weight f t k = weight g t' k) : total f t = total g t' := by
  rw [total_eq_sum (s := t.keys.toFinset ∪ t'.keys.toFinset) f t (by simp +contextual),
    total_eq_sum (s := t.keys.toFinset ∪ t'.keys.toFinset) g t' (by simp +contextual)]
  exact Finset.sum_congr rfl fun k _ => h k

end Table

/-! ## Content-addressed tables -/

structure Filing (X A B : Type) where
  address : X → A
  image : X → B

namespace Filing

variable {X A B : Type} [DecidableEq A] (f : Filing X A B)

def Holds (t : Table A B) (xs : Set X) : Prop := ∀ x ∈ xs, t.get (f.address x) = some (f.image x)

def Only (t : Table A B) (xs : Set X) : Prop :=
  ∀ a b, t.get a = some b → ∃ x ∈ xs, f.address x = a ∧ f.image x = b

def Compatible (xs : Set X) : Prop :=
  ∀ x ∈ xs, ∀ y ∈ xs, f.address x = f.address y → f.image x = f.image y

variable {f} {t batch : Table A B} {xs ys : Set X} {x : X}

theorem Holds.mono (h : f.Holds t ys) (hsub : xs ⊆ ys) : f.Holds t xs := fun x hx => h x (hsub hx)

theorem Only.mono (h : f.Only t xs) (hsub : xs ⊆ ys) : f.Only t ys := by
  intro a b hab
  obtain ⟨x, hx, hfiled⟩ := h a b hab
  exact ⟨x, hsub hx, hfiled⟩

theorem only_empty (xs : Set X) : f.Only ∅ xs := by
  intro a b hab
  rw [Table.get_empty] at hab
  cases hab

theorem Only.put (h : f.Only t xs) (hx : x ∈ xs) : f.Only (t.put (f.address x) (f.image x)) xs := by
  intro a b hab
  rw [Table.get_put] at hab
  split_ifs at hab with ha
  · exact ⟨x, hx, ha.symm, Option.some.inj hab⟩
  · exact h a b hab

theorem Only.putAll (h : f.Only t xs) (hbatch : f.Only batch xs) :
    f.Only (t.putAll batch) xs := by
  intro a b hab
  rw [Table.get_putAll] at hab
  cases hb : batch.get a with
  | none =>
    rw [hb, Option.none_or] at hab
    exact h a b hab
  | some b' =>
    rw [hb, Option.some_or] at hab
    obtain rfl := Option.some.inj hab
    exact hbatch a b' hb

theorem Only.get_eq (h : f.Only t xs) (hcompat : f.Compatible xs) (hx : x ∈ xs) {b : B}
    (hb : t.get (f.address x) = some b) : b = f.image x := by
  obtain ⟨y, hy, haddr, rfl⟩ := h _ b hb
  exact hcompat y hy x hx haddr

theorem holds_putAll (hcompat : f.Compatible xs) (hbatch : f.Only batch xs) (hsub : ys ⊆ xs)
    (h : ∀ y ∈ ys, (batch.get (f.address y)).isSome = true ∨
      t.get (f.address y) = some (f.image y)) : f.Holds (t.putAll batch) ys := by
  intro y hy
  rw [Table.get_putAll]
  cases hb : batch.get (f.address y) with
  | some b => rw [Option.some_or, hbatch.get_eq hcompat (hsub hy) hb]
  | none =>
    rw [Option.none_or]
    refine (h y hy).resolve_left ?_
    rw [hb]
    exact Bool.false_ne_true

theorem Holds.putAll (h : f.Holds t ys) (hcompat : f.Compatible xs) (hbatch : f.Only batch xs)
    (hsub : ys ⊆ xs) : f.Holds (t.putAll batch) ys :=
  holds_putAll hcompat hbatch hsub fun y hy => Or.inr (h y hy)

end Filing
end GoQlc
