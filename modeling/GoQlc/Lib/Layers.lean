import GoQlc.Lib.Table

/-!
# Layers of writes over a base table

Writes wait in layers, the newest first, until they are settled into a base table.
-/

namespace GoQlc.Layers

open List Option

variable {K E V : Type} [DecidableEq K]

def lookup (layers : List (Table K E)) (k : K) : Option E := layers.findSome? fun t => t.get k

theorem lookup_cons (t : Table K E) (layers : List (Table K E)) (k : K) :
    lookup (t :: layers) k = (t.get k).or (lookup layers k) := by
  rw [lookup, List.findSome?_cons]
  cases t.get k <;> rfl

theorem lookup_append_singleton (layers : List (Table K E)) (t : Table K E) (k : K) :
    lookup (layers ++ [t]) k = (lookup layers k).or (t.get k) := by
  rw [lookup, List.findSome?_append, List.findSome?_singleton]
  rfl

def settle (encode : E → Option (Option V)) (layer : Table K E) (base : Table K V) :
    Option (Table K V) :=
  layer.entries.foldrM (fun e base => (encode e.2).map fun w =>
    w.elim (base.delete e.1) (base.put e.1)) base

section Settle

variable {encode : E → Option (Option V)}

theorem get_elim_write (base : Table K V) (k k' : K) (w : Option V) :
    (w.elim (base.delete k) (base.put k)).get k' = if k' = k then w else base.get k' := by
  cases w with
  | none => rw [elim_none, Table.get_delete]
  | some v => rw [elim_some, Table.get_put]

theorem get_settle {layer : Table K E} {base base' : Table K V}
    (h : settle encode layer base = some base') (k : K) :
    (layer.get k).elim (some (base.get k)) encode = some (base'.get k) := by
  change (layer.entries.dlookup k).elim _ _ = _
  unfold settle at h
  generalize layer.entries = entries at h ⊢
  induction entries generalizing base' with
  | nil =>
    rw [foldrM_nil] at h
    rw [dlookup_nil, elim_none, Option.some.inj h]
  | cons e es ih =>
    rw [foldrM_cons] at h
    obtain ⟨base₁, hrest, hwrite⟩ := bind_eq_some_iff.mp h
    obtain ⟨w, hw, rfl⟩ := map_eq_some_iff.mp hwrite
    rw [get_elim_write]
    split_ifs with hk
    · subst hk
      rw [dlookup_cons_eq, elim_some, hw]
    · rw [dlookup_cons_ne _ _ hk]
      exact ih hrest

end Settle

/-- At `k` the layers show the entry `latest`, or the base holds its encoding. -/
def Represents (encode : E → Option (Option V)) (layers : List (Table K E)) (base : Table K V)
    (k : K) (latest : Option E) : Prop :=
  match lookup layers k with
  | some e => latest = some e
  | none => latest.elim (some none) encode = some (base.get k)

variable {t : Table K E}

namespace Represents

variable {encode : E → Option (Option V)} {layers : List (Table K E)} {base : Table K V} {k : K}
variable {latest : Option E}

theorem empty : Represents encode [] (∅ : Table K V) k none := rfl

theorem congr_lookup {layers' : List (Table K E)} (h : Represents encode layers base k latest)
    (heq : lookup layers' k = lookup layers k) : Represents encode layers' base k latest := by
  unfold Represents at h ⊢
  rwa [heq]

theorem write {t' : Table K E} (h : Represents encode (t :: layers) base k latest) {e : Option E}
    (ht : t'.get k = e.or (t.get k)) : Represents encode (t' :: layers) base k (e.or latest) := by
  cases e with
  | none => exact h.congr_lookup (by rw [lookup_cons, lookup_cons, ht, none_or])
  | some e =>
    unfold Represents
    rw [lookup_cons, ht]
    rfl

theorem cons_empty_iff : Represents encode (∅ :: layers) base k latest ↔
    Represents encode layers base k latest := by
  have heq : lookup (∅ :: layers) k = lookup layers k := by
    rw [lookup_cons, Table.get_empty, none_or]
  constructor
  · exact fun h => h.congr_lookup heq.symm
  · exact fun h => h.congr_lookup heq

theorem settle {base' : Table K V} (h : Represents encode (layers ++ [t]) base k latest)
    (hbase : Layers.settle encode t base = some base') :
    Represents encode layers base' k latest := by
  have hget := get_settle hbase k
  unfold Represents at h ⊢
  rw [lookup_append_singleton] at h
  cases hlayers : lookup layers k with
  | some e => rwa [hlayers, some_or] at h
  | none =>
    rw [hlayers, none_or] at h
    cases ht : t.get k with
    | none =>
      rw [ht] at h hget
      exact h.trans hget
    | some e =>
      rw [ht] at h hget
      dsimp only at h
      rw [h]
      exact hget

/-- A layer that held something before it took the newest place shows the latest
entries exactly if nothing it keeps is out of date. -/
theorem push_iff {t' : Table K E} {e : Option E} (h : Represents encode layers base k latest)
    (ht : t'.get k = e.or (t.get k)) :
    Represents encode (t' :: layers) base k (e.or latest) ↔
      ∀ x, t.get k = some x → e = none → latest = some x := by
  unfold Represents
  rw [lookup_cons, ht]
  cases e with
  | some e => simp
  | none =>
    simp only [none_or]
    cases hold : t.get k with
    | none => simpa [Represents] using h
    | some x => simp

theorem drop_iff (h : Represents encode (layers ++ [t]) base k latest) :
    Represents encode layers base k latest ↔
      ∀ x, t.get k = some x → lookup layers k = none → encode x = some (base.get k) := by
  unfold Represents at h ⊢
  rw [lookup_append_singleton] at h
  cases hlayers : lookup layers k with
  | some e =>
    rw [hlayers, some_or] at h
    simpa using h
  | none =>
    rw [hlayers, none_or] at h
    cases ht : t.get k with
    | none =>
      rw [ht] at h
      simpa using h
    | some x =>
      rw [ht] at h
      dsimp only at h
      simp [h]

end Represents

/-- The entries of the layers at `k` stand in the order of a history: the base is
its state at time `s`, and no layer is older than the ones below it. -/
def Ordered (history : ℕ → Option E) (k : K) (s : ℕ) : List (Table K E) → ℕ → Prop
  | [], bound => s ≤ bound
  | t :: layers, bound =>
    (t.get k = none ∧ Ordered history k s layers bound) ∨
      ∃ n ≤ bound, history n = t.get k ∧ t.get k ≠ none ∧ Ordered history k s layers n

namespace Ordered

variable {history : ℕ → Option E} {k : K} {s bound : ℕ} {layers : List (Table K E)}

theorem mono {bound' : ℕ} (h : Ordered history k s layers bound) (hle : bound ≤ bound') :
    Ordered history k s layers bound' := by
  induction layers with
  | nil => exact Nat.le_trans h hle
  | cons t layers ih =>
    rcases h with ⟨ht, h⟩ | ⟨n, hn, ht, hsome, h⟩
    · exact Or.inl ⟨ht, ih h⟩
    · exact Or.inr ⟨n, Nat.le_trans hn hle, ht, hsome, h⟩

theorem anti {s' : ℕ} (h : Ordered history k s layers bound) (hle : s' ≤ s) :
    Ordered history k s' layers bound := by
  induction layers generalizing bound with
  | nil => exact Nat.le_trans hle h
  | cons t layers ih =>
    rcases h with ⟨ht, h⟩ | ⟨n, hn, ht, hsome, h⟩
    · exact Or.inl ⟨ht, ih h⟩
    · exact Or.inr ⟨n, hn, ht, hsome, ih h⟩

theorem tail (h : Ordered history k s (t :: layers) bound) : Ordered history k s layers bound := by
  rcases h with ⟨_, h⟩ | ⟨n, hn, _, _, h⟩
  · exact h
  · exact h.mono hn

theorem le (h : Ordered history k s layers bound) : s ≤ bound := by
  induction layers with
  | nil => exact h
  | cons t layers ih => exact ih h.tail

theorem push (h : Ordered history k s layers bound)
    (ht : ∀ x, t.get k = some x → history bound = some x) :
    Ordered history k s (t :: layers) bound := by
  cases hget : t.get k with
  | none => exact Or.inl ⟨hget, h⟩
  | some x => exact Or.inr ⟨bound, Nat.le_refl _, by rw [hget, ht x hget], by simp [hget], h⟩

theorem oldest (h : Ordered history k s (layers ++ [t]) bound) :
    (t.get k = none ∧ Ordered history k s layers bound) ∨
      ∃ n, s ≤ n ∧ history n = t.get k ∧ t.get k ≠ none ∧ Ordered history k n layers bound := by
  induction layers generalizing bound with
  | nil =>
    rcases h with ⟨ht, h⟩ | ⟨n, hn, ht, hsome, h⟩
    · exact Or.inl ⟨ht, h⟩
    · exact Or.inr ⟨n, h, ht, hsome, hn⟩
  | cons t' layers ih =>
    rcases h with ⟨ht', h⟩ | ⟨m, hm, ht', hsome', h⟩
    · rcases ih h with ⟨ht, h⟩ | ⟨n, hs, ht, hsome, h⟩
      · exact Or.inl ⟨ht, Or.inl ⟨ht', h⟩⟩
      · exact Or.inr ⟨n, hs, ht, hsome, Or.inl ⟨ht', h⟩⟩
    · rcases ih h with ⟨ht, h⟩ | ⟨n, hs, ht, hsome, h⟩
      · exact Or.inl ⟨ht, Or.inr ⟨m, hm, ht', hsome', h⟩⟩
      · exact Or.inr ⟨n, hs, ht, hsome, Or.inr ⟨m, hm, ht', hsome', h⟩⟩

end Ordered

theorem exists_monotone_of_step {R : ℕ → ℕ → Prop} (hzero : R 0 0)
    (hstep : ∀ t s, R t s → ∃ s', s ≤ s' ∧ R (t + 1) s') :
    ∃ n : ℕ → ℕ, Monotone n ∧ ∀ t, R t (n t) := by
  choose! next hle hnext using hstep
  let n : ℕ → ℕ := fun t => Nat.rec 0 (fun t s => next t s) t
  have hn : ∀ t, R t (n t) := by
    intro t
    induction t with
    | zero => exact hzero
    | succ t ih => exact hnext t _ ih
  exact ⟨n, monotone_nat_of_le_succ fun t => hle t _ (hn t), hn⟩

end GoQlc.Layers

/-! ## A cache that evicts -/

namespace GoQlc.Evicting

open Finset List

variable {K : Type} [DecidableEq K]

/-- From the keys `S`, puts of the listed keys can lead to the keys `S'`. -/
inductive Puts (capacity : ℕ) : Finset K → List K → Finset K → Prop where
  | nil (S : Finset K) : Puts capacity S [] S
  | hit {S S' : Finset K} {k : K} {ks : List K} :
      k ∈ S → Puts capacity S ks S' → Puts capacity S (k :: ks) S'
  | room {S S' : Finset K} {k : K} {ks : List K} :
      k ∉ S → S.card < capacity → Puts capacity (insert k S) ks S' → Puts capacity S (k :: ks) S'
  | evict {S S' : Finset K} {k x : K} {ks : List K} :
      k ∉ S → capacity ≤ S.card → x ∈ S → Puts capacity (insert k (S.erase x)) ks S' →
        Puts capacity S (k :: ks) S'

namespace Puts

variable {capacity : ℕ} {S S' : Finset K} {ks : List K}

theorem exists_of_pos (hpos : 0 < capacity) (S : Finset K) (ks : List K) :
    ∃ S', Puts capacity S ks S' := by
  induction ks generalizing S with
  | nil => exact ⟨S, .nil S⟩
  | cons k ks ih =>
    by_cases hk : k ∈ S
    · obtain ⟨S', h⟩ := ih S
      exact ⟨S', .hit hk h⟩
    · rcases Nat.lt_or_ge S.card capacity with hroom | hfull
      · obtain ⟨S', h⟩ := ih (insert k S)
        exact ⟨S', .room hk hroom h⟩
      · obtain ⟨x, hx⟩ := card_pos.mp (Nat.lt_of_lt_of_le hpos hfull)
        obtain ⟨S', h⟩ := ih (insert k (S.erase x))
        exact ⟨S', .evict hk hfull hx h⟩

theorem card_le (h : Puts capacity S ks S') (hS : S.card ≤ capacity) : S'.card ≤ capacity := by
  induction h with
  | nil S => exact hS
  | hit _ _ ih => exact ih hS
  | room hk hroom _ ih =>
    apply ih
    rw [card_insert_of_notMem hk]
    exact hroom
  | @evict S S' k x ks hk _ hx _ ih =>
    apply ih
    have hpos := card_pos.mpr ⟨x, hx⟩
    rw [card_insert_of_notMem fun hmem => hk (mem_of_mem_erase hmem),
      card_erase_of_mem hx]
    omega

theorem subset (h : Puts capacity S ks S') : S' ⊆ S ∪ ks.toFinset := by
  induction h with
  | nil S => simp
  | @hit S S' k ks _ _ ih | room _ _ _ ih =>
    intro y hy
    have := ih hy
    simp only [toFinset_cons, mem_union, mem_insert] at this ⊢
    tauto
  | evict _ _ _ _ ih =>
    intro y hy
    have := ih hy
    simp only [toFinset_cons, mem_union, mem_insert, mem_erase] at this ⊢
    tauto

theorem eq_union (h : Puts capacity S ks S') (hfit : (S ∪ ks.toFinset).card ≤ capacity) :
    S' = S ∪ ks.toFinset := by
  induction h with
  | nil S => simp
  | @hit S S' k ks hk _ ih =>
    have hsame : S ∪ (k :: ks).toFinset = S ∪ ks.toFinset := by
      rw [toFinset_cons, union_insert, insert_eq_self]
      exact mem_union_left _ hk
    rw [hsame] at hfit ⊢
    exact ih hfit
  | @room S S' k ks _ _ _ ih =>
    have hsame : insert k S ∪ ks.toFinset = S ∪ (k :: ks).toFinset := by
      rw [toFinset_cons, insert_union, union_insert]
    rw [hsame] at ih
    exact ih hfit
  | @evict S S' k x ks hk hfull _ _ _ =>
    have hmore : insert k S ⊆ S ∪ (k :: ks).toFinset := by
      intro y hy
      simp only [mem_insert, toFinset_cons, mem_union] at hy ⊢
      tauto
    have hcard := card_le_card hmore
    rw [card_insert_of_notMem hk] at hcard
    omega

theorem keeps_all_iff (h : Puts capacity ∅ ks S') : ks.toFinset ⊆ S' ↔ ks.toFinset.card ≤ capacity := by
  constructor
  · intro hsub
    exact (card_le_card hsub).trans (h.card_le (Nat.zero_le _))
  · intro hfit
    rw [h.eq_union (by rwa [empty_union]), empty_union]

end Puts

end GoQlc.Evicting
