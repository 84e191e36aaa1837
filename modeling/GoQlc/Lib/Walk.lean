import Mathlib.Data.List.Chain
import Mathlib.Data.List.Nodup
import Mathlib.Data.List.Perm.Subperm
import Mathlib.Data.List.TakeWhile
import GoQlc.Lib.Result

/-!
# Walks along parent links

Nodes lie under keys and name the key of their parent.
-/

namespace GoQlc.Walk

variable {K V : Type} [DecidableEq K] {get get' : K → Option V} {parent : V → K} {stop k : K}
  {fuel : ℕ} {x : V} {path : List V}

/-- The nodes from `k` along `parent` up to the one under `stop`; `none` if that
one is not among the first `fuel`. -/
def walk (get : K → Option V) (parent : V → K) (stop : K) : ℕ → K → Option (List V)
  | 0, _ => none
  | fuel + 1, k =>
    (get k).bind fun x =>
      if k = stop then some [x] else (walk get parent stop fuel (parent x)).map (x :: ·)

theorem walk_stop (h : get stop = some x) : walk get parent stop (fuel + 1) stop = some [x] := by
  simp [walk, h]

theorem walk_cons (hk : k ≠ stop) (h : get k = some x)
    (hrest : walk get parent stop fuel (parent x) = some path) :
    walk get parent stop (fuel + 1) k = some (x :: path) := by
  simp [walk, h, hk, hrest]

section
variable (h : walk get parent stop fuel k = some path)

include h

theorem walk_eq_some :
    ∃ n x, fuel = n + 1 ∧ get k = some x ∧
      (k = stop ∧ path = [x] ∨
        k ≠ stop ∧ ∃ rest, walk get parent stop n (parent x) = some rest ∧ path = x :: rest) := by
  cases fuel with
  | zero => cases h
  | succ n =>
    obtain ⟨x, hx, hrest⟩ := Option.bind_eq_some_iff.mp h
    refine ⟨n, x, rfl, hx, ?_⟩
    split_ifs at hrest with hk
    · exact .inl ⟨hk, (Option.some.inj hrest).symm⟩
    · obtain ⟨rest, hwalk, heq⟩ := Option.map_eq_some_iff.mp hrest
      exact .inr ⟨hk, rest, hwalk, heq.symm⟩

theorem exists_get_stop : ∃ x, get stop = some x := by
  induction fuel generalizing k path with
  | zero => cases h
  | succ n ih =>
    obtain ⟨m, x, hm, hx, ⟨rfl, -⟩ | ⟨-, rest, hwalk, -⟩⟩ := walk_eq_some h
    · exact ⟨x, hx⟩
    · obtain rfl : n = m := by omega
      exact ih hwalk

theorem walk_of_subset (hget : ∀ k x, x ∈ path → get k = some x → get' k = some x) :
    walk get' parent stop fuel k = some path := by
  induction fuel generalizing k path with
  | zero => cases h
  | succ n ih =>
    obtain ⟨m, x, hm, hx, ⟨rfl, rfl⟩ | ⟨hk, rest, hwalk, rfl⟩⟩ := walk_eq_some h
    · exact walk_stop (hget _ x List.mem_cons_self hx)
    · obtain rfl : n = m := by omega
      exact walk_cons hk (hget k x List.mem_cons_self hx)
        (ih hwalk fun k' y hy => hget k' y (List.mem_cons_of_mem _ hy))

end

theorem walk_mono (hget : ∀ k x, get k = some x → get' k = some x)
    (h : walk get parent stop fuel k = some path) : walk get' parent stop fuel k = some path :=
  walk_of_subset h fun k x _ => hget k x

/-! ## Folds along a walk -/

variable {ε S : Type}

/-- Runs `step` on the nodes from `k` along `parent`, up to the first one that `last` holds of. -/
def foldWalk (get : K → Option V) (parent : V → K) (last : K → V → Bool) (missing : K → ε)
    (endless : ε) (step : V → S → Except ε S) : ℕ → K → S → Except ε S
  | 0, _, _ => .error endless
  | fuel + 1, k, s =>
    match get k with
    | none => .error (missing k)
    | some x => do
      let s ← step x s
      if last k x then .ok s
      else foldWalk get parent last missing endless step fuel (parent x) s

end GoQlc.Walk

/-! ## Descents along child links -/

namespace GoQlc.Descent

open List Option

variable {α K : Type} {key parent : α → K} {chain before after : List α} {a b : α}

structure Linked (key parent : α → K) (chain : List α) : Prop where
  links : chain.IsChain fun a b => parent b = key a
  keys : (chain.map key).Nodup
  start : ∀ a ∈ chain.head?, ∀ b ∈ chain, parent a ≠ key b

namespace Linked

theorem eq_of_key (h : Linked key parent chain) (ha : a ∈ chain) (hb : b ∈ chain)
    (heq : key a = key b) : a = b := inj_on_of_nodup_map h.keys ha hb heq

theorem child_eq (h : Linked key parent (before ++ a :: after)) (hb : b ∈ before ++ a :: after)
    (hparent : parent b = key a) : after.head? = some b := by
  obtain ⟨front, back, hsplit⟩ := append_of_mem hb
  have ha : a ∈ before ++ a :: after := by simp
  rcases eq_nil_or_concat front with rfl | ⟨front, p, rfl⟩
  · -- The first node has no parent in the list.
    exact absurd hparent (h.start b (by rw [hsplit]; rfl) a ha)
  · rw [concat_eq_append, append_assoc, singleton_append] at hsplit
    have hlink : parent b = key p := by
      have hchain := h.links
      rw [hsplit] at hchain
      exact (isChain_split.mp hchain).2.rel
    obtain rfl : p = a :=
      h.eq_of_key (by rw [hsplit]; simp) ha (hlink.symm.trans hparent)
    have hnodup : (before ++ p :: after).Nodup := List.Nodup.of_map key h.keys
    rw [nodup_middle, nodup_cons, mem_append, not_or] at hnodup
    have hafter : after = b :: back :=
      ((append_cons_inj_of_notMem hnodup.1.1 hnodup.1.2).mp hsplit).2.2
    rw [hafter]
    rfl

theorem exists_parent (h : Linked key parent (before ++ a :: after)) (hb : b ∈ after) :
    ∃ c ∈ before ++ a :: after, parent b = key c := by
  obtain ⟨front, back, rfl⟩ := append_of_mem hb
  have hchain : (a :: front ++ b :: back).IsChain fun a b => parent b = key a :=
    (isChain_split.mp h.links).2
  obtain ⟨front', c, hfront⟩ := (eq_nil_or_concat (a :: front)).resolve_left (by simp)
  rw [concat_eq_append] at hfront
  rw [hfront, append_assoc, singleton_append] at hchain
  refine ⟨c, ?_, (isChain_split.mp hchain).2.rel⟩
  have hc : c ∈ a :: front := by simp [hfront]
  rw [mem_append, ← cons_append]
  exact Or.inr (mem_append_left _ hc)

end Linked

/-- The children from `a` on, each the first among the candidates; `none` without fuel. -/
def descend [DecidableEq K] (key parent : α → K) (candidates : List α) : ℕ → α → Option (List α)
  | 0, _ => none
  | fuel + 1, a =>
    match candidates.find? fun b => parent b == key a with
    | some b => (descend key parent candidates fuel b).map (b :: ·)
    | none => some []

section Descend

variable [DecidableEq K] {candidates : List α} {p : α → Bool}

section
variable (h : Linked key parent (before ++ a :: after))
  (hcandidates : ∀ b, b ∈ candidates ↔ b ∈ before ++ a :: after ∧ p b)

include h hcandidates

theorem Linked.find_child :
    (candidates.find? fun b => parent b == key a) = after.head?.filter p := by
  cases hfind : candidates.find? fun b => parent b == key a with
  | some b =>
    obtain ⟨hmem, hp⟩ := (hcandidates b).mp (mem_of_find?_eq_some hfind)
    rw [h.child_eq hmem (by simpa using List.find?_some hfind), filter_some, if_pos hp]
  | none =>
    cases after with
    | nil => rfl
    | cons b after =>
      rw [List.head?_cons, filter_some]
      split_ifs with hp
      · have hmem : b ∈ candidates := (hcandidates b).mpr ⟨by simp, hp⟩
        have hlink : parent b = key a := (isChain_split.mp h.links).2.rel
        simp [List.find?_eq_none] at hfind
        exact absurd hlink (hfind b hmem)
      · rfl

theorem Linked.descend_eq {fuel : ℕ} (hfuel : (after.takeWhile p).length < fuel) :
    descend key parent candidates fuel a = some (after.takeWhile p) := by
  induction fuel generalizing before a after with
  | zero => omega
  | succ fuel ih =>
    rw [descend, h.find_child hcandidates]
    cases after with
    | nil => rfl
    | cons b after =>
      rw [List.head?_cons, filter_some]
      by_cases hp : p b
      · rw [takeWhile_cons_of_pos hp, length_cons] at hfuel
        have hassoc : before ++ a :: b :: after = (before ++ [a]) ++ b :: after := by simp
        rw [hassoc] at h hcandidates
        rw [if_pos hp, takeWhile_cons_of_pos hp]
        dsimp only
        rw [ih h hcandidates (by omega), map_some]
      · rw [if_neg hp, takeWhile_cons_of_neg hp]

end

omit [DecidableEq K] in
theorem Linked.length_takeWhile_le (h : Linked key parent (before ++ a :: after))
    (hcandidates : ∀ b, b ∈ candidates ↔ b ∈ before ++ a :: after ∧ p b) :
    (after.takeWhile p).length ≤ candidates.length := by
  have hnodup : (before ++ a :: after).Nodup := List.Nodup.of_map key h.keys
  have hsub : (after.takeWhile p).Sublist (before ++ a :: after) :=
    (takeWhile_sublist p).trans
      ((sublist_cons_self a after).trans (sublist_append_right before _))
  have hsubset : after.takeWhile p ⊆ candidates := fun b hb =>
    (hcandidates b).mpr ⟨hsub.subset hb, mem_takeWhile_imp hb⟩
  exact (subperm_of_subset (hnodup.sublist hsub) hsubset).length_le

end Descend

end GoQlc.Descent

/-! ## Spines of a tree -/

namespace GoQlc.Spine

open Function

variable {α β : Type} {Edge : α → α → Prop} {root head : α} {index : ℕ → Option α} {n : ℕ}

structure IsSpine (Edge : α → α → Prop) (root : α) (index : ℕ → Option α) (n : ℕ) (head : α) :
    Prop where
  base : index 0 = some root
  top : index n = some head
  above : ∀ i, n < i → index i = none
  linked : ∀ i < n, ∃ a b, index i = some a ∧ index (i + 1) = some b ∧ Edge a b

namespace IsSpine

theorem isSome_iff (h : IsSpine Edge root index n head) (i : ℕ) : (index i).isSome ↔ i ≤ n := by
  constructor
  · intro hi
    by_contra hlt
    rw [h.above i (by omega)] at hi
    cases hi
  · intro hi
    rcases Nat.lt_or_eq_of_le hi with hlt | rfl
    · obtain ⟨a, _, ha, _⟩ := h.linked i hlt
      rw [ha]
      rfl
    · rw [h.top]
      rfl

theorem edge (h : IsSpine Edge root index n head) {i : ℕ} {a b : α} (ha : index i = some a)
    (hb : index (i + 1) = some b) : Edge a b := by
  have hi : i + 1 ≤ n := (h.isSome_iff _).mp (hb ▸ rfl)
  obtain ⟨a', b', ha', hb', hedge⟩ := h.linked i (by omega)
  obtain rfl := Option.some.inj (ha.symm.trans ha')
  obtain rfl := Option.some.inj (hb.symm.trans hb')
  exact hedge

theorem mono {Edge' : α → α → Prop} (hmono : ∀ a b, Edge a b → Edge' a b)
    (h : IsSpine Edge root index n head) : IsSpine Edge' root index n head where
  base := h.base
  top := h.top
  above := h.above
  linked := by
    intro i hi
    obtain ⟨a, b, ha, hb, hedge⟩ := h.linked i hi
    exact ⟨a, b, ha, hb, hmono a b hedge⟩

theorem single (hbase : index 0 = some root) (habove : ∀ i, 0 < i → index i = none) :
    IsSpine Edge root index 0 root :=
  ⟨hbase, hbase, habove, fun i hi => absurd hi (Nat.not_lt_zero i)⟩

theorem push (h : IsSpine Edge root index n head) {x : α} (hedge : Edge head x) :
    IsSpine Edge root (update index (n + 1) (some x)) (n + 1) x where
  base := by rw [update_of_ne (by omega), h.base]
  top := update_self ..
  above := by
    intro i hi
    rw [update_of_ne (by omega), h.above i (by omega)]
  linked := by
    intro i hi
    rw [update_of_ne (by omega)]
    rcases Nat.lt_or_eq_of_le (Nat.le_of_lt_succ hi) with hlt | rfl
    · rw [update_of_ne (by omega)]
      exact h.linked i hlt
    · exact ⟨head, x, h.top, update_self .., hedge⟩

theorem pop (h : IsSpine Edge root index (n + 1) head) {p : α} (hparent : ∀ a, Edge a head → a = p) :
    IsSpine Edge root (update index (n + 1) none) n p where
  base := by rw [update_of_ne (by omega), h.base]
  top := by
    obtain ⟨a, b, ha, hb, hedge⟩ := h.linked n (by omega)
    obtain rfl := Option.some.inj (h.top.symm.trans hb)
    rw [update_of_ne (by omega), ha, hparent a hedge]
  above := by
    intro i hi
    by_cases heq : i = n + 1
    · rw [heq, update_self]
    · rw [update_of_ne heq, h.above i (by omega)]
  linked := by
    intro i hi
    rw [update_of_ne (by omega), update_of_ne (by omega)]
    exact h.linked i (by omega)

theorem induct {P : ℕ → α → Prop} (h : IsSpine Edge root index n head) (hroot : P 0 root)
    (hedge : ∀ i a b, P i a → Edge a b → P (i + 1) b) {i : ℕ} {a : α} (ha : index i = some a) :
    P i a := by
  induction i generalizing a with
  | zero =>
    obtain rfl := Option.some.inj (ha.symm.trans h.base)
    exact hroot
  | succ i ih =>
    have hi : i + 1 ≤ n := (h.isSome_iff _).mp (ha ▸ rfl)
    obtain ⟨a', b, ha', hb, hab⟩ := h.linked i (by omega)
    obtain rfl := Option.some.inj (ha.symm.trans hb)
    exact hedge i a' a (ih ha') hab

end IsSpine

/-! ## Branches

A branch lists its records from the highest one down. Each record names itself and its parent,
and the lowest one hangs on `foot`. -/

section Branch

variable (name parent : β → α) (foot : α)

def tip : List β → α
  | [] => foot
  | b :: _ => name b

def Branch : List β → Prop
  | [] => True
  | b :: bs => parent b = tip name foot bs ∧ Branch bs

variable {name parent foot}

theorem tip_append (as bs : List β) :
    tip name foot (as ++ bs) = tip name (tip name foot bs) as := by
  cases as <;> rfl

theorem Branch.append {as bs : List β} (has : Branch name parent (tip name foot bs) as)
    (hbs : Branch name parent foot bs) : Branch name parent foot (as ++ bs) := by
  induction as with
  | nil => exact hbs
  | cons a as ih =>
    rw [List.cons_append]
    refine ⟨?_, ih has.2⟩
    rw [tip_append]
    exact has.1

end Branch

end GoQlc.Spine
