import Mathlib.Data.List.Basic
import Mathlib.Data.List.Range
import Mathlib.Tactic.Ring

/-!
# Binary hash trees that repeat a lone left child

The leaves are the entries of a list.
-/

namespace GoQlc.Merkle

open List Option

variable {D : Type} (join : D → D → D)

def parent (l r : Option D) : Option D := l.map fun a => join a (r.getD a)

/-- The node `i` of height `h`. -/
def node (xs : List D) : ℕ → ℕ → Option D
  | 0, i => xs[i]?
  | h + 1, i => parent join (node xs h (2 * i)) (node xs h (2 * i + 1))

/-- The nodes are written behind the leaves, one for each two entries read from the front. -/
def fill : ℕ → List (Option D) → List (Option D)
  | n + 1, l :: r :: rest => fill n (rest ++ [parent join l r])
  | _, store => store

def Joins (xs : List D) : ℕ → ℕ → D → D → Prop
  | 0, _, _, _ => False
  | h + 1, i, l, r =>
    (node join xs h (2 * i) = some l ∧ r = (node join xs h (2 * i + 1)).getD l) ∨
      Joins xs h (2 * i) l r ∨ Joins xs h (2 * i + 1) l r

/-- `join` does not send two of the pairs to one value. -/
def Apart (P : D → D → Prop) : Prop :=
  ∀ ⦃l r l' r'⦄, P l r → P l' r' → join l r = join l' r' → l = l' ∧ r = r'

variable {join}

section Fill

variable (xs : List D)

theorem fill_level (h n k i : ℕ) :
    fill join (k + n) ((List.range' (2 * i) (2 * k)).map (node join xs h) ++
      (List.range i).map (node join xs (h + 1))) =
    fill join n ((List.range (i + k)).map (node join xs (h + 1))) := by
  induction k generalizing i with
  | zero => simp
  | succ k ih =>
    have hread : List.range' (2 * i) (2 * (k + 1)) =
        2 * i :: (2 * i + 1) :: List.range' (2 * (i + 1)) (2 * k) := by
      rw [Nat.mul_succ, range'_succ, range'_succ]
      rfl
    have hwritten : (List.range i).map (node join xs (h + 1)) ++
        [parent join (node join xs h (2 * i)) (node join xs h (2 * i + 1))] =
        (List.range (i + 1)).map (node join xs (h + 1)) := by
      rw [range_succ, map_append]
      rfl
    rw [hread, show k + 1 + n = (k + n) + 1 by omega]
    simp only [map_cons, cons_append, fill]
    rw [append_assoc, hwritten, ih (i + 1), show i + 1 + k = i + (k + 1) by omega]

theorem fill_eq_root (d h : ℕ) :
    fill join (2 ^ d - 1) ((List.range (2 ^ d)).map (node join xs h)) =
      [node join xs (h + d) 0] := by
  induction d generalizing h with
  | zero => rfl
  | succ d ih =>
    have hpos : 0 < 2 ^ d := Nat.two_pow_pos d
    have hlevel := @fill_level D join xs h (2 ^ d - 1) (2 ^ d) 0
    simp only [Nat.mul_zero, range_zero, map_nil, append_nil, Nat.zero_add,
      ← range_eq_range'] at hlevel
    rw [show 2 ^ (d + 1) - 1 = 2 ^ d + (2 ^ d - 1) by omega, pow_succ, Nat.mul_comm (2 ^ d) 2,
      hlevel, ih (h + 1), show h + 1 + d = h + (d + 1) by omega]

end Fill

variable {xs : List D}

theorem node_eq_none {h i : ℕ} : node join xs h i = none ↔ xs.length ≤ i * 2 ^ h := by
  induction h generalizing i with
  | zero => simp [node]
  | succ h ih =>
    rw [node, parent, map_eq_none_iff, ih, pow_succ]
    rw [show 2 * i * 2 ^ h = i * (2 ^ h * 2) by ring]

theorem node_isSome (hxs : xs ≠ []) (h : ℕ) : ∃ a, node join xs h 0 = some a := by
  rw [← ne_none_iff_exists', ne_eq, node_eq_none, Nat.zero_mul, Nat.le_zero]
  exact fun hlen => hxs (eq_nil_of_length_eq_zero hlen)

variable {ys : List D} {P : D → D → Prop}

theorem children_eq {h h' i i' : ℕ} (hP : Apart join P)
    (hx : ∀ l r, Joins join xs (h + 1) i l r → P l r)
    (hy : ∀ l r, Joins join ys (h' + 1) i' l r → P l r)
    (heq : node join xs (h + 1) i = node join ys (h' + 1) i') :
    (node join xs h (2 * i) = none ∧ node join ys h' (2 * i') = none) ∨
      ∃ l, node join xs h (2 * i) = some l ∧ node join ys h' (2 * i') = some l ∧
        (node join xs h (2 * i + 1)).getD l = (node join ys h' (2 * i' + 1)).getD l := by
  simp only [node, parent] at heq
  cases hl : node join xs h (2 * i) with
  | none =>
    rw [hl, map_none, eq_comm, map_eq_none_iff] at heq
    exact .inl ⟨rfl, heq⟩
  | some l =>
    cases hl' : node join ys h' (2 * i') with
    | none =>
      rw [hl, hl'] at heq
      cases heq
    | some l' =>
      rw [hl, hl', map_some, map_some, Option.some.injEq] at heq
      obtain ⟨rfl, hr⟩ := hP (hx _ _ (.inl ⟨hl, rfl⟩)) (hy _ _ (.inl ⟨hl', rfl⟩)) heq
      exact .inr ⟨l, rfl, rfl, hr⟩

theorem leaves_eq (hlen : xs.length = ys.length) (hP : Apart join P) (h i : ℕ)
    (hx : ∀ l r, Joins join xs h i l r → P l r) (hy : ∀ l r, Joins join ys h i l r → P l r)
    (heq : node join xs h i = node join ys h i) :
    ∀ j < 2 ^ h, xs[i * 2 ^ h + j]? = ys[i * 2 ^ h + j]? := by
  induction h generalizing i with
  | zero =>
    intro j hj
    obtain rfl : j = 0 := by simpa using hj
    simpa [node] using heq
  | succ h ih =>
    intro j hj
    have hleft := ih (2 * i) (fun l r hl => hx l r (.inr (.inl hl)))
      (fun l r hl => hy l r (.inr (.inl hl)))
    have hright := ih (2 * i + 1) (fun l r hr => hx l r (.inr (.inr hr)))
      (fun l r hr => hy l r (.inr (.inr hr)))
    have hi : i * 2 ^ (h + 1) = 2 * i * 2 ^ h := by ring
    have hi' : (2 * i + 1) * 2 ^ h = 2 * i * 2 ^ h + 2 ^ h := by ring
    rw [hi]
    rcases children_eq hP hx hy heq with ⟨hnone, -⟩ | ⟨l, hl, hl', hr⟩
    · have hend := node_eq_none.mp hnone
      rw [List.getElem?_eq_none (by omega), List.getElem?_eq_none (by omega)]
    · by_cases hj' : j < 2 ^ h
      · exact hleft (hl.trans hl'.symm) j hj'
      · -- the right children exist together, because the lists are equally long
        have hboth : node join xs h (2 * i + 1) = none ↔ node join ys h (2 * i + 1) = none := by
          rw [node_eq_none, node_eq_none, hlen]
        have hjj : 2 * i * 2 ^ h + j = (2 * i + 1) * 2 ^ h + (j - 2 ^ h) := by omega
        rw [hjj]
        apply hright _ _ (by rw [pow_succ] at hj; omega)
        cases hx' : node join xs h (2 * i + 1) with
        | none => exact (hboth.mp hx').symm
        | some a =>
          cases hy' : node join ys h (2 * i + 1) with
          | none => rw [hboth.mpr hy'] at hx'; cases hx'
          | some b =>
            rw [hx', hy'] at hr
            exact congrArg some hr

theorem root_inj (hlen : xs.length = ys.length) (hP : Apart join P) {d : ℕ}
    (hd : xs.length ≤ 2 ^ d) (hx : ∀ l r, Joins join xs d 0 l r → P l r)
    (hy : ∀ l r, Joins join ys d 0 l r → P l r) (heq : node join xs d 0 = node join ys d 0) :
    xs = ys := by
  have hleaves := leaves_eq hlen hP d 0 hx hy heq
  apply ext_getElem?
  intro j
  by_cases hj : j < 2 ^ d
  · simpa using hleaves j hj
  · rw [List.getElem?_eq_none (by omega), List.getElem?_eq_none (by omega)]

theorem head_eq (hxs : xs ≠ []) (hP : Apart join P) {d : ℕ}
    (hx : ∀ l r, Joins join xs d 0 l r → P l r) (hy : ∀ l r, Joins join ys d 0 l r → P l r)
    (heq : node join xs d 0 = node join ys d 0) : xs[0]? = ys[0]? := by
  induction d with
  | zero => exact heq
  | succ d ih =>
    obtain ⟨a, ha⟩ := @node_isSome D join xs hxs d
    rcases children_eq hP hx hy heq with ⟨hnone, -⟩ | ⟨l, hl, hl', -⟩
    · rw [Nat.mul_zero, ha] at hnone
      cases hnone
    · rw [Nat.mul_zero] at hl hl'
      exact ih (fun l r h => hx l r (.inr (.inl h))) (fun l r h => hy l r (.inr (.inl h)))
        (hl.trans hl'.symm)

theorem head_joined (hxs : xs ≠ []) (hP : Apart join P) {d d' : ℕ} (hlt : d < d')
    (hx : ∀ l r, Joins join xs d 0 l r → P l r) (hy : ∀ l r, Joins join ys d' 0 l r → P l r)
    (heq : node join xs d 0 = node join ys d' 0) :
    ∃ l r, Joins join ys d' 0 l r ∧ xs[0]? = some (join l r) := by
  induction d generalizing d' with
  | zero =>
    obtain ⟨d', rfl⟩ : ∃ n, d' = n + 1 := ⟨d' - 1, by omega⟩
    obtain ⟨a, ha⟩ := @node_isSome D join xs hxs 0
    rw [ha] at heq
    obtain ⟨l, hl, hjoin⟩ := map_eq_some_iff.mp heq.symm
    exact ⟨l, _, .inl ⟨hl, rfl⟩, by rw [hjoin]; exact ha⟩
  | succ d ih =>
    obtain ⟨d', rfl⟩ : ∃ n, d' = n + 1 := ⟨d' - 1, by omega⟩
    have hx' : ∀ l r, Joins join xs d 0 l r → P l r := fun l r h => hx l r (.inr (.inl h))
    have hy' : ∀ l r, Joins join ys d' 0 l r → P l r := fun l r h => hy l r (.inr (.inl h))
    obtain ⟨a, ha⟩ := @node_isSome D join xs hxs d
    rcases children_eq hP hx hy heq with ⟨hnone, -⟩ | ⟨l, hl, hl', -⟩
    · rw [Nat.mul_zero, ha] at hnone
      cases hnone
    · rw [Nat.mul_zero] at hl hl'
      obtain ⟨l, r, hjoins, hhead⟩ := ih (by omega) hx' hy' (hl.trans hl'.symm)
      exact ⟨l, r, .inr (.inl hjoins), hhead⟩

end GoQlc.Merkle
