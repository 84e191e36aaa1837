import Mathlib.Algebra.Order.BigOperators.Group.Finset

/-!
# Weighted majorities

Voters have weights that add up to at most `total`.
-/

namespace GoQlc.Quorum

variable {V C S : Type} {weight : V → ℕ} {total : ℕ}

def Bounded (weight : V → ℕ) (total : ℕ) : Prop := ∀ A : Finset V, ∑ v ∈ A, weight v ≤ total

def Majority (weight : V → ℕ) (total : ℕ) (A : Finset V) : Prop := total / 2 < ∑ v ∈ A, weight v

theorem Majority.exists_common [DecidableEq V] {A B : Finset V} (hbound : Bounded weight total)
    (hA : Majority weight total A) (hB : Majority weight total B) : ∃ v ∈ A, v ∈ B := by
  by_contra hnone
  have hdisjoint : Disjoint A B := by
    rw [Finset.disjoint_left]
    intro v hvA hvB
    exact hnone ⟨v, hvA, hvB⟩
  have hsum : ∑ v ∈ A ∪ B, weight v = ∑ v ∈ A, weight v + ∑ v ∈ B, weight v :=
    Finset.sum_union hdisjoint
  have hle := hbound (A ∪ B)
  unfold Majority at hA hB
  omega

def Certified (weight : V → ℕ) (total : ℕ) (votes : V → C → Prop) (c : C) : Prop :=
  ∃ A : Finset V, Majority weight total A ∧ ∀ v ∈ A, votes v c

theorem Certified.unique {votes : V → C → Prop} {c d : C} (hbound : Bounded weight total)
    (honce : ∀ v, votes v c → votes v d → c = d) (hc : Certified weight total votes c)
    (hd : Certified weight total votes d) : c = d := by
  classical
  obtain ⟨A, hA, hvotesA⟩ := hc
  obtain ⟨B, hB, hvotesB⟩ := hd
  obtain ⟨v, hvA, hvB⟩ := hA.exists_common hbound hB
  exact honce v (hvotesA v hvA) (hvotesB v hvB)

end GoQlc.Quorum
