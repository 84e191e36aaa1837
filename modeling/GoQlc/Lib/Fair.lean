import Mathlib.Algebra.Order.Group.Nat

/-!
# Fair runs

Endless runs of a system of steps, and the rule that a rank which sinks at every step of a fair
kind is not needed for ever.
-/

namespace GoQlc

/-- A run without an end; `step` is `none` where an action is not possible. -/
structure Endless {S A : Type} (step : S → A → Option S) where
  state : ℕ → S
  act : ℕ → A
  next : ∀ n, step (state n) (act n) = some (state (n + 1))

namespace Endless

variable {S A : Type} {step : S → A → Option S} (t : Endless step)

def Fair (K : A → Prop) : Prop :=
  (∀ n, ∃ m ≥ n, ∃ a, K a ∧ (step (t.state m) a).isSome) → ∀ n, ∃ m ≥ n, K (t.act m)

variable {t}

theorem Fair.eventually {K : A → Prop} (hfair : t.Fair K) {P : ℕ → Prop} (rank : ℕ → ℕ) {n : ℕ}
    (h : (∀ m ≥ n, ¬P m) →
      (∀ m ≥ n, rank (m + 1) ≤ rank m ∧ (K (t.act m) → rank (m + 1) < rank m)) ∧
        ∀ k, ∃ m ≥ k, ∃ a, K a ∧ (step (t.state m) a).isSome) : ∃ m ≥ n, P m := by
  by_contra hnone
  obtain ⟨hrank, hpossible⟩ := h fun m hm hp => hnone ⟨m, hm, hp⟩
  have hanti : ∀ k m, n ≤ k → k ≤ m → rank m ≤ rank k := by
    intro k m hk hm
    induction m, hm using Nat.le_induction with
    | base => exact le_rfl
    | succ m hm ih => exact (hrank m (hk.trans hm)).1.trans ih
  have hsinks : ∀ r k, n ≤ k → ¬rank k < r := by
    intro r
    induction r with
    | zero => exact fun k _ => Nat.not_lt_zero _
    | succ r ih =>
      intro k hk hr
      obtain ⟨m, hm, hact⟩ := hfair hpossible k
      have hlt := (hrank m (hk.trans hm)).2 hact
      have hle := hanti k m hk hm
      exact ih (m + 1) (by omega) (by omega)
  exact hsinks _ n le_rfl (Nat.lt_succ_self _)

end Endless
end GoQlc
