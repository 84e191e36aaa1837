import Mathlib.Algebra.Order.BigOperators.Group.List
import Mathlib.Tactic.Ring

/-!
# Proportional shares, rounded down

A number is split over a list of weights, each share rounded down.
-/

namespace GoQlc.Shares

open List

theorem sum_mul_le (ws : List ℕ) (reward total : ℕ) :
    (ws.map fun w => w * reward / total).sum * total ≤ ws.sum * reward := by
  induction ws with
  | nil => simp
  | cons w ws ih =>
    rw [map_cons, sum_cons, sum_cons, Nat.add_mul, Nat.add_mul]
    exact Nat.add_le_add (Nat.div_mul_le_self _ _) ih

theorem sum_le {ws : List ℕ} (hpos : 0 < ws.sum) (reward : ℕ) :
    (ws.map fun w => w * reward / ws.sum).sum ≤ reward := by
  apply Nat.le_of_mul_le_mul_right _ hpos
  exact (sum_mul_le ws reward ws.sum).trans_eq (Nat.mul_comm _ _)

theorem lt_sum_mul {total : ℕ} (hpos : 0 < total) (ws : List ℕ) (reward : ℕ) :
    ws.sum * reward + ws.length ≤
      ((ws.map fun w => w * reward / total).sum + ws.length) * total := by
  induction ws with
  | nil => simp
  | cons w ws ih =>
    have hhead : w * reward + 1 ≤ (w * reward / total + 1) * total := by
      rw [Nat.add_mul, Nat.one_mul]
      exact Nat.lt_div_mul_add hpos
    rw [map_cons, sum_cons, sum_cons, length_cons]
    calc (w + ws.sum) * reward + (ws.length + 1)
        = (w * reward + 1) + (ws.sum * reward + ws.length) := by ring
      _ ≤ _ := Nat.add_le_add hhead ih
      _ = _ := by ring

theorem lt_sum_add_length {ws : List ℕ} (hpos : 0 < ws.sum) (reward : ℕ) :
    reward < (ws.map fun w => w * reward / ws.sum).sum + ws.length := by
  have hlength : 0 < ws.length := by
    apply length_pos_of_ne_nil
    rintro rfl
    exact absurd hpos (by simp)
  apply Nat.lt_of_mul_lt_mul_right (a := ws.sum)
  calc reward * ws.sum = ws.sum * reward := Nat.mul_comm _ _
    _ < ws.sum * reward + ws.length := by omega
    _ ≤ _ := lt_sum_mul hpos ws reward

end GoQlc.Shares
