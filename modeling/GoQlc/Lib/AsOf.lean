import Mathlib.Data.List.MinMax

/-!
# Looking up the past

Entries with a height are recorded one after the other, and for each height the newest entry is
kept.
-/

namespace GoQlc.AsOf

variable {α β : Type*} (height : α → ℕ)

/-- The newest of the entries of the greatest height that is not above `n`; the newest entry comes
first in the list. -/
def asOf (entries : List α) (n : ℕ) : Option α :=
  (entries.filter fun x => height x ≤ n).argmax height

/-- Asks at `n` and then at each height below it. -/
def searchDown (at_ : ℕ → Option β) : ℕ → Option β
  | 0 => at_ 0
  | n + 1 => (at_ (n + 1)).or (searchDown at_ n)

theorem searchDown_congr {f g : ℕ → Option β} {n : ℕ} (h : ∀ p ≤ n, f p = g p) :
    searchDown f n = searchDown g n := by
  induction n with
  | zero => exact h 0 le_rfl
  | succ n ih =>
    rw [searchDown, searchDown, h (n + 1) le_rfl, ih fun p hp => h p (Nat.le_succ_of_le hp)]

theorem searchDown_bind {f : ℕ → Option α} {g : α → Option β}
    (h : ∀ p x, f p = some x → (g x).isSome) (n : ℕ) :
    searchDown (fun p => (f p).bind g) n = (searchDown f n).bind g := by
  induction n with
  | zero => rfl
  | succ n ih =>
    rw [searchDown, searchDown, ih]
    cases hf : f (n + 1) with
    | none => rfl
    | some x =>
      obtain ⟨y, hy⟩ := Option.isSome_iff_exists.mp (h _ x hf)
      simp [hy]

section
variable {height} {f : ℕ → Option α} (hf : ∀ p x, f p = some x → height x = p)
include hf

theorem height_le_of_searchDown {n : ℕ} {x : α} (h : searchDown f n = some x) : height x ≤ n := by
  induction n with
  | zero => exact (hf 0 x h).le
  | succ n ih =>
    rw [searchDown, Option.or_eq_some_iff] at h
    rcases h with h | ⟨-, h⟩
    · exact (hf _ x h).le
    · exact Nat.le_succ_of_le (ih h)

theorem searchDown_update (x : α) (n : ℕ) :
    searchDown (fun p => if height x = p then some x else f p) n =
      if height x ≤ n then
        match searchDown f n with
        | none => some x
        | some y => if height x < height y then some y else some x
      else searchDown f n := by
  induction n with
  | zero =>
    simp only [searchDown, Nat.le_zero]
    by_cases hx : height x = 0
    · rw [if_pos hx, if_pos hx]
      cases h0 : f 0 with
      | none => rfl
      | some y => simp [hf 0 y h0]
    · rw [if_neg hx, if_neg hx]
  | succ n ih =>
    rw [searchDown, ih]
    by_cases hx : height x = n + 1
    · rw [if_pos hx, Option.some_or, if_pos hx.le]
      cases hdown : searchDown f (n + 1) with
      | none => rfl
      | some y =>
        have hy := height_le_of_searchDown hf hdown
        dsimp only
        rw [if_neg (by omega)]
    · rw [if_neg hx, searchDown]
      cases hnext : f (n + 1) with
      | none =>
        have hle : height x ≤ n + 1 ↔ height x ≤ n := by omega
        simp only [Option.none_or, hle]
      | some y =>
        have hy := hf _ y hnext
        simp only [Option.some_or]
        split_ifs with hle hlt <;> first | rfl | omega

end

theorem find?_height {entries : List α} {p : ℕ} {x : α}
    (h : entries.find? (fun x => height x = p) = some x) : height x = p := by
  simpa using List.find?_some h

theorem searchDown_find? (entries : List α) (n : ℕ) :
    searchDown (fun p => entries.find? fun x => height x = p) n = asOf height entries n := by
  induction entries with
  | nil =>
    induction n with
    | zero => rfl
    | succ n ih =>
      rw [searchDown, ih]
      rfl
  | cons x entries ih =>
    have hcons : (fun p => (x :: entries).find? fun x => height x = p) =
        fun p => if height x = p then some x else entries.find? fun x => height x = p := by
      funext p
      by_cases hx : height x = p
      · rw [if_pos hx, List.find?_cons_of_pos (by simpa using hx)]
      · rw [if_neg hx, List.find?_cons_of_neg (by simpa using hx)]
    rw [hcons, searchDown_update (fun p y hy => find?_height height hy), ih]
    unfold asOf
    by_cases hx : height x ≤ n
    · rw [if_pos hx, List.filter_cons_of_pos (by simpa using hx), List.argmax_cons]
      cases (entries.filter fun x => height x ≤ n).argmax height <;> rfl
    · rw [if_neg hx, List.filter_cons_of_neg (by simpa using hx)]

end GoQlc.AsOf
