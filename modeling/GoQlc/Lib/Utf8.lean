import GoQlc.Lib.Bytes

/-!
# UTF-8 decoding and comparison under case folding

Decoding of one rune from a byte string, where every malformed sequence reads as one replacement
rune of width one, and the comparison of two byte strings rune by rune under simple case folding.
-/

namespace GoQlc.Utf8

open List

def runeError : ℕ := 0xFFFD

def first (p0 : ℕ) : Option (ℕ × ℕ × ℕ) :=
  if p0 < 0xC2 then none
  else if p0 < 0xE0 then some (2, 0x80, 0xBF)
  else if p0 = 0xE0 then some (3, 0xA0, 0xBF)
  else if p0 = 0xED then some (3, 0x80, 0x9F)
  else if p0 < 0xF0 then some (3, 0x80, 0xBF)
  else if p0 = 0xF0 then some (4, 0x90, 0xBF)
  else if p0 < 0xF4 then some (4, 0x80, 0xBF)
  else if p0 = 0xF4 then some (4, 0x80, 0x8F)
  else none

def isContinuation (b : ℕ) : Prop := 0x80 ≤ b ∧ b ≤ 0xBF

instance (b : ℕ) : Decidable (isContinuation b) := inferInstanceAs (Decidable (_ ∧ _))

def decodeRune : Bytes → ℕ × ℕ
  | [] => (runeError, 0)
  | b0 :: rest =>
    let p0 := b0.toNat
    if p0 < 0x80 then (p0, 1)
    else
      match first p0 with
      | none => (runeError, 1)
      | some (size, lo, hi) =>
        match rest with
        | [] => (runeError, 1)
        | b1 :: rest =>
          if ¬ (lo ≤ b1.toNat ∧ b1.toNat ≤ hi) then (runeError, 1)
          else if size ≤ 2 then (p0 % 32 * 64 + b1.toNat % 64, 2)
          else
            match rest with
            | [] => (runeError, 1)
            | b2 :: rest =>
              if ¬ isContinuation b2.toNat then (runeError, 1)
              else if size ≤ 3 then
                (p0 % 16 * 4096 + b1.toNat % 64 * 64 + b2.toNat % 64, 3)
              else
                match rest with
                | [] => (runeError, 1)
                | b3 :: _ =>
                  if ¬ isContinuation b3.toNat then (runeError, 1)
                  else (p0 % 8 * 262144 + b1.toNat % 64 * 4096 + b2.toNat % 64 * 64 +
                    b3.toNat % 64, 4)

def encodeRune (r : ℕ) : Bytes :=
  if r < 0x80 then [UInt8.ofNat r]
  else if r < 0x800 then [UInt8.ofNat (0xC0 + r / 64), UInt8.ofNat (0x80 + r % 64)]
  else if r < 0x10000 then
    [UInt8.ofNat (0xE0 + r / 4096), UInt8.ofNat (0x80 + r / 64 % 64), UInt8.ofNat (0x80 + r % 64)]
  else
    [UInt8.ofNat (0xF0 + r / 262144), UInt8.ofNat (0x80 + r / 4096 % 64),
      UInt8.ofNat (0x80 + r / 64 % 64), UInt8.ofNat (0x80 + r % 64)]

theorem first_cases {p0 size lo hi : ℕ} (h : first p0 = some (size, lo, hi)) :
    (size = 2 ∧ 0xC2 ≤ p0 ∧ p0 < 0xE0 ∧ lo = 0x80 ∧ hi = 0xBF) ∨
    (size = 3 ∧ 0xE0 ≤ p0 ∧ p0 < 0xF0 ∧ 0x80 ≤ lo ∧ hi ≤ 0xBF ∧ (p0 = 0xE0 → 0xA0 ≤ lo)) ∨
    (size = 4 ∧ 0xF0 ≤ p0 ∧ p0 < 0xF5 ∧ 0x80 ≤ lo ∧ hi ≤ 0xBF ∧ (p0 = 0xF0 → 0x90 ≤ lo)) := by
  unfold first at h
  split_ifs at h <;>
    simp only [Option.some.injEq, Prod.mk.injEq] at h <;> omega

/-- The well-formed sequences: one byte below 0x80, or a start byte followed by
one to three continuation bytes. -/
inductive WellFormed : Bytes → ℕ → Prop
  | one {b0 : UInt8} (h0 : b0.toNat < 0x80) : WellFormed [b0] b0.toNat
  | two {b0 b1 : UInt8} {lo hi : ℕ} (h0 : first b0.toNat = some (2, lo, hi))
      (h1 : lo ≤ b1.toNat ∧ b1.toNat ≤ hi) :
      WellFormed [b0, b1] (b0.toNat % 32 * 64 + b1.toNat % 64)
  | three {b0 b1 b2 : UInt8} {lo hi : ℕ} (h0 : first b0.toNat = some (3, lo, hi))
      (h1 : lo ≤ b1.toNat ∧ b1.toNat ≤ hi) (h2 : isContinuation b2.toNat) :
      WellFormed [b0, b1, b2]
        (b0.toNat % 16 * 4096 + b1.toNat % 64 * 64 + b2.toNat % 64)
  | four {b0 b1 b2 b3 : UInt8} {lo hi : ℕ} (h0 : first b0.toNat = some (4, lo, hi))
      (h1 : lo ≤ b1.toNat ∧ b1.toNat ≤ hi) (h2 : isContinuation b2.toNat)
      (h3 : isContinuation b3.toNat) :
      WellFormed [b0, b1, b2, b3]
        (b0.toNat % 8 * 262144 + b1.toNat % 64 * 4096 + b2.toNat % 64 * 64 + b3.toNat % 64)

theorem first_eq_none_of_ascii {p0 : ℕ} (h : p0 < 0x80) : first p0 = none := by
  unfold first
  rw [if_pos (by omega)]

theorem not_ascii_of_first {p0 : ℕ} {x : ℕ × ℕ × ℕ} (h : first p0 = some x) : ¬ p0 < 0x80 := by
  intro hlt
  rw [first_eq_none_of_ascii hlt] at h
  cases h

variable {w : Bytes} {r : ℕ}

theorem WellFormed.decodeRune_append (h : WellFormed w r) (rest : Bytes) :
    decodeRune (w ++ rest) = (r, w.length) := by
  cases h with
  | one h0 => simp [decodeRune, h0]
  | two h0 h1 => simp [decodeRune, not_ascii_of_first h0, h0, h1]
  | three h0 h1 h2 => simp [decodeRune, not_ascii_of_first h0, h0, h1, h2]
  | four h0 h1 h2 h3 => simp [decodeRune, not_ascii_of_first h0, h0, h1, h2, h3]

variable {s : Bytes}

theorem decodeRune_wellFormed (h : (decodeRune s).1 ≠ runeError) :
    WellFormed (s.take (decodeRune s).2) (decodeRune s).1 := by
  match s with
  | [] => exact absurd rfl h
  | b0 :: rest =>
    by_cases h0 : b0.toNat < 0x80
    · simpa [decodeRune, h0] using WellFormed.one h0
    match hf : first b0.toNat, rest with
    | none, _ | some (size, lo, hi), [] => simp [decodeRune, h0, hf] at h
    | some (size, lo, hi), b1 :: rest =>
      by_cases h1 : lo ≤ b1.toNat ∧ b1.toNat ≤ hi
      swap
      · simp [decodeRune, h0, hf, h1] at h
      -- the width the start byte announces decides how many more bytes are read
      rcases first_cases hf with ⟨rfl, -⟩ | ⟨rfl, -⟩ | ⟨rfl, -⟩
      · simpa [decodeRune, h0, hf, h1] using WellFormed.two hf h1
      · match rest with
        | [] => simp [decodeRune, h0, hf, h1] at h
        | b2 :: rest =>
          by_cases h2 : isContinuation b2.toNat
          · simpa [decodeRune, h0, hf, h1, h2] using WellFormed.three hf h1 h2
          · simp [decodeRune, h0, hf, h1, h2] at h
      · match rest with
        | [] | [b2] => simp [decodeRune, h0, hf, h1] at h
        | b2 :: b3 :: rest =>
          by_cases h2 : isContinuation b2.toNat
          swap
          · simp [decodeRune, h0, hf, h1, h2] at h
          by_cases h3 : isContinuation b3.toNat
          · simpa [decodeRune, h0, hf, h1, h2, h3] using WellFormed.four hf h1 h2 h3
          · simp [decodeRune, h0, hf, h1, h2, h3] at h

theorem WellFormed.eq_encodeRune (h : WellFormed w r) : w = encodeRune r := by
  cases h with
  | one h0 => rw [encodeRune, if_pos h0, UInt8.ofNat_toNat]
  | @two b0 b1 lo hi h0 h1 =>
    have hc := first_cases h0
    have e0 : 0xC0 + (b0.toNat % 32 * 64 + b1.toNat % 64) / 64 = b0.toNat := by omega
    have e1 : 0x80 + (b0.toNat % 32 * 64 + b1.toNat % 64) % 64 = b1.toNat := by omega
    rw [encodeRune, if_neg (by omega), if_pos (by omega), e0, e1, UInt8.ofNat_toNat,
      UInt8.ofNat_toNat]
  | @three b0 b1 b2 lo hi h0 h1 h2 =>
    have hc := first_cases h0
    unfold isContinuation at h2
    generalize hr : b0.toNat % 16 * 4096 + b1.toNat % 64 * 64 + b2.toNat % 64 = r
    have e0 : 0xE0 + r / 4096 = b0.toNat := by omega
    have e1 : 0x80 + r / 64 % 64 = b1.toNat := by omega
    have e2 : 0x80 + r % 64 = b2.toNat := by omega
    rw [encodeRune, if_neg (by omega), if_neg (by omega), if_pos (by omega), e0, e1, e2,
      UInt8.ofNat_toNat, UInt8.ofNat_toNat, UInt8.ofNat_toNat]
  | @four b0 b1 b2 b3 lo hi h0 h1 h2 h3 =>
    have hc := first_cases h0
    unfold isContinuation at h2 h3
    generalize hr : b0.toNat % 8 * 262144 + b1.toNat % 64 * 4096 + b2.toNat % 64 * 64 +
      b3.toNat % 64 = r
    have e0 : 0xF0 + r / 262144 = b0.toNat := by omega
    have e1 : 0x80 + r / 4096 % 64 = b1.toNat := by omega
    have e2 : 0x80 + r / 64 % 64 = b2.toNat := by omega
    have e3 : 0x80 + r % 64 = b3.toNat := by omega
    rw [encodeRune, if_neg (by omega), if_neg (by omega), if_neg (by omega), e0, e1, e2, e3,
      UInt8.ofNat_toNat, UInt8.ofNat_toNat, UInt8.ofNat_toNat, UInt8.ofNat_toNat]

/-! ## Comparison under case folding -/

section Fold

variable (simpleFold : ℕ → ℕ)

/-- Follows the folding orbit of `lo` from `r` on until it closes or reaches `hi`. -/
def foldOrbit (lo hi : ℕ) : ℕ → ℕ → ℕ
  | 0, r => r
  | fuel + 1, r => if r ≠ lo ∧ r < hi then foldOrbit lo hi fuel (simpleFold r) else r

def runeFoldEq (sr tr : ℕ) : Bool :=
  if tr = sr then true
  else
    let lo := min sr tr
    let hi := max sr tr
    if hi < 0x80 then decide (65 ≤ lo ∧ lo ≤ 90 ∧ hi = lo + 32)
    else foldOrbit simpleFold lo hi hi (simpleFold lo) == hi

def equalFoldLoop : ℕ → Bytes → Bytes → Bool
  | 0, s, t => s.length == t.length
  | fuel + 1, s, t =>
    if s = [] ∨ t = [] then s.length == t.length
    else if runeFoldEq simpleFold (decodeRune s).1 (decodeRune t).1 then
      equalFoldLoop fuel (s.drop (decodeRune s).2) (t.drop (decodeRune t).2)
    else false

def equalFold (s t : Bytes) : Bool := equalFoldLoop simpleFold s.length s t

/-- No other rune folds to this one, and it is not the replacement rune, which
also stands for every malformed byte. -/
def RigidRune (r : ℕ) : Prop :=
  r ≠ runeError ∧ ∀ w r', WellFormed w r' → runeFoldEq simpleFold r' r = true → r' = r

inductive FoldRigid : Bytes → Prop
  | nil : FoldRigid []
  | append {w rest : Bytes} {r : ℕ} (hw : WellFormed w r) (hr : RigidRune simpleFold r)
      (hrest : FoldRigid rest) : FoldRigid (w ++ rest)

variable {simpleFold}

theorem runeFoldEq_refl (r : ℕ) : runeFoldEq simpleFold r r = true := by
  rw [runeFoldEq, if_pos rfl]

theorem runeFoldEq_comm (r r' : ℕ) : runeFoldEq simpleFold r r' = runeFoldEq simpleFold r' r := by
  unfold runeFoldEq
  rw [min_comm r r', max_comm r r']
  simp only [eq_comm]

theorem decodeRune_width_pos (h : s ≠ []) : 0 < (decodeRune s).2 := by
  match s with
  | [] => exact absurd rfl h
  | b0 :: rest =>
    unfold decodeRune
    dsimp only
    repeat' split
    all_goals simp

theorem drop_decodeRune_length (h : s ≠ []) : (s.drop (decodeRune s).2).length < s.length := by
  have hw := decodeRune_width_pos h
  have hs : 0 < s.length := length_pos_iff.mpr h
  rw [length_drop]
  omega

variable {t : Bytes}

theorem equalFoldLoop_fuel {n m : ℕ} (hn : s.length ≤ n) (hm : s.length ≤ m) :
    equalFoldLoop simpleFold n s t = equalFoldLoop simpleFold m s t := by
  induction n generalizing m s t with
  | zero =>
    obtain rfl : s = [] := length_eq_zero_iff.mp (Nat.le_zero.mp hn)
    cases m <;> simp [equalFoldLoop]
  | succ n ih =>
    match m, s with
    | 0, [] => simp [equalFoldLoop]
    | 0, _ :: _ => simp at hm
    | m + 1, [] => simp [equalFoldLoop]
    | m + 1, b :: bs =>
      have hlt := drop_decodeRune_length (s := b :: bs) (cons_ne_nil b bs)
      rw [equalFoldLoop, equalFoldLoop, ih (m := m) (by omega) (by omega)]

theorem equalFoldLoop_comm (n : ℕ) (s t : Bytes) :
    equalFoldLoop simpleFold n s t = equalFoldLoop simpleFold n t s := by
  induction n generalizing s t with
  | zero => simp [equalFoldLoop, Bool.beq_comm]
  | succ n ih =>
    rw [equalFoldLoop, equalFoldLoop, Bool.beq_comm (a := s.length), runeFoldEq_comm, ih]
    exact if_congr or_comm rfl rfl

theorem equalFold_comm (s t : Bytes) : equalFold simpleFold s t = equalFold simpleFold t s := by
  unfold equalFold
  rw [equalFoldLoop_fuel (m := max s.length t.length) le_rfl (le_max_left _ _),
    equalFoldLoop_comm,
    equalFoldLoop_fuel (n := t.length) (m := max s.length t.length) le_rfl (le_max_right _ _)]

theorem equalFold_of_ne_nil (hs : s ≠ []) (ht : t ≠ []) :
    equalFold simpleFold s t =
      (runeFoldEq simpleFold (decodeRune s).1 (decodeRune t).1 &&
        equalFold simpleFold (s.drop (decodeRune s).2) (t.drop (decodeRune t).2)) := by
  have hlt := drop_decodeRune_length hs
  obtain ⟨n, hn⟩ : ∃ n, s.length = n + 1 := ⟨s.length - 1, by omega⟩
  have hstop : ¬ (s = [] ∨ t = []) := fun h => h.elim hs ht
  rw [equalFold, hn, equalFoldLoop, if_neg hstop, equalFold,
    equalFoldLoop_fuel (n := n) (m := (s.drop (decodeRune s).2).length) (by omega) le_rfl]
  cases runeFoldEq simpleFold (decodeRune s).1 (decodeRune t).1 <;> simp

theorem equalFold_nil_left (h : equalFold simpleFold [] t = true) : t = [] := by
  have hlen : 0 = t.length := by simpa [equalFold, equalFoldLoop] using h
  exact length_eq_zero_iff.mp hlen.symm

theorem equalFold_refl (s : Bytes) : equalFold simpleFold s s = true := by
  induction h : s.length using Nat.strong_induction_on generalizing s with
  | _ n ih =>
    by_cases hs : s = []
    · simp [hs, equalFold, equalFoldLoop]
    · have hlt := drop_decodeRune_length hs
      rw [equalFold_of_ne_nil hs hs, runeFoldEq_refl, ih _ (h ▸ hlt) _ rfl, Bool.and_self]

theorem WellFormed.ne_nil (h : WellFormed w r) : w ≠ [] := by
  cases h <;> exact cons_ne_nil _ _

theorem equalFold_append {w' : Bytes} {r' : ℕ} (hw : WellFormed w r) (hw' : WellFormed w' r') :
    equalFold simpleFold (w ++ s) (w' ++ t) =
      (runeFoldEq simpleFold r r' && equalFold simpleFold s t) := by
  have hs : w ++ s ≠ [] := append_ne_nil_of_left_ne_nil hw.ne_nil s
  have ht : w' ++ t ≠ [] := append_ne_nil_of_left_ne_nil hw'.ne_nil t
  rw [equalFold_of_ne_nil hs ht, hw.decodeRune_append, hw'.decodeRune_append,
    drop_left, drop_left]

theorem wellFormed_runeError : WellFormed [0xEF, 0xBF, 0xBD] runeError := by
  have h0 : first (0xEF : UInt8).toNat = some (3, 0x80, 0xBF) := rfl
  have h1 : 0x80 ≤ (0xBF : UInt8).toNat ∧ (0xBF : UInt8).toNat ≤ 0xBF := by decide
  have h2 : isContinuation (0xBD : UInt8).toNat := by decide
  exact WellFormed.three h0 h1 h2

theorem FoldRigid.eq (ht : FoldRigid simpleFold t) (h : equalFold simpleFold s t = true) :
    s = t := by
  induction ht generalizing s with
  | nil =>
    rw [equalFold_comm] at h
    exact equalFold_nil_left h
  | @append w rest r hw hr _ ih =>
    have hne : w ++ rest ≠ [] := append_ne_nil_of_left_ne_nil hw.ne_nil rest
    have hs : s ≠ [] := fun hs => hne (equalFold_nil_left (hs ▸ h))
    rw [equalFold_of_ne_nil hs hne, hw.decodeRune_append, drop_left, Bool.and_eq_true] at h
    obtain ⟨hrune, htail⟩ := h
    -- the rune of `s` is well formed: malformed bytes read as a rune that has an encoding
    have hread : ∃ w', WellFormed w' (decodeRune s).1 := by
      by_cases he : (decodeRune s).1 = runeError
      · exact ⟨_, he ▸ wellFormed_runeError⟩
      · exact ⟨_, decodeRune_wellFormed he⟩
    obtain ⟨w', hw'⟩ := hread
    have hsame : (decodeRune s).1 = r := hr.2 w' _ hw' hrune
    have hok : (decodeRune s).1 ≠ runeError := hsame ▸ hr.1
    have hbytes : s.take (decodeRune s).2 = w := by
      rw [(decodeRune_wellFormed hok).eq_encodeRune, hsame, ← hw.eq_encodeRune]
    rw [← take_append_drop (decodeRune s).2 s, hbytes, ih htail]

theorem decodeRune_invalid (rest : Bytes) : decodeRune (0xFF :: rest) = (runeError, 1) := rfl

theorem exists_ne_of_runeError (ht : t ≠ []) (he : (decodeRune t).1 = runeError) :
    ∃ s, s ≠ t ∧ equalFold simpleFold s t = true := by
  by_cases hff : ∃ rest, t = 0xFF :: rest
  · obtain ⟨rest, rfl⟩ := hff
    refine ⟨[0xEF, 0xBF, 0xBD] ++ rest, fun hc => ?_, ?_⟩
    · have hhead : (0xEF : UInt8) = 0xFF := (List.cons.inj hc).1
      exact absurd hhead (by decide)
    · have hs : [0xEF, 0xBF, 0xBD] ++ rest ≠ [] := cons_ne_nil _ _
      rw [equalFold_of_ne_nil hs ht, wellFormed_runeError.decodeRune_append, decodeRune_invalid,
        runeFoldEq_refl, drop_left, Bool.true_and]
      exact equalFold_refl rest
  · refine ⟨0xFF :: t.drop (decodeRune t).2, fun hc => hff ⟨_, hc.symm⟩, ?_⟩
    rw [equalFold_of_ne_nil (cons_ne_nil _ _) ht, decodeRune_invalid, he, runeFoldEq_refl,
      Bool.true_and]
    exact equalFold_refl _

theorem exists_ne_of_not_foldRigid (ht : ¬ FoldRigid simpleFold t) :
    ∃ s, s ≠ t ∧ equalFold simpleFold s t = true := by
  induction h : t.length using Nat.strong_induction_on generalizing t with
  | _ n ih =>
    have hne : t ≠ [] := fun hnil => ht (hnil ▸ FoldRigid.nil)
    by_cases he : (decodeRune t).1 = runeError
    · exact exists_ne_of_runeError hne he
    have hw := decodeRune_wellFormed he
    generalize hr : (decodeRune t).1 = r at hw he
    generalize hwd : t.take (decodeRune t).2 = w at hw
    have hsplit : t = w ++ t.drop (decodeRune t).2 := by
      rw [← hwd, take_append_drop]
    by_cases hrigid : RigidRune simpleFold r
    · have hrest : ¬ FoldRigid simpleFold (t.drop (decodeRune t).2) := fun hrest =>
        ht (hsplit ▸ FoldRigid.append hw hrigid hrest)
      obtain ⟨s, hs, heq⟩ := ih _ (h ▸ drop_decodeRune_length hne) hrest rfl
      refine ⟨w ++ s, fun hc => hs ?_, ?_⟩
      · rw [hsplit] at hc
        exact append_cancel_left hc
      · rw [hsplit, equalFold_append hw hw, runeFoldEq_refl, heq, Bool.and_self]
    · -- another rune folds to the first one: write that one instead
      have hother : ∃ w' r', WellFormed w' r' ∧ runeFoldEq simpleFold r' r = true ∧ r' ≠ r := by
        by_contra hnone
        refine hrigid ⟨he, fun w' r' hw' hfold => ?_⟩
        by_contra hdiff
        exact hnone ⟨w', r', hw', hfold, hdiff⟩
      obtain ⟨w', r', hw', hfold, hdiff⟩ := hother
      refine ⟨w' ++ t.drop (decodeRune t).2, fun hc => hdiff ?_, ?_⟩
      · have hrune := hw'.decodeRune_append (t.drop (decodeRune t).2)
        rw [hc] at hrune
        rw [← hr, hrune]
      · rw [hsplit, equalFold_append hw' hw, hfold, ← hsplit, equalFold_refl, Bool.and_self]

theorem foldRigid_iff : FoldRigid simpleFold t ↔ ∀ s, equalFold simpleFold s t = true → s = t := by
  refine ⟨fun ht s h => ht.eq h, fun h => ?_⟩
  by_contra hrigid
  obtain ⟨s, hne, heq⟩ := exists_ne_of_not_foldRigid hrigid
  exact hne (h s heq)

end Fold

end GoQlc.Utf8
