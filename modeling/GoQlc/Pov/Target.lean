import Mathlib.Tactic.Positivity
import GoQlc.Pov.Verify

/-!
# Compact targets

The compact form of a target has the number of its bytes, a sign bit and the 23 leading bits.
-/

namespace GoQlc

namespace Bytes

theorem lt_pow_length_leMinBytes {fuel n : ℕ} (h : n ≤ fuel) :
    n < 256 ^ (leMinBytes fuel n).length := by
  induction fuel generalizing n with
  | zero =>
    obtain rfl : n = 0 := Nat.le_zero.mp h
    simp [leMinBytes]
  | succ fuel ih =>
    unfold leMinBytes
    split_ifs with hz
    · simp [hz]
    · have hdiv := ih (n := n / 256) (by omega)
      rw [List.length_cons, pow_succ]
      omega

theorem pow_le_of_length_leMinBytes {fuel n k : ℕ} (h : (leMinBytes fuel n).length = k + 1) :
    256 ^ k ≤ n := by
  induction fuel generalizing n k with
  | zero => simp [leMinBytes] at h
  | succ fuel ih =>
    unfold leMinBytes at h
    split_ifs at h with hz
    rw [List.length_cons, Nat.add_right_cancel_iff] at h
    cases k with
    | zero => exact Nat.pos_of_ne_zero hz
    | succ k =>
      have hdiv := ih h
      rw [pow_succ]
      omega

end Bytes

namespace Pov.Wire

def byteLength (n : ℕ) : ℕ := (Bytes.natBytes n).length

theorem byteLength_eq (n : ℕ) : byteLength n = (Bytes.leMinBytes n n).length :=
  List.length_reverse

def leadingBytes (n : ℕ) : ℕ :=
  if byteLength n ≤ 3 then n * 256 ^ (3 - byteLength n) else n / 256 ^ (byteLength n - 3)

/-- The mantissa and the exponent of a number. A mantissa that reaches the sign bit is shifted by
one byte more. -/
def compactParts (n : ℕ) : ℕ × ℕ :=
  if leadingBytes n / 2 ^ 23 % 2 = 1 then (leadingBytes n / 256, byteLength n + 1)
  else (leadingBytes n, byteLength n)

theorem lt_pow_byteLength (n : ℕ) : n < 256 ^ byteLength n := by
  rw [byteLength_eq]
  exact Bytes.lt_pow_length_leMinBytes le_rfl

theorem byteLength_le {n k : ℕ} (h : n < 256 ^ k) : byteLength n ≤ k := by
  by_contra hlong
  obtain ⟨j, hj⟩ : ∃ j, byteLength n = j + 1 := ⟨byteLength n - 1, by omega⟩
  have hle : 256 ^ j ≤ n := Bytes.pow_le_of_length_leMinBytes ((byteLength_eq n).symm.trans hj)
  have hpow : 256 ^ k ≤ 256 ^ j := Nat.pow_le_pow_right (by norm_num) (by omega)
  omega

theorem leadingBytes_of_long {n j : ℕ} (h : byteLength n = j + 4) :
    leadingBytes n = n / 256 ^ (j + 1) ∧ 2 ^ 16 ≤ leadingBytes n ∧ leadingBytes n < 2 ^ 24 := by
  have hlt := lt_pow_byteLength n
  have hle : 256 ^ (j + 3) ≤ n :=
    Bytes.pow_le_of_length_leMinBytes ((byteLength_eq n).symm.trans h)
  rw [h] at hlt
  have hlow : 2 ^ 16 ≤ n / 256 ^ (j + 1) := by
    rw [Nat.le_div_iff_mul_le (by positivity)]
    calc 2 ^ 16 * 256 ^ (j + 1) = 256 ^ (j + 3) := by ring
      _ ≤ n := hle
  have hhigh : n / 256 ^ (j + 1) < 2 ^ 24 := by
    rw [Nat.div_lt_iff_lt_mul (by positivity)]
    calc n < 256 ^ (j + 4) := hlt
      _ = 2 ^ 24 * 256 ^ (j + 1) := by ring
  have hleading : leadingBytes n = n / 256 ^ (j + 1) := by
    unfold leadingBytes
    rw [h, if_neg (by omega), show j + 4 - 3 = j + 1 by omega]
  rw [hleading]
  exact ⟨rfl, hlow, hhigh⟩

theorem compactParts_spec {n : ℕ} (hpos : 0 < n) :
    (compactParts n).1 < 2 ^ 23 ∧ (compactParts n).2 ≤ byteLength n + 1 ∧
      ((compactParts n).2 ≤ 3 ∧ (compactParts n).1 / 256 ^ (3 - (compactParts n).2) = n ∨
        3 < (compactParts n).2 ∧ (compactParts n).1 = n / 256 ^ ((compactParts n).2 - 3) ∧
          2 ^ 15 ≤ (compactParts n).1) := by
  have hlt := lt_pow_byteLength n
  have hlength : byteLength n ≠ 0 := by
    intro hzero
    rw [hzero] at hlt
    omega
  unfold compactParts
  by_cases hsmall : byteLength n ≤ 3
  · -- Up to three bytes nothing is lost, unless the sign bit of the third is set.
    have hleading : leadingBytes n = n * 256 ^ (3 - byteLength n) := if_pos hsmall
    have hcases : byteLength n = 1 ∨ byteLength n = 2 ∨ byteLength n = 3 := by omega
    rcases hcases with h | h | h <;> rw [h] at hlt hleading <;> rw [h, hleading] <;>
      split_ifs with hsign <;> norm_num at hlt hsign ⊢ <;> omega
  · obtain ⟨j, hj⟩ : ∃ j, byteLength n = j + 4 := ⟨byteLength n - 4, by omega⟩
    obtain ⟨hleading, hlow, hhigh⟩ := leadingBytes_of_long hj
    split_ifs with hsign
    · have hdiv : leadingBytes n / 256 = n / 256 ^ (j + 2) := by
        rw [hleading, Nat.div_div_eq_div_mul, ← pow_succ]
      dsimp only
      rw [hj, show j + 4 + 1 - 3 = j + 2 by omega, ← hdiv]
      omega
    · dsimp only
      rw [hj, show j + 4 - 3 = j + 1 by omega, ← hleading]
      omega

theorem bigToCompact_eq {n : ℕ} (hpos : 0 < n) :
    bigToCompact n =
      UInt32.ofNat ((compactParts n).2 * 2 ^ 24) ||| UInt32.ofNat (compactParts n).1 := by
  have hleading : (if byteLength n ≤ 3 then n * 256 ^ (3 - byteLength n)
      else ((n : ℤ) / 256 ^ (byteLength n - 3)).natAbs) = leadingBytes n := by
    unfold leadingBytes
    congr 1
  have hnonneg : ¬(n : ℤ) < 0 := by omega
  have hne : (n : ℤ) ≠ 0 := by omega
  unfold bigToCompact
  simp only [if_neg hne, if_neg hnonneg, Int.natAbs_natCast]
  rw [← byteLength, hleading, Nat.testBit_eq_decide_div_mod_eq]
  unfold compactParts
  by_cases hsign : leadingBytes n / 2 ^ 23 % 2 = 1
  · rw [if_pos hsign, if_pos (decide_eq_true hsign)]
  · rw [if_neg hsign, if_neg (by rwa [decide_eq_true_eq])]

/-- What the compact form makes of a number: it is rounded down to a multiple of a power of 256 that
is at most its 32768th part and leaves 23 bits, or kept. -/
theorem compactToBig_bigToCompact {n : ℕ} (hpos : 0 < n) (hlt : byteLength n ≤ 254) :
    ∃ k, compactToBig (bigToCompact n) = (n / 256 ^ k * 256 ^ k : ℕ) ∧
      (k = 0 ∨ 2 ^ 15 * 256 ^ k ≤ n) ∧ n < 2 ^ 23 * 256 ^ k := by
  obtain ⟨hmantissa, hexponent, hparts⟩ := compactParts_spec hpos
  have hcompact : (bigToCompact n).toNat =
      (compactParts n).2 * 2 ^ 24 + (compactParts n).1 := by
    have hhigh : (UInt32.ofNat ((compactParts n).2 * 2 ^ 24)).toNat =
        2 ^ 24 * (compactParts n).2 := by
      rw [UInt32.toNat_ofNat', Nat.mod_eq_of_lt (by omega), Nat.mul_comm]
    have hlow : (UInt32.ofNat (compactParts n).1).toNat = (compactParts n).1 := by
      rw [UInt32.toNat_ofNat', Nat.mod_eq_of_lt (by omega)]
    rw [bigToCompact_eq hpos, UInt32.toNat_or, hhigh, hlow,
      ← Nat.two_pow_add_eq_or_of_lt (by omega), Nat.mul_comm]
  generalize compactParts n = parts at *
  have hread : compactToBig (bigToCompact n) =
      ((if parts.2 ≤ 3 then parts.1 / 256 ^ (3 - parts.2) else parts.1 * 256 ^ (parts.2 - 3) : ℕ) :
        ℤ) := by
    unfold compactToBig
    have h₁ : (parts.2 * 2 ^ 24 + parts.1) % 2 ^ 23 = parts.1 := by omega
    have h₂ : (parts.2 * 2 ^ 24 + parts.1) / 2 ^ 23 % 2 = 0 := by omega
    have h₃ : (parts.2 * 2 ^ 24 + parts.1) / 2 ^ 24 = parts.2 := by omega
    simp only [hcompact, h₁, h₂, h₃, Nat.testBit_eq_decide_div_mod_eq]
    rfl
  rw [hread]
  rcases hparts with ⟨hle, hkept⟩ | ⟨hgt, hdiv, hlow⟩
  · refine ⟨0, ?_, Or.inl rfl, ?_⟩
    · rw [if_pos hle, hkept]
      simp
    · have hsmall := Nat.div_le_self parts.1 (256 ^ (3 - parts.2))
      omega
  · refine ⟨parts.2 - 3, ?_, Or.inr ?_, ?_⟩
    · rw [if_neg (by omega), hdiv]
    · rw [hdiv] at hlow
      calc 2 ^ 15 * 256 ^ (parts.2 - 3) ≤ n / 256 ^ (parts.2 - 3) * 256 ^ (parts.2 - 3) :=
            Nat.mul_le_mul_right _ hlow
        _ ≤ n := Nat.div_mul_le_self _ _
    · rwa [hdiv, Nat.div_lt_iff_lt_mul (by positivity)] at hmantissa

theorem window_le {n m j k : ℕ} (hle : n ≤ m) (hlow : j = 0 ∨ 2 ^ 15 * 256 ^ j ≤ n)
    (hhigh : m < 2 ^ 23 * 256 ^ k) : j ≤ k := by
  rcases hlow with rfl | hlow
  · exact Nat.zero_le k
  · by_contra hlt
    have hpow : 256 ^ (k + 1) ≤ 256 ^ j := Nat.pow_le_pow_right (by norm_num) (by omega)
    rw [pow_succ] at hpow
    omega

theorem compactParts_of_window {n k : ℕ} (hk : 0 < k) (hlow : 2 ^ 15 * 256 ^ k ≤ n)
    (hhigh : n < 2 ^ 23 * 256 ^ k) : compactParts n = (n / 256 ^ k, k + 3) := by
  have hpow : 256 ^ 1 ≤ 256 ^ k := Nat.pow_le_pow_right (by norm_num) hk
  obtain ⟨hmantissa, -, ⟨-, hkept⟩ | ⟨hgt, hdiv, hlow'⟩⟩ := compactParts_spec (n := n) (by omega)
  · have hsmall := Nat.div_le_self (compactParts n).1 (256 ^ (3 - (compactParts n).2))
    omega
  · rw [hdiv, Nat.le_div_iff_mul_le (by positivity)] at hlow'
    rw [hdiv, Nat.div_lt_iff_lt_mul (by positivity)] at hmantissa
    have hexponent : (compactParts n).2 - 3 = k :=
      le_antisymm (window_le le_rfl (Or.inr hlow') hhigh) (window_le le_rfl (Or.inr hlow) hmantissa)
    rw [hexponent] at hdiv
    exact Prod.ext hdiv (by dsimp only; omega)

theorem bigToCompact_rounded {n k : ℕ} (hlow : k = 0 ∨ 2 ^ 15 * 256 ^ k ≤ n)
    (hhigh : n < 2 ^ 23 * 256 ^ k) : bigToCompact (n / 256 ^ k * 256 ^ k : ℕ) = bigToCompact n := by
  rcases Nat.eq_zero_or_pos k with rfl | hk
  · simp
  · replace hlow := hlow.resolve_left hk.ne'
    have hpos : 0 < 2 ^ 15 * 256 ^ k := by positivity
    have hkept : 2 ^ 15 * 256 ^ k ≤ n / 256 ^ k * 256 ^ k := by
      apply Nat.mul_le_mul_right
      rwa [Nat.le_div_iff_mul_le (by positivity)]
    have hle := Nat.div_mul_le_self n (256 ^ k)
    rw [bigToCompact_eq (hpos.trans_le hkept), bigToCompact_eq (hpos.trans_le hlow),
      compactParts_of_window hk hkept (hle.trans_lt hhigh), compactParts_of_window hk hlow hhigh,
      Nat.mul_div_cancel _ (by positivity)]

theorem rounded_le_rounded {n m j k : ℕ} (hle : n ≤ m) (hn : j = 0 ∨ 2 ^ 15 * 256 ^ j ≤ n)
    (hn' : n < 2 ^ 23 * 256 ^ j) (hm : k = 0 ∨ 2 ^ 15 * 256 ^ k ≤ m)
    (hm' : m < 2 ^ 23 * 256 ^ k) : n / 256 ^ j * 256 ^ j ≤ m / 256 ^ k * 256 ^ k := by
  rcases (window_le hle hn hm').eq_or_lt with rfl | hlt
  · exact Nat.mul_le_mul_right _ (Nat.div_le_div_right hle)
  · replace hm := hm.resolve_left (by omega)
    rw [← Nat.le_div_iff_mul_le (by positivity)] at hm
    calc n / 256 ^ j * 256 ^ j ≤ n := Nat.div_mul_le_self _ _
      _ ≤ 2 ^ 15 * 256 ^ (j + 1) := by
        rw [pow_succ]
        omega
      _ ≤ 2 ^ 15 * 256 ^ k := Nat.mul_le_mul_left _ (Nat.pow_le_pow_right (by norm_num) hlt)
      _ ≤ m / 256 ^ k * 256 ^ k := Nat.mul_le_mul_right _ hm

theorem exists_rounded {n : ℕ} (hn : n < 2 ^ 256) :
    ∃ k, compactToBig (bigToCompact n) = (n / 256 ^ k * 256 ^ k : ℕ) ∧
      (k = 0 ∨ 2 ^ 15 * 256 ^ k ≤ n) ∧ n < 2 ^ 23 * 256 ^ k := by
  rcases Nat.eq_zero_or_pos n with rfl | hpos
  · exact ⟨0, by decide, Or.inl rfl, by norm_num⟩
  · exact compactToBig_bigToCompact hpos ((byteLength_le (k := 32) hn).trans (by decide))

/-- A target below 2²⁵⁶ that goes through the compact form is rounded down by at most its 32768th
part, keeps its compact form and its order among the targets. -/
theorem compact_target_rounded {n : ℕ} (hn : n < 2 ^ 256) :
    0 ≤ compactToBig (bigToCompact n) ∧ compactToBig (bigToCompact n) ≤ n ∧
      (n - compactToBig (bigToCompact n)) * 2 ^ 15 ≤ n ∧
      bigToCompact (compactToBig (bigToCompact n)) = bigToCompact n ∧
      ∀ m : ℕ, n ≤ m → m < 2 ^ 256 →
        compactToBig (bigToCompact n) ≤ compactToBig (bigToCompact m) := by
  obtain ⟨k, hround, hlow, hhigh⟩ := exists_rounded hn
  rw [hround]
  have hle := Nat.div_mul_le_self n (256 ^ k)
  have hrest : (n - n / 256 ^ k * 256 ^ k) * 2 ^ 15 ≤ n := by
    rw [← Nat.mod_eq_sub_div_mul]
    rcases hlow with rfl | hlow
    · simp [Nat.mod_one]
    · have hlt := Nat.mod_lt n (show 0 < 256 ^ k by positivity)
      omega
  refine ⟨by positivity, by exact_mod_cast hle, ?_, bigToCompact_rounded hlow hhigh, ?_⟩
  · rw [← Nat.cast_sub hle]
    exact_mod_cast hrest
  · intro m hm hlt
    obtain ⟨j, hround', hlow', hhigh'⟩ := exists_rounded hlt
    rw [hround']
    exact_mod_cast rounded_le_rounded hm hlow hhigh hlow' hhigh'

theorem compact_target_rounded_800001 :
    compactToBig (bigToCompact (0x800001 : ℕ)) ≤ (0x800001 : ℕ) ∧
      bigToCompact (compactToBig (bigToCompact (0x800001 : ℕ))) = bigToCompact (0x800001 : ℕ) := by
  have h := compact_target_rounded (n := 0x800001) (by decide)
  exact ⟨h.2.1, h.2.2.2.1⟩

end Pov.Wire
end GoQlc

/-! ## The total difficulty and its parts -/

namespace GoQlc.Pov.Wire

open List

def calcWorkIntToBigInt (diffNum : ℤ) : ℕ :=
  if diffNum ≤ 0 then 0 else 2 ^ 256 / (diffNum.toNat + 1)

def workNorm (header : PovBaseHeader) : ℕ := calcWorkIntToBigInt (getNormTargetInt header)

structure PovTD where
  chain : ℕ := 0
  sha256d : ℕ := 0
  scrypt : ℕ := 0
  x11 : ℕ := 0
  hybrid : ℕ := 0
deriving DecidableEq, Repr

/-- The field `Hybrid` is not copied. -/
def PovTD.copy (td : PovTD) : PovTD :=
  { chain := td.chain, sha256d := td.sha256d, scrypt := td.scrypt, x11 := td.x11 }

def calcTotalDifficulty (prevTD : PovTD) (header : PovBaseHeader) : PovTD :=
  let curWorkNorm := workNorm header
  let curTD := { prevTD.copy with chain := prevTD.chain + curWorkNorm }
  let algoType := getAlgoType header.version
  if algoType = algoSha256d then { curTD with sha256d := prevTD.sha256d + curWorkNorm }
  else if algoType = algoScrypt then { curTD with scrypt := prevTD.scrypt + curWorkNorm }
  else if algoType = algoX11 then { curTD with x11 := prevTD.x11 + curWorkNorm }
  else if algoType = algoHybrid then { curTD with hybrid := prevTD.hybrid + curWorkNorm }
  else curTD

def totalDifficulty (headers : List PovBaseHeader) : PovTD :=
  headers.foldl calcTotalDifficulty {}

/-- `PovIsAlgoSupported` in the build for the test network. -/
def povIsAlgoSupportedTestnet (algo : UInt32) : Bool :=
  povIsAlgoSupported algo || algo == algoHybrid

/-! ## The sums -/

def work (headers : List PovBaseHeader) : ℕ := (headers.map workNorm).sum

def workBy (algo : UInt32) (headers : List PovBaseHeader) : ℕ :=
  work (headers.filter fun header => getAlgoType header.version = algo)

structure Decomposed (td : PovTD) (headers : List PovBaseHeader) : Prop where
  chain : td.chain = work headers
  sha256d : td.sha256d = workBy algoSha256d headers
  scrypt : td.scrypt = workBy algoScrypt headers
  x11 : td.x11 = workBy algoX11 headers
  hybrid : td.hybrid = workBy algoHybrid headers

variable {headers : List PovBaseHeader} {header : PovBaseHeader}

theorem totalDifficulty_append_singleton (headers : List PovBaseHeader) (header : PovBaseHeader) :
    totalDifficulty (headers ++ [header]) = calcTotalDifficulty (totalDifficulty headers) header :=
  foldl_append

theorem workBy_append_singleton (algo : UInt32) :
    workBy algo (headers ++ [header]) =
      workBy algo headers + if getAlgoType header.version = algo then workNorm header else 0 := by
  unfold workBy work
  rw [filter_append, map_append, sum_append]
  by_cases h : getAlgoType header.version = algo <;> simp [h]

theorem calcTotalDifficulty_copied (prevTD : PovTD) :
    (calcTotalDifficulty prevTD header).chain = prevTD.chain + workNorm header ∧
    (calcTotalDifficulty prevTD header).sha256d = prevTD.sha256d +
      (if getAlgoType header.version = algoSha256d then workNorm header else 0) ∧
    (calcTotalDifficulty prevTD header).scrypt = prevTD.scrypt +
      (if getAlgoType header.version = algoScrypt then workNorm header else 0) ∧
    (calcTotalDifficulty prevTD header).x11 = prevTD.x11 +
      (if getAlgoType header.version = algoX11 then workNorm header else 0) := by
  have hscrypt : algoScrypt ≠ algoSha256d := by decide
  have hx11 : algoX11 ≠ algoSha256d ∧ algoX11 ≠ algoScrypt := by decide
  unfold calcTotalDifficulty PovTD.copy
  dsimp only
  split_ifs <;> simp_all

theorem calcTotalDifficulty_hybrid (prevTD : PovTD) :
    (calcTotalDifficulty prevTD header).hybrid =
      if getAlgoType header.version = algoHybrid then prevTD.hybrid + workNorm header else 0 := by
  have hne : algoHybrid ≠ algoSha256d ∧ algoHybrid ≠ algoScrypt ∧ algoHybrid ≠ algoX11 := by decide
  unfold calcTotalDifficulty PovTD.copy
  dsimp only
  split_ifs <;> simp_all

theorem totalDifficulty_copied (headers : List PovBaseHeader) :
    (totalDifficulty headers).chain = work headers ∧
    (totalDifficulty headers).sha256d = workBy algoSha256d headers ∧
    (totalDifficulty headers).scrypt = workBy algoScrypt headers ∧
    (totalDifficulty headers).x11 = workBy algoX11 headers := by
  induction headers using List.reverseRecOn with
  | nil => exact ⟨rfl, rfl, rfl, rfl⟩
  | append_singleton headers header ih =>
    obtain ⟨hchain, hsha, hscrypt, hx11⟩ := ih
    have hstep := @calcTotalDifficulty_copied header (totalDifficulty headers)
    rw [hchain, hsha, hscrypt, hx11] at hstep
    have hwork : work (headers ++ [header]) = work headers + workNorm header := by
      simp [work]
    rw [totalDifficulty_append_singleton, hwork]
    simp only [workBy_append_singleton]
    exact hstep

/-- No header of the hybrid algorithm with some work is followed by one of another algorithm. -/
def HybridAtEnd (headers : List PovBaseHeader) : Prop :=
  headers.Pairwise fun header later =>
    getAlgoType header.version = algoHybrid → workNorm header ≠ 0 →
      getAlgoType later.version = algoHybrid

theorem workBy_eq_zero {algo : UInt32} :
    workBy algo headers = 0 ↔
      ∀ header ∈ headers, getAlgoType header.version = algo → workNorm header = 0 := by
  unfold workBy work
  rw [sum_eq_zero_iff, forall_mem_map]
  simp

theorem totalDifficulty_hybrid_iff (headers : List PovBaseHeader) :
    (totalDifficulty headers).hybrid = workBy algoHybrid headers ↔ HybridAtEnd headers := by
  induction headers using List.reverseRecOn with
  | nil => exact iff_of_true rfl List.Pairwise.nil
  | append_singleton headers header ih =>
    unfold HybridAtEnd at ih ⊢
    rw [totalDifficulty_append_singleton, calcTotalDifficulty_hybrid, workBy_append_singleton,
      pairwise_append]
    by_cases hlast : getAlgoType header.version = algoHybrid
    · -- the sum goes on, and nothing is asked for the new pair
      simp [hlast, ih]
    · -- the sum is lost, so there was none
      rw [if_neg hlast, if_neg hlast, Nat.add_zero, eq_comm, workBy_eq_zero]
      simp only [mem_singleton, forall_eq, pairwise_singleton, true_and, hlast, imp_false,
        not_not]
      refine ⟨fun h => ⟨?_, h⟩, fun h => h.2⟩
      apply pairwise_of_forall_mem_list
      intro a ha b _ halgo hwork
      exact absurd (h a ha halgo) hwork

/-- The total difficulty of a chain of headers has the right parts exactly if the hybrid headers
with work come last. -/
theorem totalDifficulty_decomposed_iff (headers : List PovBaseHeader) :
    Decomposed (totalDifficulty headers) headers ↔ HybridAtEnd headers := by
  rw [← totalDifficulty_hybrid_iff]
  obtain ⟨hchain, hsha, hscrypt, hx11⟩ := totalDifficulty_copied headers
  exact ⟨fun h => h.hybrid, fun h => ⟨hchain, hsha, hscrypt, hx11, h⟩⟩

theorem HybridAtEnd.of_supported
    (h : ∀ header ∈ headers, povIsAlgoSupported (getAlgoType header.version) = true) :
    HybridAtEnd headers := by
  apply pairwise_of_forall_mem_list
  intro header hmem later _ hhybrid
  have hsupported := h header hmem
  rw [hhybrid] at hsupported
  exact absurd hsupported (by decide)

def headerOf (version : UInt32) : PovBaseHeader :=
  { version, previous := 0, merkleRoot := 0, timestamp := 0, bits := 0x1d00ffff, nonce := 0,
    hash := 0, height := 0 }

/-- The work of a hybrid header is lost behind a header of another algorithm. -/
theorem totalDifficulty_loses_hybrid :
    (∀ header ∈ [headerOf algoSha256d, headerOf algoHybrid, headerOf algoScrypt],
      povIsAlgoSupportedTestnet (getAlgoType header.version) = true) ∧
    (totalDifficulty [headerOf algoSha256d, headerOf algoHybrid, headerOf algoScrypt]).hybrid = 0 ∧
    workBy algoHybrid [headerOf algoSha256d, headerOf algoHybrid, headerOf algoScrypt] ≠ 0 := by
  decide +kernel

end GoQlc.Pov.Wire
