import Mathlib.Data.List.Basic
import Mathlib.Tactic.Ring

/-!
# Byte strings

Big-endian encodings of natural numbers, of a fixed width and of the least
width, and the value they both decode to.
-/

namespace GoQlc

abbrev Bytes := List UInt8

instance : LawfulBEq Bytes := inferInstance

namespace Bytes

/-- The `w` low bytes of `n`, least significant first. -/
def leBytes : ℕ → ℕ → Bytes
  | 0, _ => []
  | w + 1, n => UInt8.ofNat n :: leBytes w (n / 256)

/-- The `w` low bytes of `n`, most significant first. -/
def beBytes (w n : ℕ) : Bytes := (leBytes w n).reverse

/-- The bytes of `n` up to its last non-zero one; zero has none. -/
def leMinBytes : ℕ → ℕ → Bytes
  | 0, _ => []
  | fuel + 1, n => if n = 0 then [] else UInt8.ofNat n :: leMinBytes fuel (n / 256)

/-- The least number of bytes that hold `n`, most significant first. -/
def natBytes (n : ℕ) : Bytes := (leMinBytes n n).reverse

def leValue : Bytes → ℕ
  | [] => 0
  | b :: bs => b.toNat + 256 * leValue bs

def hexDigit (n : UInt8) : UInt8 := if n < 10 then 48 + n else 87 + n

/-- A byte string as `%x` writes it. -/
def hexText (bs : Bytes) : Bytes := bs.flatMap fun b => [hexDigit (b / 16), hexDigit (b % 16)]

def toNat (bs : Bytes) : ℕ := leValue bs.reverse

@[simp] theorem leBytes_length (w n : ℕ) : (leBytes w n).length = w := by
  induction w generalizing n with
  | zero => rfl
  | succ w ih => simp [leBytes, ih]

@[simp] theorem beBytes_length (w n : ℕ) : (beBytes w n).length = w := by
  simp [beBytes]

theorem leValue_leBytes (w n : ℕ) : leValue (leBytes w n) = n % 256 ^ w := by
  induction w generalizing n with
  | zero => simp [leBytes, leValue, Nat.mod_one]
  | succ w ih =>
    have byte : (UInt8.ofNat n).toNat = n % 256 := UInt8.toNat_ofNat'
    rw [leBytes, leValue, ih, byte, pow_succ, Nat.mul_comm (256 ^ w) 256, Nat.mod_mul]

theorem leValue_lt (bs : Bytes) : leValue bs < 256 ^ bs.length := by
  induction bs with
  | nil => exact Nat.one_pos
  | cons b bs ih =>
    have hb := b.toNat_lt
    rw [leValue, List.length_cons, pow_succ]
    omega

theorem toNat_beBytes (w n : ℕ) : toNat (beBytes w n) = n % 256 ^ w := by
  rw [toNat, beBytes, List.reverse_reverse, leValue_leBytes]

theorem beBytes_inj {w n m : ℕ} (hn : n < 256 ^ w) (hm : m < 256 ^ w)
    (h : beBytes w n = beBytes w m) : n = m := by
  have hv := congrArg toNat h
  rwa [toNat_beBytes, toNat_beBytes, Nat.mod_eq_of_lt hn, Nat.mod_eq_of_lt hm] at hv

theorem leValue_leMinBytes {fuel n : ℕ} (h : n ≤ fuel) : leValue (leMinBytes fuel n) = n := by
  induction fuel generalizing n with
  | zero =>
    obtain rfl : n = 0 := Nat.le_zero.mp h
    rfl
  | succ fuel ih =>
    unfold leMinBytes
    split_ifs with hz
    · simp [leValue, hz]
    · have hd : n / 256 ≤ fuel := by omega
      rw [leValue, ih hd, UInt8.toNat_ofNat']
      omega

theorem toNat_natBytes (n : ℕ) : toNat (natBytes n) = n := by
  rw [toNat, natBytes, List.reverse_reverse, leValue_leMinBytes le_rfl]

theorem natBytes_injective : Function.Injective natBytes :=
  Function.LeftInverse.injective toNat_natBytes

end Bytes
end GoQlc

/-! ## Self-delimiting encodings -/

namespace GoQlc

open List

variable {α β γ : Type*}

/-- The code word at the start of a text, and what follows it, are determined by the text. -/
def SelfDelimiting (enc : α → List β) : Prop :=
  ∀ ⦃x y : α⦄ ⦃r r' : List β⦄, enc x ++ r = enc y ++ r' → x = y ∧ r = r'

namespace SelfDelimiting

theorem of_length {enc : α → List β} (hlen : ∀ x y, (enc x).length = (enc y).length)
    (hinj : Function.Injective enc) : SelfDelimiting enc := by
  intro x y r r' h
  obtain ⟨hword, hrest⟩ := append_inj h (hlen x y)
  exact ⟨hinj hword, hrest⟩

theorem of_tag {tag : α → β} {payload : α → List β}
    (hlen : ∀ x y, tag x = tag y → (payload x).length = (payload y).length)
    (hinj : ∀ x y, tag x = tag y → payload x = payload y → x = y) :
    SelfDelimiting fun x => tag x :: payload x := by
  intro x y r r' h
  simp only [cons_append, List.cons.injEq] at h
  obtain ⟨htag, h⟩ := h
  obtain ⟨hpayload, hrest⟩ := append_inj h (hlen x y htag)
  exact ⟨hinj x y htag hpayload, hrest⟩

theorem framed {header : α → List β} (hheader : SelfDelimiting header) {text : γ → List β}
    {size : γ → α} (hsize : ∀ x y, size x = size y → (text x).length = (text y).length)
    (hinj : Function.Injective text) : SelfDelimiting fun x => header (size x) ++ text x := by
  intro x y r r' h
  simp only [append_assoc] at h
  obtain ⟨heq, h⟩ := hheader h
  obtain ⟨htext, hrest⟩ := append_inj h (hsize x y heq)
  exact ⟨hinj htext, hrest⟩

theorem flatMap_inj {enc : α → List β} (h : SelfDelimiting enc) (hne : ∀ x, enc x ≠ [])
    {xs ys : List α} {r r' : List β} (hlen : r.length = r'.length)
    (heq : xs.flatMap enc ++ r = ys.flatMap enc ++ r') : xs = ys ∧ r = r' := by
  have hshort : ∀ {y : α} {ys : List α} {r r' : List β}, r.length = r'.length →
      (y :: ys).flatMap enc ++ r ≠ r' := by
    intro y ys r r' hlen heq
    have hpos := length_pos_of_ne_nil (hne y)
    have hcount := congrArg List.length heq
    simp only [flatMap_cons, length_append] at hcount
    omega
  induction xs generalizing ys with
  | nil =>
    cases ys with
    | nil => exact ⟨rfl, heq⟩
    | cons y ys => exact absurd heq.symm (hshort hlen.symm)
  | cons x xs ih =>
    cases ys with
    | nil => exact absurd heq (hshort hlen)
    | cons y ys =>
      rw [flatMap_cons, flatMap_cons, append_assoc, append_assoc] at heq
      obtain ⟨rfl, hrest⟩ := h heq
      obtain ⟨rfl, hend⟩ := ih hrest
      exact ⟨rfl, hend⟩

end SelfDelimiting
end GoQlc
