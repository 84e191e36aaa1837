import Mathlib.Data.UInt
import GoQlc.Types.Block

/-!
# MessagePack

The encodings that the generated `MarshalMsg` functions append: a value starts with a byte that
names its kind, and a length where it has one.
-/

namespace GoQlc.Msgp

open Bytes SelfDelimiting

def appendString (s : Bytes) : Bytes :=
  if s.length < 32 then UInt8.ofNat (0xa0 + s.length) :: s
  else if s.length < 2 ^ 8 then 0xd9 :: (beBytes 1 s.length ++ s)
  else if s.length < 2 ^ 16 then 0xda :: (beBytes 2 s.length ++ s)
  else 0xdb :: (beBytes 4 s.length ++ s)

def appendUint64 (n : UInt64) : Bytes :=
  if n < 128 then [UInt8.ofNat n.toNat]
  else if n < 2 ^ 8 then 0xcc :: beBytes 1 n.toNat
  else if n < 2 ^ 16 then 0xcd :: beBytes 2 n.toNat
  else if n < 2 ^ 32 then 0xce :: beBytes 4 n.toNat
  else 0xcf :: beBytes 8 n.toNat

def appendFloat64 (bits : UInt64) : Bytes := 0xcb :: beBytes 8 bits.toNat

/-- An address is an extension of 32 bytes of the type `AddressExtensionType`. -/
def appendAddress (address : Address) : Bytes := [0xc7, 32, 99] ++ hashBytes address

/-! ### One way to read -/

def stringTag (n : ℕ) : UInt8 :=
  if n < 32 then UInt8.ofNat (0xa0 + n)
  else if n < 2 ^ 8 then 0xd9 else if n < 2 ^ 16 then 0xda else 0xdb

def stringSize (n : ℕ) : Bytes :=
  if n < 32 then []
  else if n < 2 ^ 8 then beBytes 1 n
  else if n < 2 ^ 16 then beBytes 2 n else beBytes 4 n

theorem appendString_eq (s : Bytes) :
    appendString s = stringTag s.length :: stringSize s.length ++ s := by
  unfold appendString stringTag stringSize
  split_ifs <;> rfl

theorem toNat_stringTag (n : ℕ) :
    (stringTag n).toNat =
      if n < 32 then 0xa0 + n else if n < 2 ^ 8 then 0xd9 else if n < 2 ^ 16 then 0xda else 0xdb := by
  unfold stringTag
  split_ifs with h
  · rw [UInt8.toNat_ofNat']
    omega
  all_goals rfl

theorem stringSize_length (n : ℕ) :
    (stringSize n).length =
      if n < 32 then 0 else if n < 2 ^ 8 then 1 else if n < 2 ^ 16 then 2 else 4 := by
  unfold stringSize
  split_ifs <;> simp

theorem selfDelimiting_stringHeader :
    SelfDelimiting fun n : Fin (2 ^ 32) => stringTag n :: stringSize n := by
  apply of_tag
  · intro x y htag
    have hnat := congrArg UInt8.toNat htag
    rw [toNat_stringTag, toNat_stringTag] at hnat
    rw [stringSize_length, stringSize_length]
    split_ifs at hnat ⊢ <;> omega
  · intro x y htag hsize
    have hnat := congrArg UInt8.toNat htag
    rw [toNat_stringTag, toNat_stringTag] at hnat
    have hx := x.isLt
    have hy := y.isLt
    unfold stringSize at hsize
    apply Fin.ext
    split_ifs at hnat hsize <;> first
      | omega
      | exact beBytes_inj (by omega) (by omega) hsize

theorem selfDelimiting_appendString :
    SelfDelimiting fun s : { s : Bytes // s.length < 2 ^ 32 } => appendString s.val := by
  have hsize : ∀ x y : { s : Bytes // s.length < 2 ^ 32 },
      (⟨x.val.length, x.property⟩ : Fin (2 ^ 32)) = ⟨y.val.length, y.property⟩ →
        x.val.length = y.val.length := fun x y h => congrArg Fin.val h
  simp only [appendString_eq]
  exact selfDelimiting_stringHeader.framed hsize Subtype.val_injective

def uint64Tag (n : ℕ) : UInt8 :=
  if n < 128 then UInt8.ofNat n
  else if n < 2 ^ 8 then 0xcc
  else if n < 2 ^ 16 then 0xcd else if n < 2 ^ 32 then 0xce else 0xcf

def uint64Payload (n : ℕ) : Bytes :=
  if n < 128 then []
  else if n < 2 ^ 8 then beBytes 1 n
  else if n < 2 ^ 16 then beBytes 2 n
  else if n < 2 ^ 32 then beBytes 4 n else beBytes 8 n

theorem appendUint64_eq (n : UInt64) :
    appendUint64 n = uint64Tag n.toNat :: uint64Payload n.toNat := by
  unfold appendUint64 uint64Tag uint64Payload
  have h7 : (128 : UInt64).toNat = 128 := rfl
  have h8 : (2 ^ 8 : UInt64).toNat = 2 ^ 8 := by decide
  have h16 : (2 ^ 16 : UInt64).toNat = 2 ^ 16 := by decide
  have h32 : (2 ^ 32 : UInt64).toNat = 2 ^ 32 := by decide
  simp only [UInt64.lt_iff_toNat_lt, h7, h8, h16, h32]
  split_ifs <;> rfl

theorem toNat_uint64Tag (n : ℕ) :
    (uint64Tag n).toNat =
      if n < 128 then n
      else if n < 2 ^ 8 then 0xcc
      else if n < 2 ^ 16 then 0xcd else if n < 2 ^ 32 then 0xce else 0xcf := by
  unfold uint64Tag
  split_ifs with h
  · rw [UInt8.toNat_ofNat']
    omega
  all_goals rfl

theorem uint64Payload_length (n : ℕ) :
    (uint64Payload n).length =
      if n < 128 then 0
      else if n < 2 ^ 8 then 1 else if n < 2 ^ 16 then 2 else if n < 2 ^ 32 then 4 else 8 := by
  unfold uint64Payload
  split_ifs <;> simp

theorem selfDelimiting_appendUint64 : SelfDelimiting appendUint64 := by
  have heq : appendUint64 = fun n => uint64Tag n.toNat :: uint64Payload n.toNat :=
    funext appendUint64_eq
  rw [heq]
  apply of_tag
  · intro x y htag
    have hnat := congrArg UInt8.toNat htag
    rw [toNat_uint64Tag, toNat_uint64Tag] at hnat
    rw [uint64Payload_length, uint64Payload_length]
    split_ifs at hnat ⊢ <;> omega
  · intro x y htag hpayload
    have hnat := congrArg UInt8.toNat htag
    rw [toNat_uint64Tag, toNat_uint64Tag] at hnat
    have hx := x.toNat_lt
    have hy := y.toNat_lt
    unfold uint64Payload at hpayload
    apply UInt64.toNat_inj.mp
    split_ifs at hnat hpayload <;> first
      | omega
      | exact beBytes_inj (by omega) (by omega) hpayload

theorem beBytes_eight_injective : Function.Injective fun n : UInt64 => beBytes 8 n.toNat := by
  intro x y h
  exact UInt64.toNat_inj.mp (beBytes_inj x.toNat_lt y.toNat_lt h)

theorem selfDelimiting_appendFloat64 : SelfDelimiting appendFloat64 := by
  refine of_length (fun x y => by simp [appendFloat64]) ?_
  intro x y h
  exact beBytes_eight_injective (List.cons.inj h).2

theorem selfDelimiting_appendAddress : SelfDelimiting appendAddress := by
  refine of_length (fun x y => by simp [appendAddress]) ?_
  intro x y h
  exact hashBytes_injective (List.append_cancel_left h)

end GoQlc.Msgp
