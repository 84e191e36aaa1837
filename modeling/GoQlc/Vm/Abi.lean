import GoQlc.Types.Block

/-!
# Contract call data

The encoding of method calls and stored variables: a four-byte method id, one
word for each argument, strings and slices behind an offset word.
-/

namespace GoQlc.Abi

open Bytes

def wordSize : ℕ := 32

inductive AbiType where
  | uint256
  | uint8
  | int64
  | string
  | address
  | tokenId
  | hash
  | bytes32
  | signature
  | uint16
  | uint32
  | uint64
  | bool
  | slice (elem : AbiType)
deriving DecidableEq, Repr

namespace AbiType

def Val : AbiType → Type
  | uint256 => ℕ
  | uint8 => UInt8
  | int64 => Int64
  | string => Bytes
  | address | tokenId | hash | bytes32 => Hash
  | signature => Signature
  | uint16 => UInt16
  | uint32 => UInt32
  | uint64 => UInt64
  | bool => Bool
  | slice elem => List elem.Val

def toText : AbiType → String
  | uint256 => "uint256"
  | uint8 => "uint8"
  | int64 => "int64"
  | string => "string"
  | address => "address"
  | tokenId => "tokenId"
  | hash => "hash"
  | bytes32 => "bytes32"
  | signature => "signature"
  | uint16 => "uint16"
  | uint32 => "uint32"
  | uint64 => "uint64"
  | bool => "bool"
  | slice elem => elem.toText ++ "[]"

def requiresLengthPrefix : AbiType → Bool
  | string | slice _ => true
  | _ => false

end AbiType

def Values : List AbiType → Type
  | [] => Unit
  | t :: ts => t.Val × Values ts

def word (n : ℕ) : Bytes := beBytes wordSize n

/-- The word that starts at byte `index`. -/
def readWord (index : ℕ) (output : Bytes) : Bytes := (output.drop index).take wordSize

/-- The start and the length of the string or slice whose offset word is at `index`. -/
def lengthPrefixPointsTo (index : ℕ) (output : Bytes) : Option (ℕ × ℕ) :=
  let offsetEnd := toNat (readWord index output) + wordSize
  if output.length < offsetEnd ∨ 2 ^ 63 ≤ offsetEnd then none
  else
    let length := toNat (readWord (offsetEnd - wordSize) output)
    let totalSize := offsetEnd + length
    if 2 ^ 63 ≤ totalSize ∨ output.length < totalSize then none
    else some (offsetEnd, length)

def readBool (returnOutput : Bytes) : Option Bool :=
  match toNat returnOutput with
  | 0 => some false
  | 1 => some true
  | _ => none

def toGoType (index : ℕ) (t : AbiType) (output : Bytes) : Option t.Val :=
  if output.length < index + wordSize then none
  else
    let returnOutput := readWord index output
    match t with
    | .uint256 => some (toNat returnOutput)
    | .uint8 => some (UInt8.ofNat (toNat returnOutput))
    | .int64 => some (Int64.ofUInt64 (UInt64.ofNat (toNat returnOutput)))
    | .string =>
      (lengthPrefixPointsTo index output).map fun r => (output.drop r.1).take r.2
    | .address | .tokenId | .hash | .bytes32 =>
      some (BitVec.ofNat 256 (toNat returnOutput))
    | .signature =>
      if output.length < index + 2 * wordSize then none
      else some (BitVec.ofNat 512 (toNat ((output.drop index).take (2 * wordSize))))
    | .uint16 => some (UInt16.ofNat (toNat returnOutput))
    | .uint32 => some (UInt32.ofNat (toNat returnOutput))
    | .uint64 => some (UInt64.ofNat (toNat returnOutput))
    | .bool => readBool returnOutput
    | .slice elem =>
      (lengthPrefixPointsTo index output).bind fun (start, size) =>
        if output.length < start + wordSize * size then none
        else (List.range size).mapM fun j => toGoType (start + wordSize * j) elem output

def unpackValues : (ts : List AbiType) → ℕ → Bytes → Option (Values ts)
  | [], _, _ => some ()
  | t :: ts, index, output => do
    let v ← toGoType (index * wordSize) t output
    let vs ← unpackValues ts (index + 1) output
    return (v, vs)

def rightPad (bs : Bytes) : Bytes :=
  bs ++ List.replicate ((bs.length + wordSize - 1) / wordSize * wordSize - bs.length) 0

def packElement : (t : AbiType) → t.Val → Bytes
  | .uint256, (n : ℕ) => word n
  | .uint8, (n : UInt8) => word n.toNat
  | .int64, (n : Int64) => word (n.toInt % 2 ^ 256).toNat
  | .string, (s : Bytes) => word s.length ++ rightPad s
  | .address, (h : Hash) => hashBytes h
  | .tokenId, (h : Hash) => hashBytes h
  | .hash, (h : Hash) => hashBytes h
  | .bytes32, (h : Hash) => hashBytes h
  | .signature, (s : Signature) => beBytes (2 * wordSize) s.toNat
  | .uint16, (n : UInt16) => word n.toNat
  | .uint32, (n : UInt32) => word n.toNat
  | .uint64, (n : UInt64) => word n.toNat
  | .bool, (b : Bool) => word b.toNat
  | .slice elem, (vs : List elem.Val) => word vs.length ++ vs.flatMap (packElement elem)

/-- The words of the arguments, and the strings and slices collected behind them. -/
def packLoop (inputOffset : ℕ) : (ts : List AbiType) → Values ts → Bytes → Bytes × Bytes
  | [], _, variableInput => ([], variableInput)
  | t :: ts, (v, vs), variableInput =>
    let packed := packElement t v
    if t.requiresLengthPrefix then
      let rest := packLoop inputOffset ts vs (variableInput ++ packed)
      (word (inputOffset + variableInput.length) ++ rest.1, rest.2)
    else
      let rest := packLoop inputOffset ts vs variableInput
      (packed ++ rest.1, rest.2)

def pack (ts : List AbiType) (vs : Values ts) : Bytes :=
  let packed := packLoop (wordSize * ts.length) ts vs []
  packed.1 ++ packed.2

def asciiBytes (s : String) : Bytes := s.toList.map fun c => UInt8.ofNat c.toNat

structure Method where
  name : String
  inputs : List AbiType
deriving DecidableEq, Repr

namespace Method

def sig (m : Method) : String :=
  m.name ++ "(" ++ String.intercalate "," (m.inputs.map AbiType.toText) ++ ")"

def id (hashData : Bytes → Hash) (m : Method) : Bytes :=
  (hashBytes (hashData (asciiBytes m.sig))).take 4

end Method

def methodById (hashData : Bytes → Hash) (methods : List Method) (sigdata : Bytes) :
    Option Method :=
  if sigdata.length < 4 then none
  else methods.find? fun m => m.id hashData == sigdata.take 4

def packMethod (hashData : Bytes → Hash) (m : Method) (args : Values m.inputs) : Bytes :=
  m.id hashData ++ pack m.inputs args

/-- Unpacks call data that must call `m`. -/
def unpackMethod (hashData : Bytes → Hash) (methods : List Method) (m : Method) (output : Bytes) :
    Option (Values m.inputs) :=
  if output.length ≤ 4 then none
  else
    match methodById hashData methods (output.take 4) with
    | some found => if found = m then unpackValues m.inputs 0 (output.drop 4) else none
    | none => none

def unpackVariable (inputs : List AbiType) (output : Bytes) : Option (Values inputs) :=
  if output.isEmpty then none else unpackValues inputs 0 output

end GoQlc.Abi
