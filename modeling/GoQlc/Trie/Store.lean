import GoQlc.Trie.Binding

/-!
# Saving and loading

A node is stored under its hash as a record that names its children by their hashes; a large value
is stored under its own hash, in the same key space.
-/

namespace GoQlc

open List Option

/-- The record that a node is stored as (`types.TrieNode`). -/
structure StoredNode where
  hash : Hash
  type : UInt8
  children : List (Bytes × Bytes) := []
  key : Bytes := []
  child : Bytes := []
  value : Bytes := []
deriving DecidableEq, Repr

/-- The generated encoder and decoder of the records. A record is a map, so its first byte is
no small number. -/
structure Msgp where
  marshalMsg : StoredNode → Bytes
  unmarshalMsg : Bytes → Option StoredNode
  roundTrip : ∀ r, unmarshalMsg (marshalMsg r) = some r
  unmarshal_nil : unmarshalMsg [] = none
  unmarshal_fixint : ∀ b bs, b < 128 → unmarshalMsg (b :: bs) = none

namespace Msgp

def chunk : Bytes → Bytes
  | [] => [0]
  | b :: bs => 1 :: b :: chunk bs

def unchunks : Bytes → List Bytes
  | 0 :: rest => [] :: unchunks rest
  | _ :: b :: rest =>
    match unchunks rest with
    | [] => []
    | bs :: bss => (b :: bs) :: bss
  | _ => []

def pairs : List Bytes → List (Bytes × Bytes)
  | a :: b :: rest => (a, b) :: pairs rest
  | _ => []

theorem unchunks_chunk (bs rest : Bytes) : unchunks (chunk bs ++ rest) = bs :: unchunks rest := by
  induction bs with
  | nil => rfl
  | cons b bs ih =>
    change (match unchunks (chunk bs ++ rest) with
      | [] => []
      | bs :: bss => (b :: bs) :: bss) = _
    rw [ih]

theorem unchunks_flatMap (bss : List Bytes) : unchunks (bss.flatMap chunk) = bss := by
  induction bss with
  | nil => rfl
  | cons bs bss ih => rw [flatMap_cons, unchunks_chunk, ih]

theorem pairs_flatMap (entries : List (Bytes × Bytes)) :
    pairs (entries.flatMap fun entry => [entry.1, entry.2]) = entries := by
  induction entries with
  | nil => rfl
  | cons entry entries ih => exact congrArg (entry :: ·) ih

def ofFields : List Bytes → Option StoredNode
  | hash :: [type] :: key :: child :: value :: entries =>
    some { hash := BitVec.ofNat 256 (Bytes.toNat hash), type, children := pairs entries,
           key, child, value }
  | _ => none

def plain : Msgp where
  marshalMsg := fun r => 0x86 ::
    (hashBytes r.hash :: [r.type] :: r.key :: r.child :: r.value ::
      r.children.flatMap fun entry => [entry.1, entry.2]).flatMap chunk
  unmarshalMsg := fun bs => if bs.head? = some 0x86 then ofFields (unchunks bs.tail) else none
  roundTrip := fun r => by
    rw [List.head?_cons, if_pos rfl, tail_cons, unchunks_flatMap, ofFields, pairs_flatMap,
      hashBytes, Bytes.toNat_beBytes, Nat.mod_eq_of_lt (by simpa using r.hash.isLt),
      BitVec.ofNat_toNat, BitVec.setWidth_eq]
  unmarshal_nil := rfl
  unmarshal_fixint := fun b bs hb => by
    rw [List.head?_cons, if_neg]
    rintro ⟨⟩
    exact absurd hb (by decide)

end Msgp

/-! ## Records -/

def hexDigit (n : UInt8) : UInt8 := if n < 10 then 48 + n else 87 + n

def hexEncode (c : UInt8) : Bytes := [hexDigit (c / 16), hexDigit (c % 16)]

def fromHexChar (b : UInt8) : Option UInt8 :=
  if 48 ≤ b ∧ b ≤ 57 then some (b - 48)
  else if 97 ≤ b ∧ b ≤ 102 then some (b - 87)
  else if 65 ≤ b ∧ b ≤ 70 then some (b - 55)
  else none

def hexDecode : Bytes → Option Bytes
  | [] => some []
  | [_] => none
  | a :: b :: rest => do
    let high ← fromHexChar a
    let low ← fromHexChar b
    let bytes ← hexDecode rest
    return (16 * high + low) :: bytes

def bytesToHash (data : Bytes) : Option Hash :=
  if data.length = 32 then some (BitVec.ofNat 256 (Bytes.toNat data)) else none

namespace TrieNode

variable (hashData : Bytes → Hash)

def serializeChildren (children : UInt8 → TrieNode) : List (Bytes × Bytes) :=
  allBytes.filterMap fun c =>
    if (children c).isNil then none
    else some (hexEncode c, hashBytes ((children c).nodeHash hashData))

def serialize (node : TrieNode) : StoredNode :=
  match node with
  | nil => { hash := 0, type := 0 }
  | full children child =>
    { hash := node.nodeHash hashData, type := 1
      children := serializeChildren hashData children
      child := if child.isNil then [] else hashBytes (child.nodeHash hashData) }
  | short key child =>
    { hash := node.nodeHash hashData, type := 2, key
      child := hashBytes (child.nodeHash hashData) }
  | value v => { hash := node.nodeHash hashData, type := 3, value := v }
  | hash v => { hash := node.nodeHash hashData, type := 4, value := hashBytes v }

end TrieNode

inductive StubNode where
  | full (children : UInt8 → Option Hash) (child : Option Hash)
  | short (key : Bytes) (child : Hash)
  | value (value : Bytes)
  | hash (value : Hash)

namespace StubNode

def parseEntry (result : UInt8 → Option Hash) (entry : Bytes × Bytes) :
    Option (UInt8 → Option Hash) := do
  let childHash ← bytesToHash entry.2
  let tmp ← hexDecode entry.1
  let c ← tmp.head?
  return Function.update result c (some childHash)

def parseChildren (children : List (Bytes × Bytes)) : Option (UInt8 → Option Hash) :=
  children.foldlM parseEntry fun _ => none

def parseChild (child : Bytes) : Option (Option Hash) :=
  if child.isEmpty then some none else (bytesToHash child).map some

def deserialize (tn : StoredNode) : Option StubNode :=
  if tn.type = 1 then do
    let children ← parseChildren tn.children
    let child ← parseChild tn.child
    return full children child
  else if tn.type = 2 then (bytesToHash tn.child).map (short tn.key)
  else if tn.type = 3 then some (value tn.value)
  else if tn.type = 4 then (bytesToHash tn.value).map hash
  else none

end StubNode

/-! ## The store -/

namespace TrieNode

variable (hashData : Bytes → Hash) (msgp : Msgp) (db : Hash → Option Bytes)

def getNode (key : Hash) : Option StubNode :=
  (db key).bind fun val => (msgp.unmarshalMsg val).bind StubNode.deserialize

/-- Loads the nodes below a hash; a missing node is the nil pointer. The recursion is bounded by
`fuel`. -/
def traverseLoad : ℕ → Hash → TrieNode
  | 0, _ => nil
  | fuel + 1, key =>
    match getNode msgp db key with
    | none => nil
    | some (.full children child) =>
      full (fun c => (children c).elim nil (traverseLoad fuel))
        (child.elim nil (traverseLoad fuel))
    | some (.short key child) => short key (traverseLoad fuel child)
    | some (.value v) => value v
    | some (.hash v) => hash v

def traverseSave : TrieNode → Table Hash Bytes → Table Hash Bytes
  | nil, batch => batch
  | node@(full children child), batch =>
    if (getNode msgp db (node.nodeHash hashData)).isSome then batch
    else
      let batch := batch.put (node.nodeHash hashData) (msgp.marshalMsg (node.serialize hashData))
      allBytes.foldl (fun batch c => (children c).traverseSave batch) (child.traverseSave batch)
  | node@(short _ child), batch =>
    if (getNode msgp db (node.nodeHash hashData)).isSome then batch
    else
      child.traverseSave
        (batch.put (node.nodeHash hashData) (msgp.marshalMsg (node.serialize hashData)))
  | node@(value _), batch | node@(hash _), batch =>
    if (getNode msgp db (node.nodeHash hashData)).isSome then batch
    else batch.put (node.nodeHash hashData) (msgp.marshalMsg (node.serialize hashData))

def traverseRemove : TrieNode → Table Hash Bytes → Table Hash Bytes
  | nil, store => store
  | node@(full children child), store =>
    allBytes.foldl (fun store c => (children c).traverseRemove store)
      (child.traverseRemove (store.delete (node.nodeHash hashData)))
  | node@(short _ child), store => child.traverseRemove (store.delete (node.nodeHash hashData))
  | node@(value _), store | node@(hash _), store => store.delete (node.nodeHash hashData)

end TrieNode

namespace Trie

variable (hashData : Bytes → Hash) (msgp : Msgp) (fuel : ℕ)

/-- `NewTrie` on a store. -/
def newTrie (store : Table Hash Bytes) (rootHash : Option Hash) : Trie where
  root := rootHash.elim .nil (TrieNode.traverseLoad msgp store.get fuel)
  db := store.get

/-- The batch of `Save`: the new nodes, and over them the large values. -/
def saveBatch (trie : Trie) : Table Hash Bytes :=
  (trie.root.traverseSave hashData msgp trie.db ∅).putAll trie.unSavedRefValueMap

/-- The store after `Save`. -/
def save (trie : Trie) (store : Table Hash Bytes) : Table Hash Bytes :=
  store.putAll (trie.saveBatch hashData msgp)

/-- The store after `Remove`. -/
def remove (trie : Trie) (store : Table Hash Bytes) : Table Hash Bytes :=
  trie.root.traverseRemove hashData store

end Trie

/-! ## What a record says -/

theorem hexDecode_hexEncode (c : UInt8) : hexDecode (hexEncode c) = some [c] := by
  have hall : ∀ c ∈ allBytes, hexDecode (hexEncode c) = some [c] := by decide +kernel
  exact hall c (mem_allBytes c)

theorem bytesToHash_hashBytes (h : Hash) : bytesToHash (hashBytes h) = some h := by
  unfold bytesToHash
  rw [if_pos (hashBytes_length h), hashBytes, Bytes.toNat_beBytes,
    Nat.mod_eq_of_lt (by simpa using h.isLt), BitVec.ofNat_toNat, BitVec.setWidth_eq]

namespace TrieNode

variable {hashData : Bytes → Hash} {msgp : Msgp} {db : Hash → Option Bytes} {node : TrieNode}
  {children : UInt8 → TrieNode}

def ref (hashData : Bytes → Hash) (node : TrieNode) : Option Hash :=
  if node.isNil then none else some (node.nodeHash hashData)

def stub (hashData : Bytes → Hash) : TrieNode → Option StubNode
  | nil => none
  | full children child =>
    some (.full (fun c => (children c).ref hashData) (child.ref hashData))
  | short key child => some (.short key (child.nodeHash hashData))
  | value v => some (.value v)
  | hash v => some (.hash v)

theorem parseEntry_serialized (result : UInt8 → Option Hash) (c : UInt8) (h : Hash) :
    StubNode.parseEntry result (hexEncode c, hashBytes h) =
      some (Function.update result c (some h)) := by
  unfold StubNode.parseEntry
  rw [bytesToHash_hashBytes, hexDecode_hexEncode]
  rfl

theorem foldlM_parseEntry (children : UInt8 → TrieNode) (cs : List UInt8)
    (result : UInt8 → Option Hash) :
    (cs.filterMap fun c => if (children c).isNil then none
      else some (hexEncode c, hashBytes ((children c).nodeHash hashData))).foldlM
        StubNode.parseEntry result =
      some fun c => if c ∈ cs ∧ (children c).isNil = false then (children c).ref hashData
        else result c := by
  induction cs generalizing result with
  | nil => simp
  | cons d cs ih =>
    rw [filterMap_cons]
    by_cases hnil : (children d).isNil = true
    · rw [if_pos hnil]
      dsimp only
      rw [ih]
      refine congrArg some (funext fun c => ?_)
      by_cases hc : c = d
      · simp [hc, hnil]
      · simp [hc]
    · rw [if_neg hnil]
      dsimp only
      rw [foldlM_cons, parseEntry_serialized, bind_eq_bind, bind_some, ih]
      refine congrArg some (funext fun c => ?_)
      by_cases hc : c = d
      · simp [hc, hnil, ref]
      · simp [hc]

theorem parseChildren_serializeChildren (children : UInt8 → TrieNode) :
    StubNode.parseChildren (serializeChildren hashData children) =
      some fun c => (children c).ref hashData := by
  refine (foldlM_parseEntry children allBytes fun _ => none).trans ?_
  refine congrArg some (funext fun c => ?_)
  cases hnil : (children c).isNil with
  | true => simp [ref, hnil]
  | false => simp [mem_allBytes]

theorem deserialize_serialize (h : node ≠ nil) :
    StubNode.deserialize (node.serialize hashData) = node.stub hashData := by
  cases node with
  | nil => exact absurd rfl h
  | full children child =>
    have hchild : StubNode.parseChild
        (if child.isNil then [] else hashBytes (child.nodeHash hashData)) =
          some (child.ref hashData) := by
      unfold ref
      split_ifs
      · rfl
      · have hne : (hashBytes (child.nodeHash hashData)).isEmpty = false := by
          rw [isEmpty_eq_false_iff, ← length_pos_iff, hashBytes_length]
          omega
        rw [StubNode.parseChild, hne, if_neg Bool.false_ne_true, bytesToHash_hashBytes]
        rfl
    simp only [StubNode.deserialize, serialize, if_true, parseChildren_serializeChildren, hchild]
    rfl
  | short key child =>
    simp only [StubNode.deserialize, serialize, bytesToHash_hashBytes]
    rfl
  | value v => rfl
  | hash v =>
    simp only [StubNode.deserialize, serialize, bytesToHash_hashBytes]
    rfl

theorem getNode_of_get (hne : node ≠ nil)
    (h : db (node.nodeHash hashData) = some (msgp.marshalMsg (node.serialize hashData))) :
    getNode msgp db (node.nodeHash hashData) = node.stub hashData := by
  rw [getNode, h, bind_some, msgp.roundTrip, bind_some, deserialize_serialize hne]

end TrieNode
end GoQlc
