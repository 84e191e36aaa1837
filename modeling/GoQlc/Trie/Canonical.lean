import GoQlc.Trie.Node

/-!
# The canonical form of a trie

However the leaves were put in, a full node has two occupied slots and a short node leads to a full
node or to a leaf.
-/

namespace GoQlc

open Function List

namespace TrieNode

def slot (children : UInt8 → TrieNode) (child : TrieNode) : Option UInt8 → TrieNode
  | none => child
  | some c => children c

def Forks (children : UInt8 → TrieNode) (child : TrieNode) : Prop :=
  ∃ i j, i ≠ j ∧ slot children child i ≠ nil ∧ slot children child j ≠ nil

def Canonical : TrieNode → Prop
  | full children child =>
    (∀ c, (children c).Canonical) ∧ (child = nil ∨ child.isLeafNode = true) ∧ Forks children child
  | short key child => key ≠ [] ∧ child.Canonical ∧ child.endsRun = true
  | nil | value _ | hash _ => True

variable {node other child newChild leafNode : TrieNode} {children : UInt8 → TrieNode}
  {key nodeKey common keyRest nodeRest p q : Bytes} {c : UInt8}

theorem slot_update (children : UInt8 → TrieNode) (child newChild : TrieNode) (c : UInt8)
    (i : Option UInt8) :
    slot (update children c newChild) child i =
      if i = some c then newChild else slot children child i := by
  cases i with
  | none => rfl
  | some d =>
    simp only [slot, Option.some.injEq, update_apply]

theorem ne_nil_of_leaf (h : node.isLeafNode = true) : node ≠ nil := by
  rintro rfl
  cases h

theorem ne_nil_of_endsRun (h : node.endsRun = true) : node ≠ nil := by
  rintro rfl
  cases h

theorem canonical_of_leaf (h : node.isLeafNode = true) : node.Canonical := by
  cases node with
  | value v => trivial
  | hash v => trivial
  | nil | full _ _ | short _ _ => cases h

theorem Canonical.wellFormed (h : node.Canonical) : node.WellFormed := by
  induction node with
  | full children child ih _ => exact ⟨fun c => ih c (h.1 c), h.2.1⟩
  | short key child ih => exact ⟨h.1, ih h.2.1, h.2.2⟩
  | nil | value _ | hash _ => trivial

theorem Canonical.slot (h : (full children child).Canonical) (i : Option UInt8) :
    (slot children child i).Canonical := by
  cases i with
  | none =>
    rcases h.2.1 with rfl | hleaf
    · trivial
    · exact canonical_of_leaf hleaf
  | some c => exact h.1 c

/-! ## The keys of a node -/

theorem getLeafNode_short_append (hkey : nodeKey ≠ []) (k : Bytes) :
    (short nodeKey child).getLeafNode (nodeKey ++ k) = child.getLeafNode k := by
  rw [getLeafNode_short hkey, if_pos (prefix_append nodeKey k), drop_left]

theorem prefix_of_getLeafNode_short (hkey : nodeKey ≠ []) {k : Bytes}
    (h : (short nodeKey child).getLeafNode k ≠ nil) : nodeKey <+: k := by
  by_contra hno
  rw [getLeafNode_short hkey, if_neg hno] at h
  exact h rfl

theorem Canonical.exists_key (h : node.Canonical) (hne : node ≠ nil) :
    ∃ k, node.getLeafNode k ≠ nil := by
  induction node with
  | nil => exact absurd rfl hne
  | full children child ih _ =>
    obtain ⟨i, -, -, hi, -⟩ := h.2.2
    cases i with
    | none => exact ⟨[], hi⟩
    | some c =>
      obtain ⟨k, hk⟩ := ih c (h.1 c) hi
      exact ⟨c :: k, hk⟩
  | short key child ih =>
    obtain ⟨hkey, hchild, hends⟩ := h
    obtain ⟨k, hk⟩ := ih hchild (ne_nil_of_endsRun hends)
    refine ⟨key ++ k, ?_⟩
    rw [getLeafNode_short_append hkey]
    exact hk
  | value v | hash v => exact ⟨[], by simp [getLeafNode]⟩

theorem Canonical.exists_key_of_slot (h : (full children child).Canonical) {i : Option UInt8}
    (hi : TrieNode.slot children child i ≠ nil) :
    ∃ k, (full children child).getLeafNode k ≠ nil ∧ k.head? = i := by
  cases i with
  | none => exact ⟨[], hi, rfl⟩
  | some c =>
    obtain ⟨k, hk⟩ := (h.1 c).exists_key hi
    exact ⟨c :: k, hk, rfl⟩

theorem Canonical.prefix_eq_nil (h : node.Canonical) (hends : node.endsRun = true)
    (hall : ∀ k, node.getLeafNode k ≠ nil → p <+: k) : p = [] := by
  cases node with
  | full children child =>
    obtain ⟨i, j, hij, hi, hj⟩ := h.2.2
    obtain ⟨k, hk, hki⟩ := h.exists_key_of_slot hi
    obtain ⟨k', hk', hkj⟩ := h.exists_key_of_slot hj
    cases p with
    | nil => rfl
    | cons b p =>
      obtain ⟨t, rfl⟩ := hall k hk
      obtain ⟨t', rfl⟩ := hall k' hk'
      exact absurd (hki.symm.trans hkj) hij
  | value v | hash v => exact prefix_nil.mp (hall [] (by simp [getLeafNode]))
  | nil | short _ _ => cases hends

theorem Canonical.prefix_of_forall (h : node.Canonical) (hends : node.endsRun = true)
    (hall : ∀ k, node.getLeafNode k ≠ nil → q <+: key ++ k) : q <+: key := by
  obtain ⟨k, hk⟩ := h.exists_key (ne_nil_of_endsRun hends)
  rcases prefix_or_prefix_of_prefix (hall k hk) (prefix_append key k) with hq | hkey
  · exact hq
  · obtain ⟨p, rfl⟩ := hkey
    have hp : p = [] := h.prefix_eq_nil hends fun k' hk' =>
      (prefix_append_right_inj key).mp (hall k' hk')
    rw [hp, append_nil]

/-! ## One node for each set of leaves -/

theorem Canonical.eq_leaf (hnode : node.isLeafNode = true) (hother : other.Canonical)
    (h : ∀ k, node.getLeafNode k = other.getLeafNode k) : node = other := by
  have hnil := h []
  rw [getLeafNode_leaf hnode, if_pos rfl] at hnil
  cases other with
  | nil => exact hnil
  | full children child =>
    -- a full node has a second key
    obtain ⟨i, j, hij, hi, hj⟩ := hother.2.2
    have hno : ∀ i, TrieNode.slot children child i ≠ nil → i = none := by
      intro i hi
      obtain ⟨k, hk, rfl⟩ := hother.exists_key_of_slot hi
      rw [← h k, getLeafNode_leaf hnode] at hk
      by_cases hk0 : k = []
      · rw [hk0]
        rfl
      · rw [if_neg hk0] at hk
        exact absurd rfl hk
    exact absurd ((hno i hi).trans (hno j hj).symm) hij
  | short key child => exact absurd hnil (ne_nil_of_leaf hnode)
  | value v => exact hnil
  | hash v => exact hnil

theorem Canonical.run_prefix (hshort : (short key child).Canonical)
    (hother : nodeKey ≠ [])
    (h : ∀ k, (short key child).getLeafNode k = (short nodeKey newChild).getLeafNode k) :
    nodeKey <+: key := by
  obtain ⟨hkey, hchild, hends⟩ := hshort
  refine hchild.prefix_of_forall hends fun k hk => ?_
  rw [← getLeafNode_short_append hkey, h] at hk
  exact prefix_of_getLeafNode_short hother hk

theorem Canonical.full_ne_short (hfull : (full children child).Canonical)
    (hother : (short key newChild).Canonical)
    (h : ∀ k, (full children child).getLeafNode k = (short key newChild).getLeafNode k) :
    False := by
  refine hother.1 (hfull.prefix_eq_nil rfl fun k hk => ?_)
  rw [h] at hk
  exact prefix_of_getLeafNode_short hother.1 hk

theorem Canonical.eq_of_getLeafNode (hnode : node.Canonical) (hother : other.Canonical)
    (h : ∀ k, node.getLeafNode k = other.getLeafNode k) : node = other := by
  -- the recursion follows the first node; each step removes the same first bytes from both
  induction node generalizing other with
  | nil =>
    by_contra hne
    obtain ⟨k, hk⟩ := hother.exists_key (Ne.symm hne)
    exact hk (h k).symm
  | value v | hash v => exact eq_leaf rfl hother h
  | full children child ih _ =>
    cases other with
    | nil =>
      obtain ⟨k, hk⟩ := hnode.exists_key nofun
      exact absurd (h k) hk
    | value v | hash v => exact (eq_leaf rfl hnode fun k => (h k).symm).symm
    | short key newChild => exact (full_ne_short hnode hother h).elim
    | full children' child' =>
      have hchildren : children = children' := by
        funext c
        exact ih c (hnode.1 c) (hother.1 c) fun k => h (c :: k)
      have hchild : child = child' := h []
      rw [hchildren, hchild]
  | short key child ih =>
    cases other with
    | nil =>
      obtain ⟨k, hk⟩ := hnode.exists_key nofun
      exact absurd (h k) hk
    | value v | hash v => exact (eq_leaf rfl hnode fun k => (h k).symm).symm
    | full children' child' =>
      exact (full_ne_short hother hnode fun k => (h k).symm).elim
    | short key' child' =>
      have hle := hnode.run_prefix hother.1 h
      have hge := hother.run_prefix hnode.1 fun k => (h k).symm
      obtain rfl : key = key' := hge.eq_of_length_le hle.length_le
      have hchild : child = child' := by
        refine ih hnode.2.1 hother.2.1 fun k => ?_
        rw [← getLeafNode_short_append hnode.1, h, getLeafNode_short_append hother.1]
      rw [hchild]

/-! ## Putting a leaf in -/

theorem Canonical.attach (hnode : node.Canonical) (hends : node.endsRun = true) (key : Bytes) :
    (attach key node).Canonical := by
  by_cases hkey : key = []
  · rw [hkey]
    exact hnode
  · rw [attach_of_ne hkey]
    exact ⟨hkey, hnode, hends⟩

theorem canonical_attach_leaf (hleaf : leafNode.isLeafNode = true) (key : Bytes) :
    (TrieNode.attach key leafNode).Canonical :=
  (canonical_of_leaf hleaf).attach (endsRun_of_leaf hleaf) key

theorem attach_ne_nil (hnode : node ≠ nil) (key : Bytes) : TrieNode.attach key node ≠ nil := by
  unfold TrieNode.attach
  split_ifs
  · exact hnode
  · nofun

theorem canonical_update (hchildren : ∀ c, (children c).Canonical)
    (hchild : child = nil ∨ child.isLeafNode = true) (hnew : newChild.Canonical)
    (hne : newChild ≠ nil) {j : Option UInt8} (hj : j ≠ some c) (hother : slot children child j ≠ nil) :
    (full (update children c newChild) child).Canonical := by
  refine ⟨fun d => ?_, hchild, some c, j, Ne.symm hj, ?_, ?_⟩
  · rw [update_apply]
    split_ifs
    · exact hnew
    · exact hchildren d
  · rw [slot_update, if_pos rfl]
    exact hne
  · rw [slot_update, if_neg hj]
    exact hother

theorem canonical_setChild (hchildren : ∀ c, (children c).Canonical)
    (hleaf : leafNode.isLeafNode = true) (hother : children c ≠ nil) :
    (full children leafNode).Canonical :=
  ⟨hchildren, Or.inr hleaf, none, some c, nofun, ne_nil_of_leaf hleaf, hother⟩

theorem Forks.exists_ne (h : Forks children child) (i : Option UInt8) :
    ∃ j, j ≠ i ∧ slot children child j ≠ nil := by
  obtain ⟨j, k, hjk, hj, hk⟩ := h
  by_cases hji : j = i
  · exact ⟨k, fun hki => hjk (hji.trans hki.symm), hk⟩
  · exact ⟨j, hji, hj⟩

theorem splitCommon_head (key nodeKey : Bytes) (hne : (splitCommon key nodeKey).2.2 ≠ []) :
    (splitCommon key nodeKey).2.1.head? ≠ (splitCommon key nodeKey).2.2.head? := by
  fun_induction splitCommon key nodeKey with
  | case1 key c nodeKey rest ih => exact ih hne
  | case2 c key d nodeKey hcd =>
    simp only [List.head?_cons, ne_eq, Option.some.injEq]
    exact hcd
  | case3 key nodeKey hno =>
    cases key with
    | nil =>
      cases nodeKey with
      | nil => exact absurd rfl hne
      | cons d nodeKey => simp
    | cons c key =>
      cases nodeKey with
      | nil => exact absurd rfl hne
      | cons d nodeKey => exact absurd rfl (hno c key d nodeKey rfl)

theorem canonical_branch (hchild : child.Canonical) (hends : child.endsRun = true)
    (nodeRest : Bytes) :
    (∀ c, ((branch nodeRest child).1 c).Canonical) ∧
      ((branch nodeRest child).2 = nil ∨ (branch nodeRest child).2.isLeafNode = true) := by
  refine ⟨fun c => ?_, (wellFormed_branch hchild.wellFormed hends nodeRest).2⟩
  cases nodeRest with
  | nil =>
    cases child with
    | full children child => exact hchild.1 c
    | value v => trivial
    | hash v => trivial
    | nil | short _ _ => cases hends
  | cons d nodeRest =>
    simp only [branch, update_apply]
    split_ifs
    · exact hchild.attach hends nodeRest
    · trivial

/-- The full node in place of a short node has an occupied slot besides the one that is written,
unless the two keys are the same. -/
theorem branch_other (hchild : child.Canonical) (hends : child.endsRun = true)
    {i : Option UInt8} (hi : nodeRest ≠ [] → i ≠ nodeRest.head?)
    (hlast : nodeRest = [] → child.isLeafNode = true → i ≠ none) :
    ∃ j, j ≠ i ∧ slot (branch nodeRest child).1 (branch nodeRest child).2 j ≠ nil := by
  cases nodeRest with
  | nil =>
    cases child with
    | full children child => exact hchild.2.2.exists_ne i
    | value v | hash v => exact ⟨none, Ne.symm (hlast rfl rfl), nofun⟩
    | nil | short _ _ => cases hends
  | cons d nodeRest =>
    refine ⟨some d, Ne.symm (hi nofun), ?_⟩
    simp only [branch, slot, update_self]
    exact attach_ne_nil (ne_nil_of_endsRun hends) nodeRest

variable (hleaf : leafNode.isLeafNode = true)

include hleaf

theorem setValue_ne_nil (hnode : node.WellFormed) (key : Bytes) :
    (node.setValue key leafNode).1 ≠ nil := by
  intro hnil
  have hget := (@setValue_sets node leafNode key hleaf hnode).get key
  rw [hnil, if_pos rfl] at hget
  exact ne_nil_of_leaf hleaf hget.symm

theorem canonical_above_leaf (hchild : child.isLeafNode = true) (key : Bytes) :
    (full (update (fun _ => nil) c (attach key leafNode)) child).Canonical := by
  refine canonical_update (j := none) (fun _ => trivial) (Or.inr hchild)
    (canonical_attach_leaf hleaf key) (attach_ne_nil (ne_nil_of_leaf hleaf) key) ?_ ?_
  · intro h
    cases h
  · exact ne_nil_of_leaf hchild

theorem canonical_setValue (hnode : node.Canonical) : (node.setValue key leafNode).1.Canonical := by
  -- every branch puts the rest of the key, which is shorter, into a child
  induction hlen : key.length using Nat.strong_induction_on generalizing node key with
  | _ n ih =>
  subst hlen
  cases node with
  | nil =>
    rw [setValue]
    exact canonical_attach_leaf hleaf key
  | full children child =>
    cases key with
    | nil =>
      rw [setValue]
      obtain ⟨j, hj, hother⟩ := hnode.2.2.exists_ne none
      cases j with
      | none => exact absurd rfl hj
      | some c => exact canonical_setChild hnode.1 hleaf hother
    | cons c key =>
      rw [setValue]
      obtain ⟨j, hj, hother⟩ := hnode.2.2.exists_ne (some c)
      exact canonical_update hnode.1 hnode.2.1
        (ih key.length (Nat.lt_succ_self _) (hnode.1 c) rfl)
        (setValue_ne_nil hleaf (hnode.1 c).wellFormed key) hj hother
  | short nodeKey child =>
    obtain ⟨hkey, hchild, hends⟩ := hnode
    obtain ⟨hchildren, hleafChild⟩ := canonical_branch hchild hends (splitCommon key nodeKey).2.2
    have hsplit := splitCommon_head key nodeKey
    rw [setValue]
    split
    · rename_i c keyRest hrest
      rw [hrest] at hsplit
      obtain ⟨j, hj, hother⟩ := branch_other hchild hends (i := some c) hsplit (by
        intro _ _ h
        cases h)
      refine Canonical.attach ?_ rfl _
      exact canonical_update hchildren hleafChild
        (ih keyRest.length (length_lt_of_splitCommon hrest) (hchildren c) rfl)
        (setValue_ne_nil hleaf (hchildren c).wellFormed keyRest) hj hother
    · rename_i hrest
      rw [hrest] at hsplit
      split_ifs with hlast
      · exact ⟨hkey, canonical_of_leaf hleaf, endsRun_of_leaf hleaf⟩
      · obtain ⟨j, hj, hother⟩ := branch_other hchild hends (i := none) hsplit (by
          intro hnone hold
          rw [hnone, hold] at hlast
          exact absurd rfl hlast)
        refine Canonical.attach ?_ rfl _
        cases j with
        | none => exact absurd rfl hj
        | some c => exact canonical_setChild hchildren hleaf hother
  | value v | hash v =>
    rw [setValue.eq_def]
    cases key with
    | nil => exact canonical_of_leaf hleaf
    | cons c key =>
      exact canonical_above_leaf hleaf rfl key

end TrieNode

/-! ## The state root -/

/-- All bytes, in the order in which `sortChildren` leaves the children. -/
def allBytes : List UInt8 := (List.range 256).map UInt8.ofNat

theorem mem_allBytes (c : UInt8) : c ∈ allBytes := by
  refine mem_map.mpr ⟨c.toNat, mem_range.mpr c.toNat_lt, ?_⟩
  exact UInt8.ofNat_toNat

theorem nodup_allBytes : allBytes.Nodup := by
  refine List.Nodup.map_on (fun a ha b hb heq => ?_) nodup_range
  have h := congrArg UInt8.toNat heq
  rwa [UInt8.toNat_ofNat_of_lt' (mem_range.mp ha),
    UInt8.toNat_ofNat_of_lt' (mem_range.mp hb)] at h

namespace TrieNode

def isNil : TrieNode → Bool
  | nil => true
  | _ => false

variable (hashData : Bytes → Hash)

def nodeHash : TrieNode → Hash
  | nil => 0
  | full children child =>
    hashData (1 :: ((if child.isNil then [] else hashBytes child.nodeHash) ++
      allBytes.flatMap fun c =>
        if (children c).isNil then [] else c :: hashBytes (children c).nodeHash))
  | short key child => hashData (2 :: (key ++ hashBytes child.nodeHash))
  -- the byte for the kind of a leaf is overwritten by its value
  | hash v => hashData (hashBytes v)
  | value v => hashData v

def childSource (children : UInt8 → TrieNode) (c : UInt8) : Bytes :=
  if (children c).isNil then [] else c :: hashBytes ((children c).nodeHash hashData)

def source : TrieNode → Bytes
  | nil => []
  | full children child =>
    1 :: ((if child.isNil then [] else hashBytes (child.nodeHash hashData)) ++
      allBytes.flatMap (childSource hashData children))
  | short key child => 2 :: (key ++ hashBytes (child.nodeHash hashData))
  | hash v => hashBytes v
  | value v => v

variable {hashData} {node child : TrieNode}

theorem isNil_iff : node.isNil = true ↔ node = nil := by
  cases node <;> simp [isNil]

theorem isNil_eq_false : node.isNil = false ↔ node ≠ nil := by
  rw [← Bool.not_eq_true, isNil_iff]

theorem nodeHash_eq (h : node ≠ nil) :
    node.nodeHash hashData = hashData (node.source hashData) := by
  cases node with
  | nil => exact absurd rfl h
  | full children child => rfl
  | short key child => rfl
  | value v => rfl
  | hash v => rfl

end TrieNode

namespace Trie

variable (hashData : Bytes → Hash)

/-- `Hash` of a trie; the empty trie has the nil pointer. -/
def rootHash (trie : Trie) : Option Hash :=
  if trie.root.isNil then none else some (trie.root.nodeHash hashData)

structure Spells (root : TrieNode) (written : Bytes → Option Bytes) : Prop where
  canonical : root.Canonical
  leaf : ∀ k, root.getLeafNode k = (written k).elim .nil (newLeaf hashData)

variable {hashData} {root root' : TrieNode} {written : Bytes → Option Bytes} {key val : Bytes}
  {trie : Trie}

namespace Spells

theorem empty : Spells hashData .nil fun _ => none := ⟨trivial, fun _ => rfl⟩

theorem unique (h : Spells hashData root written) (h' : Spells hashData root' written) :
    root = root' :=
  h.canonical.eq_of_getLeafNode h'.canonical fun k => (h.leaf k).trans (h'.leaf k).symm

theorem setValue (h : Spells hashData trie.root written) (key val : Bytes) :
    Spells hashData (trie.setValue hashData key val).root
      (update written key (some val)) := by
  have hleaf := @newLeaf_isLeafNode hashData val
  have hset := @TrieNode.setValue_sets trie.root (newLeaf hashData val) key hleaf
    h.canonical.wellFormed
  refine ⟨TrieNode.canonical_setValue hleaf h.canonical, fun k => ?_⟩
  refine (hset.get k).trans ?_
  by_cases hk : k = key
  · rw [if_pos hk, hk, update_self]
    rfl
  · rw [if_neg hk, update_of_ne hk]
    exact h.leaf k

theorem setValues (h : Spells hashData trie.root written) (calls : List (Bytes × Bytes)) :
    Spells hashData (trie.setValues hashData calls).root (writes written calls) := by
  induction calls generalizing trie written with
  | nil => exact h
  | cons call calls ih => exact ih (h.setValue call.1 call.2)

end Spells

theorem spells_setValues (hashData : Bytes → Hash) (calls : List (Bytes × Bytes)) :
    Spells hashData (setValues hashData {} calls).root (writes (fun _ => none) calls) :=
  @Spells.setValues hashData _ {} Spells.empty calls

/-- Two sequences of calls that leave the same last value under each key leave the same root
hash. -/
theorem rootHash_eq_of_writes_eq (hashData : Bytes → Hash) (calls calls' : List (Bytes × Bytes))
    (h : writes (fun _ => none) calls = writes (fun _ => none) calls') :
    (setValues hashData {} calls).rootHash hashData =
      (setValues hashData {} calls').rootHash hashData := by
  have hspells := spells_setValues hashData calls
  rw [h] at hspells
  unfold rootHash
  rw [hspells.unique (spells_setValues hashData calls')]

/-- Two keys in either order, one of them written twice. -/
theorem rootHash_eq_of_writes_eq_two :
    (setValues (fun bs => BitVec.ofNat 256 bs.length) {} [([1], [5]), ([1, 2], [6])]).rootHash
        (fun bs => BitVec.ofNat 256 bs.length) =
      (setValues (fun bs => BitVec.ofNat 256 bs.length) {}
        [([1, 2], [7]), ([1], [5]), ([1, 2], [6])]).rootHash
        (fun bs => BitVec.ofNat 256 bs.length) := by
  refine rootHash_eq_of_writes_eq _ _ _ ?_
  funext k
  by_cases hk : k = [1, 2]
  · simp [writes, hk]
  · simp [writes, update_apply, hk]

end Trie
end GoQlc
