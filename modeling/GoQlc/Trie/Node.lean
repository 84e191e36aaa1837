import GoQlc.Lib.Table
import GoQlc.Types.Block

/-!
# The state trie

A trie whose short nodes carry a run of key bytes.
-/

namespace GoQlc

/-- A node, or the nil pointer. The `child` of a full node is the leaf of the key that ends
there. -/
inductive TrieNode where
  | nil
  | full (children : UInt8 → TrieNode) (child : TrieNode)
  | short (key : Bytes) (child : TrieNode)
  | value (value : Bytes)
  | hash (value : Hash)

namespace TrieNode

def isLeafNode : TrieNode → Bool
  | value _ | hash _ => true
  | _ => false

/-- `setValue` on the nil pointer. -/
def attach (key : Bytes) (leafNode : TrieNode) : TrieNode :=
  if key.isEmpty then leafNode else short key leafNode

/-- The loop of `setValue` over a short node: the bytes that the two keys share, and what is
left of each. -/
def splitCommon : Bytes → Bytes → Bytes × Bytes × Bytes
  | c :: key, d :: nodeKey =>
    if c = d then
      let rest := splitCommon key nodeKey
      (c :: rest.1, rest.2)
    else ([], c :: key, d :: nodeKey)
  | key, nodeKey => ([], key, nodeKey)

theorem splitCommon_eq (key nodeKey : Bytes) :
    key = (splitCommon key nodeKey).1 ++ (splitCommon key nodeKey).2.1 ∧
      nodeKey = (splitCommon key nodeKey).1 ++ (splitCommon key nodeKey).2.2 := by
  fun_induction splitCommon key nodeKey with
  | case1 key c nodeKey rest ih =>
    obtain ⟨hkey, hnode⟩ := ih
    exact ⟨congrArg (c :: ·) hkey, congrArg (c :: ·) hnode⟩
  | case2 | case3 => exact ⟨rfl, rfl⟩

theorem length_lt_of_splitCommon {key nodeKey keyRest : Bytes} {c : UInt8}
    (h : (splitCommon key nodeKey).2.1 = c :: keyRest) : keyRest.length < key.length := by
  rw [(splitCommon_eq key nodeKey).1, h, List.length_append, List.length_cons]
  omega

/-- The full node that takes the place of a short node: the one below it, or a new one that
has what is below the short node as its only child. -/
def branch (nodeRest : Bytes) (nodeChild : TrieNode) : (UInt8 → TrieNode) × TrieNode :=
  match nodeRest, nodeChild with
  | [], full children child => (children, child)
  | [], nodeChild => (fun _ => nil, nodeChild)
  | d :: nodeRest, nodeChild => (Function.update (fun _ => nil) d (attach nodeRest nodeChild), nil)

/-- The node with the leaf put in under the key, and the leaf that
`deleteUnSavedRefValueMap` is called with on the way. -/
def setValue (node : TrieNode) (key : Bytes) (leafNode : TrieNode) : TrieNode × TrieNode :=
  match node with
  | nil => (attach key leafNode, nil)
  | full children child =>
    match key with
    | c :: key =>
      let (newChild, old) := setValue (children c) key leafNode
      (full (Function.update children c newChild) child, old)
    | [] => (full children leafNode, child)
  | short nodeKey nodeChild =>
    let common := (splitCommon key nodeKey).1
    let nodeRest := (splitCommon key nodeKey).2.2
    match _hrest : (splitCommon key nodeKey).2.1 with
    | c :: keyRest =>
      let (children, child) := branch nodeRest nodeChild
      let (newChild, old) := setValue (children c) keyRest leafNode
      (attach common (full (Function.update children c newChild) child), old)
    | [] =>
      if nodeRest.isEmpty && nodeChild.isLeafNode then (short nodeKey leafNode, nodeChild)
      else
        -- the leaf of a full node stays in the table
        (attach common (full (branch nodeRest nodeChild).1 leafNode), nil)
  | value _ | hash _ =>
    match key with
    | c :: key => (full (Function.update (fun _ => nil) c (attach key leafNode)) node, nil)
    | [] => (leafNode, node)
termination_by key.length
decreasing_by
  · exact Nat.lt_succ_self _
  · exact length_lt_of_splitCommon _hrest

def getLeafNode : TrieNode → Bytes → TrieNode
  | nil, _ => nil
  | full _ child, [] => child
  | full children _, c :: key => getLeafNode (children c) key
  | short nodeKey child, key =>
    if key.isEmpty then nil
    else if nodeKey.isPrefixOf key then getLeafNode child (key.drop nodeKey.length)
    else nil
  | node@(value _), key | node@(hash _), key => if key.isEmpty then node else nil

end TrieNode

open TrieNode

/-- The trie, the large values it has not saved, and the large values in its database. -/
structure Trie where
  root : TrieNode := .nil
  unSavedRefValueMap : Table Hash Bytes := ∅
  db : Hash → Option Bytes := fun _ => none

namespace Trie

variable (hashData : Bytes → Hash)

def deleteUnSavedRefValueMap (node : TrieNode) (refs : Table Hash Bytes) : Table Hash Bytes :=
  match node with
  | .hash valueHash => refs.delete valueHash
  | _ => refs

def newLeaf (val : Bytes) : TrieNode :=
  if 32 < val.length then .hash (hashData val) else .value val

def setValue (trie : Trie) (key val : Bytes) : Trie :=
  let (root, old) := trie.root.setValue key (newLeaf hashData val)
  let refs := deleteUnSavedRefValueMap old trie.unSavedRefValueMap
  { trie with
    root
    unSavedRefValueMap := if 32 < val.length then refs.put (hashData val) val else refs }

def getRefValue (trie : Trie) (valueHash : Hash) : Option Bytes :=
  (trie.unSavedRefValueMap.get valueHash).or (trie.db valueHash)

def leafNodeValue (trie : Trie) : TrieNode → Option Bytes
  | .value val => some val
  | .hash valueHash => trie.getRefValue valueHash
  | _ => none

def getValue (trie : Trie) (key : Bytes) : Option Bytes :=
  trie.leafNodeValue (trie.root.getLeafNode key)

end Trie
end GoQlc

/-! ## The trie as a map -/

namespace GoQlc

open Function

namespace TrieNode

def endsRun : TrieNode → Bool
  | full _ _ | value _ | hash _ => true
  | _ => false

def WellFormed : TrieNode → Prop
  | full children child =>
    (∀ c, (children c).WellFormed) ∧ (child = nil ∨ child.isLeafNode = true)
  | short key child => key ≠ [] ∧ child.WellFormed ∧ child.endsRun = true
  | nil | value _ | hash _ => True

variable {node child newChild leafNode : TrieNode} {children : UInt8 → TrieNode}
  {key nodeKey common keyRest nodeRest k t : Bytes} {c : UInt8}

theorem endsRun_of_leaf (h : node.isLeafNode = true) : node.endsRun = true := by
  cases node with
  | value v => rfl
  | hash v => rfl
  | nil | full _ _ | short _ _ => cases h

theorem wellFormed_of_leaf (h : node.isLeafNode = true) : node.WellFormed := by
  cases node with
  | value v => trivial
  | hash v => trivial
  | nil | full _ _ | short _ _ => cases h

theorem getLeafNode_leaf (h : node.isLeafNode = true) (k : Bytes) :
    node.getLeafNode k = if k = [] then node else nil := by
  cases node with
  | value v => cases k <;> rfl
  | hash v => cases k <;> rfl
  | nil | full _ _ | short _ _ => cases h

theorem getLeafNode_short (hkey : nodeKey ≠ []) (k : Bytes) :
    (short nodeKey child).getLeafNode k =
      if nodeKey <+: k then child.getLeafNode (k.drop nodeKey.length) else nil := by
  simp only [getLeafNode, List.isPrefixOf_iff_prefix, List.isEmpty_iff]
  by_cases hk : k = []
  · have hno : ¬ nodeKey <+: k := by
      rw [hk]
      exact fun h => hkey (List.prefix_nil.mp h)
    rw [if_pos hk, if_neg hno]
  · rw [if_neg hk]

theorem attach_of_ne (h : key ≠ []) : attach key node = short key node := by
  unfold attach
  rw [if_neg]
  rw [List.isEmpty_iff]
  exact h

theorem getLeafNode_attach (key k : Bytes) :
    (attach key node).getLeafNode k =
      if key <+: k then node.getLeafNode (k.drop key.length) else nil := by
  by_cases hkey : key = []
  · rw [hkey, if_pos List.nil_prefix]
    rfl
  · rw [attach_of_ne hkey]
    exact getLeafNode_short hkey k

theorem getLeafNode_attach_append (common nodeRest t : Bytes) :
    (attach (common ++ nodeRest) node).getLeafNode (common ++ t) =
      (attach nodeRest node).getLeafNode t := by
  have hdrop : (common ++ t).drop (common ++ nodeRest).length = t.drop nodeRest.length := by
    rw [List.length_append, List.drop_append, List.drop_eq_nil_of_le (by omega),
      Nat.add_sub_cancel_left, List.nil_append]
  simp only [getLeafNode_attach, List.prefix_append_right_inj, hdrop]

theorem getLeafNode_attach_leaf (hleaf : leafNode.isLeafNode = true) (key k : Bytes) :
    (attach key leafNode).getLeafNode k = if k = key then leafNode else nil := by
  rw [getLeafNode_attach]
  by_cases hpre : key <+: k
  · obtain ⟨t, rfl⟩ := hpre
    rw [if_pos (List.prefix_append key t), List.drop_left, getLeafNode_leaf hleaf]
    simp only [List.append_right_eq_self]
  · rw [if_neg hpre, if_neg]
    rintro rfl
    exact hpre (List.prefix_refl k)

theorem WellFormed.attach (hnode : node.WellFormed) (hends : node.endsRun = true) (key : Bytes) :
    (attach key node).WellFormed := by
  by_cases hkey : key = []
  · rw [hkey]
    exact hnode
  · rw [attach_of_ne hkey]
    exact ⟨hkey, hnode, hends⟩

theorem getLeafNode_branch (hends : child.endsRun = true) (nodeRest k : Bytes) :
    (full (branch nodeRest child).1 (branch nodeRest child).2).getLeafNode k =
      (attach nodeRest child).getLeafNode k := by
  cases nodeRest with
  | nil =>
    cases child with
    | full children child => rfl
    | value v => cases k <;> rfl
    | hash v => cases k <;> rfl
    | nil | short _ _ => cases hends
  | cons d nodeRest =>
    cases k with
    | nil => rfl
    | cons c k =>
      have hrun := @getLeafNode_attach_append child [d] nodeRest k
      by_cases hc : c = d
      · rw [hc]
        refine Eq.trans ?_ hrun.symm
        simp only [branch, getLeafNode, update_self]
      · rw [getLeafNode_attach, if_neg]
        · simp only [branch, getLeafNode, update_of_ne hc]
        · rw [List.cons_prefix_cons]
          exact fun h => hc h.1.symm

theorem wellFormed_branch (hchild : child.WellFormed) (hends : child.endsRun = true)
    (nodeRest : Bytes) :
    (full (branch nodeRest child).1 (branch nodeRest child).2).WellFormed := by
  cases nodeRest with
  | nil =>
    cases child with
    | full children child => exact hchild
    | value v | hash v => exact ⟨fun _ => trivial, Or.inr rfl⟩
    | nil | short _ _ => cases hends
  | cons d nodeRest =>
    refine ⟨fun c => ?_, Or.inl rfl⟩
    by_cases hc : c = d
    · rw [hc]
      simp only [branch, update_self]
      exact hchild.attach hends nodeRest
    · simp only [branch, update_of_ne hc]
      trivial

/-- What `setValue` does: it changes what is found under one key, and the leaf it deletes from
the table is the one it has found there. -/
structure Sets (node : TrieNode) (key : Bytes) (leafNode : TrieNode) (r : TrieNode × TrieNode) :
    Prop where
  wellFormed : r.1.WellFormed
  get : ∀ k, r.1.getLeafNode k = if k = key then leafNode else node.getLeafNode k
  old : r.2 = nil ∨ r.2 = node.getLeafNode key

namespace Sets

theorem ofChild (hfull : (full children child).WellFormed) {r : TrieNode × TrieNode}
    (h : Sets (children c) key leafNode r) :
    Sets (full children child) (c :: key) leafNode (full (update children c r.1) child, r.2)
    where
  wellFormed := by
    refine ⟨fun d => ?_, hfull.2⟩
    by_cases hd : d = c
    · rw [hd, update_self]
      exact h.wellFormed
    · rw [update_of_ne hd]
      exact hfull.1 d
  get := by
    intro k
    cases k with
    | nil => rfl
    | cons d k =>
      simp only [getLeafNode]
      by_cases hd : d = c
      · rw [hd, update_self, h.get]
        simp only [List.cons.injEq, true_and]
      · rw [update_of_ne hd, if_neg]
        exact fun heq => hd (List.cons.inj heq).1
  old := h.old

theorem ofLeaf (hfull : (full children child).WellFormed) (hleaf : leafNode.isLeafNode = true)
    {old : TrieNode} (hold : old = nil ∨ old = child) :
    Sets (full children child) [] leafNode (full children leafNode, old) where
  wellFormed := ⟨hfull.1, Or.inr hleaf⟩
  get := by
    intro k
    cases k <;> rfl
  old := hold

theorem attach {r : TrieNode × TrieNode} (hends : r.1.endsRun = true)
    (h : Sets node keyRest leafNode r)
    (hnode : ∀ t, (TrieNode.attach nodeRest child).getLeafNode t = node.getLeafNode t)
    (hkey : common ++ nodeRest ≠ []) :
    Sets (short (common ++ nodeRest) child) (common ++ keyRest) leafNode
      (TrieNode.attach common r.1, r.2) where
  wellFormed := h.wellFormed.attach hends common
  get := by
    intro k
    rw [← attach_of_ne hkey]
    by_cases hpre : common <+: k
    · obtain ⟨t, rfl⟩ := hpre
      have hrun := @getLeafNode_attach_append r.1 common [] t
      rw [List.append_nil] at hrun
      rw [hrun, getLeafNode_attach_append, hnode]
      refine (h.get t).trans ?_
      simp only [List.append_cancel_left_eq]
    · have hlong : ¬ common ++ nodeRest <+: k := fun h =>
        hpre ((List.prefix_append common nodeRest).trans h)
      rw [getLeafNode_attach, if_neg hpre, getLeafNode_attach, if_neg hlong, if_neg]
      rintro rfl
      exact hpre (List.prefix_append common keyRest)
  old := by
    rw [← attach_of_ne hkey, getLeafNode_attach_append, hnode]
    exact h.old

end Sets

theorem Sets.onLeaf (hnode : node.isLeafNode = true) (hleaf : leafNode.isLeafNode = true) :
    Sets node key leafNode (match key with
      | c :: key => (full (update (fun _ => nil) c (TrieNode.attach key leafNode)) node, nil)
      | [] => (leafNode, node)) := by
  cases key with
  | nil =>
    refine ⟨wellFormed_of_leaf hleaf, fun k => ?_, Or.inr ?_⟩
    · dsimp only
      rw [getLeafNode_leaf hleaf, getLeafNode_leaf hnode]
      split_ifs <;> rfl
    · rw [getLeafNode_leaf hnode, if_pos rfl]
  | cons c key =>
    have hfull : (full (fun _ => nil) node).WellFormed := ⟨fun _ => trivial, Or.inr hnode⟩
    have hset : Sets nil key leafNode (TrieNode.attach key leafNode, nil) := by
      refine ⟨(wellFormed_of_leaf hleaf).attach (endsRun_of_leaf hleaf) key, fun k => ?_,
        Or.inl rfl⟩
      rw [getLeafNode_attach_leaf hleaf]
      rfl
    refine ⟨(Sets.ofChild hfull hset).wellFormed, fun k => ?_, Or.inl rfl⟩
    rw [(Sets.ofChild hfull hset).get, getLeafNode_leaf hnode]
    cases k <;> rfl

theorem Sets.replace (hkey : key ≠ []) (hchild : child.isLeafNode = true)
    (hleaf : leafNode.isLeafNode = true) :
    Sets (short key child) key leafNode (short key leafNode, child) := by
  rw [← attach_of_ne hkey, ← attach_of_ne hkey]
  refine ⟨(wellFormed_of_leaf hleaf).attach (endsRun_of_leaf hleaf) key, fun k => ?_, Or.inr ?_⟩
  · rw [getLeafNode_attach_leaf hleaf, getLeafNode_attach_leaf hchild]
    split_ifs <;> rfl
  · rw [getLeafNode_attach_leaf hchild, if_pos rfl]

theorem setValue_sets (hleaf : leafNode.isLeafNode = true) (hnode : node.WellFormed) :
    Sets node key leafNode (node.setValue key leafNode) := by
  -- every branch puts the rest of the key, which is shorter, into a child
  induction hlen : key.length using Nat.strong_induction_on generalizing node key with
  | _ n ih =>
  subst hlen
  cases node with
  | nil =>
    rw [setValue]
    refine ⟨(wellFormed_of_leaf hleaf).attach (endsRun_of_leaf hleaf) key, fun k => ?_, Or.inl rfl⟩
    rw [getLeafNode_attach_leaf hleaf]
    rfl
  | full children child =>
    cases key with
    | nil =>
      rw [setValue]
      exact Sets.ofLeaf hnode hleaf (Or.inr rfl)
    | cons c key =>
      rw [setValue]
      exact Sets.ofChild hnode (ih key.length (Nat.lt_succ_self _) (hnode.1 c) rfl)
  | short nodeKey child =>
    obtain ⟨hkey, hchild, hends⟩ := hnode
    obtain ⟨hsplit, hnodeSplit⟩ := splitCommon_eq key nodeKey
    have hfull := wellFormed_branch hchild hends (splitCommon key nodeKey).2.2
    have hbranch := getLeafNode_branch hends (splitCommon key nodeKey).2.2
    rw [setValue]
    split
    · rename_i c keyRest hrest
      have hset := Sets.ofChild hfull (ih keyRest.length (length_lt_of_splitCommon hrest)
        (hfull.1 c) rfl)
      have hshort := hset.attach rfl (fun t => (hbranch t).symm) (hnodeSplit ▸ hkey)
      rw [← hrest, ← hsplit, ← hnodeSplit] at hshort
      exact hshort
    · rename_i hrest
      split_ifs with hlast
      · obtain ⟨hnone, hold⟩ := Bool.and_eq_true_iff.mp hlast
        rw [hrest] at hsplit
        rw [List.isEmpty_iff.mp hnone, ← hsplit] at hnodeSplit
        rw [hnodeSplit] at hkey ⊢
        exact Sets.replace hkey hold hleaf
      · have hset := Sets.ofLeaf hfull hleaf (Or.inl rfl)
        have hshort := hset.attach rfl (fun t => (hbranch t).symm) (hnodeSplit ▸ hkey)
        rw [← hrest, ← hsplit, ← hnodeSplit] at hshort
        exact hshort
  | value v =>
    have hvalue : (value v).isLeafNode = true := rfl
    rw [setValue.eq_def]
    exact Sets.onLeaf hvalue hleaf
  | hash v =>
    have hhash : (hash v).isLeafNode = true := rfl
    rw [setValue.eq_def]
    exact Sets.onLeaf hhash hleaf

end TrieNode

namespace Trie

variable {hashData : Bytes → Hash} {trie : Trie} {written : Bytes → Option Bytes}
  {key val : Bytes}

def writes (written : Bytes → Option Bytes) (calls : List (Bytes × Bytes)) : Bytes → Option Bytes :=
  calls.foldl (fun written call => update written call.1 (some call.2)) written

def setValues (hashData : Bytes → Hash) (trie : Trie) (calls : List (Bytes × Bytes)) : Trie :=
  calls.foldl (fun trie call => trie.setValue hashData call.1 call.2) trie

/-- The condition on a call: the large value it overwrites with another one is not the value
of a second key, and no key holds another large value with the hash of the new one. -/
def Unshared (hashData : Bytes → Hash) (written : Bytes → Option Bytes) (key val : Bytes) : Prop :=
  (∀ old, written key = some old → 32 < old.length → old ≠ val →
    ∀ k, k ≠ key → written k ≠ some old) ∧
  (32 < val.length → ∀ k old, k ≠ key → written k = some old → 32 < old.length →
    hashData old = hashData val → old = val)

def AllUnshared (hashData : Bytes → Hash) : (Bytes → Option Bytes) → List (Bytes × Bytes) → Prop
  | _, [] => True
  | written, (key, val) :: calls =>
    Unshared hashData written key val ∧
      AllUnshared hashData (update written key (some val)) calls

structure Holds (hashData : Bytes → Hash) (trie : Trie) (written : Bytes → Option Bytes) :
    Prop where
  wellFormed : trie.root.WellFormed
  leaf : ∀ k, trie.root.getLeafNode k = (written k).elim .nil (newLeaf hashData)
  ref : ∀ k v, written k = some v → 32 < v.length →
    trie.unSavedRefValueMap.get (hashData v) = some v

theorem newLeaf_isLeafNode (val : Bytes) : (newLeaf hashData val).isLeafNode = true := by
  unfold newLeaf
  split_ifs <;> rfl

theorem leaf_setValue (hwf : trie.root.WellFormed)
    (hleaf : ∀ k, trie.root.getLeafNode k = (written k).elim .nil (newLeaf hashData)) :
    TrieNode.Sets trie.root key (newLeaf hashData val)
        (trie.root.setValue key (newLeaf hashData val)) ∧
      (trie.setValue hashData key val).root.WellFormed ∧
      ∀ k, (trie.setValue hashData key val).root.getLeafNode k =
        (update written key (some val) k).elim .nil (newLeaf hashData) := by
  have hset : TrieNode.Sets trie.root key (newLeaf hashData val)
      (trie.root.setValue key (newLeaf hashData val)) :=
    TrieNode.setValue_sets (newLeaf_isLeafNode val) hwf
  refine ⟨hset, hset.wellFormed, fun k => (hset.get k).trans ?_⟩
  by_cases hk : k = key
  · rw [if_pos hk, hk, update_self]
    rfl
  · rw [if_neg hk, update_of_ne hk]
    exact hleaf k

namespace Holds

theorem init (db : Hash → Option Bytes) : Holds hashData { db } fun _ => none where
  wellFormed := trivial
  leaf := fun _ => rfl
  ref := fun _ _ h => by cases h

variable (h : Holds hashData trie written)

include h

theorem ref_kept (hclean : Unshared hashData written key val) {old : TrieNode}
    (hold : old = .nil ∨ old = trie.root.getLeafNode key) {k v : Bytes} (hk : k ≠ key)
    (hv : written k = some v) (hlong : 32 < v.length) :
    (deleteUnSavedRefValueMap old trie.unSavedRefValueMap).get (hashData v) = some v ∨ v = val := by
  have hget := h.ref k v hv hlong
  rcases hold with rfl | rfl
  · exact Or.inl hget
  rw [h.leaf key]
  cases hkey : written key with
  | none => exact Or.inl hget
  | some o =>
    dsimp only [Option.elim, newLeaf]
    split_ifs with ho
    · by_cases hsame : hashData v = hashData o
      · have hvo : v = o := by
          have hgeto := h.ref key o hkey ho
          rw [← hsame] at hgeto
          exact Option.some.inj (hget.symm.trans hgeto)
        subst hvo
        by_contra hne
        rw [not_or] at hne
        exact hclean.1 v hkey ho hne.2 k hk hv
      · refine Or.inl ?_
        rw [deleteUnSavedRefValueMap, Table.get_delete_of_ne _ hsame]
        exact hget
    · exact Or.inl hget

theorem setValue (hclean : Unshared hashData written key val) :
    Holds hashData (trie.setValue hashData key val) (update written key (some val)) := by
  obtain ⟨hset, hwf, hleaf⟩ := @leaf_setValue hashData trie written key val h.wellFormed h.leaf
  refine ⟨hwf, hleaf, fun k v hv hlong => ?_⟩
  change (if 32 < val.length then _ else _ : Table Hash Bytes).get (hashData v) = some v
  by_cases hk : k = key
  · rw [hk, update_self] at hv
    cases hv
    rw [if_pos hlong, Table.get_put_self]
  · rw [update_of_ne hk] at hv
    have hkept := h.ref_kept hclean hset.old hk hv hlong
    by_cases hval : 32 < val.length
    · rw [if_pos hval, Table.get_put]
      split_ifs with hsame
      · rw [hclean.2 hval k v hk hv hlong hsame]
      · refine hkept.resolve_right ?_
        rintro rfl
        exact hsame rfl
    · rw [if_neg hval]
      refine hkept.resolve_right ?_
      rintro rfl
      exact hval hlong

theorem setValues {calls : List (Bytes × Bytes)} (hclean : AllUnshared hashData written calls) :
    Holds hashData (trie.setValues hashData calls) (writes written calls) := by
  induction calls generalizing trie written with
  | nil => exact h
  | cons call calls ih => exact ih (h.setValue hclean.1) hclean.2

theorem getValue (key : Bytes) : trie.getValue key = written key := by
  unfold Trie.getValue
  rw [h.leaf key]
  cases hkey : written key with
  | none => rfl
  | some v =>
    dsimp only [Option.elim, newLeaf]
    split_ifs with hlong
    · dsimp only [leafNodeValue, getRefValue]
      rw [h.ref key v hkey hlong]
      rfl
    · rfl

end Holds

/-- In every run of calls that overwrite no shared large value, each key has the value last
written to it. -/
theorem getValue_lastWritten (hashData : Bytes → Hash) (calls : List (Bytes × Bytes))
    (hclean : AllUnshared hashData (fun _ => none) calls) (key : Bytes) :
    (setValues hashData {} calls).getValue key = writes (fun _ => none) calls key :=
  ((Holds.init _).setValues hclean).getValue key

/-- A large value written twice to one key, and another one under a longer key. -/
theorem getValue_lastWritten_two :
    (setValues (fun bs => BitVec.ofNat 256 bs.length) {}
        [([1], List.replicate 33 0), ([1], List.replicate 33 0), ([1, 2], List.replicate 34 0)]
      ).getValue [1] = some (List.replicate 33 0) := by
  refine (getValue_lastWritten _ _ ?_ [1]).trans (by simp [writes])
  refine ⟨⟨fun old hold => ?_, fun _ k old hk hold => ?_⟩,
    ⟨fun old hold _ hne => ?_, fun _ k old hk hold => ?_⟩,
    ⟨fun old hold => ?_, fun _ k old hk hold _ hsame => ?_⟩, trivial⟩
  · cases hold
  · cases hold
  · exact absurd (Option.some.inj hold).symm hne
  · simp [update_of_ne hk] at hold
  · simp at hold
  · by_cases hk1 : k = [1]
    · simp only [hk1, update_self, Option.some.injEq] at hold
      simp [← hold] at hsame
    · simp [update_of_ne hk1] at hold

/-- Two keys hold one large value; overwriting the first loses the value of the second. -/
theorem getValue_loses_shared :
    (setValues (fun bs => BitVec.ofNat 256 bs.length) {}
        [([0], List.replicate 33 0), ([1], List.replicate 33 0), ([0], [1])]).getValue [1] = none ∧
      writes (fun _ => none)
        [([0], List.replicate 33 0), ([1], List.replicate 33 0), ([0], [1])] [1] =
          some (List.replicate 33 0) := by
  decide +kernel

end Trie
end GoQlc
