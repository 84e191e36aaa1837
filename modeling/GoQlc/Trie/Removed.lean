import GoQlc.Trie.Sessions

/-!
# Removing a trie

`Remove` deletes every node of the trie from the store, also those that other tries have in common
with it.
-/

namespace GoQlc

open List Option Table TrieNode Has

namespace TrieNode

variable {hashData : Bytes → Hash} {msgp : Msgp} {store store' : Table Hash Bytes}
  {node n m : TrieNode} {a : Hash}

theorem get_traverseRemove_of_ne (h : ∀ n, node.Has n → n.nodeHash hashData ≠ a) :
    (node.traverseRemove hashData store).get a = store.get a := by
  induction node generalizing store with
  | nil => rfl
  | full children child ih ihchild =>
    have hroot := h _ (self nofun)
    rw [traverseRemove]
    refine List.foldlRecOn (motive := fun s : Table Hash Bytes => s.get a = store.get a)
      allBytes _ ?_ fun s hs c _ => ?_
    · rw [ihchild fun n hn => h n (ofSlot (i := none) hn), get_delete_of_ne _ hroot.symm]
    · rw [ih c fun n hn => h n (ofSlot (i := some c) hn), hs]
  | short key child ih =>
    have hroot := h _ (self nofun)
    rw [traverseRemove, ih fun n hn => h n (Or.inr hn), get_delete_of_ne _ hroot.symm]
  | value v | hash v =>
    have hroot := h _ (self nofun)
    rw [traverseRemove, get_delete_of_ne _ hroot.symm]

theorem get_delete_of_none (h : store.get a = none) (b : Hash) : (store.delete b).get a = none := by
  rw [get_delete]
  split_ifs
  · rfl
  · exact h

theorem get_traverseRemove_of_none (h : store.get a = none) :
    (node.traverseRemove hashData store).get a = none := by
  induction node generalizing store with
  | nil => exact h
  | full children child ih ihchild =>
    rw [traverseRemove]
    refine List.foldlRecOn (motive := fun s : Table Hash Bytes => s.get a = none) allBytes _
      (ihchild (get_delete_of_none h _)) fun s hs c _ => ?_
    exact ih c hs
  | short key child ih =>
    rw [traverseRemove]
    exact ih (get_delete_of_none h _)
  | value v | hash v =>
    rw [traverseRemove]
    exact get_delete_of_none h _

variable {children : UInt8 → TrieNode} {child : TrieNode}

theorem get_foldl_of_none {cs : List UInt8} (h : store.get a = none) :
    (cs.foldl (fun store c => (children c).traverseRemove hashData store) store).get a = none := by
  refine List.foldlRecOn (motive := fun s : Table Hash Bytes => s.get a = none) cs _ h
    fun s hs c _ => ?_
  exact get_traverseRemove_of_none hs

theorem get_traverseRemove_of_has (h : node.Has n) :
    (node.traverseRemove hashData store).get (n.nodeHash hashData) = none := by
  induction node generalizing store with
  | nil => cases h
  | full children child ih ihchild =>
    rw [traverseRemove]
    rcases h with rfl | h | ⟨c, h⟩
    · exact get_foldl_of_none (get_traverseRemove_of_none (get_delete_self _ _))
    · exact get_foldl_of_none (ihchild h)
    · obtain ⟨before, after, hsplit⟩ := append_of_mem (mem_allBytes c)
      rw [hsplit, foldl_append, foldl_cons]
      exact get_foldl_of_none (ih c h)
  | short key child ih =>
    rw [traverseRemove]
    rcases h with rfl | h
    · exact get_traverseRemove_of_none (get_delete_self _ _)
    · exact ih h
  | value v | hash v =>
    rw [show n = _ from h, traverseRemove, get_delete_self]

/-! ## Loading from a store with holes -/

def Holed (hashData : Bytes → Hash) (msgp : Msgp) (store : Table Hash Bytes) (node : TrieNode) :
    Prop :=
  ∀ n, node.Has n → store.get (n.nodeHash hashData) = none ∨
    store.get (n.nodeHash hashData) = some (msgp.marshalMsg (n.serialize hashData))

theorem Holed.sub (h : Holed hashData msgp store node) (hn : ∀ m, n.Has m → node.Has m) :
    Holed hashData msgp store n := fun m hm => h m (hn m hm)

theorem traverseLoad_of_none {fuel : ℕ} (h : store.get (node.nodeHash hashData) = none) :
    traverseLoad msgp store.get fuel (node.nodeHash hashData) = nil := by
  cases fuel with
  | zero => rfl
  | succ fuel =>
    rw [traverseLoad, getNode, h]
    rfl

theorem elim_ref (f : Hash → TrieNode) :
    (node.ref hashData).elim nil f = if node.isNil then nil else f (node.nodeHash hashData) := by
  unfold ref
  split_ifs <;> rfl

theorem Holed.traverseLoad_cases (h : Holed hashData msgp store node) (hne : node ≠ nil)
    (fuel : ℕ) :
    traverseLoad msgp store.get fuel (node.nodeHash hashData) = nil ∨
      ∃ f, fuel = f + 1 ∧ getNode msgp store.get (node.nodeHash hashData) = node.stub hashData := by
  rcases h node (self hne) with hnone | hsome
  · exact Or.inl (traverseLoad_of_none hnone)
  · cases fuel with
    | zero => exact Or.inl rfl
    | succ fuel => exact Or.inr ⟨fuel, rfl, getNode_of_get hne hsome⟩

theorem Holed.traverseLoad_short {key : Bytes} (h : Holed hashData msgp store (short key child))
    (fuel : ℕ) :
    traverseLoad msgp store.get fuel ((short key child).nodeHash hashData) = nil ∨
      ∃ f, traverseLoad msgp store.get fuel ((short key child).nodeHash hashData) =
        short key (traverseLoad msgp store.get f (child.nodeHash hashData)) := by
  refine (h.traverseLoad_cases nofun fuel).imp_right ?_
  rintro ⟨f, rfl, hget⟩
  rw [traverseLoad, hget]
  exact ⟨f, rfl⟩

theorem Holed.traverseLoad_full (h : Holed hashData msgp store (full children child)) (fuel : ℕ) :
    traverseLoad msgp store.get fuel ((full children child).nodeHash hashData) = nil ∨
      ∃ f children' child',
        traverseLoad msgp store.get fuel ((full children child).nodeHash hashData) =
          full children' child' ∧
        ∀ i, slot children' child' i = if (slot children child i).isNil then nil
          else traverseLoad msgp store.get f ((slot children child i).nodeHash hashData) := by
  refine (h.traverseLoad_cases nofun fuel).imp_right ?_
  rintro ⟨f, rfl, hget⟩
  rw [traverseLoad, hget]
  refine ⟨f, _, _, rfl, fun i => ?_⟩
  cases i with
  | none => exact elim_ref _
  | some c => exact elim_ref _

theorem Holed.traverseLoad_leaf (h : Holed hashData msgp store node)
    (hleaf : node.isLeafNode = true) (fuel : ℕ) :
    traverseLoad msgp store.get fuel (node.nodeHash hashData) = nil ∨
      traverseLoad msgp store.get fuel (node.nodeHash hashData) = node := by
  refine (h.traverseLoad_cases (ne_nil_of_leaf hleaf) fuel).imp_right ?_
  rintro ⟨f, rfl, hget⟩
  rw [traverseLoad, hget]
  cases node with
  | value v => rfl
  | hash v => rfl
  | nil | full _ _ | short _ _ => cases hleaf

theorem Holed.getLeafNode_traverseLoad (h : Holed hashData msgp store node)
    (hnode : node.Canonical) (hne : node ≠ nil) (fuel : ℕ) (k : Bytes) :
    (traverseLoad msgp store.get fuel (node.nodeHash hashData)).getLeafNode k = nil ∨
      (traverseLoad msgp store.get fuel (node.nodeHash hashData)).getLeafNode k =
        node.getLeafNode k := by
  induction node generalizing fuel k with
  | nil => exact absurd rfl hne
  | value v | hash v =>
    rcases h.traverseLoad_leaf rfl fuel with hload | hload
    · rw [hload]
      exact Or.inl rfl
    · rw [hload]
      exact Or.inr rfl
  | short key child ih =>
    rcases h.traverseLoad_short fuel with hload | ⟨f, hload⟩
    · rw [hload]
      exact Or.inl rfl
    · rw [hload, getLeafNode_short hnode.1, getLeafNode_short hnode.1]
      split_ifs
      · exact ih (h.sub fun m hm => Or.inr hm) hnode.2.1 (ne_nil_of_endsRun hnode.2.2) f _
      · exact Or.inl rfl
  | full children child ih ihchild =>
    rcases h.traverseLoad_full fuel with hload | ⟨f, children', child', hload, hslot⟩
    · rw [hload]
      exact Or.inl rfl
    rw [hload]
    cases k with
    | nil =>
      change child' = nil ∨ child' = child
      rcases hnode.2.1 with hnil | hleaf
      · refine Or.inl ((hslot none).trans ?_)
        rw [slot, hnil]
        rfl
      · have hchild := hslot none
        rw [slot, slot, isNil_eq_false.mpr (ne_nil_of_leaf hleaf), if_neg Bool.false_ne_true]
          at hchild
        rw [hchild]
        exact (h.sub fun m hm => ofSlot (i := none) hm).traverseLoad_leaf hleaf f
    | cons c k =>
      change (children' c).getLeafNode k = nil ∨
        (children' c).getLeafNode k = (children c).getLeafNode k
      have hchild := hslot (some c)
      by_cases hnil : children c = nil
      · rw [slot, slot, hnil, isNil, if_pos rfl] at hchild
        rw [hchild]
        exact Or.inl rfl
      · rw [slot, slot, isNil_eq_false.mpr hnil, if_neg Bool.false_ne_true] at hchild
        rw [hchild]
        exact ih c (h.sub fun m hm => ofSlot (i := some c) hm) (hnode.1 c) hnil f k

theorem Canonical.exists_lost_of_nil (hnode : node.Canonical) (hne : node ≠ nil)
    {loaded : TrieNode} (hload : loaded = nil) :
    ∃ k, node.getLeafNode k ≠ nil ∧ loaded.getLeafNode k = nil := by
  obtain ⟨k, hk⟩ := hnode.exists_key hne
  rw [hload]
  exact ⟨k, hk, rfl⟩

theorem eq_of_has_leaf (hleaf : node.isLeafNode = true) (hm : node.Has m) : m = node := by
  cases node with
  | value v => exact hm
  | hash v => exact hm
  | nil | full _ _ | short _ _ => cases hleaf

theorem Holed.exists_lost (h : Holed hashData msgp store node) (hnode : node.Canonical)
    (hm : node.Has m) (hnone : store.get (m.nodeHash hashData) = none) (fuel : ℕ) :
    ∃ k, node.getLeafNode k ≠ nil ∧
      (traverseLoad msgp store.get fuel (node.nodeHash hashData)).getLeafNode k = nil := by
  induction node generalizing fuel with
  | nil => cases hm
  | value v | hash v =>
    rw [show m = _ from hm] at hnone
    exact hnode.exists_lost_of_nil nofun (traverseLoad_of_none hnone)
  | short key child ih =>
    rcases hm with rfl | hm
    · exact hnode.exists_lost_of_nil nofun (traverseLoad_of_none hnone)
    rcases h.traverseLoad_short fuel with hload | ⟨f, hload⟩
    · exact hnode.exists_lost_of_nil nofun hload
    obtain ⟨k, hk, hlost⟩ := ih (h.sub fun m hm => Or.inr hm) hnode.2.1 hm f
    refine ⟨key ++ k, ?_, ?_⟩
    · rwa [getLeafNode_short_append hnode.1]
    · rwa [hload, getLeafNode_short_append hnode.1]
  | full children child ih ihchild =>
    rcases hm with rfl | hm | ⟨c, hm⟩
    · exact hnode.exists_lost_of_nil nofun (traverseLoad_of_none hnone)
    · rcases h.traverseLoad_full fuel with hload | ⟨f, children', child', hload, hslot⟩
      · exact hnode.exists_lost_of_nil nofun hload
      have hne : child ≠ nil := by
        rintro rfl
        exact hm
      rw [eq_of_has_leaf (hnode.2.1.resolve_left hne) hm] at hnone
      have hchild := hslot none
      rw [slot, slot, isNil_eq_false.mpr hne, if_neg Bool.false_ne_true,
        traverseLoad_of_none hnone] at hchild
      rw [hload]
      exact ⟨[], hne, hchild⟩
    · rcases h.traverseLoad_full fuel with hload | ⟨f, children', child', hload, hslot⟩
      · exact hnode.exists_lost_of_nil nofun hload
      have hne : children c ≠ nil := by
        intro hnil
        rw [hnil] at hm
        exact hm
      obtain ⟨k, hk, hlost⟩ := ih c (h.sub fun m hm => ofSlot (i := some c) hm) (hnode.1 c) hm f
      have hchild := hslot (some c)
      rw [slot, slot, isNil_eq_false.mpr hne, if_neg Bool.false_ne_true] at hchild
      rw [hload]
      refine ⟨c :: k, hk, ?_⟩
      change (children' c).getLeafNode k = nil
      rwa [hchild]

end TrieNode

namespace Trie

open TrieNode (Holed Stored)

variable {hashData : Bytes → Hash} {msgp : Msgp} {store : Table Hash Bytes} {fuel : ℕ}
  {written written' : Bytes → Option Bytes} {root root' : TrieNode}

theorem Saved.getValue_newTrie (h : Saved hashData msgp store written)
    (hroot : Spells hashData root written) (hfuel : ∀ k v, written k = some v → k.length < fuel)
    (key : Bytes) :
    (Trie.newTrie msgp fuel store (({ root } : Trie).rootHash hashData)).getValue key =
      written key := by
  rw [getValue, h.root_newTrie hroot hfuel, hroot.leaf key]
  cases hw : written key with
  | none => rfl
  | some v =>
    rw [elim_some, newLeaf]
    split_ifs with hlong
    · rw [leafNodeValue, getRefValue]
      exact (none_or).trans (h.large key v hw hlong)
    · rfl

/-- The condition: the trie has no node and no large value under the hash of a removed node. -/
structure Clear (hashData : Bytes → Hash) (removed root : TrieNode)
    (written : Bytes → Option Bytes) : Prop where
  nodes : ∀ n m, removed.Has n → root.Has m → n.nodeHash hashData ≠ m.nodeHash hashData
  large : ∀ n k v, removed.Has n → written k = some v → 32 < v.length →
    n.nodeHash hashData ≠ hashData v

variable {removed : TrieNode}

theorem Clear.saved (hclear : Clear hashData removed root written)
    (hroot : Spells hashData root written) (h : Saved hashData msgp store written) :
    Saved hashData msgp (removed.traverseRemove hashData store) written where
  nodes := fun root' hroot' => by
    rw [hroot'.unique hroot]
    rintro _ ⟨m, hm, rfl⟩
    refine (get_traverseRemove_of_ne fun n hn => hclear.nodes n m hn hm).trans ?_
    exact h.nodes root hroot _ (mem_items hm)
  large := fun k v hv hlong => by
    rw [get_traverseRemove_of_ne fun n hn => hclear.large n k v hn hv hlong]
    exact h.large k v hv hlong

theorem Saved.holed (h : Saved hashData msgp store written) (hroot : Spells hashData root written) :
    Holed hashData msgp (removed.traverseRemove hashData store) root := by
  intro m hm
  by_cases hgone : ∃ n, removed.Has n ∧ n.nodeHash hashData = m.nodeHash hashData
  · obtain ⟨n, hn, hsame⟩ := hgone
    exact Or.inl (hsame ▸ get_traverseRemove_of_has hn)
  · refine Or.inr ((get_traverseRemove_of_ne fun n hn hsame => ?_).trans
      (h.nodes root hroot _ (mem_items hm)))
    exact hgone ⟨n, hn, hsame⟩

theorem root_newTrie_of_ne (hne : root ≠ .nil) :
    (newTrie msgp fuel store (({ root } : Trie).rootHash hashData)).root =
      traverseLoad msgp store.get fuel (root.nodeHash hashData) := by
  unfold newTrie rootHash
  rw [isNil_eq_false.mpr hne, if_neg Bool.false_ne_true, elim_some]

/-- The removal of one saved trie leaves the values of another one exactly if nothing of that one
is stored under the hash of a removed node. -/
theorem getValue_after_remove_iff (hashData : Bytes → Hash) (msgp : Msgp) (fuel : ℕ)
    (store : Table Hash Bytes) (removed root : TrieNode) (written' written : Bytes → Option Bytes)
    (hremoved : Spells hashData removed written') (hroot : Spells hashData root written)
    (hsaved' : Saved hashData msgp store written') (hsaved : Saved hashData msgp store written)
    (hfuel' : ∀ k v, written' k = some v → k.length < fuel)
    (hfuel : ∀ k v, written k = some v → k.length < fuel) :
    (∀ key, (newTrie msgp fuel
        ((newTrie msgp fuel store (({ root := removed } : Trie).rootHash hashData)).remove hashData
          store) (({ root } : Trie).rootHash hashData)).getValue key = written key) ↔
      Clear hashData removed root written := by
  rw [remove, hsaved'.root_newTrie hremoved hfuel']
  constructor
  · intro hsame
    have hholed : Holed hashData msgp (removed.traverseRemove hashData store) root :=
      hsaved.holed hroot
    refine ⟨fun n m hn hm heq => ?_, fun n k v hn hv hlong heq => ?_⟩
    · -- a key below the missing node finds no leaf
      have hne : root ≠ .nil := by
        rintro rfl
        exact hm
      obtain ⟨k, hk, hlost⟩ := hholed.exists_lost hroot.canonical hm
        (heq ▸ get_traverseRemove_of_has hn) fuel
      have hnone := hsame k
      rw [getValue, root_newTrie_of_ne hne, hlost] at hnone
      rw [hroot.leaf k, ← hnone] at hk
      exact hk rfl
    · have hleaf := hroot.leaf k
      rw [hv, elim_some, newLeaf, if_pos hlong] at hleaf
      have hne : root ≠ .nil := by
        rintro rfl
        cases hleaf
      have hvalue := hsame k
      rw [getValue, root_newTrie_of_ne hne, hv] at hvalue
      rcases hholed.getLeafNode_traverseLoad hroot.canonical hne fuel k with hnil | hload
      · rw [hnil] at hvalue
        cases hvalue
      · rw [hload, hleaf, leafNodeValue, getRefValue, ← heq] at hvalue
        have hnone : (removed.traverseRemove hashData store).get (n.nodeHash hashData) = none :=
          get_traverseRemove_of_has hn
        have hgone := (none_or.symm.trans hvalue).symm.trans hnone
        cases hgone
  · intro hclear key
    exact (hclear.saved hroot hsaved).getValue_newTrie hroot hfuel key

theorem has_single {key val : Bytes} (hkey : key ≠ []) {n : TrieNode}
    (h : (setValues hashData {} [(key, val)]).root.Has n) :
    n = .short key (newLeaf hashData val) ∨ n = newLeaf hashData val := by
  rw [root_single, attach_of_ne hkey] at h
  exact h.imp_right fun hn => eq_of_has_leaf (newLeaf_isLeafNode val) hn

theorem writes_single {key val k v : Bytes} (h : writes (fun _ => none) [(key, val)] k = some v) :
    k = key ∧ v = val := by
  simp only [writes, foldl_cons, foldl_nil, Function.update_apply] at h
  split_ifs at h with hk
  exact ⟨hk, (Option.some.inj h).symm⟩

theorem saved_single {key val : Bytes} (hkey : key ≠ []) (hshort : ¬ 32 < val.length)
    (hnode : store.get ((TrieNode.short key (newLeaf hashData val)).nodeHash hashData) =
      some (msgp.marshalMsg ((TrieNode.short key (newLeaf hashData val)).serialize hashData)))
    (hleaf : store.get ((newLeaf hashData val).nodeHash hashData) =
      some (msgp.marshalMsg ((newLeaf hashData val).serialize hashData))) :
    Saved hashData msgp store (writes (fun _ => none) [(key, val)]) where
  nodes := fun root hroot => by
    rw [hroot.unique (spells_setValues hashData [(key, val)])]
    rintro _ ⟨n, hn, rfl⟩
    rcases has_single hkey hn with rfl | rfl
    · exact hnode
    · exact hleaf
  large := fun k v hv hlong => by
    rw [(writes_single hv).2] at hlong
    exact absurd hlong hshort

theorem getValue_after_remove_iff_apart :
    (newTrie .plain 3
      ((newTrie .plain 3 (Session.run lengthHash .plain 3 {}
          [.setValue 0 [1] [5], .save 0, .setValue 1 [2, 2] [6, 6], .save 1]).store
        ((setValues lengthHash {} [([1], [5])]).rootHash lengthHash)).remove lengthHash
        (Session.run lengthHash .plain 3 {}
          [.setValue 0 [1] [5], .save 0, .setValue 1 [2, 2] [6, 6], .save 1]).store)
      ((setValues lengthHash {} [([2, 2], [6, 6])]).rootHash lengthHash)).getValue [2, 2] =
      writes (fun _ => none) [([2, 2], [6, 6])] [2, 2] := by
  refine (getValue_after_remove_iff lengthHash .plain 3 _ _ _ _ _
    (spells_setValues lengthHash [([1], [5])]) (spells_setValues lengthHash [([2, 2], [6, 6])])
    (saved_single (by decide) (by decide) (by decide +kernel) (by decide +kernel))
    (saved_single (by decide) (by decide) (by decide +kernel) (by decide +kernel))
    (fun k v hv => ?_) fun k v hv => ?_).mpr ⟨fun n m hn hm => ?_, fun n k v hn hv hlong => ?_⟩
    [2, 2]
  · rw [(writes_single hv).1]
    decide
  · rw [(writes_single hv).1]
    decide
  · rcases has_single (by decide) hn with rfl | rfl <;>
      rcases has_single (by decide) hm with rfl | rfl <;> decide +kernel
  · rw [(writes_single hv).2] at hlong
    exact absurd hlong (by decide)

/-- When the first trie is removed the second one has lost the leaf that both have. -/
theorem remove_loses_shared_leaf :
    (newTrie .plain 2
      ((newTrie .plain 2 (Session.run lengthHash .plain 2 {}
          [.setValue 0 [1] [5], .save 0, .setValue 0 [2] [6, 6], .save 0]).store
        ((setValues lengthHash {} [([1], [5])]).rootHash lengthHash)).remove lengthHash
        (Session.run lengthHash .plain 2 {}
          [.setValue 0 [1] [5], .save 0, .setValue 0 [2] [6, 6], .save 0]).store)
      ((setValues lengthHash {} [([1], [5]), ([2], [6, 6])]).rootHash lengthHash)).getValue [1] =
      none ∧
    (newTrie .plain 2 (Session.run lengthHash .plain 2 {}
        [.setValue 0 [1] [5], .save 0, .setValue 0 [2] [6, 6], .save 0]).store
      ((setValues lengthHash {} [([1], [5]), ([2], [6, 6])]).rootHash lengthHash)).getValue [1] =
      some [5] := by
  decide +kernel

end Trie
end GoQlc
