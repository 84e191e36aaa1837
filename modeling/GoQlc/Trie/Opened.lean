import GoQlc.Trie.Saved

/-!
# A trie over a store

What a trie and the store below it know together: the nodes are those of the map that was written,
and a large value is still in the trie or already in the store.
-/

namespace GoQlc

open Function List Option TrieNode

namespace TrieNode

variable {hashData : Bytes → Hash} {node other child : TrieNode}
  {children children' : UInt8 → TrieNode}

theorem serializeChildren_congr
    (h : ∀ c, (children c).isNil = (children' c).isNil ∧ ((children c).isNil = false →
      (children c).nodeHash hashData = (children' c).nodeHash hashData)) :
    serializeChildren hashData children = serializeChildren hashData children' := by
  refine filterMap_congr fun c _ => ?_
  obtain ⟨hnil, hhash⟩ := h c
  cases hb : (children c).isNil with
  | true => rw [← hnil, hb, if_pos rfl, if_pos rfl]
  | false => rw [← hnil, hb, hhash hb]

theorem serialize_eq_of_source (hnode : node.isLeafNode = false) (hother : other.isLeafNode = false)
    (hne : node ≠ nil) (hne' : other ≠ nil)
    (h : node.source hashData = other.source hashData) :
    node.serialize hashData = other.serialize hashData := by
  have hhash : node.nodeHash hashData = other.nodeHash hashData := by
    rw [nodeHash_eq hne, nodeHash_eq hne', h]
  cases node with
  | nil => exact absurd rfl hne
  | value v => cases hnode
  | hash v => cases hnode
  | full children child =>
    cases other with
    | nil => exact absurd rfl hne'
    | value v => cases hother
    | hash v => cases hother
    | short key' child' => exact absurd (head_eq_of_cons_eq h) (by decide)
    | full children' child' =>
      have hslot := slots_of_source h
      have hchild : (if child.isNil then [] else hashBytes (child.nodeHash hashData)) =
          if child'.isNil then [] else hashBytes (child'.nodeHash hashData) := by
        obtain ⟨hnil, hsame⟩ := hslot none
        dsimp only [slot] at hnil hsame
        cases hb : child.isNil with
        | true => rw [← hnil, hb, if_pos rfl, if_pos rfl]
        | false => rw [← hnil, hb, hsame hb]
      have hchildren := serializeChildren_congr fun c => hslot (some c)
      dsimp only [slot] at hchildren
      rw [serialize, serialize, hhash, hchild, hchildren]
  | short key child =>
    cases other with
    | nil => exact absurd rfl hne'
    | value v => cases hother
    | hash v => cases hother
    | full children' child' => exact absurd (head_eq_of_cons_eq h) (by decide)
    | short key' child' =>
      have hlen : (hashBytes (child.nodeHash hashData)).length =
          (hashBytes (child'.nodeHash hashData)).length := by
        rw [hashBytes_length, hashBytes_length]
      obtain ⟨hkey, hsame⟩ := append_inj' (tail_eq_of_cons_eq h) hlen
      rw [serialize, serialize, hhash, hkey, hsame]

end TrieNode

namespace Trie

open TrieNode (Item filing Catalogue Sound Stored Extends items mem_items)

variable (hashData : Bytes → Hash) (maps : Set (Bytes → Option Bytes)) (values : Set Bytes)

def catalogue : Set Item :=
  {x | (∃ written ∈ maps, ∃ root, Spells hashData root written ∧ x ∈ items root) ∨
    ∃ v ∈ values, 32 < v.length ∧ x = .value v}

/-- Nothing that the store is asked to hold can be taken for something else: the hash tells apart
what it is taken of, no value is the hash of a large one, and no large value is what the hash of a
node is taken of. -/
structure Separate : Prop where
  noCollision : Set.InjOn hashData {s |
    (∃ written ∈ maps, ∃ root, Spells hashData root written ∧ root.Hashed hashData s) ∨
      s ∈ values ∧ 32 < s.length}
  notHash : ∀ v ∈ values, ∀ v' ∈ values, ¬ IsHashOf hashData v v'
  notSource : ∀ written ∈ maps, ∀ root, Spells hashData root written →
    ∀ v ∈ values, 32 < v.length → ¬ root.Hashed hashData v

structure Distinct : Prop extends Separate hashData maps values where
  value : ∀ written ∈ maps, ∀ k v, written k = some v → v ∈ values

variable {hashData maps values} {msgp : Msgp} {store store' : Table Hash Bytes} {trie : Trie}
  {written written' : Bytes → Option Bytes} {root root' n n' : TrieNode} {key val v v' : Bytes}

theorem Spells.exists_value (h : Spells hashData root written) (hn : root.Has n)
    (hleaf : n.isLeafNode = true) : ∃ k v, written k = some v ∧ n = newLeaf hashData v := by
  obtain ⟨k, hk⟩ := hn.exists_key h.canonical hleaf
  rw [h.leaf k] at hk
  cases hw : written k with
  | none =>
    rw [hw] at hk
    exact absurd hk.symm hn.ne_nil
  | some v =>
    rw [hw] at hk
    exact ⟨k, v, hw, hk.symm⟩

theorem source_newLeaf (v : Bytes) :
    (newLeaf hashData v).source hashData = leafBytes hashData v := by
  unfold newLeaf leafBytes
  split_ifs <;> rfl

namespace Distinct

variable (h : Distinct hashData maps values)

include h

theorem large_inj (hv : v ∈ values) (hv' : v' ∈ values) (hlong : 32 < v.length)
    (hlong' : 32 < v'.length) (hsame : hashData v = hashData v') : v = v' :=
  h.noCollision (Or.inr ⟨hv, hlong⟩) (Or.inr ⟨hv', hlong'⟩) hsame

theorem serialize_eq (hmap : written ∈ maps) (hmap' : written' ∈ maps)
    (hroot : Spells hashData root written) (hroot' : Spells hashData root' written')
    (hn : root.Has n) (hn' : root'.Has n') (hhash : n.nodeHash hashData = n'.nodeHash hashData) :
    n.serialize hashData = n'.serialize hashData := by
  have hsource : n.source hashData = n'.source hashData := by
    rw [nodeHash_eq hn.ne_nil, nodeHash_eq hn'.ne_nil] at hhash
    exact h.noCollision (Or.inl ⟨written, hmap, root, hroot, hashed_of_has hn⟩)
      (Or.inl ⟨written', hmap', root', hroot', hashed_of_has hn'⟩) hhash
  obtain ⟨hcanon, hin⟩ := hn.regular hroot.canonical hroot.inline
  obtain ⟨hcanon', hin'⟩ := hn'.regular hroot'.canonical hroot'.inline
  cases hleaf : n.isLeafNode with
  | true =>
    have hleaf' := isLeafNode_of_source hcanon' hin hn'.ne_nil hsource hleaf
    obtain ⟨k, v, hv, rfl⟩ := hroot.exists_value hn hleaf
    obtain ⟨k', v', hv', rfl⟩ := hroot'.exists_value hn' hleaf'
    have hmem := h.value written hmap k v hv
    have hmem' := h.value written' hmap' k' v' hv'
    rw [source_newLeaf, source_newLeaf] at hsource
    rcases eq_or_isHashOf (fun hlong hlong' => h.large_inj hmem hmem' hlong hlong') hsource with
      rfl | hof | hof
    · rfl
    · exact absurd hof (h.notHash v hmem v' hmem')
    · exact absurd hof (h.notHash v' hmem' v hmem)
  | false =>
    have hleaf' : n'.isLeafNode = false := by
      by_contra hno
      have hback := isLeafNode_of_source hcanon hin' hn.ne_nil hsource.symm
        (Bool.eq_true_of_not_eq_false hno)
      rw [hleaf] at hback
      cases hback
    exact serialize_eq_of_source hleaf hleaf' hn.ne_nil hn'.ne_nil hsource

theorem value_ne_node (hmap : written ∈ maps) (hroot : Spells hashData root written)
    (hn : root.Has n) (hv : v ∈ values) (hlong : 32 < v.length) :
    hashData v ≠ n.nodeHash hashData := by
  rw [nodeHash_eq hn.ne_nil]
  intro hsame
  have hsource : v = n.source hashData := h.noCollision (Or.inr ⟨hv, hlong⟩)
    (Or.inl ⟨written, hmap, root, hroot, hashed_of_has hn⟩) hsame
  refine h.notSource written hmap root hroot v hv hlong ?_
  rw [hsource]
  exact hashed_of_has hn

theorem apart (msgp : Msgp) : TrieNode.Apart hashData msgp (catalogue hashData maps values) := by
  rintro _ (⟨written, hmap, root, hroot, n, hn, rfl⟩ | ⟨v, hv, hlong, rfl⟩)
    _ (⟨written', hmap', root', hroot', n', hn', rfl⟩ | ⟨v', hv', hlong', rfl⟩) hsame
  · exact congrArg Sum.inl (h.serialize_eq hmap hmap' hroot hroot' hn hn' hsame)
  · exact absurd hsame.symm (h.value_ne_node hmap hroot hn hv' hlong')
  · exact absurd hsame (h.value_ne_node hmap' hroot' hn' hv hlong)
  · exact congrArg Sum.inr (h.large_inj hv hv' hlong hlong' hsame)

omit h in
theorem exists_has (hn : Item.node n ∈ catalogue hashData maps values) :
    ∃ written ∈ maps, ∃ root, Spells hashData root written ∧ root.Has n := by
  rcases hn with ⟨written, hmap, root, hroot, n', hn, heq⟩ | ⟨v, _, _, hv⟩
  · obtain rfl := Item.node.inj heq
    exact ⟨written, hmap, root, hroot, hn⟩
  · cases hv

theorem catalogue (msgp : Msgp) : Catalogue hashData msgp (catalogue hashData maps values) where
  apart := h.apart msgp
  canonical := fun n hn => by
    obtain ⟨written, _, root, hroot, hhas⟩ := exists_has hn
    exact (hhas.regular hroot.canonical hroot.inline).1
  ne_nil := fun n hn => by
    obtain ⟨written, _, root, hroot, hhas⟩ := exists_has hn
    exact hhas.ne_nil
  below := fun n hn x hx => by
    obtain ⟨written, hmap, root, hroot, hhas⟩ := exists_has hn
    exact Or.inl ⟨written, hmap, root, hroot, items_subset hhas hx⟩

end Distinct

/-! ## Saved maps -/

structure Saved (hashData : Bytes → Hash) (msgp : Msgp) (store : Table Hash Bytes)
    (written : Bytes → Option Bytes) : Prop where
  nodes : ∀ root, Spells hashData root written → Stored hashData msgp store root
  large : ∀ k v, written k = some v → 32 < v.length → store.get (hashData v) = some v

structure Opened (hashData : Bytes → Hash) (values : Set Bytes) (store : Table Hash Bytes)
    (trie : Trie) (written : Bytes → Option Bytes) : Prop where
  spells : Spells hashData trie.root written
  value : ∀ k v, written k = some v → v ∈ values
  refs : ∀ a v, trie.unSavedRefValueMap.get a = some v →
    a = hashData v ∧ v ∈ values ∧ 32 < v.length
  large : ∀ k v, written k = some v → 32 < v.length →
    trie.unSavedRefValueMap.get (hashData v) = some v ∨ store.get (hashData v) = some v

theorem Saved.mono (h : Saved hashData msgp store written)
    (hdistinct : Distinct hashData maps values) (hmap : written ∈ maps)
    (hkeep : Extends hashData msgp (catalogue hashData maps values) store store') :
    Saved hashData msgp store' written where
  nodes := fun root hroot => hkeep _ (fun _ hx => Or.inl ⟨written, hmap, root, hroot, hx⟩)
    (h.nodes root hroot)
  large := fun k v hv hlong => by
    have hmem := hdistinct.value written hmap k v hv
    refine hkeep {.value v} ?_ ?_ _ rfl
    · rintro _ rfl
      exact Or.inr ⟨v, hmem, hlong, rfl⟩
    · rintro _ rfl
      exact h.large k v hv hlong

theorem get_unSaved_setValue (trie : Trie) (key val : Bytes) (a : Hash) :
    (trie.setValue hashData key val).unSavedRefValueMap.get a =
      if 32 < val.length ∧ a = hashData val then some val
      else (deleteUnSavedRefValueMap (trie.root.setValue key (newLeaf hashData val)).2
        trie.unSavedRefValueMap).get a := by
  change (if 32 < val.length then _ else _ : Table Hash Bytes).get a = _
  by_cases hval : 32 < val.length
  · rw [if_pos hval, Table.get_put]
    simp only [hval, true_and]
  · rw [if_neg hval, if_neg fun h => hval h.1]

theorem get_of_get_delete {old : TrieNode} {refs : Table Hash Bytes} {a : Hash}
    (h : (deleteUnSavedRefValueMap old refs).get a = some v) : refs.get a = some v := by
  cases old with
  | hash b =>
    rw [deleteUnSavedRefValueMap, Table.get_delete] at h
    split_ifs at h
    exact h
  | nil | full _ _ | short _ _ | value _ => exact h

namespace Opened

variable (h : Opened hashData values store trie written)
  (hdistinct : Distinct hashData maps values) (hmap : written ∈ maps)

include h

theorem withDb (db : Hash → Option Bytes) : Opened hashData values store { trie with db } written :=
  ⟨h.spells, h.value, h.refs, h.large⟩

theorem mono (hkeep : Extends hashData msgp (catalogue hashData maps values) store store') :
    Opened hashData values store' trie written where
  spells := h.spells
  value := h.value
  refs := h.refs
  large := fun k v hv hlong => by
    refine (h.large k v hv hlong).imp_right fun hget => ?_
    refine hkeep {.value v} ?_ ?_ _ rfl
    · rintro _ rfl
      exact Or.inr ⟨v, h.value k v hv, hlong, rfl⟩
    · rintro _ rfl
      exact hget

include hdistinct

theorem getValue_eq (hdb : trie.db = store.get) (k : Bytes) : trie.getValue k = written k := by
  unfold getValue
  rw [h.spells.leaf k]
  cases hw : written k with
  | none => rfl
  | some v =>
    by_cases hlong : 32 < v.length
    · rw [elim_some, newLeaf, if_pos hlong, leafNodeValue, getRefValue, hdb]
      rcases h.large k v hw hlong with hget | hget
      · rw [hget, some_or]
      · cases href : trie.unSavedRefValueMap.get (hashData v) with
        | none => rw [none_or, hget]
        | some v' =>
          obtain ⟨hsame, hv', hlong'⟩ := h.refs _ v' href
          rw [some_or, hdistinct.large_inj (h.value k v hw) hv' hlong hlong' hsame]
    · rw [elim_some, newLeaf, if_neg hlong, leafNodeValue]

theorem ref_kept (hkept : ∀ old, written key = some old → 32 < old.length → old ≠ val →
      (∀ k, k ≠ key → written k ≠ some old) ∨ store.get (hashData old) = some old)
    {old : TrieNode} (hold : old = .nil ∨ old = trie.root.getLeafNode key) {k : Bytes}
    (hk : k ≠ key) (hv : written k = some v) (hlong : 32 < v.length) :
    (deleteUnSavedRefValueMap old trie.unSavedRefValueMap).get (hashData v) = some v ∨
      v = val ∨ store.get (hashData v) = some v := by
  rcases h.large k v hv hlong with hget | hget
  · rcases hold with rfl | rfl
    · exact Or.inl hget
    rw [h.spells.leaf key]
    cases hkey : written key with
    | none => exact Or.inl hget
    | some o =>
      dsimp only [Option.elim, newLeaf]
      split_ifs with ho
      · by_cases hsame : hashData v = hashData o
        · obtain rfl := hdistinct.large_inj (h.value k v hv) (h.value key o hkey) hlong ho hsame
          by_cases hval : v = val
          · exact Or.inr (Or.inl hval)
          · refine Or.inr (Or.inr ((hkept v hkey ho hval).resolve_left fun hno => ?_))
            exact hno k hk hv
        · rw [deleteUnSavedRefValueMap, Table.get_delete_of_ne _ hsame]
          exact Or.inl hget
      · exact Or.inl hget
  · exact Or.inr (Or.inr hget)

theorem setValue (hval : val ∈ values)
    (hkept : ∀ old, written key = some old → 32 < old.length → old ≠ val →
      (∀ k, k ≠ key → written k ≠ some old) ∨ store.get (hashData old) = some old) :
    Opened hashData values store (trie.setValue hashData key val)
      (update written key (some val)) where
  spells := h.spells.setValue key val
  value := fun k v hv => by
    by_cases hk : k = key
    · rw [hk, update_self] at hv
      exact Option.some.inj hv ▸ hval
    · rw [update_of_ne hk] at hv
      exact h.value k v hv
  refs := fun a v hv => by
    rw [get_unSaved_setValue] at hv
    split_ifs at hv with ha
    · cases hv
      exact ⟨ha.2, hval, ha.1⟩
    · exact h.refs a v (get_of_get_delete hv)
  large := fun k v hv hlong => by
    rw [get_unSaved_setValue]
    by_cases hk : k = key
    · rw [hk, update_self] at hv
      cases hv
      exact Or.inl (if_pos ⟨hlong, rfl⟩)
    · rw [update_of_ne hk] at hv
      have hset := @TrieNode.setValue_sets trie.root (newLeaf hashData val) key
        (newLeaf_isLeafNode val) h.spells.canonical.wellFormed
      rcases h.ref_kept hdistinct hkept hset.old hk hv hlong with hget | rfl | hget
      · rw [hget]
        split_ifs with hsame
        · rw [hdistinct.large_inj (h.value k v hv) hval hlong hsame.1 hsame.2]
          exact Or.inl rfl
        · exact Or.inl rfl
      · exact Or.inl (if_pos ⟨hlong, rfl⟩)
      · exact Or.inr hget

omit hdistinct

/-! ## Saving and opening -/

include hmap in
theorem items_subset : items trie.root ⊆ catalogue hashData maps values :=
  fun _ hx => Or.inl ⟨written, hmap, trie.root, h.spells, hx⟩

theorem only_refs :
    (filing hashData msgp).Only trie.unSavedRefValueMap
      {x ∈ catalogue hashData maps values | ∃ v, x = .value v} := by
  intro a v hv
  obtain ⟨rfl, hmem, hlong⟩ := h.refs a v hv
  exact ⟨.value v, ⟨Or.inr ⟨v, hmem, hlong, rfl⟩, v, rfl⟩, rfl, rfl⟩

include hmap in
theorem only_saveBatch :
    (filing hashData msgp).Only (trie.saveBatch hashData msgp) (catalogue hashData maps values) :=
  Sound.only_batch (h.items_subset hmap) (h.only_refs.mono (Set.sep_subset _ _))

variable {old : Table Hash Bytes}

include hdistinct hmap

theorem sound_save (hdb : trie.db = old.get)
    (hold : Sound hashData msgp (catalogue hashData maps values) old)
    (hext : Extends hashData msgp (catalogue hashData maps values) old store)
    (hsound : Sound hashData msgp (catalogue hashData maps values) store) :
    Sound hashData msgp (catalogue hashData maps values) (trie.save hashData msgp store) := by
  unfold save saveBatch
  rw [hdb]
  exact hold.save hsound (hdistinct.catalogue msgp) hext (h.items_subset hmap) h.only_refs

theorem holds_save :
    Extends hashData msgp (catalogue hashData maps values) store (trie.save hashData msgp store) :=
  fun _ hxs hholds => hholds.putAll (hdistinct.apart msgp).compatible (h.only_saveBatch hmap) hxs

theorem saved_save (hdb : trie.db = old.get)
    (hold : Sound hashData msgp (catalogue hashData maps values) old)
    (hext : Extends hashData msgp (catalogue hashData maps values) old store) :
    Saved hashData msgp (trie.save hashData msgp store) written where
  nodes := fun root hroot => by
    rw [hroot.unique h.spells]
    unfold save saveBatch
    rw [hdb]
    exact hold.stored (hdistinct.catalogue msgp) hext (h.items_subset hmap)
      (h.only_refs.mono (Set.sep_subset _ _))
  large := fun k v hv hlong => by
    have hmem : Item.value v ∈ catalogue hashData maps values :=
      Or.inr ⟨v, h.value k v hv, hlong, rfl⟩
    have hheld : (filing hashData msgp).Holds (trie.save hashData msgp store) {.value v} := by
      refine Filing.holds_putAll (hdistinct.apart msgp).compatible
        (h.only_saveBatch hmap) (Set.singleton_subset_iff.mpr hmem) ?_
      rintro _ rfl
      refine (h.large k v hv hlong).imp_left fun hget => ?_
      rw [saveBatch, Table.get_putAll, isSome_or]
      exact Bool.or_eq_true_iff.mpr (Or.inl (isSome_iff_exists.mpr ⟨v, hget⟩))
    exact hheld _ rfl

end Opened

variable (h : Saved hashData msgp store written) (hroot : Spells hashData root written)

include h hroot

theorem Saved.root_newTrie {fuel : ℕ} (hfuel : ∀ k v, written k = some v → k.length < fuel) :
    (newTrie msgp fuel store (({ root } : Trie).rootHash hashData)).root = root := by
  unfold newTrie rootHash
  by_cases hnil : root = .nil
  · rw [hnil]
    rfl
  · rw [isNil_eq_false.mpr hnil, if_neg Bool.false_ne_true, elim_some]
    refine (h.nodes root hroot).traverseLoad_eq hroot.canonical hnil fun k hk => ?_
    rw [hroot.leaf k] at hk
    cases hw : written k with
    | none =>
      rw [hw] at hk
      exact absurd rfl hk
    | some v => exact hfuel k v hw

theorem Saved.newTrie {fuel : ℕ} (hvalue : ∀ k v, written k = some v → v ∈ values)
    (hfuel : ∀ k v, written k = some v → k.length < fuel) :
    Opened hashData values store
      (Trie.newTrie msgp fuel store (({ root } : Trie).rootHash hashData)) written where
  spells := (h.root_newTrie hroot hfuel).symm ▸ hroot
  value := hvalue
  refs := nofun
  large := fun k v hv hlong => Or.inr (h.large k v hv hlong)

end Trie
end GoQlc
