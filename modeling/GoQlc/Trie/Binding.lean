import GoQlc.Trie.Canonical

/-!
# What the state root commits to

The hash of a leaf does not say whether the bytes in it are a value or the hash of a large one.
-/

namespace GoQlc

open List TrieNode

namespace TrieNode

variable (hashData : Bytes → Hash)

def erase : TrieNode → TrieNode
  | nil => nil
  | full children child => full (fun c => (children c).erase) child.erase
  | short key child => short key child.erase
  | value v => value v
  | hash v => value (hashBytes v)

def Hashed : TrieNode → Bytes → Prop
  | nil, _ => False
  | full children child, s =>
    s = source hashData (full children child) ∨ child.Hashed s ∨ ∃ c, (children c).Hashed s
  | short key child, s => s = source hashData (short key child) ∨ child.Hashed s
  | value v, s => s = source hashData (value v)
  | hash v, s => s = source hashData (hash v)

def Inline (node : TrieNode) : Prop := ∀ k v, node.getLeafNode k = value v → v.length ≤ 32

variable {hashData} {node other child : TrieNode} {children children' : UInt8 → TrieNode}
  {key : Bytes}

/-! ## Reading a hash as a value -/

@[simp] theorem isNil_erase (node : TrieNode) : node.erase.isNil = node.isNil := by
  cases node <;> rfl

theorem nodeHash_erase (node : TrieNode) :
    node.erase.nodeHash hashData = node.nodeHash hashData := by
  induction node with
  | full children child ih ihchild => simp only [erase, nodeHash, isNil_erase, ih, ihchild]
  | short key child ih => simp only [erase, nodeHash, ih]
  | nil | value _ | hash _ => rfl

theorem erase_eq_nil : node.erase = nil ↔ node = nil := by
  rw [← isNil_iff, isNil_erase, isNil_iff]

theorem getLeafNode_erase (node : TrieNode) (k : Bytes) :
    node.erase.getLeafNode k = (node.getLeafNode k).erase := by
  induction node generalizing k with
  | nil => rfl
  | full children child ih _ =>
    cases k with
    | nil => rfl
    | cons c k => exact ih c k
  | short key child ih =>
    simp only [erase, getLeafNode]
    split_ifs
    · rfl
    · exact ih _
    · rfl
  | value v => cases k <;> rfl
  | hash v => cases k <;> rfl

theorem isLeafNode_erase (node : TrieNode) : node.erase.isLeafNode = node.isLeafNode := by
  cases node <;> rfl

theorem endsRun_erase (node : TrieNode) : node.erase.endsRun = node.endsRun := by
  cases node <;> rfl

theorem Canonical.erase (h : node.Canonical) : node.erase.Canonical := by
  induction node with
  | full children child ih _ =>
    refine ⟨fun c => ih c (h.1 c), ?_, ?_⟩
    · rw [erase_eq_nil, isLeafNode_erase]
      exact h.2.1
    · obtain ⟨i, j, hij, hi, hj⟩ := h.2.2
      have hslot : ∀ i, TrieNode.slot (fun c => (children c).erase) child.erase i =
          (TrieNode.slot children child i).erase := fun i => by cases i <;> rfl
      refine ⟨i, j, hij, ?_, ?_⟩
      · rwa [hslot, Ne, erase_eq_nil]
      · rwa [hslot, Ne, erase_eq_nil]
  | short key child ih =>
    refine ⟨h.1, ih h.2.1, ?_⟩
    rw [endsRun_erase]
    exact h.2.2
  | nil | value _ | hash _ => trivial

/-! ## The source of a full node -/

theorem childSource_length (c : UInt8) :
    (childSource hashData children c).length = if (children c).isNil then 0 else 33 := by
  unfold childSource
  split_ifs
  · rfl
  · rw [length_cons, hashBytes_length]

theorem dvd_length_flatMap (cs : List UInt8) :
    33 ∣ (cs.flatMap (childSource hashData children)).length := by
  induction cs with
  | nil => exact dvd_zero 33
  | cons c cs ih =>
    rw [flatMap_cons, length_append, childSource_length]
    split_ifs <;> omega

theorem head_flatMap {cs : List UInt8} {b : UInt8} {rest : Bytes}
    (h : cs.flatMap (childSource hashData children) = b :: rest) : b ∈ cs := by
  induction cs with
  | nil => cases h
  | cons c cs ih =>
    rw [flatMap_cons, childSource] at h
    split_ifs at h
    · exact mem_cons_of_mem c (ih h)
    · obtain ⟨rfl, -⟩ := List.cons.inj h
      exact mem_cons_self

theorem childSource_eq_of_flatMap {cs : List UInt8} (hnodup : cs.Nodup)
    (h : cs.flatMap (childSource hashData children) = cs.flatMap (childSource hashData children')) :
    ∀ c ∈ cs, childSource hashData children c = childSource hashData children' c := by
  induction cs with
  | nil => simp
  | cons c cs ih =>
    obtain ⟨hc, hnodup⟩ := nodup_cons.mp hnodup
    simp only [flatMap_cons] at h
    have hsame : (children c).isNil = (children' c).isNil := by
      -- a missing entry would let the byte stand at the head of the entries after it
      by_contra hdiff
      cases hnil : (children c).isNil with
      | true =>
        rw [hnil] at hdiff
        rw [childSource, hnil, if_pos rfl, childSource, if_neg (Ne.symm hdiff)] at h
        exact hc (head_flatMap h)
      | false =>
        rw [hnil] at hdiff
        have hnil' : (children' c).isNil = true := by
          cases hb : (children' c).isNil with
          | true => rfl
          | false => exact absurd hb.symm hdiff
        rw [childSource, hnil, if_neg Bool.false_ne_true, childSource, if_pos hnil'] at h
        exact hc (head_flatMap h.symm)
    have hlen : (childSource hashData children c).length =
        (childSource hashData children' c).length := by
      rw [childSource_length, childSource_length, hsame]
    obtain ⟨hhead, htail⟩ := append_inj h hlen
    intro d hd
    rcases mem_cons.mp hd with rfl | hd
    · exact hhead
    · exact ih hnodup htail d hd

theorem slots_of_source {child' : TrieNode}
    (h : source hashData (full children child) = source hashData (full children' child')) :
    ∀ i, (slot children child i).isNil = (slot children' child' i).isNil ∧
      ((slot children child i).isNil = false →
        (slot children child i).nodeHash hashData = (slot children' child' i).nodeHash hashData) := by
  have h := tail_eq_of_cons_eq h
  have hlen := congrArg List.length h
  have hdvd := @dvd_length_flatMap hashData children allBytes
  have hdvd' := @dvd_length_flatMap hashData children' allBytes
  simp only [length_append] at hlen
  have hnil : child.isNil = child'.isNil := by
    cases hc : child.isNil <;> cases hc' : child'.isNil
    · rfl
    · simp only [hc, hc', Bool.false_eq_true, if_false, if_true, hashBytes_length,
        length_nil] at hlen
      omega
    · simp only [hc, hc', Bool.false_eq_true, if_false, if_true, hashBytes_length,
        length_nil] at hlen
      omega
    · rfl
  have hfirst : (if child.isNil then [] else hashBytes (child.nodeHash hashData)).length =
      (if child'.isNil then [] else hashBytes (child'.nodeHash hashData)).length := by
    rw [hnil]
    split_ifs
    · rfl
    · rw [hashBytes_length, hashBytes_length]
  obtain ⟨hchild, hchildren⟩ := append_inj h hfirst
  intro i
  cases i with
  | none =>
    refine ⟨hnil, fun hno => hashBytes_injective ?_⟩
    dsimp only [slot] at hno ⊢
    rwa [if_neg (by rw [hno]; decide), if_neg (by rw [← hnil, hno]; decide)] at hchild
  | some c =>
    have hc := childSource_eq_of_flatMap nodup_allBytes hchildren c (mem_allBytes c)
    have hsame : (children c).isNil = (children' c).isNil := by
      have hlen := congrArg List.length hc
      rw [childSource_length, childSource_length] at hlen
      cases hb : (children c).isNil <;> cases hb' : (children' c).isNil <;>
        simp [hb, hb'] at hlen ⊢
    refine ⟨hsame, fun hno => hashBytes_injective ?_⟩
    dsimp only [slot] at hno ⊢
    rw [childSource, if_neg (by rw [hno]; decide), childSource,
      if_neg (by rw [← hsame, hno]; decide)] at hc
    exact tail_eq_of_cons_eq hc

/-! ## The hash determines the node -/

theorem hashed_source (h : node ≠ nil) : node.Hashed hashData (node.source hashData) := by
  cases node with
  | nil => exact absurd rfl h
  | full children child => exact Or.inl rfl
  | short key child => exact Or.inl rfl
  | value v => rfl
  | hash v => rfl

theorem source_eq_of_nodeHash (hne : node ≠ nil) (hne' : other ≠ nil)
    (hinj : Set.InjOn hashData {s | node.Hashed hashData s ∨ other.Hashed hashData s})
    (h : node.nodeHash hashData = other.nodeHash hashData) :
    node.source hashData = other.source hashData := by
  rw [nodeHash_eq hne, nodeHash_eq hne'] at h
  exact hinj (Or.inl (hashed_source hne)) (Or.inr (hashed_source hne')) h

theorem Hashed.slot {i : Option UInt8} {s : Bytes}
    (h : (TrieNode.slot children child i).Hashed hashData s) :
    (full children child).Hashed hashData s := by
  cases i with
  | none => exact Or.inr (Or.inl h)
  | some c => exact Or.inr (Or.inr ⟨c, h⟩)

theorem Inline.slot (h : (full children child).Inline)
    (hchild : child = nil ∨ child.isLeafNode = true) (i : Option UInt8) :
    (TrieNode.slot children child i).Inline := by
  intro k v hk
  cases i with
  | none =>
    rcases hchild with rfl | hleaf
    · cases hk
    · refine h [] v ?_
      dsimp only [TrieNode.slot] at hk
      rw [getLeafNode_leaf hleaf] at hk
      by_cases hk0 : k = []
      · rwa [if_pos hk0] at hk
      · rw [if_neg hk0] at hk
        cases hk
  | some c => exact h (c :: k) v hk

theorem Inline.run (h : (short key child).Inline) (hkey : key ≠ []) : child.Inline := by
  intro k v hk
  refine h (key ++ k) v ?_
  rwa [getLeafNode_short_append hkey]

theorem source_length_of_leaf (hleaf : node.isLeafNode = true) (hin : node.Inline) :
    (node.source hashData).length ≤ 32 := by
  cases node with
  | value v => exact hin [] v rfl
  | hash v => exact (hashBytes_length v).le
  | nil | full _ _ | short _ _ => cases hleaf

theorem erase_of_leaf (hleaf : node.isLeafNode = true) :
    node.erase = value (node.source hashData) := by
  cases node with
  | value v => rfl
  | hash v => rfl
  | nil | full _ _ | short _ _ => cases hleaf

theorem length_flatMap_pos {cs : List UInt8} {c : UInt8} (hc : c ∈ cs) (hne : children c ≠ nil) :
    33 ≤ (cs.flatMap (childSource hashData children)).length := by
  have hlen := @childSource_length hashData children c
  rw [isNil_eq_false.mpr hne, if_neg Bool.false_ne_true] at hlen
  rw [← hlen, flatMap_def]
  exact (sublist_flatten_of_mem (mem_map_of_mem hc)).length_le

theorem source_length_of_inner (hnode : node.Canonical) (hne : node ≠ nil)
    (hleaf : node.isLeafNode = false) : 32 < (node.source hashData).length := by
  cases node with
  | nil => exact absurd rfl hne
  | full children child =>
    obtain ⟨j, hj, hother⟩ := hnode.2.2.exists_ne none
    cases j with
    | none => exact absurd rfl hj
    | some c =>
      have hpos := @length_flatMap_pos hashData children allBytes c (mem_allBytes c) hother
      simp only [source, length_cons, length_append]
      omega
  | short key child =>
    simp only [source, length_cons, length_append, hashBytes_length]
    omega
  | value v => cases hleaf
  | hash v => cases hleaf

section
variable (hother : other.Canonical) (hin : node.Inline) (hne' : other ≠ nil)
  (h : node.source hashData = other.source hashData) (hleaf : node.isLeafNode = true)

include hother hin hne' h hleaf

theorem isLeafNode_of_source : other.isLeafNode = true := by
  by_contra hno
  have hlong := @source_length_of_inner hashData other hother hne' (Bool.eq_false_iff.mpr hno)
  have hshort := @source_length_of_leaf hashData node hleaf hin
  rw [h] at hshort
  omega

theorem erase_eq_of_source : node.erase = other.erase := by
  have hleaf' := isLeafNode_of_source hother hin hne' h hleaf
  rw [erase_of_leaf hleaf, erase_of_leaf hleaf', h]

end

theorem erase_eq_of_nodeHash (hnode : node.Canonical) (hother : other.Canonical)
    (hin : node.Inline) (hin' : other.Inline) (hne : node ≠ nil) (hne' : other ≠ nil)
    (hinj : Set.InjOn hashData {s | node.Hashed hashData s ∨ other.Hashed hashData s})
    (h : node.nodeHash hashData = other.nodeHash hashData) : node.erase = other.erase := by
  have hsource := source_eq_of_nodeHash hne hne' hinj h
  clear h
  induction node generalizing other with
  | nil => exact absurd rfl hne
  | value v | hash v => exact erase_eq_of_source hother hin hne' hsource rfl
  | full children child ih ihchild =>
    cases other with
    | nil => exact absurd rfl hne'
    | value v | hash v => exact (erase_eq_of_source hnode hin' hne hsource.symm rfl).symm
    | short key' child' => exact absurd (head_eq_of_cons_eq hsource) (by decide)
    | full children' child' =>
      have hslot : ∀ i, (TrieNode.slot children child i).erase =
          (TrieNode.slot children' child' i).erase := by
        intro i
        obtain ⟨hnil, hhash⟩ := slots_of_source hsource i
        cases hb : (TrieNode.slot children child i).isNil with
        | true =>
          rw [hb] at hnil
          rw [isNil_iff.mp hb, isNil_iff.mp hnil.symm]
        | false =>
          have hne := isNil_eq_false.mp hb
          have hne' := isNil_eq_false.mp (hnil.symm.trans hb)
          have hsub : Set.InjOn hashData {s | (TrieNode.slot children child i).Hashed hashData s ∨
              (TrieNode.slot children' child' i).Hashed hashData s} :=
            hinj.mono fun s hs => hs.imp Hashed.slot Hashed.slot
          have hsource := source_eq_of_nodeHash hne hne' hsub (hhash hb)
          have hcanon := hnode.slot i
          have hin := hin.slot hnode.2.1 i
          have hin' := hin'.slot hother.2.1 i
          cases i with
          | none => exact ihchild hcanon (hother.slot none) hin hin' hne hne' hsub hsource
          | some c => exact ih c hcanon (hother.slot (some c)) hin hin' hne hne' hsub hsource
      have hchildren : (fun c => (children c).erase) = fun c => (children' c).erase := by
        funext c
        exact hslot (some c)
      have hchild : child.erase = child'.erase := hslot none
      simp only [erase, hchildren, hchild]
  | short key child ih =>
    cases other with
    | nil => exact absurd rfl hne'
    | value v | hash v => exact (erase_eq_of_source hnode hin' hne hsource.symm rfl).symm
    | full children' child' => exact absurd (head_eq_of_cons_eq hsource) (by decide)
    | short key' child' =>
      have hlen : (hashBytes (child.nodeHash hashData)).length =
          (hashBytes (child'.nodeHash hashData)).length := by
        rw [hashBytes_length, hashBytes_length]
      obtain ⟨hkey, hhash⟩ := append_inj' (tail_eq_of_cons_eq hsource) hlen
      have hsub : Set.InjOn hashData {s | child.Hashed hashData s ∨ child'.Hashed hashData s} :=
        hinj.mono fun s hs => hs.imp Or.inr Or.inr
      have hne := ne_nil_of_endsRun hnode.2.2
      have hne' := ne_nil_of_endsRun hother.2.2
      have hchild := ih hnode.2.1 hother.2.1 (hin.run hnode.1) (hin'.run hother.1) hne hne' hsub
        (source_eq_of_nodeHash hne hne' hsub (hashBytes_injective hhash))
      rw [erase, erase, hkey, hchild]

end TrieNode

namespace Trie

variable (hashData : Bytes → Hash)

def leafBytes (v : Bytes) : Bytes := if 32 < v.length then hashBytes (hashData v) else v

def IsHashOf (v v' : Bytes) : Prop := 32 < v.length ∧ v' = hashBytes (hashData v)

def Confused (written written' : Bytes → Option Bytes) : Prop :=
  written ≠ written' ∧ ∀ k, written k = written' k ∨
    ∃ v v', written k = some v ∧ written' k = some v' ∧
      (IsHashOf hashData v v' ∨ IsHashOf hashData v' v)

/-- The byte strings that are hashed for the trie: the sources of its nodes and its large values. -/
def strings (calls : List (Bytes × Bytes)) : Set Bytes :=
  {s | (setValues hashData {} calls).root.Hashed hashData s ∨
    ∃ k, writes (fun _ => none) calls k = some s ∧ 32 < s.length}

variable {hashData} {v v' : Bytes} {root root' : TrieNode} {written written' : Bytes → Option Bytes}

theorem erase_newLeaf (v : Bytes) :
    (newLeaf hashData v).erase = .value (leafBytes hashData v) := by
  unfold newLeaf leafBytes
  split_ifs <;> rfl

theorem IsHashOf.leafBytes_eq (h : IsHashOf hashData v v') :
    leafBytes hashData v = leafBytes hashData v' := by
  obtain ⟨hlong, rfl⟩ := h
  have hshort : ¬ 32 < (hashBytes (hashData v)).length := by rw [hashBytes_length]; omega
  rw [leafBytes, if_pos hlong, leafBytes, if_neg hshort]

theorem eq_or_isHashOf (hinj : 32 < v.length → 32 < v'.length → hashData v = hashData v' → v = v')
    (h : leafBytes hashData v = leafBytes hashData v') :
    v = v' ∨ IsHashOf hashData v v' ∨ IsHashOf hashData v' v := by
  unfold leafBytes at h
  split_ifs at h with hv hv' hv'
  · exact Or.inl (hinj hv hv' (hashBytes_injective h))
  · exact Or.inr (Or.inl ⟨hv, h.symm⟩)
  · exact Or.inr (Or.inr ⟨hv', h⟩)
  · exact Or.inl h

namespace Spells

theorem inline (h : Spells hashData root written) : root.Inline := by
  intro k v hk
  rw [h.leaf k] at hk
  cases hw : written k with
  | none =>
    rw [hw] at hk
    cases hk
  | some w =>
    rw [hw] at hk
    dsimp only [Option.elim, newLeaf] at hk
    split_ifs at hk with hlong
    cases hk
    exact Nat.le_of_not_lt hlong

theorem erase_leaf (h : Spells hashData root written) (k : Bytes) :
    root.erase.getLeafNode k = (written k).elim .nil fun v => .value (leafBytes hashData v) := by
  rw [getLeafNode_erase, h.leaf k]
  cases written k with
  | none => rfl
  | some v => exact erase_newLeaf v

theorem eq_none_of_nil (h : Spells hashData .nil written) : written = fun _ => none := by
  funext k
  have hk := h.leaf k
  cases hw : written k with
  | none => rfl
  | some v =>
    rw [hw] at hk
    exact absurd hk.symm (ne_nil_of_leaf (newLeaf_isLeafNode v))

variable (h : Spells hashData root written) (h' : Spells hashData root' written')

include h h'

theorem erase_eq_of_leafBytes
    (hsame : ∀ k, (written k).map (leafBytes hashData) = (written' k).map (leafBytes hashData)) :
    root.erase = root'.erase := by
  refine h.canonical.erase.eq_of_getLeafNode h'.canonical.erase fun k => ?_
  have hmap : ∀ o : Option Bytes, (o.elim TrieNode.nil fun v => .value (leafBytes hashData v)) =
      (o.map (leafBytes hashData)).elim .nil .value := fun o => by cases o <;> rfl
  rw [h.erase_leaf k, h'.erase_leaf k, hmap, hmap, hsame k]

theorem eq_or_isHashOf (hinj : Set.InjOn hashData
      {v | ∃ k, (written k = some v ∨ written' k = some v) ∧ 32 < v.length})
    (herase : root.erase = root'.erase) (k : Bytes) :
    written k = written' k ∨ ∃ v v', written k = some v ∧ written' k = some v' ∧
      (IsHashOf hashData v v' ∨ IsHashOf hashData v' v) := by
  have hk := h.erase_leaf k
  rw [herase, h'.erase_leaf k] at hk
  cases hw : written k <;> cases hw' : written' k <;> rw [hw, hw'] at hk
  · exact Or.inl rfl
  · cases hk
  · cases hk
  · rename_i v v'
    have hbytes : leafBytes hashData v = leafBytes hashData v' := (TrieNode.value.inj hk).symm
    refine (Trie.eq_or_isHashOf ?_ hbytes).imp (congrArg some) fun hof => ⟨v, v', rfl, rfl, hof⟩
    intro hv hv' hhash
    exact hinj ⟨k, Or.inl hw, hv⟩ ⟨k, Or.inr hw', hv'⟩ hhash

end Spells

theorem rootHash_eq_iff {trie trie' : Trie} :
    trie.rootHash hashData = trie'.rootHash hashData ↔
      (trie.root = .nil ∧ trie'.root = .nil) ∨ (trie.root ≠ .nil ∧ trie'.root ≠ .nil ∧
        trie.root.nodeHash hashData = trie'.root.nodeHash hashData) := by
  unfold rootHash
  by_cases hnil : trie.root = .nil <;> by_cases hnil' : trie'.root = .nil <;>
    simp [isNil_iff, hnil, hnil']

/-- Without collisions, equal root hashes mean equal maps exactly where the maps are not confused:
no key has a large value in one of the tries and its hash in the other, or the maps differ
elsewhere too. -/
theorem rootHash_binds_iff (hashData : Bytes → Hash) (calls calls' : List (Bytes × Bytes))
    (hinj : Set.InjOn hashData (strings hashData calls ∪ strings hashData calls')) :
    ((setValues hashData {} calls).rootHash hashData =
        (setValues hashData {} calls').rootHash hashData →
      writes (fun _ => none) calls = writes (fun _ => none) calls') ↔
    ¬ Confused hashData (writes (fun _ => none) calls) (writes (fun _ => none) calls') := by
  have hspells := spells_setValues hashData calls
  have hspells' := spells_setValues hashData calls'
  rw [rootHash_eq_iff]
  constructor
  · rintro hbinds ⟨hne, hconfused⟩
    have herase := hspells.erase_eq_of_leafBytes hspells' fun k => by
      rcases hconfused k with heq | ⟨v, v', hv, hv', hof⟩
      · rw [heq]
      · rw [hv, hv', Option.map_some, Option.map_some]
        exact congrArg some (hof.elim IsHashOf.leafBytes_eq fun h => h.leafBytes_eq.symm)
    have hnil := congrArg TrieNode.isNil herase
    have hhash := congrArg (nodeHash hashData) herase
    rw [isNil_erase, isNil_erase] at hnil
    rw [nodeHash_erase, nodeHash_erase] at hhash
    refine hne (hbinds ?_)
    by_cases hroot : (setValues hashData {} calls).root = .nil
    · exact Or.inl ⟨hroot, isNil_iff.mp (hnil ▸ isNil_iff.mpr hroot)⟩
    · refine Or.inr ⟨hroot, fun hroot' => hroot ?_, hhash⟩
      exact isNil_iff.mp (hnil ▸ isNil_iff.mpr hroot')
  · intro hnot hsame
    by_contra hne
    rcases hsame with ⟨hroot, hroot'⟩ | ⟨hroot, hroot', hhash⟩
    · rw [hroot] at hspells
      rw [hroot'] at hspells'
      exact hne (hspells.eq_none_of_nil.trans hspells'.eq_none_of_nil.symm)
    · have herase := erase_eq_of_nodeHash hspells.canonical hspells'.canonical
        hspells.inline hspells'.inline hroot hroot'
        (hinj.mono fun s hs => hs.imp Or.inl Or.inl) hhash
      refine hnot ⟨hne, fun k => hspells.eq_or_isHashOf hspells' (hinj.mono ?_) herase k⟩
      rintro v ⟨k, hk, hlong⟩
      exact hk.imp (fun hk => Or.inr ⟨k, hk, hlong⟩) fun hk => Or.inr ⟨k, hk, hlong⟩

/-! ## A large value and its hash -/

def lengthHash (bs : Bytes) : Hash := BitVec.ofNat 256 bs.length

theorem root_single (key val : Bytes) :
    (setValues hashData {} [(key, val)]).root = TrieNode.attach key (newLeaf hashData val) := by
  change (TrieNode.setValue .nil key (newLeaf hashData val)).1 = _
  rw [TrieNode.setValue]

theorem strings_single {s key val : Bytes} (hkey : key ≠ [])
    (h : s ∈ strings hashData [(key, val)]) :
    s = 2 :: (key ++ hashBytes ((newLeaf hashData val).nodeHash hashData)) ∨
      s = leafBytes hashData val ∨ s = val ∧ 32 < val.length := by
  rcases h with hnode | ⟨k, hk, hlong⟩
  · rw [root_single, attach_of_ne hkey] at hnode
    refine hnode.imp id fun hleaf => Or.inl ?_
    unfold newLeaf at hleaf
    unfold leafBytes
    split_ifs at hleaf ⊢ <;> exact hleaf
  · have hval : s = val := by
      simp only [writes, foldl_cons, foldl_nil, Function.update_apply] at hk
      split_ifs at hk
      exact (Option.some.inj hk).symm
    exact Or.inr (Or.inr ⟨hval, hval ▸ hlong⟩)

theorem rootHash_binds_iff_small :
    ((setValues lengthHash {} [([1], [5])]).rootHash lengthHash =
        (setValues lengthHash {} []).rootHash lengthHash →
      writes (fun _ => none) [([1], [5])] = writes (fun _ => none) []) ↔
    ¬ Confused lengthHash (writes (fun _ => none) [([1], [5])]) (writes (fun _ => none) []) := by
  refine rootHash_binds_iff lengthHash _ _ ?_
  have hmem : ∀ s ∈ strings lengthHash [([1], [5])] ∪ strings lengthHash [],
      s = 2 :: ([1] ++ hashBytes ((newLeaf lengthHash [5]).nodeHash lengthHash)) ∨ s = [5] := by
    rintro s (hs | hs | ⟨k, hk, -⟩)
    · exact (strings_single (by decide) hs).imp id fun h => h.elim id fun h => h.1
    · cases hs
    · cases hk
  intro s hs t ht hst
  rcases hmem s hs with rfl | rfl <;> rcases hmem t ht with rfl | rfl
  · rfl
  · simp [lengthHash] at hst
  · simp [lengthHash] at hst
  · rfl

/-- One key has a large value in one trie and the hash of the value in the other. -/
theorem rootHash_confuses_hash :
    Set.InjOn lengthHash
      (strings lengthHash [([1], List.replicate 33 0)] ∪
        strings lengthHash [([1], hashBytes (lengthHash (List.replicate 33 0)))]) ∧
    (setValues lengthHash {} [([1], List.replicate 33 0)]).rootHash lengthHash =
      (setValues lengthHash {} [([1], hashBytes (lengthHash (List.replicate 33 0)))]).rootHash
        lengthHash ∧
    writes (fun _ => none) [([1], List.replicate 33 0)] ≠
      writes (fun _ => none) [([1], hashBytes (lengthHash (List.replicate 33 0)))] := by
  refine ⟨?_, by decide +kernel, fun h => ?_⟩
  · -- a short node, a leaf and the large value itself: strings of 34, 32 and 33 bytes
    have hlen : ∀ s ∈ strings lengthHash [([1], List.replicate 33 0)] ∪
        strings lengthHash [([1], hashBytes (lengthHash (List.replicate 33 0)))],
        s = 2 :: ([1] ++ hashBytes (lengthHash (hashBytes (lengthHash (List.replicate 33 0))))) ∨
          s = hashBytes (lengthHash (List.replicate 33 0)) ∨ s = List.replicate 33 0 := by
      rintro s (hs | hs)
      · exact (strings_single (by decide) hs).imp id (Or.imp id And.left)
      · refine (strings_single (by decide) hs).imp id fun h => Or.inl (h.elim id And.left)
    intro s hs t ht hst
    rcases hlen s hs with rfl | rfl | rfl <;> rcases hlen t ht with rfl | rfl | rfl <;>
      first | rfl | simp [lengthHash] at hst
  · have hone := congrFun h [1]
    simp only [writes, foldl_cons, foldl_nil, Function.update_self,
      Option.some.injEq] at hone
    exact absurd (congrArg List.length hone) (by decide)

end Trie
end GoQlc
