import GoQlc.Trie.Store

/-!
# A saved trie can be opened again

The nodes and the large values share one key space.
-/

namespace GoQlc

open Filing List Option Table

namespace TrieNode

def Has : TrieNode → TrieNode → Prop
  | nil, _ => False
  | full children child, n => n = full children child ∨ child.Has n ∨ ∃ c, (children c).Has n
  | short key child, n => n = short key child ∨ child.Has n
  | value v, n => n = value v
  | hash v, n => n = hash v

variable {hashData : Bytes → Hash} {msgp : Msgp} {store : Table Hash Bytes}
  {node other child n m : TrieNode} {children : UInt8 → TrieNode} {key : Bytes}

theorem Has.self (h : node ≠ nil) : node.Has node := by
  cases node with
  | nil => exact absurd rfl h
  | full children child => exact Or.inl rfl
  | short key child => exact Or.inl rfl
  | value v => rfl
  | hash v => rfl

theorem Has.ofSlot {i : Option UInt8} (h : (slot children child i).Has n) :
    (full children child).Has n := by
  cases i with
  | none => exact Or.inr (Or.inl h)
  | some c => exact Or.inr (Or.inr ⟨c, h⟩)

theorem has_full : (full children child).Has n ↔
    n = full children child ∨ ∃ i, (slot children child i).Has n := by
  constructor
  · rintro (rfl | h | ⟨c, h⟩)
    · exact Or.inl rfl
    · exact Or.inr ⟨none, h⟩
    · exact Or.inr ⟨some c, h⟩
  · rintro (rfl | ⟨i, h⟩)
    · exact Or.inl rfl
    · exact h.ofSlot

theorem Has.trans (h : node.Has m) (hn : m.Has n) : node.Has n := by
  induction node with
  | nil => cases h
  | full children child ih ihchild =>
    rcases h with rfl | h | ⟨c, h⟩
    · exact hn
    · exact Or.inr (Or.inl (ihchild h))
    · exact Or.inr (Or.inr ⟨c, ih c h⟩)
  | short key child ih =>
    rcases h with rfl | h
    · exact hn
    · exact Or.inr (ih h)
  | value v => exact h ▸ hn
  | hash v => exact h ▸ hn

theorem Has.ne_nil (h : node.Has n) : n ≠ nil := by
  induction node with
  | nil => cases h
  | full children child ih ihchild =>
    rcases h with rfl | h | ⟨c, h⟩
    · nofun
    · exact ihchild h
    · exact ih c h
  | short key child ih =>
    rcases h with rfl | h
    · nofun
    · exact ih h
  | value v | hash v =>
    obtain rfl := h
    nofun

theorem Has.induction {P : TrieNode → Prop} (h : node.Has n) (hnode : P node)
    (hslot : ∀ children child i, P (full children child) → P (slot children child i))
    (hrun : ∀ key child, P (short key child) → P child) : P n := by
  induction node with
  | nil => cases h
  | full children child ih ihchild =>
    rcases h with rfl | h | ⟨c, h⟩
    · exact hnode
    · exact ihchild h (hslot children child none hnode)
    · exact ih c h (hslot children child (some c) hnode)
  | short key child ih =>
    rcases h with rfl | h
    · exact hnode
    · exact ih h (hrun key child hnode)
  | value v | hash v =>
    obtain rfl := h
    exact hnode

theorem Has.regular (h : node.Has n) (hnode : node.Canonical) (hin : node.Inline) :
    n.Canonical ∧ n.Inline := by
  refine h.induction (P := fun n => n.Canonical ∧ n.Inline) ⟨hnode, hin⟩ ?_ ?_
  · rintro children child i ⟨hcanon, hin⟩
    exact ⟨hcanon.slot i, hin.slot hcanon.2.1 i⟩
  · rintro key child ⟨hcanon, hin⟩
    exact ⟨hcanon.2.1, hin.run hcanon.1⟩

theorem Has.exists_key (h : node.Has n) (hnode : node.Canonical) (hleaf : n.isLeafNode = true) :
    ∃ k, node.getLeafNode k = n := by
  induction node with
  | nil => cases h
  | full children child ih _ =>
    rcases h with rfl | h | ⟨c, h⟩
    · cases hleaf
    · refine ⟨[], ?_⟩
      rcases hnode.2.1 with rfl | hchild
      · cases h
      · cases child with
        | value v => exact h.symm
        | hash v => exact h.symm
        | nil | full _ _ | short _ _ => cases hchild
    · obtain ⟨k, hk⟩ := ih c h (hnode.1 c)
      exact ⟨c :: k, hk⟩
  | short key child ih =>
    rcases h with rfl | h
    · cases hleaf
    · obtain ⟨k, hk⟩ := ih h hnode.2.1
      exact ⟨key ++ k, by rw [getLeafNode_short_append hnode.1, hk]⟩
  | value v | hash v => exact ⟨[], h.symm⟩

theorem hashed_of_has (h : node.Has n) : node.Hashed hashData (n.source hashData) := by
  induction node with
  | nil => cases h
  | full children child ih ihchild =>
    rcases h with rfl | h | ⟨c, h⟩
    · exact Or.inl rfl
    · exact Or.inr (Or.inl (ihchild h))
    · exact Or.inr (Or.inr ⟨c, ih c h⟩)
  | short key child ih =>
    rcases h with rfl | h
    · exact Or.inl rfl
    · exact Or.inr (ih h)
  | value v | hash v => exact congrArg (source hashData) h

/-! ## Items of the store -/

inductive Item where
  | node (n : TrieNode)
  | value (v : Bytes)

def filing (hashData : Bytes → Hash) (msgp : Msgp) : Filing Item Hash Bytes where
  address
    | .node n => n.nodeHash hashData
    | .value v => hashData v
  image
    | .node n => msgp.marshalMsg (n.serialize hashData)
    | .value v => v

def items (node : TrieNode) : Set Item := {x | ∃ n, node.Has n ∧ x = .node n}

def Item.record (hashData : Bytes → Hash) : Item → StoredNode ⊕ Bytes
  | .node n => .inl (n.serialize hashData)
  | .value v => .inr v

def Apart (hashData : Bytes → Hash) (msgp : Msgp) (xs : Set Item) : Prop :=
  ∀ x ∈ xs, ∀ y ∈ xs, (filing hashData msgp).address x = (filing hashData msgp).address y →
    x.record hashData = y.record hashData

theorem Apart.compatible {xs : Set Item} (h : Apart hashData msgp xs) :
    (filing hashData msgp).Compatible xs := by
  intro x hx y hy hsame
  have hrecord := h x hx y hy hsame
  cases x with
  | node n =>
    cases y with
    | node m => exact congrArg msgp.marshalMsg (Sum.inl.inj hrecord)
    | value v => cases hrecord
  | value v =>
    cases y with
    | node m => cases hrecord
    | value w => exact Sum.inr.inj hrecord

theorem mem_items (h : node.Has n) : Item.node n ∈ node.items := ⟨n, h, rfl⟩

theorem items_subset (h : node.Has n) : n.items ⊆ node.items := by
  rintro _ ⟨m, hm, rfl⟩
  exact mem_items (h.trans hm)

theorem items_slot (i : Option UInt8) :
    (slot children child i).items ⊆ (full children child).items := by
  rintro _ ⟨m, hm, rfl⟩
  exact mem_items hm.ofSlot

theorem items_run : child.items ⊆ (short key child).items := by
  rintro _ ⟨m, hm, rfl⟩
  exact mem_items (Or.inr hm)

abbrev Stored (hashData : Bytes → Hash) (msgp : Msgp) (store : Table Hash Bytes)
    (node : TrieNode) : Prop :=
  (filing hashData msgp).Holds store node.items

theorem Stored.getNode_eq (h : Stored hashData msgp store node) (hne : node ≠ nil) :
    getNode msgp store.get (node.nodeHash hashData) = node.stub hashData :=
  getNode_of_get hne (h (.node node) (mem_items (Has.self hne)))

/-! ## Loading -/

theorem Stored.traverseLoad_eq {fuel : ℕ} (h : Stored hashData msgp store node)
    (hnode : node.Canonical) (hne : node ≠ nil)
    (hfuel : ∀ k, node.getLeafNode k ≠ nil → k.length < fuel) :
    traverseLoad msgp store.get fuel (node.nodeHash hashData) = node := by
  induction node generalizing fuel with
  | nil => exact absurd rfl hne
  | value v | hash v =>
    cases fuel with
    | zero => exact absurd (hfuel [] nofun) (Nat.not_lt_zero _)
    | succ fuel => rw [traverseLoad, h.getNode_eq hne]; rfl
  | short key child ih =>
    obtain ⟨k, hk⟩ := hnode.exists_key hne
    cases fuel with
    | zero => exact absurd (hfuel k hk) (Nat.not_lt_zero _)
    | succ fuel =>
      have hchild := @ih fuel (h.mono items_run) hnode.2.1 (ne_nil_of_endsRun hnode.2.2)
        fun k hk => by
          rw [← getLeafNode_short_append hnode.1] at hk
          have hlen := hfuel _ hk
          have hpos := length_pos_iff.mpr hnode.1
          rw [length_append] at hlen
          omega
      rw [traverseLoad, h.getNode_eq hne, stub]
      dsimp only
      rw [hchild]
  | full children child ih ihchild =>
    obtain ⟨j, hj, hother⟩ := hnode.2.2.exists_ne none
    cases fuel with
    | zero =>
      obtain ⟨k, hk⟩ := hnode.exists_key hne
      exact absurd (hfuel k hk) (Nat.not_lt_zero _)
    | succ fuel =>
      have hslot : ∀ i, ((slot children child i).ref hashData).elim nil
          (traverseLoad msgp store.get fuel) = slot children child i := by
        intro i
        by_cases hnil : slot children child i = nil
        · rw [hnil]
          rfl
        · rw [ref, isNil_eq_false.mpr hnil, if_neg Bool.false_ne_true, elim_some]
          have hbelow := h.mono (items_slot i)
          have hcanon := hnode.slot i
          cases i with
          | some c =>
            refine @ih c fuel hbelow hcanon hnil fun k hk => ?_
            exact Nat.lt_of_succ_lt_succ (hfuel (c :: k) hk)
          | none =>
            -- the leaf slot takes no byte, but the other slot has a key of one byte or more
            refine @ihchild fuel hbelow hcanon hnil fun k hk => ?_
            have hleaf := hnode.2.1.resolve_left hnil
            have hk0 : k = [] := by
              by_contra hk0
              rw [getLeafNode_leaf hleaf, if_neg hk0] at hk
              exact hk rfl
            obtain ⟨k', hk', hhead⟩ := hnode.exists_key_of_slot hother
            have hlen := hfuel k' hk'
            have hpos : 0 < k'.length := by
              rw [length_pos_iff]
              rintro rfl
              exact hj hhead.symm
            rw [hk0, length_nil]
            omega
      have hchildren : (fun c => ((children c).ref hashData).elim nil
          (traverseLoad msgp store.get fuel)) = children := funext fun c => hslot (some c)
      have hchild := hslot none
      dsimp only [slot] at hchild
      rw [traverseLoad, h.getNode_eq hne, stub]
      dsimp only
      rw [hchildren, hchild]

/-! ## Saving -/

def Covered (hashData : Bytes → Hash) (msgp : Msgp) (db : Hash → Option Bytes)
    (batch : Table Hash Bytes) (n : TrieNode) : Prop :=
  (batch.get (n.nodeHash hashData)).isSome = true ∨
    db (n.nodeHash hashData) = some (msgp.marshalMsg (n.serialize hashData))

variable {db : Hash → Option Bytes} {batch : Table Hash Bytes} {xs : Set Item}

theorem Covered.put (h : Covered hashData msgp db batch n) (a : Hash) (b : Bytes) :
    Covered hashData msgp db (batch.put a b) n := by
  refine h.imp_left fun hsome => ?_
  rw [get_put]
  split_ifs
  · rfl
  · exact hsome

theorem Covered.traverseSave (h : Covered hashData msgp db batch n) :
    Covered hashData msgp db (node.traverseSave hashData msgp db batch) n := by
  induction node generalizing batch with
  | nil => exact h
  | full children child ih ihchild =>
    rw [TrieNode.traverseSave]
    split_ifs
    · exact h
    · dsimp only
      refine List.foldlRecOn (motive := fun batch => Covered hashData msgp db batch n) allBytes _
        (ihchild (h.put _ _)) ?_
      intro batch hbatch c _
      exact ih c hbatch
  | short key child ih =>
    rw [TrieNode.traverseSave]
    split_ifs
    · exact h
    · exact ih (h.put _ _)
  | value v | hash v =>
    rw [TrieNode.traverseSave]
    split_ifs
    · exact h
    · exact h.put _ _

theorem only_put_node (h : (filing hashData msgp).Only batch xs) (hmem : Item.node node ∈ xs) :
    (filing hashData msgp).Only
      (batch.put (node.nodeHash hashData) (msgp.marshalMsg (node.serialize hashData))) xs :=
  h.put hmem

theorem only_traverseSave (h : (filing hashData msgp).Only batch xs) (hsub : node.items ⊆ xs) :
    (filing hashData msgp).Only (node.traverseSave hashData msgp db batch) xs := by
  induction node generalizing batch with
  | nil => exact h
  | full children child ih ihchild =>
    have hroot := hsub (mem_items (Has.self nofun))
    rw [traverseSave]
    split_ifs
    · exact h
    · dsimp only
      refine List.foldlRecOn (motive := fun batch => (filing hashData msgp).Only batch xs)
        allBytes _ (ihchild (only_put_node h hroot) ((items_slot none).trans hsub)) ?_
      intro batch hbatch c _
      exact ih c hbatch ((items_slot (some c)).trans hsub)
  | short key child ih =>
    have hroot := hsub (mem_items (Has.self nofun))
    rw [traverseSave]
    split_ifs
    · exact h
    · exact ih (only_put_node h hroot) (items_run.trans hsub)
  | value v | hash v =>
    have hroot := hsub (mem_items (Has.self nofun))
    rw [traverseSave]
    split_ifs
    · exact h
    · exact only_put_node h hroot

theorem covered_put_self : Covered hashData msgp db
    (batch.put (node.nodeHash hashData) (msgp.marshalMsg (node.serialize hashData))) node := by
  refine Or.inl ?_
  rw [get_put_self]
  rfl

theorem Covered.foldl {cs : List UInt8} (h : Covered hashData msgp db batch n) :
    Covered hashData msgp db
      (cs.foldl (fun batch c => (children c).traverseSave hashData msgp db batch) batch) n := by
  refine List.foldlRecOn (motive := fun batch => Covered hashData msgp db batch n) cs _ h ?_
  intro batch hbatch c _
  exact hbatch.traverseSave

theorem covered_foldl {cs : List UInt8} {c : UInt8} (hc : c ∈ cs)
    (h : ∀ batch, Covered hashData msgp db ((children c).traverseSave hashData msgp db batch) n) :
    Covered hashData msgp db
      (cs.foldl (fun batch c => (children c).traverseSave hashData msgp db batch) batch) n := by
  obtain ⟨before, after, rfl⟩ := append_of_mem hc
  rw [foldl_append, foldl_cons]
  exact (h _).foldl

theorem covered_traverseSave
    (hskip : ∀ m, node.Has m → (getNode msgp db (m.nodeHash hashData)).isSome = true →
      ∀ n, m.Has n → db (n.nodeHash hashData) = some (msgp.marshalMsg (n.serialize hashData)))
    (h : node.Has n) : Covered hashData msgp db (node.traverseSave hashData msgp db batch) n := by
  induction node generalizing batch with
  | nil => cases h
  | full children child ih ihchild =>
    rw [traverseSave]
    split_ifs with hfound
    · exact Or.inr (hskip _ (Has.self nofun) hfound n h)
    · dsimp only
      rcases h with rfl | h | ⟨c, h⟩
      · exact covered_put_self.traverseSave.foldl
      · exact (ihchild (fun m hm => hskip m (Has.ofSlot (i := none) hm)) h).foldl
      · exact covered_foldl (mem_allBytes c) fun batch => ih c
          (fun m hm => hskip m (Has.ofSlot (i := some c) hm)) h
  | short key child ih =>
    rw [traverseSave]
    split_ifs with hfound
    · exact Or.inr (hskip _ (Has.self nofun) hfound n h)
    · rcases h with rfl | h
      · exact covered_put_self.traverseSave
      · exact ih (fun m hm => hskip m (Or.inr hm)) h
  | value v | hash v =>
    rw [traverseSave]
    split_ifs with hfound
    · exact Or.inr (hskip _ (Has.self nofun) hfound n h)
    · rw [show n = _ from h]
      exact covered_put_self

/-! ## A store without half-stored nodes -/

theorem stub_eq_of_serialize (hne : node ≠ nil) (hne' : other ≠ nil)
    (h : node.serialize hashData = other.serialize hashData) :
    node.stub hashData = other.stub hashData := by
  rw [← deserialize_serialize hne, h, deserialize_serialize hne']

theorem ref_eq_some {a : Hash} :
    node.ref hashData = some a ↔ node ≠ nil ∧ node.nodeHash hashData = a := by
  unfold ref
  cases hnil : node.isNil with
  | true => simp [isNil_iff.mp hnil]
  | false => simp [isNil_eq_false.mp hnil]

theorem ref_slot_eq {child' : TrieNode} {children' : UInt8 → TrieNode}
    (h : (full children child).stub hashData = (full children' child').stub hashData)
    (i : Option UInt8) :
    (slot children child i).ref hashData = (slot children' child' i).ref hashData := by
  obtain ⟨hchildren, hchild⟩ := StubNode.full.inj (Option.some.inj h)
  cases i with
  | none => exact hchild
  | some c => exact congrFun hchildren c

/-- The items that may be in a store: with a node also what is below it, and no two at one address
that differ. -/
structure Catalogue (hashData : Bytes → Hash) (msgp : Msgp) (xs : Set Item) : Prop where
  apart : Apart hashData msgp xs
  canonical : ∀ n, Item.node n ∈ xs → n.Canonical
  ne_nil : ∀ n, Item.node n ∈ xs → n ≠ nil
  below : ∀ n, Item.node n ∈ xs → n.items ⊆ xs

namespace Catalogue

variable (h : Catalogue hashData msgp xs)

include h

theorem stub_eq (hnode : Item.node node ∈ xs) (hother : Item.node other ∈ xs)
    (hhash : node.nodeHash hashData = other.nodeHash hashData) :
    node.stub hashData = other.stub hashData :=
  stub_eq_of_serialize (h.ne_nil _ hnode) (h.ne_nil _ hother)
    (Sum.inl.inj (h.apart _ hnode _ hother hhash))

theorem slot_mem (hfull : Item.node (full children child) ∈ xs) {i : Option UInt8}
    (hne : slot children child i ≠ nil) : Item.node (slot children child i) ∈ xs :=
  h.below _ hfull (items_slot i (mem_items (Has.self hne)))

theorem child_mem (hshort : Item.node (short key child) ∈ xs) : Item.node child ∈ xs :=
  h.below _ hshort (items_run (mem_items (Has.self
    (ne_nil_of_endsRun (h.canonical _ hshort).2.2))))

theorem exists_has (hnode : Item.node node ∈ xs) (hother : Item.node other ∈ xs)
    (hhash : node.nodeHash hashData = other.nodeHash hashData) (hn : node.Has n) :
    ∃ m, other.Has m ∧ n.nodeHash hashData = m.nodeHash hashData := by
  induction node generalizing other with
  | nil => cases hn
  | value v | hash v =>
    obtain rfl := hn
    exact ⟨other, Has.self (h.ne_nil _ hother), hhash⟩
  | short key child ih =>
    have hstub := h.stub_eq hnode hother hhash
    rcases hn with rfl | hn
    · exact ⟨other, Has.self (h.ne_nil _ hother), hhash⟩
    · cases other with
      | short key' child' =>
        obtain ⟨_, hsame⟩ := StubNode.short.inj (Option.some.inj hstub)
        obtain ⟨m, hm, hmn⟩ := ih (h.child_mem hnode) (h.child_mem hother) hsame hn
        exact ⟨m, Or.inr hm, hmn⟩
      | nil | full _ _ | value _ | hash _ => cases hstub
  | full children child ih ihchild =>
    have hstub := h.stub_eq hnode hother hhash
    have hih : ∀ i {other : TrieNode}, Item.node (slot children child i) ∈ xs →
        Item.node other ∈ xs →
        (slot children child i).nodeHash hashData = other.nodeHash hashData →
        (slot children child i).Has n →
        ∃ m, other.Has m ∧ n.nodeHash hashData = m.nodeHash hashData := by
      intro i
      cases i with
      | none => exact ihchild
      | some c => exact ih c
    rcases has_full.mp hn with rfl | ⟨i, hi⟩
    · exact ⟨other, Has.self (h.ne_nil _ hother), hhash⟩
    · cases other with
      | full children' child' =>
        have hnil : slot children child i ≠ nil := by
          intro hnil
          rw [hnil] at hi
          exact hi
        obtain ⟨hnil', hsame⟩ := ref_eq_some.mp
          ((ref_slot_eq hstub i).symm.trans (ref_eq_some.mpr ⟨hnil, rfl⟩))
        obtain ⟨m, hm, hmn⟩ := hih i (h.slot_mem hnode hnil) (h.slot_mem hother hnil') hsame.symm hi
        exact ⟨m, hm.ofSlot, hmn⟩
      | nil | short _ _ | value _ | hash _ => cases hstub

theorem stored_congr (hnode : Item.node node ∈ xs) (hother : Item.node other ∈ xs)
    (hhash : node.nodeHash hashData = other.nodeHash hashData)
    (hstored : Stored hashData msgp store other) : Stored hashData msgp store node := by
  rintro _ ⟨n, hn, rfl⟩
  obtain ⟨m, hm, hsame⟩ := h.exists_has hnode hother hhash hn
  have himage := h.apart.compatible _ (h.below _ hnode (mem_items hn)) _
    (h.below _ hother (mem_items hm)) hsame
  rw [himage]
  exact (congrArg store.get hsame).trans (hstored _ (mem_items hm))

end Catalogue

/-- What the store has is in the catalogue, and with a node it has all that is below. -/
structure Sound (hashData : Bytes → Hash) (msgp : Msgp) (xs : Set Item)
    (store : Table Hash Bytes) : Prop where
  only : (filing hashData msgp).Only store xs
  whole : ∀ n, Item.node n ∈ xs → (store.get (n.nodeHash hashData)).isSome = true →
    Stored hashData msgp store n

theorem sound_empty (xs : Set Item) : Sound hashData msgp xs ∅ where
  only := only_empty xs
  whole := fun n _ h => by
    rw [get_empty] at h
    cases h

theorem get_isSome_of_getNode {a : Hash} (h : (getNode msgp db a).isSome = true) :
    (db a).isSome = true := by
  rw [getNode, isSome_bind] at h
  exact isSome_of_any h

def Extends (hashData : Bytes → Hash) (msgp : Msgp) (xs : Set Item)
    (old store : Table Hash Bytes) : Prop :=
  ∀ ys ⊆ xs, (filing hashData msgp).Holds old ys → (filing hashData msgp).Holds store ys

theorem Extends.refl (store : Table Hash Bytes) : Extends hashData msgp xs store store :=
  fun _ _ h => h

namespace Sound

variable {refs old : Table Hash Bytes}

theorem only_batch (hsub : node.items ⊆ xs) (hrefs : (filing hashData msgp).Only refs xs) :
    (filing hashData msgp).Only ((node.traverseSave hashData msgp db ∅).putAll refs) xs :=
  (only_traverseSave (only_empty xs) hsub).putAll hrefs

/-- A trie that is saved is stored. -/
theorem stored (hold : Sound hashData msgp xs old) (hcat : Catalogue hashData msgp xs)
    (hext : Extends hashData msgp xs old store) (hsub : node.items ⊆ xs)
    (hrefs : (filing hashData msgp).Only refs xs) :
    Stored hashData msgp
      (store.putAll ((node.traverseSave hashData msgp old.get ∅).putAll refs)) node := by
  refine holds_putAll hcat.apart.compatible (only_batch hsub hrefs) hsub ?_
  rintro _ ⟨n, hn, rfl⟩
  have hcover : Covered hashData msgp old.get (node.traverseSave hashData msgp old.get ∅) n := by
    refine covered_traverseSave (fun m hm hfound n hn => ?_) hn
    exact hold.whole m (hsub (mem_items hm)) (get_isSome_of_getNode hfound) _ (mem_items hn)
  refine hcover.imp (fun hsome => ?_) fun hget => ?_
  · rw [get_putAll, isSome_or]
    exact Bool.or_eq_true_iff.mpr (Or.inr hsome)
  · refine hext {.node n} (Set.singleton_subset_iff.mpr (hsub (mem_items hn))) ?_ _ rfl
    rintro _ rfl
    exact hget

theorem save (hold : Sound hashData msgp xs old) (h : Sound hashData msgp xs store)
    (hcat : Catalogue hashData msgp xs) (hext : Extends hashData msgp xs old store)
    (hsub : node.items ⊆ xs)
    (hrefs : (filing hashData msgp).Only refs {x ∈ xs | ∃ v, x = .value v}) :
    Sound hashData msgp xs
      (store.putAll ((node.traverseSave hashData msgp old.get ∅).putAll refs)) := by
  have hrefs' := hrefs.mono (Set.sep_subset xs _)
  have hbatch := @only_batch hashData msgp node old.get xs refs hsub hrefs'
  have hroot := hold.stored hcat hext hsub hrefs'
  refine ⟨h.only.putAll hbatch, fun n hn hsome => ?_⟩
  by_cases hbefore : (store.get (n.nodeHash hashData)).isSome = true
  · exact (h.whole n hn hbefore).putAll hcat.apart.compatible hbatch (hcat.below n hn)
  rw [get_putAll, isSome_or, Bool.eq_false_iff.mpr hbefore, Bool.or_false,
    get_putAll, isSome_or, Bool.or_eq_true] at hsome
  rcases hsome with hsome | hsome
  · -- a large value is not filed where a node is
    obtain ⟨b, hb⟩ := isSome_iff_exists.mp hsome
    obtain ⟨_, ⟨hx, v, rfl⟩, haddr, _⟩ := hrefs _ b hb
    cases hcat.apart _ hx _ hn haddr
  · obtain ⟨b, hb⟩ := isSome_iff_exists.mp hsome
    obtain ⟨_, ⟨m, hm, rfl⟩, haddr, _⟩ :=
      only_traverseSave (only_empty node.items) subset_rfl _ b hb
    exact hcat.stored_congr hn (hsub (mem_items hm)) haddr.symm (hroot.mono (items_subset hm))

end Sound
end TrieNode
end GoQlc
