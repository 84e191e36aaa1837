import GoQlc.Trie.Opened

/-!
# Sessions over one store

Any number of tries are opened, written and saved over one store, in any order.
-/

namespace GoQlc.Trie

open Function List

open TrieNode (Sound sound_empty)

/-- A trie in the variable `i`, opened at a root saved so far or at the nil pointer. -/
inductive Action where
  | newTrie (i : ℕ) (root : Option ℕ)
  | setValue (i : ℕ) (key val : Bytes)
  | save (i : ℕ)
deriving DecidableEq

structure Session where
  store : Table Hash Bytes := ∅
  tries : ℕ → Trie := fun _ => {}
  /-- The root of each saved trie, and what its `GetValue` returned then. -/
  saves : List (Option Hash × (Bytes → Option Bytes)) := []

namespace Session

variable (hashData : Bytes → Hash) (msgp : Msgp) (fuel : ℕ)

def trie (s : Session) (i : ℕ) : Trie := { s.tries i with db := s.store.get }

def step (s : Session) : Action → Session
  | .newTrie i root =>
    let rootHash := root.bind fun j => s.saves[j]?.bind Prod.fst
    { s with tries := Function.update s.tries i (Trie.newTrie msgp fuel s.store rootHash) }
  | .setValue i key val =>
    { s with tries := Function.update s.tries i ((s.trie i).setValue hashData key val) }
  | .save i =>
    { store := (s.trie i).save hashData msgp s.store
      tries := Function.update s.tries i { s.trie i with unSavedRefValueMap := ∅ }
      saves := s.saves ++ [((s.trie i).rootHash hashData, (s.trie i).getValue)] }

def run (s : Session) (actions : List Action) : Session :=
  actions.foldl (step hashData msgp fuel) s

end Session

structure Plan where
  tries : ℕ → Bytes → Option Bytes := fun _ _ => none
  saved : List (Bytes → Option Bytes) := []

variable {i : ℕ} {written : Bytes → Option Bytes}

namespace Plan

def step (p : Plan) : Action → Plan
  | .newTrie i root =>
    let written := (root.bind fun j => p.saved[j]?).getD fun _ => none
    { p with tries := Function.update p.tries i written }
  | .setValue i key val =>
    { p with tries := Function.update p.tries i (Function.update (p.tries i) key (some val)) }
  | .save i => { p with saved := p.saved ++ [p.tries i] }

def run (p : Plan) (actions : List Action) : Plan := actions.foldl step p

/-- The condition on a step: the large value that a call overwrites with another one is not the
value of a second key, unless a saved trie has it. -/
def Keeps (p : Plan) : Action → Prop
  | .setValue i key val => ∀ old, p.tries i key = some old → 32 < old.length → old ≠ val →
      (∀ k, k ≠ key → p.tries i k ≠ some old) ∨ ∃ written ∈ p.saved, ∃ k, written k = some old
  | .newTrie _ _ | .save _ => True

def AllKeep : Plan → List Action → Prop
  | _, [] => True
  | p, action :: actions => p.Keeps action ∧ (p.step action).AllKeep actions

def passed (actions : List Action) : Set (Bytes × Bytes) :=
  {call | ∃ i, Action.setValue i call.1 call.2 ∈ actions}

structure Within (calls : Set (Bytes × Bytes)) (p : Plan) : Prop where
  tries : ∀ i k v, p.tries i k = some v → (k, v) ∈ calls
  saved : ∀ written ∈ p.saved, ∀ k v, written k = some v → (k, v) ∈ calls

variable {p : Plan} {calls : Set (Bytes × Bytes)} {action : Action}

theorem Within.update (h : Within calls p) (hwritten : ∀ k v, written k = some v → (k, v) ∈ calls) :
    Within calls { p with tries := Function.update p.tries i written } where
  tries := fun j k v hv => by
    dsimp only at hv
    by_cases hj : j = i
    · rw [hj, Function.update_self] at hv
      exact hwritten k v hv
    · rw [update_of_ne hj] at hv
      exact h.tries j k v hv
  saved := h.saved

theorem opened_mem_or (p : Plan) (root : Option ℕ) :
    (root.bind fun j => p.saved[j]?).getD (fun _ => none) ∈ p.saved ∨
      (root.bind fun j => p.saved[j]?).getD (fun _ => none) = fun _ => none := by
  cases hfound : root.bind fun j => p.saved[j]? with
  | none => exact Or.inr rfl
  | some written =>
    obtain ⟨j, _, hj⟩ := Option.bind_eq_some_iff.mp hfound
    exact Or.inl (mem_of_getElem? hj)

theorem Within.step (h : Within calls p)
    (haction : ∀ i key val, action = .setValue i key val → (key, val) ∈ calls) :
    Within calls (p.step action) := by
  cases action with
  | newTrie i root =>
    refine h.update fun k v hv => ?_
    rcases p.opened_mem_or root with hmem | hnone
    · exact h.saved _ hmem k v hv
    · rw [hnone] at hv
      cases hv
  | setValue i key val =>
    refine h.update fun k v hv => ?_
    by_cases hk : k = key
    · rw [hk, Function.update_self] at hv
      cases hv
      rw [hk]
      exact haction i key val rfl
    · rw [update_of_ne hk] at hv
      exact h.tries i k v hv
  | save i =>
    refine ⟨h.tries, fun written hmem => ?_⟩
    rcases mem_append.mp hmem with hmem | hmem
    · exact h.saved written hmem
    · rw [mem_singleton.mp hmem]
      exact h.tries i

theorem saved_subset_step (p : Plan) (action : Action) : p.saved ⊆ (p.step action).saved := by
  cases action with
  | newTrie i root | setValue i key val => exact List.Subset.refl _
  | save i => exact subset_append_left _ _

theorem saved_subset_run (p : Plan) (actions : List Action) : p.saved ⊆ (p.run actions).saved := by
  induction actions generalizing p with
  | nil => exact List.Subset.refl _
  | cons action actions ih => exact List.Subset.trans (saved_subset_step p action) (ih _)

end Plan

/-! ## The invariant -/

section Run

variable {hashData : Bytes → Hash} {msgp : Msgp} {fuel : ℕ} {maps : Set (Bytes → Option Bytes)}
  {calls : Set (Bytes × Bytes)} {s : Session} {p : Plan}

structure SavedAs (hashData : Bytes → Hash) (msgp : Msgp) (maps : Set (Bytes → Option Bytes))
    (store : Table Hash Bytes) (save : Option Hash × (Bytes → Option Bytes))
    (written : Bytes → Option Bytes) : Prop where
  map : written ∈ maps
  saved : Saved hashData msgp store written
  root : ∃ root, Spells hashData root written ∧ save.1 = ({ root } : Trie).rootHash hashData
  value : save.2 = written

structure Follows (hashData : Bytes → Hash) (msgp : Msgp) (maps : Set (Bytes → Option Bytes))
    (values : Set Bytes) (s : Session) (p : Plan) : Prop where
  sound : Sound hashData msgp (catalogue hashData maps values) s.store
  opened : ∀ i, Opened hashData values s.store (s.tries i) (p.tries i)
  saves : List.Forall₂ (SavedAs hashData msgp maps s.store) s.saves p.saved

theorem forall₂_getElem? {α β : Type} {R : α → β → Prop} {l : List α} {l' : List β}
    (h : List.Forall₂ R l l') (j : ℕ) :
    (l[j]? = none ∧ l'[j]? = none) ∨ ∃ a b, l[j]? = some a ∧ l'[j]? = some b ∧ R a b := by
  induction h generalizing j with
  | nil => exact Or.inl ⟨rfl, rfl⟩
  | @cons a b l l' hab _ ih =>
    cases j with
    | zero => exact Or.inr ⟨a, b, rfl, rfl, hab⟩
    | succ j =>
      rw [List.getElem?_cons_succ, List.getElem?_cons_succ]
      exact ih j

theorem saved_empty (store : Table Hash Bytes) : Saved hashData msgp store fun _ => none where
  nodes := fun root hroot => by
    rw [hroot.unique Spells.empty]
    rintro _ ⟨n, hn, _⟩
    cases hn
  large := fun k v hv => by cases hv

theorem opened_empty {values : Set Bytes} (store : Table Hash Bytes) :
    Opened hashData values store {} fun _ => none where
  spells := Spells.empty
  value := nofun
  refs := nofun
  large := nofun

namespace Follows

variable {values : Set Bytes}

theorem init : Follows hashData msgp maps values {} {} where
  sound := sound_empty _
  opened := fun _ => opened_empty ∅
  saves := List.Forall₂.nil

variable (h : Follows hashData msgp maps values s p)
  (hdistinct : Distinct hashData maps values)

include h

theorem update {trie : Trie} (hopened : Opened hashData values s.store trie written) :
    Follows hashData msgp maps values { s with tries := Function.update s.tries i trie }
      { p with tries := Function.update p.tries i written } where
  sound := h.sound
  opened := fun j => by
    dsimp only
    by_cases hj : j = i
    · rw [hj, Function.update_self, Function.update_self]
      exact hopened
    · rw [update_of_ne hj, update_of_ne hj]
      exact h.opened j
  saves := h.saves

theorem exists_root (root : Option ℕ) :
    Saved hashData msgp s.store ((root.bind fun j => p.saved[j]?).getD fun _ => none) ∧
      ∃ node, Spells hashData node ((root.bind fun j => p.saved[j]?).getD fun _ => none) ∧
        (root.bind fun j => s.saves[j]?.bind Prod.fst) =
          ({ root := node } : Trie).rootHash hashData := by
  cases root with
  | none => exact ⟨saved_empty _, .nil, Spells.empty, rfl⟩
  | some j =>
    rw [Option.bind_some, Option.bind_some]
    rcases forall₂_getElem? h.saves j with ⟨hs, hp⟩ | ⟨save, written, hs, hp, hsaved⟩
    · rw [hs, hp]
      exact ⟨saved_empty _, .nil, Spells.empty, rfl⟩
    · rw [hs, hp]
      exact ⟨hsaved.saved, hsaved.root⟩

theorem exists_save (hmem : written ∈ p.saved) :
    ∃ save, SavedAs hashData msgp maps s.store save written := by
  obtain ⟨j, hj⟩ := List.getElem?_of_mem hmem
  rcases forall₂_getElem? h.saves j with ⟨_, hp⟩ | ⟨save, written', _, hp, hsaved⟩
  · rw [hj] at hp
    cases hp
  · rw [hj] at hp
    cases hp
    exact ⟨save, hsaved⟩

theorem exists_written {save : Option Hash × (Bytes → Option Bytes)} (hmem : save ∈ s.saves) :
    ∃ written, SavedAs hashData msgp maps s.store save written ∧ written ∈ p.saved := by
  obtain ⟨j, hj⟩ := List.getElem?_of_mem hmem
  rcases forall₂_getElem? h.saves j with ⟨hs, _⟩ | ⟨save', written, hs, hp, hsaved⟩
  · rw [hj] at hs
    cases hs
  · rw [hj] at hs
    cases hs
    exact ⟨written, hsaved, mem_of_getElem? hp⟩

theorem newTrie (i : ℕ) (root : Option ℕ) (hwithin : Plan.Within calls p)
    (hvalues : ∀ call ∈ calls, call.2 ∈ values) (hfuel : ∀ call ∈ calls, call.1.length < fuel) :
    Follows hashData msgp maps values (s.step hashData msgp fuel (.newTrie i root))
      (p.step (.newTrie i root)) := by
  obtain ⟨hsaved, node, hnode, hroot⟩ := h.exists_root root
  have hcalls : ∀ k v, ((root.bind fun j => p.saved[j]?).getD fun _ => none) k = some v →
      (k, v) ∈ calls := by
    intro k v hv
    rcases p.opened_mem_or root with hmem | hnone
    · exact hwithin.saved _ hmem k v hv
    · rw [hnone] at hv
      cases hv
  refine h.update ?_
  rw [hroot]
  exact hsaved.newTrie hnode (fun k v hv => hvalues _ (hcalls k v hv))
    fun k v hv => hfuel _ (hcalls k v hv)

include hdistinct

theorem setValue {key val : Bytes} (hval : val ∈ values) (hkeeps : p.Keeps (.setValue i key val)) :
    Follows hashData msgp maps values (s.step hashData msgp fuel (.setValue i key val))
      (p.step (.setValue i key val)) := by
  refine h.update (((h.opened i).withDb s.store.get).setValue hdistinct hval ?_)
  intro old hold hlong hne
  refine (hkeeps old hold hlong hne).imp_right ?_
  rintro ⟨written, hmem, k, hk⟩
  obtain ⟨save, hsave⟩ := h.exists_save hmem
  exact hsave.saved.large k old hk hlong

theorem save (hmap : p.tries i ∈ maps) :
    Follows hashData msgp maps values (s.step hashData msgp fuel (.save i)) (p.step (.save i)) := by
  have hopened := (h.opened i).withDb s.store.get
  have hkeep := @Opened.holds_save hashData maps values msgp s.store _ _ hopened hdistinct hmap
  have hsaved := hopened.saved_save hdistinct hmap rfl h.sound (.refl _)
  refine ⟨hopened.sound_save hdistinct hmap rfl h.sound (.refl _) h.sound, fun j => ?_, ?_⟩
  · change Opened hashData values ((s.trie i).save hashData msgp s.store)
      (Function.update s.tries i { s.trie i with unSavedRefValueMap := ∅ } j) (p.tries j)
    by_cases hj : j = i
    · rw [hj, Function.update_self]
      exact ⟨hopened.spells, hopened.value, nofun, fun k v hv hlong =>
        Or.inr (hsaved.large k v hv hlong)⟩
    · rw [update_of_ne hj]
      exact (h.opened j).mono hkeep
  · refine rel_append (h.saves.imp fun save written hsave => ?_)
      (List.Forall₂.cons ?_ List.Forall₂.nil)
    · exact ⟨hsave.map, hsave.saved.mono hdistinct hsave.map hkeep, hsave.root, hsave.value⟩
    · exact ⟨hmap, hsaved, ⟨_, hopened.spells, rfl⟩, funext fun k =>
        hopened.getValue_eq hdistinct rfl k⟩

variable (hwithin : Plan.Within calls p) (hvalues : ∀ call ∈ calls, call.2 ∈ values)
  (hfuel : ∀ call ∈ calls, call.1.length < fuel)

include hwithin hvalues hfuel

theorem step {action : Action}
    (haction : ∀ i key val, action = .setValue i key val → (key, val) ∈ calls)
    (hmaps : ∀ written ∈ (p.step action).saved, written ∈ maps) (hkeeps : p.Keeps action) :
    Follows hashData msgp maps values (s.step hashData msgp fuel action) (p.step action) := by
  cases action with
  | newTrie i root => exact h.newTrie i root hwithin hvalues hfuel
  | setValue i key val => exact h.setValue hdistinct (hvalues _ (haction i key val rfl)) hkeeps
  | save i => exact h.save hdistinct (hmaps _ (mem_append_right _ (mem_singleton_self _)))

theorem run {actions : List Action}
    (hactions : ∀ i key val, .setValue i key val ∈ actions → (key, val) ∈ calls)
    (hmaps : ∀ written ∈ (p.run actions).saved, written ∈ maps) (hkeeps : p.AllKeep actions) :
    Follows hashData msgp maps values (s.run hashData msgp fuel actions) (p.run actions) := by
  induction actions generalizing s p with
  | nil => exact h
  | cons action actions ih =>
    have haction : ∀ i key val, action = .setValue i key val → (key, val) ∈ calls := by
      rintro i key val rfl
      exact hactions i key val mem_cons_self
    have hnow : ∀ written ∈ (p.step action).saved, written ∈ maps := fun written hmem =>
      hmaps written (Plan.saved_subset_run _ actions hmem)
    exact ih (h.step hdistinct hwithin hvalues hfuel haction hnow hkeeps.1) (hwithin.step haction)
      (fun i key val hmem => hactions i key val (mem_cons_of_mem _ hmem)) hmaps hkeeps.2

end Follows

theorem within_init : Plan.Within calls {} := ⟨nofun, nofun⟩

theorem Plan.Within.run (h : Plan.Within calls p) {actions : List Action}
    (hactions : ∀ i key val, .setValue i key val ∈ actions → (key, val) ∈ calls) :
    Plan.Within calls (p.run actions) := by
  induction actions generalizing p with
  | nil => exact h
  | cons action actions ih =>
    refine ih (h.step ?_) fun i key val hmem => hactions i key val (mem_cons_of_mem _ hmem)
    rintro i key val rfl
    exact hactions i key val mem_cons_self


end Run

/-- In every session whose steps meet the condition, every root saved so far can be opened and has
the values that the saved trie had. -/
theorem getValue_newTrie_of_saved (hashData : Bytes → Hash) (msgp : Msgp) (fuel : ℕ)
    (actions : List Action)
    (hfuel : ∀ i key val, .setValue i key val ∈ actions → key.length < fuel)
    (hseparate : Separate hashData {written | written ∈ (Plan.run {} actions).saved}
      {val | ∃ i key, .setValue i key val ∈ actions})
    (hkeeps : Plan.AllKeep {} actions) :
    ∀ save ∈ (Session.run hashData msgp fuel {} actions).saves, ∀ key,
      (newTrie msgp fuel (Session.run hashData msgp fuel {} actions).store save.1).getValue key =
        save.2 key := by
  have hactions : ∀ i key val, .setValue i key val ∈ actions → (key, val) ∈ Plan.passed actions :=
    fun i key val hmem => ⟨i, hmem⟩
  have hvalues : ∀ call ∈ Plan.passed actions,
      call.2 ∈ {val | ∃ i key, Action.setValue i key val ∈ actions} := by
    rintro ⟨key, val⟩ ⟨i, hmem⟩
    exact ⟨i, key, hmem⟩
  have hlength : ∀ call ∈ Plan.passed actions, call.1.length < fuel := by
    rintro ⟨key, val⟩ ⟨i, hmem⟩
    exact hfuel i key val hmem
  have hwithin := within_init.run hactions
  have hdistinct : Distinct hashData _ _ :=
    ⟨hseparate, fun written hmem k v hv => hvalues _ (hwithin.saved written hmem k v hv)⟩
  have hfollows := (@Follows.init hashData msgp _ _).run hdistinct within_init hvalues hlength
    hactions (fun written hmem => hmem) hkeeps
  intro save hmem key
  obtain ⟨written, hsaved, hwritten⟩ := hfollows.exists_written hmem
  obtain ⟨root, hroot, hhash⟩ := hsaved.root
  rw [hhash, hsaved.value]
  refine (hsaved.saved.newTrie hroot (hdistinct.value written hsaved.map)
    fun k v hv => hlength _ (hwithin.saved written hwritten k v hv)).getValue_eq hdistinct rfl key

theorem getValue_newTrie_of_saved_small :
    ((Session.run lengthHash .plain 2 {}
        [.setValue 0 [1] [5], .save 0, .newTrie 0 (some 0)]).saves.map fun save =>
      (newTrie .plain 2 (Session.run lengthHash .plain 2 {}
        [.setValue 0 [1] [5], .save 0, .newTrie 0 (some 0)]).store save.1).getValue [1]) =
    (Session.run lengthHash .plain 2 {}
      [.setValue 0 [1] [5], .save 0, .newTrie 0 (some 0)]).saves.map fun save => save.2 [1] := by
  have hvalue : ∀ val, (∃ i key, Action.setValue i key val ∈
      [.setValue 0 [1] [5], .save 0, .newTrie 0 (some 0)]) → val = [5] := by
    rintro val ⟨i, key, hmem⟩
    simp only [mem_cons, Action.setValue.injEq, not_mem_nil, reduceCtorEq,
      or_false] at hmem
    exact hmem.2.2
  refine map_congr_left fun save hsave =>
    getValue_newTrie_of_saved lengthHash .plain 2 _ ?_ ⟨?_, ?_, ?_⟩ ?_ save hsave [1]
  · intro i key val hmem
    simp only [mem_cons, Action.setValue.injEq, not_mem_nil, reduceCtorEq,
      or_false] at hmem
    rw [hmem.2.1]
    decide
  · -- a short node and a leaf: strings of 34 bytes and of one
    have hmem : ∀ s, ((∃ written ∈ [Function.update (fun _ => none) [1] (some [5])],
        ∃ root, Spells lengthHash root written ∧ root.Hashed lengthHash s) ∨
          (∃ i key, Action.setValue i key s ∈
            [.setValue 0 [1] [5], .save 0, .newTrie 0 (some 0)]) ∧ 32 < s.length) →
        s = 2 :: ([1] ++ hashBytes ((newLeaf lengthHash [5]).nodeHash lengthHash)) ∨ s = [5] := by
      rintro s (⟨written, hwritten, root, hroot, hs⟩ | ⟨hval, _⟩)
      · rw [mem_singleton.mp hwritten] at hroot
        rw [hroot.unique (spells_setValues lengthHash [([1], [5])])] at hs
        exact (strings_single (by decide) (Or.inl hs)).imp id fun h => h.elim id And.left
      · exact Or.inr (hvalue s hval)
    intro s hs t ht hst
    rcases hmem s hs with rfl | rfl <;> rcases hmem t ht with rfl | rfl <;>
      first | rfl | simp [lengthHash] at hst
  · rintro v hv v' hv' ⟨hlong, _⟩
    rw [hvalue v hv] at hlong
    exact absurd hlong (by decide)
  · rintro written hmem root hroot v hv hlong
    rw [hvalue v hv] at hlong
    exact absurd hlong (by decide)
  · refine ⟨?_, trivial, trivial, trivial⟩
    rintro old hold
    cases hold

theorem splitCommon_of_ne {a b : UInt8} (hab : b ≠ a) (t u : Bytes) :
    TrieNode.splitCommon (b :: t) (a :: u) = ([], b :: t, a :: u) := by
  rw [TrieNode.splitCommon, if_neg hab]

variable {hashData : Bytes → Hash}

theorem root_two {a b : UInt8} (hab : b ≠ a) (x y : Bytes) :
    (setValues hashData {} [([a], x), ([b], y)]).root =
      .full (Function.update (Function.update (fun _ => .nil) a (newLeaf hashData x)) b
        (newLeaf hashData y)) .nil := by
  change (TrieNode.setValue (setValues hashData {} [([a], x)]).root [b] (newLeaf hashData y)).1 = _
  rw [root_single, TrieNode.attach_of_ne (List.cons_ne_nil _ _), TrieNode.setValue]
  split
  · rename_i c keyRest hrest
    rw [splitCommon_of_ne hab] at hrest ⊢
    obtain ⟨rfl, rfl⟩ := List.cons.inj hrest
    dsimp only [TrieNode.branch]
    rw [update_of_ne hab, TrieNode.setValue]
    rfl
  · rename_i hrest
    rw [splitCommon_of_ne hab] at hrest
    cases hrest

theorem hashed_newLeaf {s v : Bytes} (h : (newLeaf hashData v).Hashed hashData s) :
    s = leafBytes hashData v := by
  unfold newLeaf at h
  unfold leafBytes
  split_ifs at h ⊢ <;> exact h

theorem strings_two {a b : UInt8} (hab : b ≠ a) {x y s : Bytes}
    (h : s ∈ strings hashData [([a], x), ([b], y)]) :
    s = (setValues hashData {} [([a], x), ([b], y)]).root.source hashData ∨
      s = leafBytes hashData x ∨ s = leafBytes hashData y ∨
      s = x ∧ 32 < x.length ∨ s = y ∧ 32 < y.length := by
  rcases h with hnode | ⟨k, hk, hlong⟩
  · rw [root_two hab] at hnode ⊢
    rcases hnode with rfl | hnil | ⟨c, hc⟩
    · exact Or.inl rfl
    · cases hnil
    · by_cases hb : c = b
      · rw [hb, Function.update_self] at hc
        exact Or.inr (Or.inr (Or.inl (hashed_newLeaf hc)))
      · rw [update_of_ne hb] at hc
        by_cases ha : c = a
        · rw [ha, Function.update_self] at hc
          exact Or.inr (Or.inl (hashed_newLeaf hc))
        · rw [update_of_ne ha] at hc
          cases hc
  · simp only [writes, foldl_cons, foldl_nil, update_apply] at hk
    split_ifs at hk
    · cases hk
      exact Or.inr (Or.inr (Or.inr (Or.inr ⟨rfl, hlong⟩)))
    · cases hk
      exact Or.inr (Or.inr (Or.inr (Or.inl ⟨rfl, hlong⟩)))

/-- One key has a large value and another key its hash; the two leaves have one hash. -/
theorem getValue_newTrie_hash_for_value :
    Set.InjOn lengthHash (strings lengthHash [([1], List.replicate 33 0),
      ([2], hashBytes (lengthHash (List.replicate 33 0)))]) ∧
    (Session.run lengthHash .plain 2 {} [.setValue 0 [1] (List.replicate 33 0),
        .setValue 0 [2] (hashBytes (lengthHash (List.replicate 33 0))), .save 0]).saves.map
      (fun save => (save.2 [1],
        (newTrie .plain 2 (Session.run lengthHash .plain 2 {} [.setValue 0 [1] (List.replicate 33 0),
          .setValue 0 [2] (hashBytes (lengthHash (List.replicate 33 0))), .save 0]).store
            save.1).getValue [1])) =
      [(some (List.replicate 33 0), some (hashBytes (lengthHash (List.replicate 33 0))))] := by
  refine ⟨?_, by decide +kernel⟩
  -- a full node, the leaves and the large value: strings of 67, 32 and 33 bytes
  have hroot : ((setValues lengthHash {} [([1], List.replicate 33 0),
      ([2], hashBytes (lengthHash (List.replicate 33 0)))]).root.source lengthHash).length = 67 := by
    decide +kernel
  have hmem : ∀ s ∈ strings lengthHash [([1], List.replicate 33 0),
      ([2], hashBytes (lengthHash (List.replicate 33 0)))],
      s = (setValues lengthHash {} [([1], List.replicate 33 0),
        ([2], hashBytes (lengthHash (List.replicate 33 0)))]).root.source lengthHash ∨
      s = hashBytes (lengthHash (List.replicate 33 0)) ∨ s = List.replicate 33 0 := by
    intro s hs
    rcases strings_two (by decide) hs with h | h | h | h | h
    · exact Or.inl h
    · exact Or.inr (Or.inl h)
    · exact Or.inr (Or.inl h)
    · exact Or.inr (Or.inr h.1)
    · exact Or.inr (Or.inl h.1)
  generalize (setValues lengthHash {} [([1], List.replicate 33 0),
    ([2], hashBytes (lengthHash (List.replicate 33 0)))]).root.source lengthHash = root at hroot hmem
  intro s hs t ht hst
  rcases hmem s hs with rfl | rfl | rfl <;> rcases hmem t ht with rfl | rfl | rfl <;>
    first | rfl | simp [lengthHash, hroot] at hst

end GoQlc.Trie
