import GoQlc.Lib.Walk
import GoQlc.Pov.Chain

/-!
# The index of the best chain

The blocks of the ledger form a tree below the genesis block.
-/

namespace GoQlc.Pov

open Spine Function List Option Result Table

def Stored (f : Files) (b : PovBlock) : Prop := f.headers.get (b.height, b.hash) = some b

/-- The hash of a header covers the previous hash and the target, but not the height. It is
never the zero hash, which stands for no block. -/
structure Hashed (g : Genesis) (known : List PovBlock) : Prop where
  content : ∀ a ∈ g.block :: known, ∀ b ∈ g.block :: known, a.hash = b.hash →
    a.previous = b.previous ∧ a.work = b.work
  ne_zero : ∀ b ∈ known, b.hash ≠ 0

/-- The tree of the blocks inserted so far, all of them among `known`. -/
structure Tree (g : Genesis) (known : List PovBlock) (f : Files) : Prop where
  filed : ∀ h x b, f.headers.get (h, x) = some b →
    b.height = h ∧ b.hash = x ∧ b ∈ g.block :: known
  heights : ∀ x h, f.heights.get x = some h ↔ ∃ b, Stored f b ∧ b.hash = x ∧ b.height = h
  td : ∀ h x, (f.td.get (h, x)).isSome → ∃ b, Stored f b ∧ b.hash = x ∧ b.height = h
  parent : ∀ b, Stored f b →
    b = g.block ∨ ∃ p, Stored f p ∧ p.hash = b.previous ∧ b.height = p.height + 1
  genesis : Stored f g.block

variable {g : Genesis} {known : List PovBlock} {f db : Files} {a b p : PovBlock}

namespace Tree

variable (ht : Tree g known f) (hh : Hashed g known)

include ht

theorem unique (ha : Stored f a) (hb : Stored f b) (heq : a.hash = b.hash) : a = b := by
  have hha := (ht.heights a.hash a.height).mpr ⟨a, ha, rfl, rfl⟩
  have hhb := (ht.heights b.hash b.height).mpr ⟨b, hb, rfl, rfl⟩
  rw [heq] at hha
  have hheight : a.height = b.height := Option.some.inj (hha.symm.trans hhb)
  unfold Stored at ha hb
  rw [hheight, heq] at ha
  exact Option.some.inj (ha.symm.trans hb)

theorem mem (hb : Stored f b) : b ∈ g.block :: known :=
  (ht.filed _ _ _ hb).2.2

include hh in
theorem hash_ne (hb : Stored f b) : b.hash ≠ 0 := by
  rcases mem_cons.mp (ht.mem hb) with rfl | hmem
  · exact g.hash_ne
  · exact hh.ne_zero b hmem

include hh in
theorem height_eq (hb : Stored f b) (hp : Stored f p) (hprev : p.hash = b.previous) :
    b.height = p.height + 1 := by
  rcases ht.parent b hb with rfl | ⟨q, hq, hqb, hheight⟩
  · exact absurd (hprev.trans g.previous_eq) (ht.hash_ne hh hp)
  · rw [ht.unique hp hq (hprev.trans hqb.symm)]
    exact hheight

include hh in
theorem eq_genesis (hb : Stored f b) (hprev : b.previous = 0) : b = g.block := by
  rcases ht.parent b hb with rfl | ⟨q, hq, hqb, _⟩
  · rfl
  · exact absurd (hqb.trans hprev) (ht.hash_ne hh hq)

theorem getBlockByHash {x : Hash} (hget : f.getBlockByHash x = some b) :
    Stored f b ∧ b.hash = x := by
  unfold Files.getBlockByHash Files.getPovBlockByHash at hget
  obtain ⟨_, hget⟩ := Option.ite_none_left_eq_some.mp hget
  obtain ⟨h, _, hb⟩ := Option.bind_eq_some_iff.mp hget
  obtain ⟨rfl, rfl, _⟩ := ht.filed h x b hb
  exact ⟨hb, rfl⟩

include hh in
theorem getBlockByHash_of_stored (hb : Stored f b) : f.getBlockByHash b.hash = some b := by
  unfold Files.getBlockByHash Files.getPovBlockByHash
  rw [if_neg (ht.hash_ne hh hb), (ht.heights _ _).mpr ⟨b, hb, rfl, rfl⟩]
  exact hb

theorem previousTD {td : ℕ} (hget : f.previousTD b = some td) :
    ∃ p, Stored f p ∧ p.hash = b.previous ∧ b.height = p.height + 1 := by
  obtain ⟨hpos, hget⟩ := Option.ite_none_left_eq_some.mp hget
  obtain ⟨p, hp, hprev, hheight⟩ := ht.td _ _ (isSome_of_eq_some hget)
  exact ⟨p, hp, hprev, by omega⟩

end Tree

theorem stored_put {td : Table (ℕ × Hash) ℕ} {heights : Table Hash ℕ}
    (hfree : f.headers.get (b.height, b.hash) = none) :
    Stored ⟨f.headers.put (b.height, b.hash) b, heights, td⟩ a ↔ a = b ∨ Stored f a := by
  unfold Stored
  rw [get_put]
  split_ifs with hkey
  · constructor
    · intro heq
      exact Or.inl (Option.some.inj heq).symm
    · rintro (rfl | ha)
      · rfl
      · rw [hkey, hfree] at ha
        cases ha
  · constructor
    · exact Or.inr
    · rintro (rfl | ha)
      · exact absurd rfl hkey
      · exact ha

section Filing

variable (ht : Tree g known f) (hh : Hashed g known) (hb : b ∈ known) (hp : Stored f p)
  (hprev : p.hash = b.previous) (hheight : b.height = p.height + 1)

include ht hh hb hp hprev hheight

theorem Tree.eq_of_hash (ha : Stored f a) (heq : a.hash = b.hash) : a = b := by
  obtain ⟨hpa, hwork⟩ := hh.content a (ht.mem ha) b (mem_cons_of_mem _ hb) heq
  have hha : a.height = p.height + 1 := ht.height_eq hh ha hp (hprev.trans hpa.symm)
  cases a
  cases b
  simp_all

theorem Tree.addPovBlock_cases (td : ℕ) :
    Stored f b ∧ f.addPovBlock b td = f ∨
      (∀ a, Stored f a → a.hash ≠ b.hash) ∧ f.headers.get (b.height, b.hash) = none ∧
        f.addPovBlock b td =
          { headers := f.headers.put (b.height, b.hash) b
            heights := f.heights.put b.hash b.height
            td := f.td.put (b.height, b.hash) td } := by
  unfold Files.addPovBlock
  cases hget : f.headers.get (b.height, b.hash) with
  | some a =>
    obtain ⟨hha, hxa, _⟩ := ht.filed _ _ _ hget
    have ha : Stored f a := by
      unfold Stored
      rw [hha, hxa, hget]
    exact Or.inl ⟨ht.eq_of_hash hh hb hp hprev hheight ha hxa ▸ ha, rfl⟩
  | none =>
    have hfresh : ∀ a, Stored f a → a.hash ≠ b.hash := by
      intro a ha heq
      obtain rfl := ht.eq_of_hash hh hb hp hprev hheight ha heq
      exact absurd (hget.symm.trans ha) (by simp)
    have hnone : f.heights.get b.hash = none := by
      rw [eq_none_iff_forall_ne_some]
      intro h hx
      obtain ⟨a, ha, heq, _⟩ := (ht.heights _ _).mp hx
      exact hfresh a ha heq
    right
    refine ⟨hfresh, rfl, ?_⟩
    simp [hnone]

theorem Tree.addPovBlock (td : ℕ) :
    Tree g known (f.addPovBlock b td) ∧
      ∀ a, Stored (f.addPovBlock b td) a ↔ a = b ∨ Stored f a := by
  rcases ht.addPovBlock_cases hh hb hp hprev hheight td with ⟨hstored, heq⟩ | ⟨hfresh, hfree, heq⟩
  · rw [heq]
    refine ⟨ht, fun a => ⟨Or.inr, ?_⟩⟩
    rintro (rfl | ha)
    · exact hstored
    · exact ha
  rw [heq]
  refine ⟨⟨?_, ?_, ?_, ?_, (stored_put hfree).mpr (Or.inr ht.genesis)⟩, fun a => stored_put hfree⟩
  · intro h x a ha
    rw [get_put] at ha
    split_ifs at ha with hkey
    · cases ha
      obtain ⟨rfl, rfl⟩ := Prod.mk.inj hkey
      exact ⟨rfl, rfl, mem_cons_of_mem _ hb⟩
    · exact ht.filed h x a ha
  · intro x h
    rw [get_put]
    simp only [stored_put hfree]
    split_ifs with hx
    · subst hx
      constructor
      · intro hh'
        exact ⟨b, Or.inl rfl, rfl, Option.some.inj hh'⟩
      · rintro ⟨a, rfl | ha, hxa, rfl⟩
        · rfl
        · exact absurd hxa (hfresh a ha)
    · rw [ht.heights]
      constructor
      · rintro ⟨a, ha, hxa⟩
        exact ⟨a, Or.inr ha, hxa⟩
      · rintro ⟨a, rfl | ha, rfl, rfl⟩
        · exact absurd rfl hx
        · exact ⟨a, ha, rfl, rfl⟩
  · intro h x htd
    simp only [stored_put hfree]
    rw [get_put] at htd
    split_ifs at htd with hkey
    · obtain ⟨rfl, rfl⟩ := Prod.mk.inj hkey
      exact ⟨b, Or.inl rfl, rfl, rfl⟩
    · obtain ⟨a, ha, hxa⟩ := ht.td h x htd
      exact ⟨a, Or.inr ha, hxa⟩
  · intro a ha
    simp only [stored_put hfree] at ha ⊢
    rcases ha with rfl | ha
    · exact Or.inr ⟨p, Or.inr hp, hprev, hheight⟩
    · rcases ht.parent a ha with rfl | ⟨q, hq, hqa⟩
      · exact Or.inl rfl
      · exact Or.inr ⟨q, Or.inr hq, hqa⟩

end Filing

/-! ## One step along the best chain -/

def Edge (f : Files) (x y : Hash) : Prop := ∃ b, Stored f b ∧ b.hash = y ∧ b.previous = x

structure Indexed (g : Genesis) (c : Chain) : Prop where
  stored : Stored c.store.toFiles c.latest
  spine : IsSpine (Edge c.store.toFiles) g.block.hash c.store.bestHash.get c.latest.height
    c.latest.hash
  latestHeight : c.store.latestHeight = c.latest.height

variable {c c' : Chain}

theorem get_put_eq_update (t : Table ℕ Hash) (h : ℕ) (x : Hash) :
    (t.put h x).get = update t.get h (some x) := by
  funext i
  rw [get_put, update_apply]

theorem get_delete_eq_update (t : Table ℕ Hash) (h : ℕ) :
    (t.delete h).get = update t.get h none := by
  funext i
  rw [get_delete, update_apply]

theorem Indexed.connectBestBlock (hc : Indexed g c) (hb : Stored c.store.toFiles b)
    (hprev : b.previous = c.latest.hash) (hok : connectBestBlock c b = .ok c') :
    Indexed g c' ∧ c'.store.toFiles = c.store.toFiles ∧ c'.latest = b := by
  obtain ⟨hheight, hok⟩ := ite_error_eq_ok.mp hok
  cases hok
  rw [not_not] at hheight
  refine ⟨⟨hb, ?_, rfl⟩, rfl, rfl⟩
  change IsSpine (Edge c.store.toFiles) _ (c.store.bestHash.put b.height b.hash).get b.height b.hash
  rw [get_put_eq_update, hheight]
  exact hc.spine.push ⟨b, hb, rfl, hprev⟩

theorem Indexed.disconnectBestBlock (hc : Indexed g c) (hh : Hashed g known)
    (ht : Tree g known c.store.toFiles) (hdb : Tree g known db)
    (hsub : ∀ a, Stored db a → Stored c.store.toFiles a) (hb : Stored c.store.toFiles b)
    (hok : disconnectBestBlock db c b = .ok c') :
    Indexed g c' ∧ c'.store.toFiles = c.store.toFiles ∧ c'.latest.hash = b.previous := by
  obtain ⟨hhash, hok⟩ := ite_error_eq_ok.mp hok
  rw [not_not] at hhash
  obtain rfl := ht.unique hc.stored hb hhash
  cases hget : db.getBlockByHash c.latest.previous with
  | none =>
    rw [hget] at hok
    cases hok
  | some prev =>
    rw [hget] at hok
    cases hok
    obtain ⟨hprev, hhashp⟩ := hdb.getBlockByHash hget
    have hheight := ht.height_eq hh hc.stored (hsub prev hprev) hhashp
    refine ⟨⟨hsub prev hprev, ?_, rfl⟩, rfl, hhashp⟩
    change IsSpine (Edge c.store.toFiles) _ (c.store.bestHash.delete c.latest.height).get
      prev.height prev.hash
    have hspine := hc.spine
    rw [hheight] at hspine
    rw [get_delete_eq_update, hheight]
    apply hspine.pop
    rintro x ⟨a, ha, heq, rfl⟩
    rw [ht.unique ha hc.stored heq, hhashp]

/-! ## Going down the branches -/

/-- Stored blocks from the one with hash `top` down to the child of `foot`. -/
structure IsBranch (f : Files) (top foot : Hash) (blocks : List PovBlock) : Prop where
  linked : Branch PovBlock.hash PovBlock.previous foot blocks
  tip_eq : tip PovBlock.hash foot blocks = top
  stored : ∀ b ∈ blocks, Stored f b

namespace IsBranch

variable {top mid foot : Hash} {as bs : List PovBlock}

theorem nil : IsBranch f foot foot [] := ⟨trivial, rfl, by simp⟩

theorem cons (h : IsBranch f mid foot bs) (hb : Stored f b) (hprev : b.previous = mid) :
    IsBranch f b.hash foot (b :: bs) where
  linked := ⟨hprev.trans h.tip_eq.symm, h.linked⟩
  tip_eq := rfl
  stored := by
    intro a ha
    rcases mem_cons.mp ha with rfl | ha
    · exact hb
    · exact h.stored a ha

theorem append (has : IsBranch f top mid as) (hbs : IsBranch f mid foot bs) :
    IsBranch f top foot (as ++ bs) where
  linked := by
    apply Branch.append _ hbs.linked
    rw [hbs.tip_eq]
    exact has.linked
  tip_eq := by rw [tip_append, hbs.tip_eq, has.tip_eq]
  stored := by
    intro a ha
    rcases mem_append.mp ha with ha | ha
    · exact has.stored a ha
    · exact hbs.stored a ha

end IsBranch

variable {blocks : List PovBlock}

theorem collectBlocks_spec (hh : Hashed g known) (ht : Tree g known f) (hdb : Tree g known db)
    (hsub : ∀ a, Stored db a → Stored f a) {n : ℕ} {last : PovBlock} (hb : Stored f b)
    (hn : n ≤ b.height) (hok : collectBlocks db n b = .ok (blocks, last)) :
    IsBranch f b.hash last.hash blocks ∧ Stored f last ∧ last.height + n = b.height := by
  induction n generalizing b blocks with
  | zero =>
    cases hok
    exact ⟨IsBranch.nil, hb, rfl⟩
  | succ n ih =>
    rw [collectBlocks] at hok
    -- only the genesis block has no parent, and it is not above the height aimed at
    have hprev : b.previous ≠ 0 := by
      intro hzero
      have hgenesis := ht.eq_genesis hh hb hzero
      rw [hgenesis, g.height_eq] at hn
      omega
    rw [if_neg hprev] at hok
    cases hget : db.getBlockByHash b.previous with
    | none =>
      rw [hget] at hok
      cases hok
    | some prev =>
      rw [hget] at hok
      obtain ⟨⟨blocks', last'⟩, hrec, hret⟩ := bind_eq_ok.mp hok
      cases hret
      obtain ⟨hstored, hhash⟩ := hdb.getBlockByHash hget
      have hheight := ht.height_eq hh hb (hsub prev hstored) hhash
      obtain ⟨hbranch, hlast, hsum⟩ := ih (hsub prev hstored) (by omega) hrec
      exact ⟨hbranch.cons hb hhash.symm, hlast, by omega⟩

variable {point : ForkPoint} {calls : List (PovBlock × Bool)}

theorem findForkPoint_spec (hdb : Tree g known db) (hsub : ∀ a, Stored db a → Stored f a) {fuel : ℕ}
    {attach detach : PovBlock} (ha : Stored f attach) (hd : Stored f detach)
    (hok : findForkPoint db fuel attach detach = .ok point) :
    IsBranch f attach.hash point.forkHash point.attach ∧
      IsBranch f detach.hash point.forkHash point.detach := by
  induction fuel generalizing attach detach point with
  | zero => cases hok
  | succ fuel ih =>
    rw [findForkPoint] at hok
    by_cases hmeet : attach.previous = detach.previous
    · rw [if_pos hmeet] at hok
      cases hok
      exact ⟨IsBranch.nil.cons ha rfl, IsBranch.nil.cons hd hmeet.symm⟩
    · rw [if_neg hmeet] at hok
      cases hgeta : db.getBlockByHash attach.previous with
      | none =>
        rw [hgeta] at hok
        cases hok
      | some prevAttach =>
        cases hgetd : db.getBlockByHash detach.previous with
        | none =>
          rw [hgeta, hgetd] at hok
          cases hok
        | some prevDetach =>
          rw [hgeta, hgetd] at hok
          obtain ⟨rest, hrec, hret⟩ := bind_eq_ok.mp hok
          cases hret
          obtain ⟨hsa, hha⟩ := hdb.getBlockByHash hgeta
          obtain ⟨hsd, hhd⟩ := hdb.getBlockByHash hgetd
          obtain ⟨hattach, hdetach⟩ := ih (hsub _ hsa) (hsub _ hsd) hrec
          exact ⟨hattach.cons ha hha.symm, hdetach.cons hd hhd.symm⟩

theorem branches_spec (hh : Hashed g known) (ht : Tree g known f) (hdb : Tree g known db)
    (hsub : ∀ a, Stored db a → Stored f a) {oldHead new : PovBlock} (hold : Stored f oldHead)
    (hnew : Stored f new) (hok : branches db oldHead new = .ok point) :
    IsBranch f new.hash point.forkHash point.attach ∧
      IsBranch f oldHead.hash point.forkHash point.detach := by
  obtain ⟨⟨attach, attachBlock⟩, hcollectA, hok⟩ := bind_eq_ok.mp hok
  obtain ⟨⟨detach, detachBlock⟩, hcollectD, hok⟩ := bind_eq_ok.mp hok
  obtain ⟨_, hok⟩ := ite_error_eq_ok.mp hok
  obtain ⟨rest, hfind, hret⟩ := bind_eq_ok.mp hok
  cases hret
  obtain ⟨hattach, hsa, _⟩ := collectBlocks_spec hh ht hdb hsub hnew (by omega) hcollectA
  obtain ⟨hdetach, hsd, _⟩ := collectBlocks_spec hh ht hdb hsub hold (by omega) hcollectD
  obtain ⟨hrestA, hrestD⟩ := findForkPoint_spec hdb hsub hsa hsd hfind
  exact ⟨hattach.append hrestA, hdetach.append hrestD⟩

/-! ## Reorganisations -/

theorem Indexed.detach (hh : Hashed g known) (hdb : Tree g known db) {foot : Hash}
    (hc : Indexed g c) (ht : Tree g known c.store.toFiles)
    (hsub : ∀ a, Stored db a → Stored c.store.toFiles a)
    (hbranch : IsBranch c.store.toFiles c.latest.hash foot blocks)
    (hok : blocks.foldlM (Pov.disconnectBestBlock db) c = .ok c') :
    Indexed g c' ∧ c'.store.toFiles = c.store.toFiles ∧ c'.latest.hash = foot := by
  induction blocks generalizing c with
  | nil =>
    cases hok
    exact ⟨hc, rfl, hbranch.tip_eq.symm⟩
  | cons b blocks ih =>
    rw [foldlM_cons] at hok
    obtain ⟨c₁, hfirst, hok⟩ := bind_eq_ok.mp hok
    obtain ⟨hc₁, hfiles, hhash⟩ :=
      hc.disconnectBestBlock hh ht hdb hsub (hbranch.stored b mem_cons_self) hfirst
    have hrest : IsBranch c₁.store.toFiles c₁.latest.hash foot blocks := by
      rw [hfiles, hhash]
      exact ⟨hbranch.linked.2, hbranch.linked.1.symm,
        fun a ha => hbranch.stored a (mem_cons_of_mem _ ha)⟩
    obtain ⟨hc', hfiles', hfoot⟩ := ih hc₁ (hfiles ▸ ht) (hfiles ▸ hsub) hrest hok
    exact ⟨hc', hfiles'.trans hfiles, hfoot⟩

theorem Indexed.attach {top : Hash} (hc : Indexed g c)
    (hbranch : IsBranch c.store.toFiles top c.latest.hash blocks)
    (hok : blocks.reverse.foldlM Pov.connectBestBlock c = .ok c') :
    Indexed g c' ∧ c'.store.toFiles = c.store.toFiles ∧ c'.latest.hash = top := by
  induction blocks generalizing top c' with
  | nil =>
    cases hok
    exact ⟨hc, rfl, hbranch.tip_eq⟩
  | cons b blocks ih =>
    rw [reverse_cons, foldlM_append] at hok
    obtain ⟨c₁, hrest, hok⟩ := bind_eq_ok.mp hok
    obtain ⟨hc₁, hfiles, hlatest⟩ := ih ⟨hbranch.linked.2, rfl,
      fun a ha => hbranch.stored a (mem_cons_of_mem _ ha)⟩ hrest
    rw [foldlM_cons] at hok
    obtain ⟨c₂, hlast, hret⟩ := bind_eq_ok.mp hok
    cases hret
    have hstored : Stored c₁.store.toFiles b := hfiles ▸ hbranch.stored b mem_cons_self
    obtain ⟨hc₂, hfiles₂, hb⟩ :=
      hc₁.connectBestBlock hstored (hbranch.linked.1.trans hlatest.symm) hlast
    refine ⟨hc₂, hfiles₂.trans hfiles, ?_⟩
    rw [hb]
    exact hbranch.tip_eq

theorem Indexed.processFork (hh : Hashed g known) (hdb : Tree g known db) (hc : Indexed g c)
    (ht : Tree g known c.store.toFiles) (hsub : ∀ a, Stored db a → Stored c.store.toFiles a)
    {new fork : PovBlock} (hnew : Stored c.store.toFiles new)
    (hok : processFork g db c new = .ok (fork, c')) :
    Indexed g c' ∧ c'.store.toFiles = c.store.toFiles ∧ c'.latest.hash = new.hash := by
  obtain ⟨point, hbranches, hok⟩ := bind_eq_ok.mp hok
  obtain ⟨fork', _, hok⟩ := bind_eq_ok.mp hok
  obtain ⟨_, hok⟩ := ite_error_eq_ok.mp hok
  obtain ⟨c₁, hdetach, hok⟩ := bind_eq_ok.mp hok
  obtain ⟨c₂, hattach, hret⟩ := bind_eq_ok.mp hok
  cases hret
  obtain ⟨hnewBranch, holdBranch⟩ := branches_spec hh ht hdb hsub hc.stored hnew hbranches
  obtain ⟨hc₁, hfiles₁, hfoot⟩ := hc.detach hh hdb ht hsub holdBranch hdetach
  obtain ⟨hc₂, hfiles₂, htop⟩ := hc₁.attach (by rw [hfiles₁, hfoot]; exact hnewBranch) hattach
  exact ⟨hc₂, hfiles₂.trans hfiles₁, htop⟩

/-! ## Whole runs -/

structure Inv (g : Genesis) (known : List PovBlock) (c : Chain) : Prop where
  tree : Tree g known c.store.toFiles
  indexed : Indexed g c

theorem inv_resetWithGenesisBlock : Inv g known (resetWithGenesisBlock g) := by
  have hstored : ∀ b, Stored (resetWithGenesisBlock g).store.toFiles b ↔ b = g.block := by
    intro b
    have hput := @stored_put ⟨∅, ∅, ∅⟩ b g.block
      (Table.put ∅ (g.block.height, g.block.hash) g.block.work)
      (Table.put ∅ g.block.hash g.block.height) (get_empty _)
    refine hput.trans (or_iff_left ?_)
    intro hnone
    exact absurd ((get_empty _).symm.trans hnone) (by simp)
  refine ⟨⟨?_, ?_, ?_, ?_, (hstored _).mpr rfl⟩, ⟨(hstored _).mpr rfl, ?_, rfl⟩⟩
  · intro h x b hb
    change (Table.put ∅ (g.block.height, g.block.hash) g.block).get (h, x) = some b at hb
    rw [get_put, get_empty] at hb
    obtain ⟨hkey, hb⟩ := ite_none_right_eq_some.mp hb
    cases hb
    obtain ⟨rfl, rfl⟩ := Prod.mk.inj hkey
    exact ⟨rfl, rfl, mem_cons_self⟩
  · intro x h
    simp only [hstored, exists_eq_left]
    change (Table.put ∅ g.block.hash g.block.height).get x = some h ↔ _
    rw [get_put, get_empty, ite_none_right_eq_some, Option.some.injEq, eq_comm]
  · intro h x htd
    simp only [hstored, exists_eq_left]
    change ((Table.put ∅ (g.block.height, g.block.hash) g.block.work).get (h, x)).isSome at htd
    rw [get_put, get_empty] at htd
    split_ifs at htd with hkey
    · obtain ⟨rfl, rfl⟩ := Prod.mk.inj hkey
      exact ⟨rfl, rfl⟩
    · cases htd
  · intro b hb
    exact Or.inl ((hstored b).mp hb)
  · change IsSpine _ _ (Table.put ∅ g.block.height g.block.hash).get g.block.height g.block.hash
    rw [g.height_eq]
    refine IsSpine.single (get_put_self ..) ?_
    intro i hi
    rw [get_put_of_ne _ (by omega), get_empty]

section
variable (hinv : Inv g known c) (hh : Hashed g known) (hb : b ∈ known)

include hinv hh hb

theorem Inv.addPovBlock {prevTD : ℕ} (hprev : c.store.previousTD b = some prevTD) (td : ℕ) :
    Inv g known (c.addPovBlock b td) ∧
      ∀ a, Stored (c.addPovBlock b td).store.toFiles a ↔ a = b ∨ Stored c.store.toFiles a := by
  obtain ⟨p, hp, hhash, hheight⟩ := hinv.tree.previousTD hprev
  obtain ⟨htree, hstored⟩ := hinv.tree.addPovBlock hh hb hp hhash hheight td
  refine ⟨⟨htree, ⟨(hstored _).mpr (Or.inr hinv.indexed.stored), ?_, hinv.indexed.latestHeight⟩⟩,
    hstored⟩
  apply hinv.indexed.spine.mono
  rintro x y ⟨a, ha, hxy⟩
  exact ⟨a, (hstored a).mpr (Or.inr ha), hxy⟩

variable {coin : Bool} {state : ChainState} {fork : Option PovBlock}

theorem Inv.insertBlock_spec (hok : insertBlock g coin c b = .ok (state, fork, c')) :
    ∃ bestTD prevTD, c.store.td.get (c.latest.height, c.latest.hash) = some bestTD ∧
      c.store.previousTD b = some prevTD ∧ Indexed g c' ∧
      c'.store.toFiles = (c.addPovBlock b (prevTD + b.work)).store.toFiles ∧
      if isBest coin (prevTD + b.work) bestTD b c.latest then c'.latest.hash = b.hash
      else c'.latest = c.latest := by
  unfold Pov.insertBlock at hok
  cases hbest : c.store.td.get (c.latest.height, c.latest.hash) with
  | none =>
    rw [hbest] at hok
    cases hok
  | some bestTD =>
    cases hprev : c.store.previousTD b with
    | none =>
      rw [hbest, hprev] at hok
      cases hok
    | some prevTD =>
      rw [hbest, hprev] at hok
      obtain ⟨hfile, hstored⟩ := hinv.addPovBlock hh hb hprev (prevTD + b.work)
      have hnew := (hstored b).mpr (Or.inl rfl)
      have hsub : ∀ a, Stored c.store.toFiles a →
          Stored (c.addPovBlock b (prevTD + b.work)).store.toFiles a :=
        fun a ha => (hstored a).mpr (Or.inr ha)
      dsimp only at hok
      refine ⟨bestTD, prevTD, rfl, rfl, ?_⟩
      split_ifs at hok ⊢ with hisBest hextend
      · obtain ⟨c₁, hconnect, hret⟩ := bind_eq_ok.mp hok
        cases hret
        obtain ⟨hc', hfiles, hlatest⟩ := hfile.indexed.connectBestBlock hnew hextend hconnect
        exact ⟨hc', hfiles, congrArg PovBlock.hash hlatest⟩
      · obtain ⟨⟨fork₁, c₁⟩, hfork, hret⟩ := bind_eq_ok.mp hok
        cases hret
        exact hfile.indexed.processFork hh hinv.tree hfile.tree hsub hnew hfork
      · cases hok
        exact ⟨hfile.indexed, rfl, rfl⟩

theorem Inv.insertBlock (hok : insertBlock g coin c b = .ok (state, fork, c')) :
    Inv g known c' ∧ ∀ a, Stored c'.store.toFiles a ↔ a = b ∨ Stored c.store.toFiles a := by
  obtain ⟨bestTD, prevTD, _, hprev, hindexed, hfiles, _⟩ := hinv.insertBlock_spec hh hb hok
  obtain ⟨hfile, hstored⟩ := hinv.addPovBlock hh hb hprev (prevTD + b.work)
  exact ⟨⟨hfiles ▸ hfile.tree, hindexed⟩, hfiles ▸ hstored⟩

end

theorem insertAll_cons {call : PovBlock × Bool} :
    insertAll g c (call :: calls) = .ok c' ↔
      ∃ state fork c₁, insertBlock g call.2 c call.1 = .ok (state, fork, c₁) ∧
        insertAll g c₁ calls = .ok c' := by
  unfold insertAll
  rw [foldlM_cons, bind_eq_ok]
  constructor
  · rintro ⟨c₁, hfirst, hrest⟩
    obtain ⟨⟨state, fork, c₂⟩, hinsert, hret⟩ := bind_eq_ok.mp hfirst
    obtain rfl := Except.ok.inj hret
    exact ⟨state, fork, c₂, hinsert, hrest⟩
  · rintro ⟨state, fork, c₁, hinsert, hrest⟩
    exact ⟨c₁, bind_eq_ok.mpr ⟨_, hinsert, rfl⟩, hrest⟩

theorem Inv.insertAll (hh : Hashed g known) (hinv : Inv g known c)
    (hcalls : ∀ call ∈ calls, call.1 ∈ known) (hok : insertAll g c calls = .ok c') :
    Inv g known c' := by
  induction calls generalizing c with
  | nil =>
    cases hok
    exact hinv
  | cons call calls ih =>
    obtain ⟨state, fork, c₁, hinsert, hrest⟩ := insertAll_cons.mp hok
    have hc₁ := (hinv.insertBlock hh (hcalls call mem_cons_self) hinsert).1
    exact ih hc₁ (fun call hcall => hcalls call (mem_cons_of_mem _ hcall)) hrest

theorem Inv.stored_at (hinv : Inv g known c) (hh : Hashed g known) {h : ℕ} {x : Hash}
    (hx : c.store.bestHash.get h = some x) :
    ∃ b, Stored c.store.toFiles b ∧ b.hash = x ∧ b.height = h := by
  refine hinv.indexed.spine.induct
    (P := fun h x => ∃ b, Stored c.store.toFiles b ∧ b.hash = x ∧ b.height = h) ?_ ?_ hx
  · exact ⟨g.block, hinv.tree.genesis, rfl, g.height_eq⟩
  · rintro i _ _ ⟨p, hp, rfl, rfl⟩ ⟨b, hb, rfl, hprev⟩
    exact ⟨b, hb, rfl, hinv.tree.height_eq hh hb hp hprev.symm⟩

def OnBest (c : Chain) (b : PovBlock) : Prop :=
  Stored c.store.toFiles b ∧ c.store.bestHash.get b.height = some b.hash

theorem OnBest.height_le (h : OnBest c b) (hc : Indexed g c) : b.height ≤ c.latest.height :=
  (hc.spine.isSome_iff _).mp (isSome_of_eq_some h.2)

theorem OnBest.eq_of_height (ha : OnBest c a) (hb : OnBest c b)
    (ht : Tree g known c.store.toFiles) (heq : a.height = b.height) : a = b :=
  ht.unique ha.1 hb.1 (Option.some.inj (by rw [← ha.2, heq, hb.2]))

theorem OnBest.parent (hb : OnBest c b) (ht : Tree g known c.store.toFiles) (hh : Hashed g known)
    (hc : Indexed g c) (hp : Stored c.store.toFiles p) (hprev : p.hash = b.previous) :
    OnBest c p := by
  have hheight := ht.height_eq hh hb.1 hp hprev
  have hsome : (c.store.bestHash.get p.height).isSome :=
    (hc.spine.isSome_iff _).mpr (by have := hb.height_le hc; omega)
  obtain ⟨x, hx⟩ := isSome_iff_exists.mp hsome
  obtain ⟨b', hb', hb'hash, rfl⟩ := hc.spine.edge hx (hheight ▸ hb.2)
  obtain rfl := ht.unique hb' hb.1 hb'hash
  exact ⟨hp, hprev ▸ hx⟩

/-- After every sequence of successful calls the best hashes are exactly the chain from the
genesis block to the latest one. -/
theorem bestHash_chain (g : Genesis) (calls : List (PovBlock × Bool)) (c : Chain)
    (hh : Hashed g (calls.map Prod.fst))
    (hok : insertAll g (resetWithGenesisBlock g) calls = .ok c) :
    (∀ h, (c.store.bestHash.get h).isSome ↔ h ≤ c.latest.height) ∧
    c.store.bestHash.get 0 = some g.block.hash ∧
    c.store.bestHash.get c.latest.height = some c.latest.hash ∧
    c.store.latestHeight = c.latest.height ∧
    (∀ h x, c.store.bestHash.get h = some x →
      ∃ b, c.store.headers.get (h, x) = some b ∧ c.store.getBlockByHash x = some b ∧
        b.height = h ∧ b.hash = x) ∧
    ∀ h x y, c.store.bestHash.get h = some x → c.store.bestHash.get (h + 1) = some y →
      ∃ b, c.store.headers.get (h + 1, y) = some b ∧ b.previous = x := by
  have hinv : Inv g (calls.map Prod.fst) c := inv_resetWithGenesisBlock.insertAll hh
    (fun call hcall => mem_map_of_mem hcall) hok
  have hspine := hinv.indexed.spine
  refine ⟨hspine.isSome_iff, hspine.base, hspine.top, hinv.indexed.latestHeight, ?_, ?_⟩
  · intro h x hx
    obtain ⟨b, hb, rfl, rfl⟩ := hinv.stored_at hh hx
    exact ⟨b, hb, hinv.tree.getBlockByHash_of_stored hh hb, rfl, rfl⟩
  · intro h x y hx hy
    obtain ⟨b, hb, rfl, hprev⟩ := hspine.edge hx hy
    obtain ⟨b', hb', heq, hheight⟩ := hinv.stored_at hh hy
    obtain rfl := hinv.tree.unique hb' hb heq
    exact ⟨b', hheight ▸ hb', hprev⟩

def smallGenesis : Genesis :=
  ⟨⟨1, 0, 0, 1⟩, rfl, rfl, by decide⟩

def forkCalls : List (PovBlock × Bool) :=
  [(⟨2, 1, 1, 1⟩, false), (⟨3, 2, 2, 1⟩, false), (⟨4, 1, 1, 1⟩, false), (⟨5, 4, 2, 3⟩, false)]

theorem hashed_forkCalls : Hashed smallGenesis (forkCalls.map Prod.fst) := by
  constructor <;> decide

/-- The best chain moves from the first branch to the second. -/
theorem bestHash_chain_fork : ∃ c, insertAll smallGenesis (resetWithGenesisBlock smallGenesis)
    forkCalls = .ok c ∧ c.latest.hash = 5 ∧ c.store.bestHash.get 1 = some 4 ∧
      c.store.bestHash.get 2 = some 5 ∧ ¬ (c.store.bestHash.get 3).isSome := by
  have hrun : (insertAll smallGenesis (resetWithGenesisBlock smallGenesis) forkCalls).toOption.any
      (fun c => decide (c.latest = ⟨5, 4, 2, 3⟩ ∧ c.store.bestHash.get 1 = some 4)) = true := by
    decide +kernel
  obtain ⟨c, hsome, hfacts⟩ := (any_eq_true _ _).mp hrun
  obtain ⟨hlatest, hone⟩ := of_decide_eq_true hfacts
  have hok := toOption_eq_some.mp hsome
  obtain ⟨hentries, _, htop, _⟩ := bestHash_chain smallGenesis forkCalls c hashed_forkCalls hok
  rw [hlatest] at hentries htop
  refine ⟨c, hok, by rw [hlatest], hone, htop, ?_⟩
  intro hthree
  exact absurd ((hentries 3).mp hthree) (by decide)

end GoQlc.Pov
