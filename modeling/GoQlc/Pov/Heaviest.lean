import GoQlc.Pov.BestChain

/-!
# The heaviest chain

The work filed with a block is the work of all headers on its path from the genesis block, and
no block has more of it than the latest one.
-/

namespace GoQlc.Pov

open List

/-- The blocks from `b` down to the genesis block. -/
inductive Path (g : Genesis) (f : Files) : PovBlock → List PovBlock → Prop where
  | genesis : Path g f g.block [g.block]
  | cons {b p : PovBlock} {blocks : List PovBlock} : Stored f b → p.hash = b.previous →
      Path g f p blocks → Path g f b (b :: blocks)

def totalWork (blocks : List PovBlock) : ℕ := (blocks.map PovBlock.work).sum

def Files.tdOf (f : Files) (b : PovBlock) : Option ℕ := f.td.get (b.height, b.hash)

structure Weighed (g : Genesis) (f : Files) : Prop where
  genesis : f.tdOf g.block = some g.block.work
  stored : ∀ b, Stored f b → ∃ w, f.tdOf b = some w
  parent : ∀ b p w, Stored f b → Stored f p → p.hash = b.previous → f.tdOf p = some w →
    f.tdOf b = some (w + b.work)

variable {g : Genesis} {known : List PovBlock} {f : Files} {a b p : PovBlock} {c c' : Chain}
  {blocks : List PovBlock}

theorem Path.stored (ht : Tree g known f) (h : Path g f b blocks) : Stored f b := by
  cases h with
  | genesis => exact ht.genesis
  | cons hb _ _ => exact hb

theorem Path.tdOf (ht : Tree g known f) (hw : Weighed g f) (h : Path g f b blocks) :
    f.tdOf b = some (totalWork blocks) := by
  induction h with
  | genesis => exact hw.genesis
  | cons hb hprev hp ih =>
    rw [hw.parent _ _ _ hb (hp.stored ht) hprev ih]
    unfold totalWork
    rw [map_cons, sum_cons, Nat.add_comm]

theorem Tree.exists_path (ht : Tree g known f) (hb : Stored f b) : ∃ blocks, Path g f b blocks := by
  -- parents stand one lower, down to the genesis block
  induction hn : b.height using Nat.strong_induction_on generalizing b with
  | _ n ih =>
  rcases ht.parent b hb with rfl | ⟨p, hp, hprev, hheight⟩
  · exact ⟨_, .genesis⟩
  · obtain ⟨blocks, hpath⟩ := ih p.height (by omega) hp rfl
    exact ⟨_, .cons hb hprev hpath⟩

theorem Tree.previousTD_eq (ht : Tree g known f) {td : ℕ} (hget : f.previousTD b = some td) :
    ∃ p, Stored f p ∧ p.hash = b.previous ∧ b.height = p.height + 1 ∧ f.tdOf p = some td := by
  obtain ⟨p, hp, hprev, hheight⟩ := ht.previousTD hget
  obtain ⟨_, htd⟩ := Option.ite_none_left_eq_some.mp hget
  refine ⟨p, hp, hprev, hheight, ?_⟩
  unfold Files.tdOf
  rw [hprev, ← htd, hheight, Nat.add_sub_cancel]

theorem Weighed.addPovBlock (hw : Weighed g f) (ht : Tree g known f) (hh : Hashed g known)
    (hb : b ∈ known) {prevTD : ℕ} (hprev : f.previousTD b = some prevTD) :
    Weighed g (f.addPovBlock b (prevTD + b.work)) ∧
      (f.addPovBlock b (prevTD + b.work)).tdOf b = some (prevTD + b.work) ∧
      ∀ a, Stored f a → (f.addPovBlock b (prevTD + b.work)).tdOf a = f.tdOf a := by
  obtain ⟨q, hq, hqb, hheight, htd⟩ := ht.previousTD_eq hprev
  obtain ⟨_, hstored⟩ := ht.addPovBlock hh hb hq hqb hheight (prevTD + b.work)
  rcases ht.addPovBlock_cases hh hb hq hqb hheight (prevTD + b.work) with
    ⟨hfiled, heq⟩ | ⟨hfresh, _, heq⟩
  · rw [heq]
    exact ⟨hw, hw.parent b q prevTD hfiled hq hqb htd, fun _ _ => rfl⟩
  · have hnew : (f.addPovBlock b (prevTD + b.work)).tdOf b = some (prevTD + b.work) := by
      rw [heq]
      exact Table.get_put_self ..
    have hold : ∀ a, Stored f a → (f.addPovBlock b (prevTD + b.work)).tdOf a = f.tdOf a := by
      intro a ha
      rw [heq]
      change (f.td.put (b.height, b.hash) _).get (a.height, a.hash) = _
      rw [Table.get_put_of_ne]
      · rfl
      · exact fun hkey => hfresh a ha (Prod.mk.inj hkey).2
    refine ⟨⟨?_, ?_, ?_⟩, hnew, hold⟩
    · rw [hold _ ht.genesis]
      exact hw.genesis
    · intro a ha
      rcases (hstored a).mp ha with rfl | ha
      · exact ⟨_, hnew⟩
      · rw [hold a ha]
        exact hw.stored a ha
    · intro a p w ha hp hpa hwp
      rcases (hstored a).mp ha with rfl | ha'
      · -- the parent of the new block is the one whose work has been read
        have hp' : Stored f p := by
          rcases (hstored p).mp hp with rfl | hp
          · exact absurd (hqb.trans hpa.symm) (hfresh q hq)
          · exact hp
        rw [ht.unique hp' hq (hpa.trans hqb.symm), hold q hq, htd] at hwp
        rw [hnew, Option.some.inj hwp]
      · have hp' : Stored f p := by
          rcases (hstored p).mp hp with rfl | hp
          · rcases ht.parent a ha' with rfl | ⟨r, hr, hra, _⟩
            · exact absurd (hpa.trans g.previous_eq) (hh.ne_zero p hb)
            · exact absurd (hra.trans hpa.symm) (hfresh r hr)
          · exact hp
        rw [hold p hp'] at hwp
        rw [hold a ha']
        exact hw.parent a p w ha' hp' hpa hwp

structure Heaviest (g : Genesis) (c : Chain) : Prop where
  weighed : Weighed g c.store.toFiles
  best : ∀ a w bestTD, Stored c.store.toFiles a → c.store.tdOf a = some w →
    c.store.tdOf c.latest = some bestTD → w ≤ bestTD

theorem heaviest_resetWithGenesisBlock : Heaviest g (resetWithGenesisBlock g) := by
  have hinv : Inv g [] (resetWithGenesisBlock g) := inv_resetWithGenesisBlock
  have hgenesis : (resetWithGenesisBlock g).store.tdOf g.block = some g.block.work :=
    Table.get_put_self ..
  have honly : ∀ b, Stored (resetWithGenesisBlock g).store.toFiles b → b = g.block := fun b hb =>
    mem_singleton.mp (hinv.tree.mem hb)
  refine ⟨⟨hgenesis, fun b hb => ?_, fun b p w hb hp hpb _ => ?_⟩, fun a w bestTD ha hw hbest => ?_⟩
  · rw [honly b hb]
    exact ⟨_, hgenesis⟩
  · rw [honly b hb, honly p hp, g.previous_eq] at hpb
    exact absurd hpb g.hash_ne
  · rw [honly a ha] at hw
    exact le_of_eq (Option.some.inj (hw.symm.trans hbest))

theorem le_of_isBest {coin : Bool} {blockTD bestTD : ℕ} (h : isBest coin blockTD bestTD a b = true) :
    bestTD ≤ blockTD := by
  simp only [isBest, Bool.or_eq_true, Bool.and_eq_true, decide_eq_true_eq, beq_iff_eq] at h
  omega

theorem le_of_not_isBest {coin : Bool} {blockTD bestTD : ℕ}
    (h : ¬ isBest coin blockTD bestTD a b = true) : blockTD ≤ bestTD := by
  simp only [isBest, Bool.or_eq_true, decide_eq_true_eq, not_or] at h
  omega

theorem Heaviest.insertBlock (hc : Heaviest g c) (hinv : Inv g known c) (hh : Hashed g known)
    (hb : b ∈ known) {coin : Bool} {state : ChainState} {fork : Option PovBlock}
    (hok : insertBlock g coin c b = .ok (state, fork, c')) : Heaviest g c' := by
  obtain ⟨hinv', hstored⟩ := hinv.insertBlock hh hb hok
  obtain ⟨bestTD, prevTD, hbest, hprev, _, hfiles, hlatest⟩ := hinv.insertBlock_spec hh hb hok
  obtain ⟨hw, hnew, hold⟩ := hc.weighed.addPovBlock hinv.tree hh hb hprev
  change c'.store.toFiles = c.store.addPovBlock b (prevTD + b.work) at hfiles
  rw [← hfiles] at hw hnew hold
  refine ⟨hw, fun a w td ha hwa htd => ?_⟩
  have hle : Stored c.store.toFiles a → w ≤ bestTD := fun ha => by
    rw [hold a ha] at hwa
    exact hc.best a w bestTD ha hwa hbest
  split_ifs at hlatest with hisBest
  · have hb' := (hstored b).mpr (Or.inl rfl)
    rw [hinv'.tree.unique hinv'.indexed.stored hb' hlatest, hnew] at htd
    cases htd
    rcases (hstored a).mp ha with rfl | ha
    · exact le_of_eq (Option.some.inj (hwa.symm.trans hnew))
    · exact (hle ha).trans (le_of_isBest hisBest)
  · rw [hlatest, hold _ hinv.indexed.stored] at htd
    obtain rfl := Option.some.inj (hbest.symm.trans htd)
    rcases (hstored a).mp ha with rfl | ha
    · obtain rfl := Option.some.inj (hwa.symm.trans hnew)
      exact le_of_not_isBest hisBest
    · exact hle ha

theorem Heaviest.insertAll (hh : Hashed g known) {calls : List (PovBlock × Bool)}
    (hc : Heaviest g c) (hinv : Inv g known c) (hcalls : ∀ call ∈ calls, call.1 ∈ known)
    (hok : insertAll g c calls = .ok c') :
    Heaviest g c' ∧ (∀ a, Stored c.store.toFiles a → Stored c'.store.toFiles a) ∧
      ∀ call ∈ calls, Stored c'.store.toFiles call.1 := by
  induction calls generalizing c with
  | nil =>
    cases hok
    exact ⟨hc, fun _ ha => ha, fun _ hcall => absurd hcall not_mem_nil⟩
  | cons call calls ih =>
    obtain ⟨state, fork, c₁, hinsert, hrest⟩ := insertAll_cons.mp hok
    have hmem := hcalls call mem_cons_self
    obtain ⟨hinv₁, hstored⟩ := hinv.insertBlock hh hmem hinsert
    obtain ⟨hc', hkept, hnew⟩ := ih (hc.insertBlock hinv hh hmem hinsert) hinv₁
      (fun call hcall => hcalls call (mem_cons_of_mem _ hcall)) hrest
    refine ⟨hc', fun a ha => hkept a ((hstored a).mpr (Or.inr ha)), ?_⟩
    intro call' hcall
    rcases mem_cons.mp hcall with rfl | hcall
    · exact hkept _ ((hstored _).mpr (Or.inl rfl))
    · exact hnew call' hcall

/-- After every sequence of successful calls the blocks on the path of the latest block have at
least as much work as those on the path of any block stored so far. -/
theorem latest_heaviest (g : Genesis) (calls : List (PovBlock × Bool)) (c : Chain)
    (hh : Hashed g (calls.map Prod.fst))
    (hok : insertAll g (resetWithGenesisBlock g) calls = .ok c) :
    (∀ call ∈ calls, Stored c.store.toFiles call.1) ∧
    (∀ a, Stored c.store.toFiles a → ∃ path, Path g c.store.toFiles a path) ∧
    (∀ a path, Path g c.store.toFiles a path →
      c.store.td.get (a.height, a.hash) = some (totalWork path)) ∧
    ∃ best, Path g c.store.toFiles c.latest best ∧
      ∀ a path, Path g c.store.toFiles a path → totalWork path ≤ totalWork best := by
  have hcalls : ∀ call ∈ calls, call.1 ∈ calls.map Prod.fst := fun _ => mem_map_of_mem
  have hinv := inv_resetWithGenesisBlock.insertAll hh hcalls hok
  obtain ⟨hheavy, _, hcalled⟩ :=
    heaviest_resetWithGenesisBlock.insertAll hh inv_resetWithGenesisBlock hcalls hok
  have htd : ∀ a path, Path g c.store.toFiles a path →
      c.store.tdOf a = some (totalWork path) := fun a path hpath =>
    hpath.tdOf hinv.tree hheavy.weighed
  obtain ⟨best, hbest⟩ := hinv.tree.exists_path hinv.indexed.stored
  refine ⟨hcalled, fun a => hinv.tree.exists_path, htd, best, hbest, fun a path hpath => ?_⟩
  exact hheavy.best a _ _ (hpath.stored hinv.tree) (htd a path hpath) (htd _ best hbest)

theorem latest_heaviest_fork : ∃ c best, insertAll smallGenesis (resetWithGenesisBlock smallGenesis)
    forkCalls = .ok c ∧ c.latest.hash = 5 ∧ Path smallGenesis c.store.toFiles c.latest best ∧
      ∀ a path, Path smallGenesis c.store.toFiles a path → totalWork path ≤ totalWork best := by
  have hrun : (insertAll smallGenesis (resetWithGenesisBlock smallGenesis) forkCalls).toOption.any
      (fun c => decide (c.latest.hash = 5)) = true := by decide +kernel
  obtain ⟨c, hsome, hlatest⟩ := (Option.any_eq_true _ _).mp hrun
  have hok := Result.toOption_eq_some.mp hsome
  obtain ⟨_, _, _, best, hpath, hle⟩ :=
    latest_heaviest smallGenesis forkCalls c hashed_forkCalls hok
  exact ⟨c, best, hok, of_decide_eq_true hlatest, hpath, hle⟩

end GoQlc.Pov
