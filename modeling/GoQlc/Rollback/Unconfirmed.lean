import Mathlib.Data.List.Sort
import GoQlc.Config.Devnet
import GoQlc.Process.Unconfirmed
import GoQlc.Properties.MergedAccount

/-!
# Rollback of unconfirmed blocks

`RollbackCache` removes a block of the unconfirmed cache with those that follow it.
-/

namespace GoQlc

open AccountMeta List Table StateBlock

namespace BlockCache

def updateAccountMeteCache (am : AccountMeta) (c : BlockCache) : Except RollbackError BlockCache :=
  match c.accounts.get am.address with
  | none => .error (.accountNotFound am.address)
  | some _ => .ok { c with accounts := c.accounts.put am.address am }

def deleteTokenMetaCache (address : Address) (tokenType : Hash) (c : BlockCache) :
    Except RollbackError BlockCache :=
  match c.accounts.get address with
  | none => .error (.accountNotFound address)
  | some am =>
    c.updateAccountMeteCache { am with tokens := am.tokens.eraseP fun tm => tm.type == tokenType }

def rollbackCacheAccountDel (address : Address) (token : Hash) (c : BlockCache) :
    Except RollbackError BlockCache :=
  match c.accounts.get address with
  | none => .ok c
  | some ac =>
    match ac.token token with
    | none => .ok c
    | some _ =>
      if ac.tokens.length = 1 then .ok { c with accounts := c.accounts.delete address }
      else c.deleteTokenMetaCache address token

end BlockCache

namespace Env

open BlockCache

variable (env : Env)

/-- Rewinds the account to the previous block, which the store `s` may have. -/
def rollbackCacheAccount (s : BlockCache) (block : StateBlock) (c : BlockCache) :
    Except RollbackError BlockCache :=
  match c.accounts.get block.address, s.blocks.get block.previous with
  | some ac, some pre =>
    match ac.token block.token with
    | none => .ok c
    | some _ =>
      c.updateAccountMeteCache
        { setCoins pre ac with
          tokens := updateToken (env.previousTokenMeta pre) block.token ac.tokens }
  | _, _ => .ok c

def rollbackCacheBlock (s : BlockCache) (block : StateBlock) (c : BlockCache) :
    Except RollbackError BlockCache :=
  let c := { c with blocks := c.blocks.delete (block.getHash env.hashData) }
  if (s.blocks.get block.previous).isSome then env.rollbackCacheAccount s block c
  else c.rollbackCacheAccountDel block.address block.token

/-- The last block is undone first. Without `cache` the token meta goes at once. -/
def rollbackCacheBlocks (s : BlockCache) (blocks : List StateBlock) (cache : Bool)
    (c : BlockCache) : Except RollbackError BlockCache :=
  match blocks with
  | [] => .ok c
  | blk :: _ =>
    if cache then blocks.foldrM (env.rollbackCacheBlock s) c
    else
      rollbackCacheAccountDel blk.address blk.token
        { c with blocks := blocks.foldl (fun t b => t.delete (b.getHash env.hashData)) c.blocks }

/-- The blocks of the cache that are in the chain of `block`, in the order of the iterator. -/
def blocksOfChain (order : MapOrder) (s : BlockCache) (block : StateBlock) : List StateBlock :=
  (order.arrange s.blocks.values).filter fun b =>
    block.address == b.address && block.token == b.token

/-- Another block that has the link of `block`, the first in the order of the iterator. -/
def sameLink (blocks : List StateBlock) (block : StateBlock) : Option StateBlock :=
  blocks.find? fun b =>
    block.link == b.link && block.getHash env.hashData != b.getHash env.hashData

def firstToRoll (blocks : List StateBlock) (block : StateBlock) : StateBlock :=
  if block.isReceiveBlock then
    match env.sameLink blocks block with
    | some b => if block.timestamp < b.timestamp then b else block
    | none => block
  else block

-- The sort does not matter to the search where every block has one child at most.
def blocksToRoll (blocks : List StateBlock) (rollBlock : StateBlock) : Option (List StateBlock) :=
  let tempBlocks := (blocks.filter fun b => rollBlock.timestamp ≤ b.timestamp).insertionSort
    fun a b => a.timestamp ≤ b.timestamp
  (Descent.descend (getHash env.hashData) previous tempBlocks
    (tempBlocks.length + 1) rollBlock).map (rollBlock :: ·)

/-- `RollbackCache` with the transaction it writes. A circle of blocks has no end. -/
def rollbackCache (order : MapOrder) (s : BlockCache) (hash : Hash) :
    Except RollbackError BlockCache :=
  match s.blocks.get hash with
  | none => .ok s
  | some block =>
    let blocks := blocksOfChain order s block
    match env.blocksToRoll blocks (env.firstToRoll blocks block) with
    | none => .error .endless
    | some rollBlocks => env.rollbackCacheBlocks s rollBlocks true s

end Env

/-! ## What one block undoes -/

variable {am : AccountMeta}

namespace AccountMeta

theorem OneEach.eraseP (h : am.OneEach) (type : Hash) :
    OneEach { am with tokens := am.tokens.eraseP fun tm => tm.type == type } :=
  h.sublist (eraseP_sublist.map _)

theorem OneEach.token_eraseP (h : am.OneEach) (type : Hash) :
    token { am with tokens := am.tokens.eraseP fun tm => tm.type == type } type = none := by
  unfold OneEach at h
  unfold token
  dsimp only
  generalize am.tokens = tms at h ⊢
  induction tms with
  | nil => rfl
  | cons tm tms ih =>
    rw [map_cons, nodup_cons] at h
    by_cases htype : tm.type = type
    · rw [eraseP_cons_of_pos (by simpa using htype), List.find?_eq_none]
      intro tm' hmem heq
      exact h.1 (htype ▸ (beq_iff_eq.mp heq) ▸ mem_map_of_mem hmem)
    · rw [eraseP_cons_of_neg (by simpa using htype),
        List.find?_cons_of_neg (by simpa using htype)]
      exact ih h.2

end AccountMeta

def AccountsKept (accounts : Table Address AccountMeta) : Prop :=
  ∀ a am, accounts.get a = some am → am.address = a ∧ am.OneEach

namespace AccountsKept

variable {accounts : Table Address AccountMeta} {address : Address}

theorem put (h : AccountsKept accounts) (haddress : am.address = address) (hone : am.OneEach) :
    AccountsKept (accounts.put address am) := by
  intro a am' hget
  rw [get_put] at hget
  split_ifs at hget with ha
  · cases hget
    exact ⟨haddress.trans ha.symm, hone⟩
  · exact h a am' hget

theorem delete (h : AccountsKept accounts) (address : Address) :
    AccountsKept (accounts.delete address) := by
  intro a am hget
  rw [get_delete] at hget
  split_ifs at hget with ha
  exact h a am hget

end AccountsKept

namespace BlockCache

variable {c : BlockCache} {address : Address} {token : Hash}

theorem updateAccountMeteCache_spec (h : AccountsKept c.accounts) {am' : AccountMeta}
    (hget : c.accounts.get address = some am) (hone : am'.OneEach)
    (haddress : am'.address = address) :
    ∃ accounts, c.updateAccountMeteCache am' = .ok { c with accounts } ∧ AccountsKept accounts ∧
      ∀ token, cachedHead accounts address token = am'.token token := by
  subst haddress
  refine ⟨_, by rw [updateAccountMeteCache, hget], h.put rfl hone, fun token => ?_⟩
  rw [cachedHead, get_put_self, Option.bind_some]

theorem rollbackCacheAccountDel_spec (h : AccountsKept c.accounts) (address : Address)
    (token : Hash) :
    ∃ accounts, c.rollbackCacheAccountDel address token = .ok { c with accounts } ∧
      AccountsKept accounts ∧ cachedHead accounts address token = none := by
  unfold rollbackCacheAccountDel
  cases hget : c.accounts.get address with
  | none => exact ⟨c.accounts, rfl, h, by simp [cachedHead, hget]⟩
  | some ac =>
    dsimp only
    cases htoken : ac.token token with
    | none => exact ⟨c.accounts, rfl, h, by simp [cachedHead, hget, htoken]⟩
    | some tm =>
      obtain ⟨haddress, hone⟩ := h address ac hget
      dsimp only
      split_ifs with hlength
      · exact ⟨_, rfl, h.delete address, by simp [cachedHead]⟩
      · obtain ⟨accounts, hupdate, hkept, hhead⟩ :=
          updateAccountMeteCache_spec h hget (hone.eraseP token) haddress
        refine ⟨accounts, ?_, hkept, ?_⟩
        · rw [deleteTokenMetaCache, hget]
          exact hupdate
        · rw [hhead]
          exact hone.token_eraseP token

end BlockCache

namespace Env

variable {env : Env} {s c : BlockCache} {block pre : StateBlock}

theorem rollbackCacheAccount_spec (h : AccountsKept c.accounts)
    (hpre : s.blocks.get block.previous = some pre) :
    ∃ accounts, env.rollbackCacheAccount s block c = .ok { c with accounts } ∧
      AccountsKept accounts ∧ cachedHead accounts block.address block.token =
        (cachedHead c.accounts block.address block.token).map (env.previousTokenMeta pre) := by
  unfold rollbackCacheAccount
  rw [hpre]
  cases hget : c.accounts.get block.address with
  | none => exact ⟨c.accounts, rfl, h, by simp [cachedHead, hget]⟩
  | some ac =>
    dsimp only
    cases htoken : ac.token block.token with
    | none => exact ⟨c.accounts, rfl, h, by simp [cachedHead, hget, htoken]⟩
    | some tm =>
      obtain ⟨haddress, hone⟩ := h block.address ac hget
      have htype : ∀ tm, (env.previousTokenMeta pre tm).type = tm.type := fun _ => rfl
      have hone' : AccountMeta.OneEach { setCoins pre ac with
          tokens := updateToken (env.previousTokenMeta pre) block.token ac.tokens } := by
        change (List.map _ (updateToken _ _ _)).Nodup
        rwa [map_type_updateToken htype]
      obtain ⟨accounts, hupdate, hkept, hhead⟩ := BlockCache.updateAccountMeteCache_spec h hget hone'
        ((setCoins_address ac).trans haddress)
      refine ⟨accounts, hupdate, hkept, ?_⟩
      rw [hhead, cachedHead, hget, Option.bind_some]
      change List.find? _ (updateToken _ _ _) = _
      rw [find_updateToken htype, if_pos rfl]
      rfl

variable (env) in
theorem rollbackCacheBlock_spec (h : AccountsKept c.accounts) (s : BlockCache)
    (block : StateBlock) :
    ∃ accounts, env.rollbackCacheBlock s block c =
        .ok { blocks := c.blocks.delete (block.getHash env.hashData), accounts } ∧
      AccountsKept accounts ∧ cachedHead accounts block.address block.token =
        (s.blocks.get block.previous).bind fun pre =>
          (cachedHead c.accounts block.address block.token).map (env.previousTokenMeta pre) := by
  unfold rollbackCacheBlock
  let c' : BlockCache := { c with blocks := c.blocks.delete (block.getHash env.hashData) }
  cases hpre : s.blocks.get block.previous with
  | none => exact BlockCache.rollbackCacheAccountDel_spec (c := c') h block.address block.token
  | some pre => exact rollbackCacheAccount_spec (c := c') h hpre

variable (env) in
theorem foldrM_rollbackCacheBlock {address : Address} {token : Hash} {blocks : List StateBlock}
    (h : AccountsKept c.accounts)
    (hchain : ∀ b ∈ blocks, b.address = address ∧ b.token = token ∧
      (s.blocks.get b.previous).isSome) :
    ∃ c', blocks.foldrM (env.rollbackCacheBlock s) c = .ok c' ∧ AccountsKept c'.accounts ∧
      ((cachedHead c'.accounts address token).isSome ↔
        (cachedHead c.accounts address token).isSome) ∧
      ∀ hash, c'.blocks.get hash =
        if hash ∈ blocks.map (getHash env.hashData) then none
        else c.blocks.get hash := by
  induction blocks with
  | nil => exact ⟨c, rfl, h, Iff.rfl, fun hash => by simp⟩
  | cons b blocks ih =>
    obtain ⟨⟨rfl, rfl, hpre⟩, hrest⟩ := forall_mem_cons.mp hchain
    obtain ⟨pre, hpre⟩ := Option.isSome_iff_exists.mp hpre
    obtain ⟨c₁, hfold, hkept₁, hhead₁, hblocks₁⟩ := ih hrest
    obtain ⟨accounts, hblock, hkept, hhead⟩ := env.rollbackCacheBlock_spec hkept₁ s b
    rw [hpre, Option.bind_some] at hhead
    refine ⟨{ blocks := c₁.blocks.delete (b.getHash env.hashData), accounts }, ?_, hkept, ?_, ?_⟩
    · rw [foldrM_cons, hfold]
      exact hblock
    · rw [hhead, Option.isSome_map]
      exact hhead₁
    · intro hash
      dsimp only
      rw [get_delete, hblocks₁, map_cons]
      by_cases hhash : hash = b.getHash env.hashData <;> simp [hhash]

/-! ## Rollback in a chain -/

/-- The cached blocks of an address and a token are linked in the order of `chain`. -/
structure CachedChain (env : Env) (s : BlockCache) (address : Address) (token : Hash)
    (chain : List StateBlock) : Prop where
  keys : ∀ hash b, s.blocks.get hash = some b → b.getHash env.hashData = hash
  accounts : AccountsKept s.accounts
  mem_iff : ∀ b, b ∈ chain ↔
    s.blocks.get (b.getHash env.hashData) = some b ∧ b.address = address ∧ b.token = token
  linked : Descent.Linked (getHash env.hashData) previous chain

namespace CachedChain

variable {address : Address} {token : Hash} {chain before after : List StateBlock}
  {order : MapOrder} {h r : StateBlock}

theorem mem_blocksOfChain (hc : CachedChain env s address token chain) (hr : r ∈ chain)
    (b : StateBlock) : b ∈ blocksOfChain order s r ↔ b ∈ chain := by
  obtain ⟨_, haddress, htoken⟩ := (hc.mem_iff r).mp hr
  unfold blocksOfChain
  rw [mem_filter, (order.perm _).mem_iff, mem_values, hc.mem_iff, haddress, htoken]
  constructor
  · rintro ⟨⟨hash, hget⟩, hsame⟩
    rw [hc.keys hash b hget]
    simp only [Bool.and_eq_true, beq_iff_eq] at hsame
    exact ⟨hget, hsame.1.symm, hsame.2.symm⟩
  · rintro ⟨hget, rfl, rfl⟩
    exact ⟨⟨_, hget⟩, by simp⟩

section
variable (hc : CachedChain env s address token (before ++ r :: after))

include hc

theorem blocksToRoll_eq {blocks : List StateBlock}
    (hblocks : ∀ b, b ∈ blocks ↔ b ∈ before ++ r :: after) :
    env.blocksToRoll blocks r =
      some (r :: after.takeWhile fun b => decide (r.timestamp ≤ b.timestamp)) := by
  unfold blocksToRoll
  have hcandidates : ∀ b, b ∈ (blocks.filter fun b => r.timestamp ≤ b.timestamp).insertionSort
      (fun a b => a.timestamp ≤ b.timestamp) ↔
        b ∈ before ++ r :: after ∧ decide (r.timestamp ≤ b.timestamp) := by
    intro b
    rw [mem_insertionSort, mem_filter, hblocks]
  have hlength := hc.linked.length_takeWhile_le hcandidates
  dsimp only
  rw [hc.linked.descend_eq hcandidates (Nat.lt_succ_of_le hlength), Option.map_some]

theorem hash_mem_map (p : StateBlock → Bool) {b : StateBlock} (hb : b ∈ before ++ r :: after) :
    b.getHash env.hashData ∈ (r :: after.takeWhile p).map (getHash env.hashData) ↔
      b ∈ r :: after.takeWhile p := by
  constructor
  · intro hmem
    obtain ⟨b', hb', hhash⟩ := mem_map.mp hmem
    have hsub : (r :: after.takeWhile p).Sublist (before ++ r :: after) :=
      ((takeWhile_sublist p).cons_cons r).trans (sublist_append_right before _)
    rwa [← hc.linked.eq_of_key (hsub.subset hb') hb hhash]
  · exact mem_map_of_mem

theorem rollbackCacheBlocks_spec (p : StateBlock → Bool) :
    ∃ s', env.rollbackCacheBlocks s (r :: after.takeWhile p) true s = .ok s' ∧
      (∀ hash, s'.blocks.get hash =
        if hash ∈ (r :: after.takeWhile p).map (getHash env.hashData) then none
        else s.blocks.get hash) ∧
      (s.blocks.get r.previous = none → cachedHead s'.accounts address token = none) ∧
      ((s.blocks.get r.previous).isSome →
        ((cachedHead s'.accounts address token).isSome ↔
          (cachedHead s.accounts address token).isSome) ∧
        ∀ tm, cachedHead s'.accounts address token = some tm → tm.header = r.previous) := by
  have hbehind : ∀ b ∈ after.takeWhile p, b.address = address ∧ b.token = token ∧
      (s.blocks.get b.previous).isSome := by
    intro b hb
    have hafter : b ∈ after := (takeWhile_sublist p).subset hb
    obtain ⟨parent, hparent, hlink⟩ := hc.linked.exists_parent hafter
    obtain ⟨_, haddress, htoken⟩ := (hc.mem_iff b).mp (by simp [hafter])
    rw [hlink, ((hc.mem_iff parent).mp hparent).1]
    exact ⟨haddress, htoken, rfl⟩
  obtain ⟨_, hraddress, hrtoken⟩ := (hc.mem_iff r).mp (by simp)
  obtain ⟨c, hfold, hkept, hhead, hblocks⟩ := env.foldrM_rollbackCacheBlock hc.accounts hbehind
  obtain ⟨accounts, hblock, _, hfinal⟩ := env.rollbackCacheBlock_spec hkept s r
  rw [hraddress, hrtoken] at hfinal
  refine ⟨{ blocks := c.blocks.delete (r.getHash env.hashData), accounts }, ?_, ?_, ?_, ?_⟩
  · change List.foldrM _ _ (r :: _) = _
    rw [foldrM_cons, hfold]
    exact hblock
  · intro hash
    dsimp only
    rw [get_delete, hblocks, map_cons]
    by_cases hhash : hash = r.getHash env.hashData <;> simp [hhash]
  · intro hnone
    rw [hfinal, hnone, Option.bind_none]
  · intro hsome
    obtain ⟨pre, hpre⟩ := Option.isSome_iff_exists.mp hsome
    rw [hpre, Option.bind_some] at hfinal
    dsimp only
    rw [hfinal, Option.isSome_map]
    refine ⟨hhead, fun tm htm => ?_⟩
    obtain ⟨old, _, rfl⟩ := Option.map_eq_some_iff.mp htm
    exact hc.keys _ _ hpre

end

/-- What a rollback of `h` should leave: neither `h` nor a block behind it, and a head that is the
previous block of `h` or none at all. -/
def RolledBack (env : Env) (s s' : BlockCache) (address : Address) (token : Hash) (h : StateBlock)
    (after : List StateBlock) : Prop :=
  (∀ b ∈ h :: after, s'.blocks.get (b.getHash env.hashData) = none) ∧
    if (s.blocks.get h.previous).isSome then
      (cachedHead s'.accounts address token).map TokenMeta.header = some h.previous
    else cachedHead s'.accounts address token = none

/-- No later block that has the link of a receive `h` is found first. -/
def NoLaterLink (env : Env) (blocks : List StateBlock) (h : StateBlock) : Prop :=
  h.isReceiveBlock → ∀ b, env.sameLink blocks h = some b → b.timestamp ≤ h.timestamp

theorem firstToRoll_cases (blocks : List StateBlock) (h : StateBlock) :
    (NoLaterLink env blocks h ∧ env.firstToRoll blocks h = h) ∨
      ¬ NoLaterLink env blocks h ∧ ∃ b ∈ blocks, h.timestamp < b.timestamp ∧
        env.firstToRoll blocks h = b := by
  unfold NoLaterLink firstToRoll
  by_cases hreceive : h.isReceiveBlock
  · rw [if_pos hreceive]
    cases hlink : env.sameLink blocks h with
    | none => exact Or.inl ⟨fun _ b hb => (by cases hb), rfl⟩
    | some b =>
      dsimp only
      by_cases hlater : h.timestamp < b.timestamp
      · rw [if_pos hlater]
        refine Or.inr ⟨fun hnot => ?_, b, mem_of_find?_eq_some hlink, hlater, rfl⟩
        exact Int64.not_lt.mpr (hnot hreceive b rfl) hlater
      · rw [if_neg hlater]
        refine Or.inl ⟨fun _ b' hb' => ?_, rfl⟩
        cases hb'
        exact Int64.not_lt.mp hlater
  · rw [if_neg hreceive]
    exact Or.inl ⟨fun hcontra => absurd hcontra hreceive, rfl⟩

theorem rollbackCache_eq (hh : h ∈ before ++ r :: after)
    (hc : CachedChain env s address token (before ++ r :: after))
    (hfirst : env.firstToRoll (blocksOfChain order s h) h = r) :
    env.rollbackCache order s (h.getHash env.hashData) =
      env.rollbackCacheBlocks s
        (r :: after.takeWhile fun b => decide (r.timestamp ≤ b.timestamp)) true s := by
  unfold rollbackCache
  rw [((hc.mem_iff h).mp hh).1]
  dsimp only
  rw [hfirst, hc.blocksToRoll_eq (hc.mem_blocksOfChain hh)]

/-- The rollback of a cached block `h` is complete exactly if no block behind it is older, no later
block that has the link of a receive `h` is found first, and there is a head to move. -/
theorem rollbackCache_complete_iff (order : MapOrder)
    (hc : CachedChain env s address token (before ++ h :: after)) :
    (∃ s', env.rollbackCache order s (h.getHash env.hashData) = .ok s' ∧
      RolledBack env s s' address token h after) ↔
    (∀ b ∈ after, h.timestamp ≤ b.timestamp) ∧ NoLaterLink env (blocksOfChain order s h) h ∧
      ((s.blocks.get h.previous).isSome → (cachedHead s.accounts address token).isSome) := by
  have hmem : h ∈ before ++ h :: after := by simp
  have hget := ((hc.mem_iff h).mp hmem).1
  rcases firstToRoll_cases (blocksOfChain order s h) h with
    ⟨hlink, hfirst⟩ | ⟨hlink, r, hr, hlater, hfirst⟩
  · rw [rollbackCache_eq hmem hc hfirst]
    obtain ⟨s', hok, hblocks, hnone, hsome⟩ := hc.rollbackCacheBlocks_spec
      fun b => decide (h.timestamp ≤ b.timestamp)
    constructor
    · rintro ⟨s'', hok', hdeleted, hhead⟩
      obtain rfl := Except.ok.inj (hok.symm.trans hok')
      refine ⟨fun b hb => ?_, hlink, fun hpre => ?_⟩
      · have hbmem : b ∈ before ++ h :: after := by simp [hb]
        have hgone := hdeleted b (mem_cons_of_mem _ hb)
        rw [hblocks, ((hc.mem_iff b).mp hbmem).1] at hgone
        split_ifs at hgone with hrolled
        rcases mem_cons.mp ((hc.hash_mem_map _ hbmem).mp hrolled) with rfl | hrolled
        · exact Int64.le_refl _
        · simpa using mem_takeWhile_imp hrolled
      · rw [if_pos hpre] at hhead
        obtain ⟨tm, htm, _⟩ := Option.map_eq_some_iff.mp hhead
        exact (hsome hpre).1.mp (Option.isSome_iff_exists.mpr ⟨tm, htm⟩)
    · rintro ⟨hafter, _, hexists⟩
      refine ⟨s', hok, fun b hb => ?_, ?_⟩
      · rw [hblocks, if_pos]
        apply mem_map_of_mem
        rwa [takeWhile_eq_self_iff.mpr fun b hb => by simpa using hafter b hb]
      · split_ifs with hpre
        · obtain ⟨hiff, hheader⟩ := hsome hpre
          obtain ⟨tm, htm⟩ := Option.isSome_iff_exists.mp (hiff.mpr (hexists hpre))
          rw [htm, Option.map_some, hheader tm htm]
        · exact hnone (Option.not_isSome_iff_eq_none.mp hpre)
  · -- A later block goes in the place of `h`, which is older than what goes with it.
    have hrmem := (hc.mem_blocksOfChain hmem r).mp hr
    obtain ⟨before', after', hsplit⟩ := append_of_mem hrmem
    rw [hsplit] at hc hmem
    rw [rollbackCache_eq hmem hc hfirst]
    obtain ⟨s', hok, hblocks, _, _⟩ := hc.rollbackCacheBlocks_spec
      fun b => decide (r.timestamp ≤ b.timestamp)
    refine iff_of_false ?_ fun hcond => hlink hcond.2.1
    rintro ⟨s'', hok', hdeleted, _⟩
    obtain rfl := Except.ok.inj (hok.symm.trans hok')
    have hnone := hdeleted h mem_cons_self
    rw [hblocks, hget] at hnone
    split_ifs at hnone with hrolled
    rcases mem_cons.mp ((hc.hash_mem_map _ hmem).mp hrolled) with rfl | hrolled
    · exact Int64.lt_irrefl hlater
    · have hle : r.timestamp ≤ h.timestamp := by simpa using mem_takeWhile_imp hrolled
      exact Int64.not_lt.mpr hle hlater

end CachedChain

end Env

/-! ## A follower with an earlier timestamp -/

namespace BlockCache

def typeEnv : Env := Devnet.shortEnv 1

def firstBlock : StateBlock where
  type := .send
  token := 1
  address := 2
  balance := 9
  previous := 0
  link := 3
  timestamp := 20
  representative := 4

/-- The block behind `firstBlock`. -/
def nextBlock (timestamp : Int64) : StateBlock :=
  { firstBlock with
    type := .change, timestamp, previous := firstBlock.getHash typeEnv.hashData }

def nextMeta (timestamp : Int64) : TokenMeta where
  type := 1
  header := (nextBlock timestamp).getHash typeEnv.hashData
  representative := 4
  openBlock := firstBlock.getHash typeEnv.hashData
  balance := 9
  belongTo := 2
  blockCount := 2

def twoBlocks (timestamp : Int64) : BlockCache where
  blocks := (Table.put ∅ (firstBlock.getHash typeEnv.hashData) firstBlock).put
    ((nextBlock timestamp).getHash typeEnv.hashData) (nextBlock timestamp)
  accounts := Table.put ∅ 2 { address := 2, tokens := [nextMeta timestamp] }

/-- The rollback of the first block leaves the next one, whose account is gone. -/
theorem rollbackCache_leaves_follower :
    (typeEnv.rollbackCache Devnet.rollbackView.order (twoBlocks 10)
        (firstBlock.getHash typeEnv.hashData)).toOption.map
      (fun s => (s.blocks.get (firstBlock.getHash typeEnv.hashData),
        s.blocks.get ((nextBlock 10).getHash typeEnv.hashData), s.accounts.get 2)) =
      some (none, some (nextBlock 10), none) := by decide +kernel

theorem hash_firstBlock : firstBlock.getHash typeEnv.hashData = 1802#256 := by decide +kernel

theorem hash_nextBlock : (nextBlock 30).getHash typeEnv.hashData = 1804#256 := by decide +kernel

theorem get_twoBlocks (hash : Hash) : (twoBlocks 30).blocks.get hash =
    if hash = 1804#256 then some (nextBlock 30)
    else if hash = 1802#256 then some firstBlock else none := by
  change Table.get (Table.put _ _ _) hash = _
  rw [get_put, get_put, get_empty, hash_firstBlock, hash_nextBlock]

theorem twoBlocks_cachedChain :
    Env.CachedChain typeEnv (twoBlocks 30) 2 1 [firstBlock, nextBlock 30] where
  keys hash b hget := by
    rw [get_twoBlocks] at hget
    split_ifs at hget with hnext hfirst
    · rw [← Option.some.inj hget, hash_nextBlock, hnext]
    · rw [← Option.some.inj hget, hash_firstBlock, hfirst]
  accounts a am hget := by
    change Table.get (Table.put ∅ 2 _) a = some am at hget
    rw [get_put] at hget
    split_ifs at hget with ha
    · cases hget
      exact ⟨ha.symm, nodup_singleton _⟩
    · cases hget
  mem_iff b := by
    constructor
    · intro hmem
      rcases mem_pair.mp hmem with rfl | rfl
      · rw [get_twoBlocks, hash_firstBlock, if_neg (by decide), if_pos rfl]
        exact ⟨rfl, rfl, rfl⟩
      · rw [get_twoBlocks, hash_nextBlock, if_pos rfl]
        exact ⟨rfl, rfl, rfl⟩
    · rintro ⟨hget, _⟩
      rw [get_twoBlocks] at hget
      split_ifs at hget with hnext hfirst
      · rw [← Option.some.inj hget]
        simp
      · rw [← Option.some.inj hget]
        simp
  linked := by
    refine ⟨isChain_pair.mpr rfl, ?_, ?_⟩
    · rw [map_cons, map_cons, hash_firstBlock, hash_nextBlock]
      decide
    · rintro a ⟨⟩ b hb hprevious
      rcases mem_pair.mp hb with rfl | rfl
      · rw [hash_firstBlock] at hprevious
        revert hprevious
        decide
      · rw [hash_nextBlock] at hprevious
        revert hprevious
        decide

/-- Where the timestamps follow the chain both blocks go. -/
theorem rollbackCache_of_twoBlocks :
    ∃ s', typeEnv.rollbackCache Devnet.rollbackView.order (twoBlocks 30)
        (firstBlock.getHash typeEnv.hashData) = .ok s' ∧
      Env.CachedChain.RolledBack typeEnv (twoBlocks 30) s' 2 1 firstBlock [nextBlock 30] := by
  have hchain : Env.CachedChain typeEnv (twoBlocks 30) 2 1 ([] ++ firstBlock :: [nextBlock 30]) :=
    twoBlocks_cachedChain
  apply (Env.CachedChain.rollbackCache_complete_iff _ hchain).mpr
  refine ⟨?_, ?_, ?_⟩
  · intro b hb
    rw [mem_singleton.mp hb]
    decide
  · intro hreceive
    cases hreceive
  · intro hprevious
    rw [get_twoBlocks] at hprevious
    cases hprevious

end BlockCache

end GoQlc
