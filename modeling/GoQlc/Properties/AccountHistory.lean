import GoQlc.Lib.AsOf
import GoQlc.Process.Invariants
import GoQlc.Properties.AllOrNothing
import GoQlc.Properties.MergedAccount
import GoQlc.Properties.Representation

/-!
# Accounts by proof-of-value height

Each processed block leaves the head of its chain in a table, under its proof-of-value height.
-/

namespace GoQlc

open Config AccountMeta Ledger List Option AsOf

inductive HistoryError where
  | accountNotFound
  | headerBlock (header : Hash)
deriving DecidableEq

namespace Ledger

/-- The head of a token among the entries of an address and a height; the last one counts. -/
def historyAt (l : Ledger) (address : Address) (token : Hash) (height : ℕ) : Option TokenMeta :=
  ((l.accountPovHeight.entries.filter fun e =>
    e.1.1 = address ∧ e.1.2.1.toNat = height ∧ e.2.type = token).getLast?).map Sigma.snd

def getTokenMetaByPovHeight (l : Ledger) (address : Address) (token : Hash) (height : UInt64) :
    Option TokenMeta :=
  searchDown (l.historyAt address token) height.toNat

/-- A round of the loop over the tokens of the account; the vote of the block is left out. -/
def addTokenByPovHeight (l : Ledger) (v : View) (address : Address) (height : UInt64)
    (am : AccountMeta) (t : TokenMeta) : Except HistoryError AccountMeta :=
  match l.getTokenMetaByPovHeight address t.type height with
  | none => .ok am
  | some tm =>
    let am := { am with tokens := am.tokens ++ [tm] }
    if tm.type = chainToken then
      match l.getStateBlock v tm.header with
      | none => .error (.headerBlock tm.header)
      | some b =>
        .ok { am with
          coinBalance := some b.balance, coinOracle := some b.getOracle
          coinNetwork := some b.getNetwork, coinStorage := some b.getStorage }
    else .ok am

def getAccountMetaByPovHeight (l : Ledger) (v : View) (address : Address) (height : UInt64) :
    Except HistoryError AccountMeta :=
  match l.getAccountMeta v address with
  | none => .error .accountNotFound
  | some accountMeta => do
    let am ← accountMeta.tokens.foldlM (l.addTokenByPovHeight v address height) { address := 0 }
    if am.tokens.isEmpty then .error .accountNotFound else .ok am

end Ledger

/-! ### Runs with rollbacks -/

structure Applied where
  block : StateBlock
  after : Ledger

namespace Applied

def height (x : Applied) : ℕ := x.block.povHeight.toNat

def head (x : Applied) : Option TokenMeta :=
  x.after.getTokenMetaConfirmed x.block.address x.block.token

def isOf (address : Address) (token : Hash) (x : Applied) : Bool :=
  x.block.address == address && x.block.token == token

end Applied

def StateBlock.coins (b : StateBlock) : ℕ × ℕ × ℕ × ℕ × ℕ :=
  (b.balance, b.getVote, b.getNetwork, b.getOracle, b.getStorage)

abbrev RollbackCondition := RollbackView → Ledger → Hash → Prop

namespace Env

def genesisApplied (env : Env) : List Applied :=
  ([gasBlock, genesisBlock].filter fun b =>
    (env.genesisLedger.getTokenMetaConfirmed b.address b.token).isSome).map fun b =>
      { block := b.clone, after := env.genesisLedger }

/-- The ledgers reached by accepted blocks and rollbacks, with the blocks that are still confirmed,
the newest first. -/
inductive Confirms (env : Env) (P : Condition) (R : RollbackCondition) :
    List Applied → Ledger → Prop
  | genesis : Confirms env P R env.genesisApplied env.genesisLedger
  | process {applied : List Applied} {l l' : Ledger} {v v' : View} {b : StateBlock}
    (run : Confirms env P R applied l) (step : env.Step v v' l b l') (cond : P v v' l b) :
    Confirms env P R ({ block := b.clone, after := l' } :: applied) l'
  | rollback {applied : List Applied} {l l' : Ledger} {v : RollbackView} {fuel : ℕ} {hash : Hash}
    (run : Confirms env P R applied l) (undone : env.rollback fuel v l hash = .ok l')
    (cond : R v l hash) :
    Confirms env P R
      (applied.filter fun x => l'.hasStateBlockConfirmed (x.block.getHash env.hashData)) l'

end Env

def View.Agrees (v : View) (l : Ledger) : Prop :=
  ∀ hash x y, v.blockCache hash = some x → l.blocks.get hash = some y → x.coins = y.coins

/-- The history of a ledger is that of its confirmed blocks: the head of a chain at a height is the
one right after the last block of the greatest height that is not above it, and the account has the
coin fields of that block. -/
structure HistoryKept (applied : List Applied) (l : Ledger) : Prop where
  tokenMeta : ∀ a t height, l.getTokenMetaByPovHeight a t height =
    (asOf Applied.height (applied.filter (Applied.isOf a t)) height.toNat).bind Applied.head
  coins : ∀ v a height x, v.Agrees l →
    asOf Applied.height (applied.filter (Applied.isOf a chainToken)) height.toNat = some x →
      ∃ am, l.getAccountMetaByPovHeight v a height = .ok am ∧ am.coins = x.block.coins

namespace Env

variable {env : Env} {l l' : Ledger} {v v' : View} {b : StateBlock} {applied : List Applied}

/-! ### The table of heads -/

theorem getLast?_of_forall_eq {α : Type*} {xs : List α} {x : α} (hmem : x ∈ xs)
    (hall : ∀ y ∈ xs, y = x) : xs.getLast? = some x := by
  have hne : xs ≠ [] := ne_nil_of_mem hmem
  rw [List.getLast?_eq_some_getLast hne, hall _ (getLast_mem hne)]

theorem historyAt_eq (htyped : ∀ k tm, l.accountPovHeight.get k = some tm → tm.type = k.2.2)
    (a : Address) (t : Hash) (p : UInt64) :
    l.historyAt a t p.toNat = l.accountPovHeight.get (a, p, t) := by
  unfold historyAt
  have hkey : ∀ e ∈ l.accountPovHeight.entries.filter fun e =>
      e.1.1 = a ∧ e.1.2.1.toNat = p.toNat ∧ e.2.type = t,
      l.accountPovHeight.get (a, p, t) = some e.2 ∧ e.1 = (a, p, t) := by
    rintro ⟨⟨a', p', t'⟩, tm⟩ hmem
    simp only [mem_filter, decide_eq_true_eq] at hmem
    obtain ⟨hentry, rfl, hp, rfl⟩ := hmem
    have hget := AList.mem_lookup_iff.mpr hentry
    obtain rfl := UInt64.toNat_inj.mp hp
    have htype : tm.type = t' := htyped _ _ hget
    exact ⟨htype ▸ hget, by rw [htype]⟩
  cases hget : l.accountPovHeight.get (a, p, t) with
  | none =>
    have hnil : l.accountPovHeight.entries.filter (fun e =>
        e.1.1 = a ∧ e.1.2.1.toNat = p.toNat ∧ e.2.type = t) = [] := by
      rw [eq_nil_iff_forall_not_mem]
      intro e he
      have hsome := (hkey e he).1
      rw [hget] at hsome
      cases hsome
    rw [hnil]
    rfl
  | some tm =>
    have hmem : (⟨(a, p, t), tm⟩ : Sigma fun _ : Address × UInt64 × Hash => TokenMeta) ∈
        l.accountPovHeight.entries.filter fun e =>
          e.1.1 = a ∧ e.1.2.1.toNat = p.toNat ∧ e.2.type = t := by
      rw [mem_filter, decide_eq_true_eq]
      exact ⟨AList.mem_lookup_iff.mp hget, rfl, rfl, htyped _ _ hget⟩
    rw [getLast?_of_forall_eq hmem]
    · rfl
    · intro e he
      obtain ⟨htm, hk⟩ := hkey e he
      rw [hget] at htm
      obtain ⟨k, tm'⟩ := e
      cases hk
      cases htm
      rfl

structure Recorded (env : Env) (applied : List Applied) (l : Ledger) : Prop where
  kept : l.WellKept env.hashData
  belongs : ∀ a t tm, l.getTokenMetaConfirmed a t = some tm → tm.belongTo = a
  table : ∀ a t p, l.accountPovHeight.get (a, p, t) =
    (applied.find? fun x => x.isOf a t && x.block.povHeight == p).bind Applied.head
  stored : ∀ x ∈ applied, ∃ tm, x.head = some tm ∧ l.blocks.get tm.header = some x.block
  known : ∀ x ∈ applied, ∃ tm,
    l.getTokenMetaConfirmed x.block.address x.block.token = some tm
  noVote : ∀ x ∈ applied, x.block.token = chainToken → x.block.getVote = 0

variable {a : Address} {t : Hash} {tm : TokenMeta}

theorem token_type_of_getTokenMeta (h : l.getTokenMetaConfirmed a t = some tm) : tm.type = t := by
  obtain ⟨am, -, htm⟩ := bind_eq_some_iff.mp h
  exact token_type htm

theorem Recorded.typed (h : env.Recorded applied l) (k : Address × UInt64 × Hash) (tm : TokenMeta)
    (hget : l.accountPovHeight.get k = some tm) : tm.type = k.2.2 := by
  obtain ⟨a, p, t⟩ := k
  rw [h.table] at hget
  obtain ⟨x, hx, hhead⟩ := bind_eq_some_iff.mp hget
  have hof := List.find?_some hx
  simp only [Applied.isOf, Bool.and_eq_true, beq_iff_eq] at hof
  rw [token_type_of_getTokenMeta hhead, hof.1.2]

theorem Recorded.tokenMeta (h : env.Recorded applied l) (a : Address) (t : Hash)
    (height : UInt64) :
    l.getTokenMetaByPovHeight a t height =
      (asOf Applied.height (applied.filter (Applied.isOf a t)) height.toNat).bind
        Applied.head := by
  have hlookup : ∀ p ≤ height.toNat, l.historyAt a t p =
      ((applied.filter (Applied.isOf a t)).find? fun x => x.height = p).bind Applied.head := by
    intro p hp
    have hlt : p < 2 ^ 64 := lt_of_le_of_lt hp height.toNat_lt
    have hnat : (UInt64.ofNat p).toNat = p := UInt64.toNat_ofNat_of_lt' hlt
    have hat := historyAt_eq h.typed a t (UInt64.ofNat p)
    rw [hnat] at hat
    rw [hat, h.table, List.find?_filter]
    congr 2
    funext x
    have hheight : (x.block.povHeight == UInt64.ofNat p) = decide (x.height = p) := by
      rw [Bool.eq_iff_iff, beq_iff_eq, decide_eq_true_eq, Applied.height, ← UInt64.toNat_inj, hnat]
    rw [hheight, Bool.decide_and, Bool.decide_eq_true, Bool.decide_eq_true]
  unfold getTokenMetaByPovHeight
  rw [searchDown_congr hlookup, searchDown_bind, searchDown_find?]
  intro p x hx
  obtain ⟨tm, hhead, -⟩ := h.stored x (mem_filter.mp (mem_of_find?_eq_some hx)).1
  rw [hhead]
  rfl

variable {x : Applied} {height : UInt64}

theorem mem_of_asOf {n : ℕ}
    (h : asOf Applied.height (applied.filter (Applied.isOf a t)) n = some x) :
    x ∈ applied ∧ x.block.address = a ∧ x.block.token = t := by
  have hmem := argmax_mem h
  simp only [mem_filter, Applied.isOf, Bool.and_eq_true, beq_iff_eq] at hmem
  exact ⟨hmem.1.1, hmem.1.2⟩

theorem Recorded.type_of_tokenMeta (h : env.Recorded applied l)
    (htm : l.getTokenMetaByPovHeight a t height = some tm) : tm.type = t := by
  rw [h.tokenMeta] at htm
  obtain ⟨x, hx, hhead⟩ := bind_eq_some_iff.mp htm
  rw [token_type_of_getTokenMeta hhead, (mem_of_asOf hx).2.2]

/-! ### The coin fields -/

structure ShowsAllButVote (b : StateBlock) (am : AccountMeta) : Prop where
  tokens : am.tokens ≠ []
  balance : am.coinBalance = some b.balance
  oracle : am.coinOracle = some b.getOracle
  network : am.coinNetwork = some b.getNetwork
  storage : am.coinStorage = some b.getStorage

section
variable {a : Address} {height : UInt64} {tm : TokenMeta}
  (htype : ∀ t tm, l.getTokenMetaByPovHeight a t height = some tm → tm.type = t)
  (htm : l.getTokenMetaByPovHeight a chainToken height = some tm)
  (hblock : l.getStateBlock v tm.header = some b)
include htype htm hblock

theorem addTokenByPovHeight_ok (am : AccountMeta) (t : TokenMeta) :
    ∃ am', l.addTokenByPovHeight v a height am t = .ok am' ∧ am'.coinVote = am.coinVote ∧
      (ShowsAllButVote b am ∨ t.type = chainToken → ShowsAllButVote b am') := by
  unfold addTokenByPovHeight
  cases hfound : l.getTokenMetaByPovHeight a t.type height with
  | none =>
    refine ⟨am, rfl, rfl, ?_⟩
    rintro (hshows | hchain)
    · exact hshows
    · rw [hchain, htm] at hfound
      cases hfound
  | some found =>
    have hfoundType := htype _ _ hfound
    dsimp only
    by_cases hchain : t.type = chainToken
    · rw [hchain, htm] at hfound
      cases hfound
      rw [if_pos (hfoundType.trans hchain), hblock]
      exact ⟨_, rfl, rfl, fun _ => ⟨by simp, rfl, rfl, rfl, rfl⟩⟩
    · rw [if_neg (fun h => hchain (hfoundType.symm.trans h))]
      refine ⟨_, rfl, rfl, ?_⟩
      rintro (hshows | hchain')
      · exact ⟨by simp, hshows.balance, hshows.oracle, hshows.network, hshows.storage⟩
      · exact absurd hchain' hchain

theorem addTokensByPovHeight_ok (ts : List TokenMeta) (am : AccountMeta) :
    ∃ am', ts.foldlM (l.addTokenByPovHeight v a height) am = .ok am' ∧
      am'.coinVote = am.coinVote ∧
      (ShowsAllButVote b am ∨ (∃ t ∈ ts, t.type = chainToken) → ShowsAllButVote b am') := by
  induction ts generalizing am with
  | nil =>
    refine ⟨am, rfl, rfl, ?_⟩
    rintro (hshows | ⟨t, ht, -⟩)
    · exact hshows
    · cases ht
  | cons t ts ih =>
    obtain ⟨am₁, hround, hvote₁, hshows₁⟩ := addTokenByPovHeight_ok htype htm hblock am t
    obtain ⟨am₂, hrest, hvote₂, hshows₂⟩ := ih am₁
    refine ⟨am₂, ?_, hvote₂.trans hvote₁, ?_⟩
    · rw [foldlM_cons, hround]
      exact hrest
    · rintro (hshows | ⟨t', ht', hchain⟩)
      · exact hshows₂ (.inl (hshows₁ (.inl hshows)))
      · rcases mem_cons.mp ht' with rfl | ht'
        · exact hshows₂ (.inl (hshows₁ (.inr hchain)))
        · exact hshows₂ (.inr ⟨t', ht', hchain⟩)

end

theorem exists_token_of_getAccountMeta (hk : l.WellKept env.hashData)
    (htm : l.getTokenMetaConfirmed a t = some tm) (v : View) :
    ∃ am, l.getAccountMeta v a = some am ∧ ∃ tm ∈ am.tokens, tm.type = t := by
  obtain ⟨confirmed, hget, htoken⟩ := bind_eq_some_iff.mp htm
  unfold getAccountMeta
  rw [hget]
  cases hcached : v.accountCache a with
  | none =>
    exact ⟨confirmed, rfl, tm, mem_of_token htoken, token_type htoken⟩
  | some cached =>
    refine ⟨_, rfl, ?_⟩
    have hmerged : (mergeTokens confirmed confirmed.tokens cached).token t =
        furtherMeta (cached.token t) (confirmed.token t) :=
      token_mergeTokens (hk.nodup a confirmed hget) t
    obtain ⟨found, hfound⟩ : ∃ found, furtherMeta (cached.token t) (confirmed.token t) =
        some found := by
      rw [htoken]
      cases cached.token t with
      | none => exact ⟨tm, rfl⟩
      | some c =>
        dsimp only [furtherMeta]
        split_ifs <;> exact ⟨_, rfl⟩
    rw [hfound] at hmerged
    exact ⟨found, mem_of_token hmerged, token_type hmerged⟩

theorem Recorded.coins (h : env.Recorded applied l) (hagrees : v.Agrees l)
    (hx : asOf Applied.height (applied.filter (Applied.isOf a chainToken)) height.toNat = some x) :
    ∃ am, l.getAccountMetaByPovHeight v a height = .ok am ∧ am.coins = x.block.coins := by
  obtain ⟨hmem, rfl, htoken⟩ := mem_of_asOf hx
  obtain ⟨tm, hhead, hstored⟩ := h.stored x hmem
  have htm : l.getTokenMetaByPovHeight x.block.address chainToken height = some tm := by
    rw [h.tokenMeta, hx]
    exact hhead
  -- the block is read through the cache
  obtain ⟨b, hblock, hcoins⟩ : ∃ b, l.getStateBlock v tm.header = some b ∧
      b.coins = x.block.coins := by
    unfold getStateBlock
    cases hcached : v.blockCache tm.header with
    | none => exact ⟨x.block, hstored, rfl⟩
    | some b => exact ⟨b, rfl, hagrees _ _ _ hcached hstored⟩
  obtain ⟨head, hknown⟩ := h.known x hmem
  rw [htoken] at hknown
  obtain ⟨accountMeta, haccount, t, ht, hchain⟩ := exists_token_of_getAccountMeta h.kept hknown v
  obtain ⟨am, hfold, hvote, hshows⟩ := addTokensByPovHeight_ok
    (fun _ _ => h.type_of_tokenMeta) htm hblock accountMeta.tokens { address := 0 }
  have hshown := hshows (.inr ⟨t, ht, hchain⟩)
  refine ⟨am, ?_, ?_⟩
  · unfold getAccountMetaByPovHeight
    rw [haccount]
    dsimp only
    rw [hfold]
    have hne : am.tokens.isEmpty = false := by simpa using hshown.tokens
    simp [hne, bind, Except.bind]
  · have hnone : am.coinVote = none := hvote
    have hzero := h.noVote x hmem htoken
    rw [← hcoins]
    have hb : b.getVote = 0 := by rw [← hzero]; exact congrArg (·.2.1) hcoins
    simp only [AccountMeta.coins, StateBlock.coins, getBalance, AccountMeta.getVote,
      getNetwork, getOracle, getStorage, hshown.balance,
      hshown.oracle, hshown.network, hshown.storage, hnone, hb, getD_some, getD_none]

theorem Recorded.historyKept (h : env.Recorded applied l) : HistoryKept applied l :=
  ⟨h.tokenMeta, fun _ _ _ _ hagrees hx => h.coins hagrees hx⟩

/-! ### Runs -/

/-- The block is no genesis block, its contract leaves its call data alone, and a block of the chain
token has no vote. -/
structure Plain (env : Env) (_v v' : View) (l : Ledger) (b : StateBlock) : Prop where
  notGenesis : env.isGenesisBlock b = false
  keepsData : env.sentBlock v' l b = b
  noVote : b.token = chainToken → b.getVote = 0

/-- The rollback is of a block that is not confirmed, or still among the unconfirmed ones. -/
def Spared (v : RollbackView) (l : Ledger) (hash : Hash) : Prop :=
  (v.blockCache hash).isSome ∨ l.blocks.get hash = none

theorem rollback_of_spared {fuel : ℕ} {v : RollbackView} {hash : Hash} (h : Spared v l hash) :
    env.rollback fuel v l hash = .ok l := by
  unfold rollback
  rcases h with hcached | hnone
  · rw [if_pos hcached]
  · have hhas : l.hasStateBlockConfirmed hash = false := by
      rw [hasStateBlockConfirmed, hnone]
      rfl
    simp [hhas]

theorem historyToken_eq : env.historyToken l b = env.tokenAfter l b := by
  unfold historyToken tokenAfter getTokenMetaConfirmed getAccountMetaConfirmed
  cases l.accounts.get b.address with
  | none => rfl
  | some am =>
    cases ham : am.token b.token <;> simp [ham]

theorem belongTo_tokenAfter
    (hbelongs : ∀ a t tm, l.getTokenMetaConfirmed a t = some tm → tm.belongTo = a) :
    (env.tokenAfter l b).belongTo = b.address := by
  unfold tokenAfter
  cases htm : l.getTokenMetaConfirmed b.address b.token with
  | none => rfl
  | some tm => exact hbelongs _ _ tm htm

theorem type_tokenAfter : (env.tokenAfter l b).type = b.token := by
  unfold tokenAfter
  cases htm : l.getTokenMetaConfirmed b.address b.token with
  | none => rfl
  | some tm =>
    have htype := token_type_of_getTokenMeta htm
    exact htype

theorem heads_of_blockProcess (hk : l.WellKept env.hashData)
    (hbelongs : ∀ a t tm, l.getTokenMetaConfirmed a t = some tm → tm.belongTo = a)
    (hdata : env.resentBlock v l b = b) (hprocess : env.blockProcess v l b = .ok l') :
    (∀ a t, l'.getTokenMetaConfirmed a t =
      if a = b.address ∧ t = b.token then some (env.tokenAfter l b)
      else l.getTokenMetaConfirmed a t) ∧
    l'.accountPovHeight =
      l.accountPovHeight.put (b.address, b.povHeight, b.token) (env.tokenAfter l b) := by
  have hp := blockProcess_ok hprocess
  obtain ⟨-, -, hhistory⟩ := blockProcess_records hprocess
  rw [hdata, historyToken_eq, belongTo_tokenAfter hbelongs, type_tokenAfter] at hhistory
  refine ⟨?_, hhistory⟩
  intro a t
  rw [hp.getTokenMeta hk, hdata]

theorem belongs_step
    (hbelongs : ∀ a t tm, l.getTokenMetaConfirmed a t = some tm → tm.belongTo = a)
    (hheads : ∀ a t, l'.getTokenMetaConfirmed a t =
      if a = b.address ∧ t = b.token then some (env.tokenAfter l b)
      else l.getTokenMetaConfirmed a t) :
    ∀ a t tm, l'.getTokenMetaConfirmed a t = some tm → tm.belongTo = a := by
  intro a t tm htm
  rw [hheads] at htm
  split_ifs at htm with hown
  · rw [← Option.some.inj htm, hown.1]
    exact belongTo_tokenAfter hbelongs
  · exact hbelongs a t tm htm

theorem Recorded.step (h : env.Recorded applied l) (hcond : env.Plain v v' l b)
    (hstep : env.Step v v' l b l') :
    env.Recorded ({ block := b.clone, after := l' } :: applied) l' := by
  have hdata := resentBlock_of_sentBlock hcond.notGenesis hcond.keepsData
  have hfresh := fresh_of_blockCheck hcond.notGenesis hstep.accepted
  have hp := blockProcess_ok hstep.applied
  obtain ⟨hheads, htable⟩ := heads_of_blockProcess h.kept h.belongs hdata hstep.applied
  have hhead : Applied.head { block := b.clone, after := l' } = some (env.tokenAfter l b) := by
    have hown := hheads b.address b.token
    rwa [if_pos ⟨rfl, rfl⟩] at hown
  refine ⟨hp.wellKept h.kept, belongs_step h.belongs hheads, ?_, ?_, ?_, ?_⟩
  · intro a t p
    rw [htable, Table.get_put, h.table, List.find?_cons]
    have hmatch : ((a, p, t) = (b.address, b.povHeight, b.token)) ↔
        (Applied.isOf a t { block := b.clone, after := l' } && b.clone.povHeight == p) = true := by
      simp only [Prod.mk.injEq, Applied.isOf, Bool.and_eq_true, beq_iff_eq]
      constructor
      · rintro ⟨rfl, rfl, rfl⟩
        exact ⟨⟨rfl, rfl⟩, rfl⟩
      · rintro ⟨⟨rfl, rfl⟩, rfl⟩
        exact ⟨rfl, rfl, rfl⟩
    split_ifs with hkey
    · rw [hmatch.mp hkey]
      exact hhead.symm
    · rw [Bool.eq_false_iff.mpr fun hof => hkey (hmatch.mpr hof)]
  · intro x hx
    rcases mem_cons.mp hx with rfl | hx
    · refine ⟨_, hhead, ?_⟩
      rw [tokenAfter_header, hp.get_block, if_pos rfl]
    · obtain ⟨tm, htm, hstored⟩ := h.stored x hx
      exact ⟨tm, htm, hp.get_block_of_get hfresh hstored⟩
  · intro x hx
    rw [hheads]
    split_ifs with hown
    · exact ⟨_, rfl⟩
    · rcases mem_cons.mp hx with rfl | hx
      · exact absurd ⟨rfl, rfl⟩ hown
      · exact h.known x hx
  · intro x hx
    rcases mem_cons.mp hx with rfl | hx
    · exact hcond.noVote
    · exact h.noVote x hx

/-! ### The genesis ledger -/

/-- While the genesis ledger is built, each chain has one block, at height zero. -/
structure GenesisHeads (env : Env) (l : Ledger) : Prop where
  kept : l.WellKept env.hashData
  opened : ∀ a t tm, l.getTokenMetaConfirmed a t = some tm → ∃ b ∈ [genesisBlock, gasBlock],
    a = b.address ∧ t = b.token ∧ tm = env.newTokenMeta b ∧
      l.blocks.get (b.getHash env.hashData) = some b.clone
  table : ∀ a t p, l.accountPovHeight.get (a, p, t) =
    if p = 0 then l.getTokenMetaConfirmed a t else none

theorem povHeight_of_firstBlock (hb : b ∈ [genesisBlock, gasBlock]) : b.povHeight = 0 := by
  simp only [mem_cons, not_mem_nil, or_false] at hb
  rcases hb with rfl | rfl <;> rfl

theorem GenesisHeads.belongs (h : env.GenesisHeads l) :
    ∀ a t tm, l.getTokenMetaConfirmed a t = some tm → tm.belongTo = a := by
  intro a t tm htm
  obtain ⟨b, -, rfl, -, rfl, -⟩ := h.opened a t tm htm
  rfl

theorem GenesisHeads.open (h : env.GenesisHeads l) (hb : b ∈ [genesisBlock, gasBlock])
    (hfresh : l.blocks.get (b.getHash env.hashData) = none)
    (hnew : l.accounts.get b.address = none) (hprocess : env.blockProcess v l b = .ok l') :
    env.GenesisHeads l' := by
  have hp := blockProcess_ok hprocess
  have hdata : env.resentBlock v l b = b :=
    resentBlock_of_ne (by simp [type_of_firstBlock hb])
  obtain ⟨hheads, htable⟩ := heads_of_blockProcess h.kept h.belongs hdata hprocess
  have hnone : ∀ t, l.getTokenMetaConfirmed b.address t = none := by
    intro t
    simp [getTokenMetaConfirmed, getAccountMetaConfirmed, hnew]
  have hafter : env.tokenAfter l b = env.newTokenMeta b := by
    rw [tokenAfter, hnone]
  rw [hafter] at hheads htable
  refine ⟨hp.wellKept h.kept, ?_, ?_⟩
  · intro a t tm htm
    rw [hheads] at htm
    split_ifs at htm with hown
    · refine ⟨b, hb, hown.1, hown.2, (Option.some.inj htm).symm, ?_⟩
      rw [hp.get_block, if_pos rfl]
    · obtain ⟨x, hx, ha, ht, htm, hstored⟩ := h.opened a t tm htm
      exact ⟨x, hx, ha, ht, htm, hp.get_block_of_get hfresh hstored⟩
  · intro a t p
    rw [htable, Table.get_put, hheads, h.table, povHeight_of_firstBlock hb]
    simp only [Prod.mk.injEq]
    by_cases hown : a = b.address ∧ t = b.token
    · obtain ⟨rfl, rfl⟩ := hown
      simp [hnone]
    · have hother : ¬ (a = b.address ∧ p = 0 ∧ t = b.token) := fun hkey => hown ⟨hkey.1, hkey.2.2⟩
      rw [if_neg hother, if_neg hown]

theorem genesisHeads_genesis : env.GenesisHeads env.genesisLedger := by
  apply genesisLedger_induction
  · intro l b _ hl hfresh
    refine ⟨wellKept_issue hl.kept, ?_, hl.table⟩
    intro a t tm htm
    obtain ⟨x, hx, ha, ht, htm, hstored⟩ := hl.opened a t tm htm
    refine ⟨x, hx, ha, ht, htm, ?_⟩
    rw [Table.get_put_of_ne, hstored]
    intro heq
    rw [heq, hfresh] at hstored
    cases hstored
  · refine ⟨wellKept_empty, ?_, ?_⟩
    · intro a t tm htm
      simp [getTokenMetaConfirmed, getAccountMetaConfirmed] at htm
    · intro a t p
      simp [getTokenMetaConfirmed, getAccountMetaConfirmed]
  · intro l b l' hb hl hfresh hnew hprocess
    exact hl.open hb hfresh hnew hprocess
  · intro _ l hl
    exact ⟨⟨hl.kept.keyed, hl.kept.nodup, hl.kept.stored⟩, hl.opened, hl.table⟩

theorem mem_genesisApplied (hx : x ∈ env.genesisApplied) :
    ∃ b ∈ [genesisBlock, gasBlock], ∃ tm,
      env.genesisLedger.getTokenMetaConfirmed b.address b.token = some tm ∧
        x = { block := b.clone, after := env.genesisLedger } := by
  obtain ⟨b, hb, rfl⟩ := mem_map.mp hx
  rw [mem_filter] at hb
  obtain ⟨tm, htm⟩ := isSome_iff_exists.mp hb.2
  exact ⟨b, by simpa [or_comm] using hb.1, tm, htm, rfl⟩

theorem firstBlock_eq {b' : StateBlock} (hb : b ∈ [genesisBlock, gasBlock])
    (hb' : b' ∈ [genesisBlock, gasBlock]) (haddr : b.address = b'.address) : b = b' := by
  simp only [mem_cons, not_mem_nil, or_false] at hb hb'
  rcases hb with rfl | rfl <;> rcases hb' with rfl | rfl
  · rfl
  · exact absurd haddr (by decide)
  · exact absurd haddr (by decide)
  · rfl

theorem recorded_genesis : env.Recorded env.genesisApplied env.genesisLedger := by
  have hgenesis : env.GenesisHeads env.genesisLedger := genesisHeads_genesis
  refine ⟨hgenesis.kept, hgenesis.belongs, ?_, ?_, ?_, ?_⟩
  · intro a t p
    rw [hgenesis.table]
    cases hfind : env.genesisApplied.find? fun x => x.isOf a t && x.block.povHeight == p with
    | none =>
      have hall := List.find?_eq_none.mp hfind
      rw [bind_none, ite_eq_right_iff]
      intro hp
      by_contra hsome
      obtain ⟨tm, htm⟩ := ne_none_iff_exists'.mp hsome
      obtain ⟨b, hb, rfl, rfl, -⟩ := hgenesis.opened a t tm htm
      refine hall { block := b.clone, after := env.genesisLedger } ?_ ?_
      · refine mem_map.mpr ⟨b, mem_filter.mpr ⟨by simpa [or_comm] using hb, ?_⟩, rfl⟩
        rw [htm]
        rfl
      · have hheight : b.clone.povHeight = p := (povHeight_of_firstBlock hb).trans hp.symm
        simp only [Applied.isOf, hheight, beq_self_eq_true, Bool.and_true]
        exact Bool.and_eq_true_iff.mpr ⟨beq_self_eq_true b.address, beq_self_eq_true b.token⟩
    | some x =>
      obtain ⟨b, hb, tm, htm, rfl⟩ := mem_genesisApplied (mem_of_find?_eq_some hfind)
      have hof := List.find?_some hfind
      simp only [Applied.isOf, Bool.and_eq_true, beq_iff_eq] at hof
      obtain ⟨⟨rfl, rfl⟩, hp⟩ := hof
      have hzero : p = 0 := hp.symm.trans (povHeight_of_firstBlock hb : b.povHeight = 0)
      rw [if_pos hzero]
      rfl
  · intro x hx
    obtain ⟨b, hb, tm, htm, rfl⟩ := mem_genesisApplied hx
    refine ⟨tm, htm, ?_⟩
    obtain ⟨b', hb', haddr, -, rfl, hstored⟩ := hgenesis.opened _ _ tm htm
    obtain rfl := firstBlock_eq hb hb' haddr
    exact hstored
  · intro x hx
    obtain ⟨b, hb, tm, htm, rfl⟩ := mem_genesisApplied hx
    exact ⟨tm, htm⟩
  · intro x hx _
    obtain ⟨b, hb, tm, htm, rfl⟩ := mem_genesisApplied hx
    simp only [mem_cons, not_mem_nil, or_false] at hb
    rcases hb with rfl | rfl <;> rfl

theorem Recorded.filter_stored (h : env.Recorded applied l) :
    applied.filter (fun x => l.hasStateBlockConfirmed (x.block.getHash env.hashData)) = applied := by
  refine filter_eq_self.mpr fun x hx => ?_
  obtain ⟨tm, -, hstored⟩ := h.stored x hx
  rw [hasStateBlockConfirmed, h.kept.stored _ _ hstored, hstored]
  rfl

theorem Confirms.recorded (h : env.Confirms env.Plain Spared applied l) :
    env.Recorded applied l := by
  induction h with
  | genesis => exact recorded_genesis
  | process _ hstep hcond ih => exact ih.step hcond hstep
  | rollback _ hundone hspared ih =>
    rw [rollback_of_spared hspared] at hundone
    cases hundone
    rw [ih.filter_stored]
    exact ih

/-- In every run of plain blocks, in which no confirmed block is rolled back, the accounts by height
are those of the confirmed blocks. -/
theorem historyKept_of_confirms (h : env.Confirms env.Plain Spared applied l) :
    HistoryKept applied l :=
  h.recorded.historyKept

theorem Confirms.run_one {P : Condition} {R : RollbackCondition}
    (h : env.Confirms P R applied l) (hrun : env.run v l [b] = some l') (hcond : P v v l b) :
    env.Confirms P R ({ block := b.clone, after := l' } :: applied) l' := by
  obtain ⟨l₁, hstep, hdone⟩ := step_of_run hrun
  cases hdone
  exact .process h hstep hcond

end Env

open Devnet Env

/-- After a change block the head at height zero is the one it left. -/
theorem historyKept_after_change :
    ∃ applied l, HistoryKept applied l ∧
      (l.getTokenMetaByPovHeight genesisAddress chainToken 0).map TokenMeta.header =
        some (changeBlock.getHash hashData) := by
  have hrun : ∃ l ∈ env.run view env.genesisLedger [changeBlock],
      (l.getTokenMetaByPovHeight genesisAddress chainToken 0).map TokenMeta.header =
        some (changeBlock.getHash hashData) := by
    decide +kernel
  have hplain : env.Plain view view env.genesisLedger changeBlock :=
    ⟨by decide +kernel, by decide +kernel, fun _ => rfl⟩
  obtain ⟨l, hl, hheader⟩ := hrun
  exact ⟨_, l, historyKept_of_confirms (Confirms.genesis.run_one hl hplain), hheader⟩

def anyRollback : RollbackCondition := fun _ _ _ => True

/-- The head at height zero after a rollback, and the account there after a reward. -/
theorem history_differs :
    (∃ applied l, env.Confirms anyBlock anyRollback applied l ∧
      l.getTokenMetaByPovHeight genesisAddress chainToken 0 ≠
        (asOf Applied.height (applied.filter (Applied.isOf genesisAddress chainToken))
          0).bind Applied.head) ∧
    (∃ applied l x, env.Confirms anyBlock anyRollback applied l ∧
      asOf Applied.height (applied.filter (Applied.isOf genesisAddress chainToken)) 0 = some x ∧
      ∃ am, l.getAccountMetaByPovHeight view genesisAddress 0 = .ok am ∧
        am.getVote = 0 ∧ x.block.getVote = 100000000) := by
  refine ⟨?_, ?_⟩
  · have hdone : ∃ l ∈ env.run view env.genesisLedger [changeBlock],
        ∃ l' ∈ (env.rollback 9 rollbackView l (changeBlock.getHash hashData)).toOption,
          l'.getTokenMetaByPovHeight genesisAddress chainToken 0 ≠
            (asOf Applied.height
              (((({ block := changeBlock.clone, after := l } : Applied) :: env.genesisApplied).filter
                fun x => l'.hasStateBlockConfirmed (x.block.getHash hashData)).filter
                  (Applied.isOf genesisAddress chainToken)) 0).bind Applied.head := by
      decide +kernel
    obtain ⟨l, hl, l', hl', hne⟩ := hdone
    have hundone := Result.toOption_eq_some.mp hl'
    exact ⟨_, l', .rollback (Confirms.genesis.run_one hl trivial) hundone trivial, hne⟩
  · have hdone : ∃ l₁ ∈ env.run view env.genesisLedger [pledgeSend],
        ∃ l₂ ∈ env.run view l₁ [pledgeReward],
          ∃ x ∈ asOf Applied.height
            ((({ block := pledgeReward.clone, after := l₂ } : Applied) ::
              { block := pledgeSend.clone, after := l₁ } :: env.genesisApplied).filter
                (Applied.isOf genesisAddress chainToken)) 0,
            ∃ am ∈ (l₂.getAccountMetaByPovHeight view genesisAddress 0).toOption,
              am.getVote = 0 ∧ x.block.getVote = 100000000 := by
      decide +kernel
    obtain ⟨l₁, h₁, l₂, h₂, x, hx, am, ham, hvote⟩ := hdone
    exact ⟨_, l₂, x, (Confirms.genesis.run_one h₁ trivial).run_one h₂ trivial, hx, am,
      Result.toOption_eq_some.mp ham, hvote⟩

end GoQlc
