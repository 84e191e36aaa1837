import GoQlc.Process.ProcessSpec

/-!
# Unconfirmed blocks

`BlockCacheCheck` validates a block against the confirmed ledger under the unconfirmed blocks, and
`BlockCacheProcess` puts it into the cache.
-/

namespace GoQlc

open Config Ledger Option Table

structure BlockCache where
  blocks : Table Hash StateBlock := ∅
  accounts : Table Address AccountMeta := ∅

def cachedHead (accounts : Table Address AccountMeta) (address : Address) (token : Hash) :
    Option TokenMeta := (accounts.get address).bind fun am => am.token token

namespace BlockCache

def view (c : BlockCache) (v : View) : View :=
  { v with blockCache := c.blocks.get, accountCache := c.accounts.get }

/-- The ledger that `GetStateBlock`, `GetAccountMeta` and `GetPending` show. -/
def merged (c : BlockCache) (l : Ledger) : Ledger :=
  { l with
    blocks := l.blocks.putAll c.blocks
    accounts := l.accounts.putWith (fun a am =>
      (l.accounts.get a).elim am fun confirmed =>
        mergeTokens confirmed confirmed.tokens am) c.accounts }

variable (c : BlockCache) (v : View) (l : Ledger)

theorem getStateBlock_view (hash : Hash) :
    l.getStateBlock (c.view v) hash = (c.merged l).getStateBlockConfirmed hash :=
  (get_putAll l.blocks c.blocks hash).symm

theorem getAccountMeta_view (address : Address) :
    l.getAccountMeta (c.view v) address = (c.merged l).getAccountMetaConfirmed address := by
  unfold getAccountMeta getAccountMetaConfirmed merged view
  dsimp only
  rw [get_putWith]
  cases c.accounts.get address <;> cases l.accounts.get address <;> rfl

variable {c l} in
theorem get_accounts_of_merged {address : Address}
    (h : (c.merged l).accounts.get address = none) : c.accounts.get address = none := by
  change (Table.putWith _ l.accounts c.accounts).get address = none at h
  rw [get_putWith, or_eq_none_iff] at h
  exact map_eq_none_iff.mp h.1

end BlockCache

namespace Env

variable (env : Env)

/-- Another unconfirmed block has the link. The search goes on after the first one it finds. -/
def checkReceiveBlockRepeat (c : BlockCache) (block : StateBlock) : CheckM Unit :=
  if block.isReceiveBlock && c.blocks.values.any fun b =>
      block.link == b.link && block.getHash env.hashData != b.getHash env.hashData then
    errorP .receiveRepeated
  else .ok ()

def receivesHidden (l : Ledger) (block : StateBlock) : Bool :=
  block.type == .contractReward && (l.getStateBlockConfirmed block.link).any StateBlock.isHidden

def cacheBaseInfo (c : BlockCache) (l : Ledger) (block : StateBlock) : CheckM Unit := do
  env.checkReceiveBlockRepeat c block
  if (c.merged l).hasStateBlockConfirmed (block.getHash env.hashData) then errorP .old
  else if isHiddenContract block ∨ receivesHidden (c.merged l) block then .ok ()
  else env.descriptorOf (c.merged l) block >>= env.checkWorkSign block

def cacheFork (c : BlockCache) (l : Ledger) (block : StateBlock) : CheckM Unit :=
  env.fork (c.merged l) block

def cacheBalance (c : BlockCache) (l : Ledger) (block : StateBlock) : CheckM Unit :=
  balance (c.merged l) block

def cachePending (c : BlockCache) (l : Ledger) (block : StateBlock) : CheckM Unit :=
  if block.type = .contractReward then env.checkContractPending l block
  else env.pending (c.merged l) block

def cacheSource (c : BlockCache) (l : Ledger) (block : StateBlock) : CheckM Unit :=
  source (c.merged l) block

/-- The reward is compared with what the contract generates, as `checkContractReward` does; the
send may be unconfirmed. -/
def cacheContractReward (v : View) (c : BlockCache) (l : Ledger) (block : StateBlock) :
    CheckM Unit :=
  match l.getStateBlock (c.view v) block.link with
  | none => errorP .gapSource
  | some input =>
    if input.isHidden then .ok ()
    else
      match env.getChainContract input.link input.getPayload with
      | none => errorP .other (some (.noChainContract input.link))
      | some contract =>
        match VmContext.newVMContextWithBlock (c.view v) l block with
        | none => errorP .other (some .noVmContext)
        | some vmCtx =>
          match contract.doReceive vmCtx block.clone input with
          | .error e => .error (doReceiveError input e)
          | .ok [] => errorP .other (some .noReceiveBlock)
          | .ok (g :: _) =>
            match l.calculateAmount env.toCrypto (c.view v) block with
            | none => errorP .other (some .calcAmount)
            | some amount =>
              if env.equalFold g.block.data block.data ∧ g.token = block.token ∧
                  g.amount = amount ∧ g.toAddress = block.address then .ok ()
              else
                errorP .invalidData
                  (some (.contractData g.block.data g.token g.amount g.toAddress))

def cacheContract (v : View) (c : BlockCache) (l : Ledger) (block : StateBlock) : CheckM Unit :=
  if block.isHidden then .ok ()
  else
    match block.type with
    | .contractSend => env.checkContractSendBlock (c.view v) l block
    | .contractReward => env.cacheContractReward v c l block
    | t => errorP .other (some (.invalidBlockType t))

def cacheSendBlockCheck (c : BlockCache) (l : Ledger) (block : StateBlock) : CheckM Unit := do
  env.cacheBaseInfo c l block
  env.cacheFork c l block
  cacheBalance c l block

def cacheContractSendBlockCheck (v : View) (c : BlockCache) (l : Ledger) (block : StateBlock) :
    CheckM Unit :=
  if env.isGenesisBlock block then .ok ()
  else do
    env.cacheBaseInfo c l block
    env.cacheFork c l block
    cacheBalance c l block
    env.cacheContract v c l block

def cacheReceiveBlockCheck (c : BlockCache) (l : Ledger) (block : StateBlock) : CheckM Unit := do
  env.cacheBaseInfo c l block
  env.cacheFork c l block
  cacheSource c l block
  env.cachePending c l block

-- Here the source is checked before the pending.
def cacheContractReceiveBlockCheck (v : View) (c : BlockCache) (l : Ledger) (block : StateBlock) :
    CheckM Unit :=
  if env.isGenesisBlock block then .ok ()
  else do
    env.cacheBaseInfo c l block
    env.cacheFork c l block
    cacheSource c l block
    env.cachePending c l block
    env.cacheContract v c l block

def cacheOpenBlockCheck (c : BlockCache) (l : Ledger) (block : StateBlock) : CheckM Unit :=
  if block.previous ≠ 0 then errorP .other (some .openPreviousNotZero)
  else do
    env.cacheBaseInfo c l block
    cacheSource c l block
    env.cacheFork c l block
    env.cachePending c l block

def cacheChangeBlockCheck (c : BlockCache) (l : Ledger) (block : StateBlock) : CheckM Unit :=
  if block.link ≠ 0 then errorP .other (some .invalidLink)
  else if block.token ≠ chainToken then errorP .other (some (.invalidToken block.token))
  else do
    env.cacheBaseInfo c l block
    env.cacheFork c l block
    cacheBalance c l block

def blockCacheCheck (v : View) (c : BlockCache) (l : Ledger) (block : StateBlock) : CheckM Unit :=
  match block.type with
  | .open_ => env.cacheOpenBlockCheck c l block
  | .send => env.cacheSendBlockCheck c l block
  | .receive => env.cacheReceiveBlockCheck c l block
  | .change | .online => env.cacheChangeBlockCheck c l block
  | .contractSend => env.cacheContractSendBlockCheck v c l block
  | .contractReward => env.cacheContractReceiveBlockCheck v c l block
  | t => errorP .other (some (.unsupportedBlockType t))

inductive CacheError where
  | blockExists
  | accountExists
deriving DecidableEq, Repr

def updateAccountMetaCache (block : StateBlock) (am : Option AccountMeta) (c : BlockCache) :
    Except CacheError BlockCache :=
  match am with
  | some am =>
    .ok { c with accounts := c.accounts.put am.address (env.nextAccountMeta block am) }
  | none =>
    if (c.accounts.get block.address).isSome then .error .accountExists
    else .ok { c with accounts := c.accounts.put block.address (env.newAccountMeta block) }

def blockCacheProcess (v : View) (l : Ledger) (block : StateBlock) (c : BlockCache) :
    Except CacheError BlockCache :=
  let hash := block.getHash env.hashData
  if (c.blocks.get hash).isSome then .error .blockExists
  else
    env.updateAccountMetaCache block (l.getAccountMeta (c.view v) block.address)
      { c with blocks := c.blocks.put hash block }

section Spec

variable {env : Env} {c : BlockCache} {l : Ledger} {b : StateBlock}

theorem cacheBaseInfo_ok (ht : b.type ≠ .contractSend ∧ b.type ≠ .contractReward) :
    env.cacheBaseInfo c l b = .ok () ↔
      env.checkReceiveBlockRepeat c b = .ok () ∧
        (c.merged l).blocks.get (b.getHash env.hashData) = none ∧
        b.isValid env.toCrypto ∧ b.isSigned env.toCrypto := by
  have hhidden : ¬ (isHiddenContract b ∨ receivesHidden (c.merged l) b) := by
    simp [isHiddenContract, receivesHidden, ht]
  have hdescriptor : env.descriptorOf (c.merged l) b = .ok none := by
    unfold descriptorOf
    cases htype : b.type with
    | contractSend => exact absurd htype ht.1
    | contractReward => exact absurd htype ht.2
    | _ => rfl
  unfold cacheBaseInfo errorP
  rw [Result.seq_eq_ok, Result.ite_error_eq_ok, Bool.not_eq_true, hasStateBlockConfirmed_eq_false,
    if_neg hhidden, hdescriptor]
  change _ ∧ _ ∧ env.checkWorkSign b none = .ok () ↔ _
  rw [checkWorkSign_ok]
  simp [needsWork, needsSignature]

theorem checkReceiveBlockRepeat_ok :
    env.checkReceiveBlockRepeat c b = .ok () ↔
      (b.isReceiveBlock → ∀ hash b', c.blocks.get hash = some b' → b'.link = b.link →
        b'.getHash env.hashData = b.getHash env.hashData) := by
  unfold checkReceiveBlockRepeat errorP
  rw [Result.ite_error_eq_ok]
  simp only [Bool.and_eq_true, List.any_eq_true, mem_values, beq_iff_eq, bne_iff_ne, ne_eq,
    and_true, not_and, not_exists, not_not]
  constructor
  · intro h hreceive hash b' hget hlink
    exact (h hreceive b' ⟨hash, hget⟩ hlink.symm).symm
  · rintro h hreceive b' ⟨hash, hget⟩ hlink
    exact (h hreceive hash b' hget hlink.symm).symm

theorem blockCacheProcess_head (v : View)
    (hfresh : c.blocks.get (b.getHash env.hashData) = none)
    (haccounts : ∀ am, (c.merged l).accounts.get b.address = some am → am.address = b.address) :
    ∃ c', env.blockCacheProcess v l b c = .ok c' ∧
      c'.blocks = c.blocks.put (b.getHash env.hashData) b ∧
      (cachedHead c'.accounts b.address b.token).map TokenMeta.header =
        some (b.getHash env.hashData) := by
  have hput : ∃ c', env.blockCacheProcess v l b c = .ok c' ∧
      c'.blocks = c.blocks.put (b.getHash env.hashData) b ∧
      c'.accounts = c.accounts.put b.address (env.accountAfter (c.merged l) b) := by
    unfold blockCacheProcess updateAccountMetaCache accountAfter
    dsimp only
    rw [hfresh, BlockCache.getAccountMeta_view]
    unfold getAccountMetaConfirmed
    cases ham : (c.merged l).accounts.get b.address with
    | some am =>
      refine ⟨_, rfl, rfl, ?_⟩
      dsimp only
      rw [haccounts am ham]
    | none =>
      dsimp only
      rw [BlockCache.get_accounts_of_merged ham]
      exact ⟨_, rfl, rfl, rfl⟩
  obtain ⟨c', hok, hblocks, haccounts'⟩ := hput
  refine ⟨c', hok, hblocks, ?_⟩
  rw [cachedHead, haccounts', get_put_self, bind_some, accountAfter_token, if_pos rfl,
    map_some]
  unfold tokenAfter
  cases (c.merged l).getTokenMetaConfirmed b.address b.token <;> rfl

end Spec

end Env

end GoQlc
