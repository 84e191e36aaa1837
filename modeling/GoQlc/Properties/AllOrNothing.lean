import GoQlc.Config.Devnet
import GoQlc.Lib.Layers
import GoQlc.Process.Run

/-!
# All or nothing

`BlockProcess` collects its writes in a temporary cache and copies that into the write cache of the
ring when the block has been processed.
-/

namespace GoQlc

open Config Result Evicting Env Ledger List Option Table VmContext

/-- The keys of the tables. What `saveTrie` and private payloads write is not read back here. -/
inductive Key where
  | block (hash : Hash)
  | child (hash : Hash)
  | link (hash : Hash)
  | frontier (hash : Hash)
  | pending (key : PendingKey)
  | account (address : Address)
  | representation (address : Address)
  | accountBlockHash (hash : Hash)
  | accountPovHeight (key : Address × UInt64 × Hash)
  | storage (key : Bytes)
  | other (key : Bytes)
deriving DecidableEq

inductive Value where
  | block (block : StateBlock)
  | hash (hash : Hash)
  | pending (info : PendingInfo)
  | account (am : AccountMeta)
  | benefit (benefit : Benefit)
  | token (tm : TokenMeta)
  | bytes (bytes : Bytes)

def Ledger.read (l : Ledger) : Key → Option Value
  | .block h => (l.blocks.get h).map .block
  | .child h => (l.childs.get h).map .hash
  | .link h => (l.links.get h).map .hash
  | .frontier h => (l.frontiers.get h).map .hash
  | .pending k => (l.pendings.get k).map .pending
  | .account a => (l.accounts.get a).map .account
  | .representation a => (l.representations.get a).map .benefit
  | .accountBlockHash h => (l.accountBlockHash.get h).map .token
  | .accountPovHeight k => (l.accountPovHeight.get k).map .token
  | .storage k => (l.vmStorage.get k).map .bytes
  | .other _ => none

namespace Env

/-! ## The keys that processing writes -/

def rewardStorage (env : Env) (v : View) (l : Ledger) (b : StateBlock) : List (Bytes × Bytes) :=
  if b.isHidden then []
  else
    match l.blocks.get b.link with
    | none => []
    | some input =>
      if input.isHidden then []
      else
        match env.getChainContract input.link input.getPayload,
          newVMContextWithBlock v l b with
        | some contract, some ctx =>
          match contract.doReceive ctx b.clone input with
          | .ok (g :: _) => (g.vmContext.map VmContext.toCache).getD []
          | _ => []
        | _, _ => []

def sendStorage (env : Env) (v : View) (l : Ledger) (b : StateBlock) : List (Bytes × Bytes) :=
  if b.isHidden then []
  else
    match env.getChainContract b.link b.getPayload, newVMContextWithBlock v l b with
    | some contract, some ctx =>
      if contract.describe.specVer = 2 then
        match (contract.processSend ctx b).result with
        | .ok (_, ctx) => ctx.toCache
        | .error _ => []
      else []
    | _, _ => []

def savedStorage (env : Env) (v : View) (l : Ledger) (b : StateBlock) : List (Bytes × Bytes) :=
  if env.isGenesisBlock b then []
  else
    match b.type with
    | .contractReward => env.rewardStorage v l b
    | .contractSend => env.sendStorage v l b
    | _ => []

def historyToken (env : Env) (l : Ledger) (b : StateBlock) : TokenMeta :=
  match l.accounts.get b.address with
  | some am => ((am.token b.token).map (env.nextTokenMeta b)).getD (env.newTokenMeta b)
  | none => env.newTokenMeta b

/-- The pending that processing adds or removes, with the entry of the ledger in the
second case. -/
inductive PendingChange where
  | add (key : PendingKey) (info : PendingInfo)
  | delete (key : PendingKey) (info : PendingInfo)

def pendingChange (env : Env) (v : View) (l : Ledger) (b : StateBlock) : Option PendingChange :=
  if b.isReceiveBlock then
    (l.getPending (pendingKeyOf b)).map (.delete (pendingKeyOf b))
  else
    (env.addedPending v l b).map fun p => .add p.1 p.2

def PendingChange.key : PendingChange → PendingKey
  | .add key _ => key
  | .delete key _ => key

def writtenRepresentatives (l : Ledger) (b : StateBlock) : List Address :=
  if b.token = chainToken then
    match l.getTokenMetaConfirmed b.address b.token with
    | some tm => if tm.representative ≠ 0 then [tm.representative, b.representative]
        else [b.representative]
    | none => [b.representative]
  else []

/-- The keys that processing puts into the temporary cache, in order. -/
def writtenKeys (env : Env) (v : View) (l : Ledger) (other : List Bytes) (b : StateBlock) :
    List Key :=
  let b₁ := env.sentBlock v l b
  let b₂ := env.resentBlock v l b
  (if env.isGenesisBlock b || b.previous == 0 then [] else [.child b.previous]) ++
  (if b.isReceiveBlock then [.link b.link] else []) ++
  [.block (b.getHash env.hashData)] ++
  ((env.pendingChange v l b).map fun p => Key.pending p.key).toList ++
  ((l.getTokenMetaConfirmed b.address b.token).map fun tm => Key.frontier tm.header).toList ++
  [.frontier (b₁.getHash env.hashData)] ++
  (env.savedStorage v l b₁).map (fun e => Key.storage e.1) ++
  other.map Key.other ++
  [.accountBlockHash (b₂.getHash env.hashData),
    .accountPovHeight ((env.historyToken l b₂).belongTo, b.povHeight, (env.historyToken l b₂).type),
    .account (env.accountAfter l b₂).address] ++
  (writtenRepresentatives l b).map Key.representation

variable {env : Env} {v : View} {l l' c c' : Ledger} {b b' : StateBlock}

theorem updateRewardData_saves (h : env.updateRewardData v l b c = .ok c') :
    c' = saveStorage (env.rewardStorage v l b) c := by
  unfold updateRewardData getStateBlockConfirmed at h
  unfold rewardStorage
  split_ifs at h ⊢ with hhid
  · cases h
    rfl
  · cases hinput : l.blocks.get b.link with
    | none =>
      rw [hinput] at h
      cases h
    | some input =>
      rw [hinput] at h
      dsimp only at h ⊢
      split_ifs at h ⊢ with hin
      · cases h
        rfl
      · cases hcontract : env.getChainContract input.link input.getPayload with
        | none =>
          rw [hcontract] at h
          cases h
        | some contract =>
          rw [hcontract] at h
          cases hctx : newVMContextWithBlock v l b with
          | none =>
            rw [hctx] at h
            cases h
          | some ctx =>
            rw [hctx] at h
            dsimp only at h ⊢
            rcases hg : contract.doReceive ctx b.clone input with _ | _ | ⟨g, gs⟩
            · rw [hg] at h
              cases h
            · rw [hg] at h
              cases h
            · rw [hg] at h
              dsimp only at h ⊢
              cases hctx' : g.vmContext with
              | none =>
                rw [hctx'] at h
                cases h
              | some ctx' =>
                rw [hctx'] at h
                cases h
                rfl

theorem updateSendData_saves (h : env.updateSendData v l b c = .ok (b', c')) :
    c' = Ledger.saveStorage (env.sendStorage v l b) c := by
  unfold updateSendData at h
  unfold sendStorage
  split_ifs at h ⊢ with hhid
  · cases h
    rfl
  · cases hcontract : env.getChainContract b.link b.getPayload with
    | none =>
      rw [hcontract] at h
      cases h
      rfl
    | some contract =>
      rw [hcontract] at h
      dsimp only at h
      by_cases hver : contract.describe.specVer = 2
      · rw [if_pos hver] at h
        cases hctx : VmContext.newVMContextWithBlock v l b with
        | none =>
          rw [hctx] at h
          cases h
        | some ctx =>
          rw [hctx] at h
          dsimp only at h ⊢
          rw [if_pos hver]
          rcases hresult : (contract.processSend ctx b).result with _ | ⟨_, ctx'⟩
          · rw [hresult] at h
            cases h
            rfl
          · rw [hresult] at h
            cases h
            rfl
      · rw [if_neg hver] at h
        cases h
        cases VmContext.newVMContextWithBlock v l b with
        | none => rfl
        | some ctx =>
          dsimp only
          rw [if_neg hver]
          rfl

theorem updateContractData_saves (h : env.updateContractData v l b c = .ok (b', c')) :
    c' = saveStorage (env.savedStorage v l b) c := by
  unfold updateContractData at h
  unfold savedStorage
  split_ifs at h ⊢ with hgen
  · cases h
    rfl
  · cases htype : b.type with
    | contractReward =>
      rw [htype] at h
      obtain ⟨c₁, hrun, heq⟩ := map_eq_ok.mp h
      cases heq
      exact updateRewardData_saves hrun
    | contractSend =>
      rw [htype] at h
      exact updateSendData_saves h
    | _ =>
      rw [htype] at h
      cases h
      rfl

theorem updateAccountMeta_history
    (h : env.updateAccountMeta l (l.getAccountMetaConfirmed b.address) b c = .ok c') :
    ∃ accounts, c' = { addAccountMetaHistory (env.historyToken l b)
      (b.getHash env.hashData) b.povHeight c with accounts := accounts } := by
  unfold updateAccountMeta at h
  unfold historyToken
  cases ham : l.accounts.get b.address with
  | some am =>
    rw [getAccountMetaConfirmed, ham] at h
    cases h
    exact ⟨_, rfl⟩
  | none =>
    rw [getAccountMetaConfirmed, ham] at h
    simp only [addAccountMeta, ite_error_eq_ok] at h
    obtain ⟨-, h⟩ := h
    cases h
    exact ⟨_, rfl⟩

theorem blockProcess_records (h : env.blockProcess v l b = .ok l') :
    l'.vmStorage = (env.savedStorage v l (env.sentBlock v l b)).foldl
        (fun t e => t.put e.1 e.2) l.vmStorage ∧
      l'.accountBlockHash = l.accountBlockHash.put
        ((env.resentBlock v l b).getHash env.hashData)
        (env.historyToken l (env.resentBlock v l b)) ∧
      l'.accountPovHeight = l.accountPovHeight.put
        ((env.historyToken l (env.resentBlock v l b)).belongTo, b.povHeight,
          (env.historyToken l (env.resentBlock v l b)).type)
        (env.historyToken l (env.resentBlock v l b)) := by
  unfold blockProcess processStateBlock atStage at h
  simp only [bind_eq_ok, mapError_eq_ok] at h
  obtain ⟨c₁, hstate, ⟨b₁, c₂⟩, hpending, c₃, hfrontier, ⟨b₂, c₄⟩, hdata, c₅, haccount, hrep⟩ := h
  obtain ⟨-, childs, -, rfl⟩ := updateStateBlock_ok hstate
  obtain ⟨hb₁, rfl⟩ := updatePending_ok hpending rfl
  have hstorage := updateContractData_saves hdata
  obtain ⟨hb₂, -, -⟩ := updateContractData_ok hdata
  have hresent : b₂ = env.resentBlock v l b := by rw [hb₂, hb₁, resentBlock]
  subst hb₁ hresent
  obtain ⟨d₁, hd₁⟩ : StateBlock.SameButData b (env.sentBlock v l b) := sameButData_sentBlock
  have haddr₁ : (env.sentBlock v l b).address = b.address := by rw [hd₁]
  have htoken₁ : (env.sentBlock v l b).token = b.token := by rw [hd₁]
  obtain ⟨d₂, hd₂⟩ : StateBlock.SameButData b (env.resentBlock v l b) := sameButData_resentBlock
  have haddr₂ : (env.resentBlock v l b).address = b.address := by rw [hd₂]
  have htoken₂ : (env.resentBlock v l b).token = b.token := by rw [hd₂]
  have hpov₂ : (env.resentBlock v l b).povHeight = b.povHeight := by rw [hd₂]
  rw [← haddr₁, ← htoken₁] at hfrontier
  obtain ⟨-, rfl⟩ := updateFrontier_ok hfrontier rfl
  subst hstorage
  rw [← haddr₂] at haccount
  obtain ⟨accounts, rfl⟩ := updateAccountMeta_history haccount
  rw [← haddr₂, ← htoken₂] at hrep
  obtain ⟨r, rfl, -⟩ := updateRepresentative_ok hrep rfl
  rw [hpov₂]
  exact ⟨rfl, rfl, rfl⟩

theorem foldl_put_get_of_notMem (entries : List (Bytes × Bytes)) (t : Table Bytes Bytes) (k : Bytes)
    (h : k ∉ entries.map Prod.fst) :
    (entries.foldl (fun t e => t.put e.1 e.2) t).get k = t.get k := by
  induction entries generalizing t with
  | nil => rfl
  | cons e es ih =>
    rw [map_cons, mem_cons, not_or] at h
    rw [foldl_cons, ih _ h.2, get_put_of_ne _ h.1]

theorem read_of_not_written {other : List Bytes} {k : Key} (h : env.blockProcess v l b = .ok l')
    (hk : k ∉ env.writtenKeys v l other b) : l'.read k = l.read k := by
  have hp := blockProcess_ok h
  obtain ⟨hstorage, hhash, hpov⟩ := blockProcess_records h
  simp only [writtenKeys, mem_append, not_or] at hk
  obtain ⟨⟨⟨⟨⟨⟨⟨⟨⟨hchild, hlink⟩, hblock⟩, hpending⟩, hfrontier⟩, hfrontier'⟩, hsaved⟩, -⟩, hmeta⟩,
    hrep⟩ := hk
  simp only [mem_cons, not_mem_nil, or_false, not_or] at hblock hfrontier' hmeta
  cases k with
  | block k =>
    have hne : k ≠ b.getHash env.hashData := fun heq => hblock (by rw [heq])
    rw [Ledger.read, Ledger.read, hp.blocks, get_put_of_ne _ hne]
  | child k =>
    rw [Ledger.read, Ledger.read]
    rcases hp.childs with ⟨-, heq⟩ | ⟨hgen, hprev, -, -, heq⟩
    · rw [heq]
    · have hne : k ≠ b.previous := by
        rintro rfl
        simp only [hgen, Bool.false_or, beq_iff_eq, if_neg hprev] at hchild
        exact hchild mem_cons_self
      rw [heq, get_put_of_ne _ hne]
  | link k =>
    rw [Ledger.read, Ledger.read, hp.links]
    split_ifs at hlink ⊢ with hreceive
    · have hne : k ≠ b.link := by
        rintro rfl
        exact hlink mem_cons_self
      rw [get_put_of_ne _ hne]
    · rfl
  | frontier k =>
    rw [Ledger.read, Ledger.read, hp.frontiers, frontiersAfter]
    have hsame : StateBlock.SameButData b (env.sentBlock v l b) := sameButData_sentBlock
    obtain ⟨d, hd⟩ := hsame
    have haddr : (env.sentBlock v l b).address = b.address := by rw [hd]
    have htoken : (env.sentBlock v l b).token = b.token := by rw [hd]
    have hne : k ≠ (env.sentBlock v l b).getHash env.hashData := fun heq => hfrontier' (by rw [heq])
    rw [haddr, htoken]
    cases htm : l.getTokenMetaConfirmed b.address b.token with
    | none =>
      dsimp only
      rw [get_put_of_ne _ hne]
    | some tm =>
      have hold : k ≠ tm.header := by
        rintro rfl
        simp [htm] at hfrontier
      dsimp only
      rw [get_put_of_ne _ hne, get_delete_of_ne _ hold]
  | pending k =>
    rw [Ledger.read, Ledger.read, hp.pendings, pendingsAfter]
    unfold pendingChange at hpending
    split_ifs at hpending ⊢ with hreceive
    · cases hget : l.pendings.get (pendingKeyOf b) with
      | none => rw [delete_of_get_none hget]
      | some info =>
        have hne : k ≠ pendingKeyOf b := by
          rintro rfl
          simp [getPending, hget, PendingChange.key] at hpending
        rw [get_delete_of_ne _ hne]
    · cases hadded : env.addedPending v l b with
      | none => rfl
      | some p =>
        have hne : k ≠ p.1 := by
          rintro rfl
          simp [hadded, PendingChange.key] at hpending
        dsimp only
        rw [get_put_of_ne _ hne]
  | account k =>
    have hne : k ≠ (env.accountAfter l (env.resentBlock v l b)).address :=
      fun heq => hmeta.2.2 (by rw [heq])
    rw [Ledger.read, Ledger.read, hp.accounts, get_put_of_ne _ hne]
  | representation k =>
    rw [Ledger.read, Ledger.read]
    rcases hp.representations with ⟨htoken, t, ht, heq⟩ | ⟨-, heq⟩
    · unfold writtenRepresentatives at hrep
      rw [if_pos htoken] at hrep
      unfold getTokenMetaConfirmed getAccountMetaConfirmed at hrep
      rw [heq, addShare]
      rcases ht with ⟨am, tm, value, ham, htm, hnz, -, rfl⟩ | ⟨-, rfl⟩
      · rw [ham, bind_some, htm] at hrep
        simp only [ne_eq, hnz, not_false_eq_true, if_true, map_cons, map_nil,
          mem_cons, Key.representation.injEq, not_mem_nil, or_false, not_or] at hrep
        rw [get_put_of_ne _ hrep.2, get_put_of_ne _ hrep.1]
      · have hne : k ≠ b.representative := by
          rintro rfl
          refine hrep (mem_map_of_mem ?_)
          split
          · split_ifs <;> simp
          · simp
        rw [get_put_of_ne _ hne]
    · rw [heq]
  | accountBlockHash k =>
    have hne : k ≠ (env.resentBlock v l b).getHash env.hashData := fun heq => hmeta.1 (by rw [heq])
    rw [Ledger.read, Ledger.read, hhash, get_put_of_ne _ hne]
  | accountPovHeight k =>
    have hne : k ≠ ((env.historyToken l (env.resentBlock v l b)).belongTo, b.povHeight,
        (env.historyToken l (env.resentBlock v l b)).type) := fun heq => hmeta.2.1 (by rw [heq])
    rw [Ledger.read, Ledger.read, hpov, get_put_of_ne _ hne]
  | storage k =>
    have hne : k ∉ (env.savedStorage v l (env.sentBlock v l b)).map Prod.fst := by
      intro hmem
      obtain ⟨e, he, rfl⟩ := mem_map.mp hmem
      exact hsaved (mem_map.mpr ⟨e, he, rfl⟩)
    rw [Ledger.read, Ledger.read, hstorage, foldl_put_get_of_notMem _ _ _ hne]
  | other k => rfl

end Env

/-! ## The node -/

def tempCapacity : ℕ := 10000

def defaultCapacity : ℕ := 100000

/-- What a node reads from: the write cache, what lies below it, the pendings that have
reached the store, and the totals of pendings that are kept. -/
structure Node where
  waiting : Finset Key
  top : Key → Option Value
  older : Key → Option Value
  stored : Table PendingKey PendingInfo
  totals : Table Hash ℕ

namespace Node

def read (n : Node) (k : Key) : Option Value := if k ∈ n.waiting then n.top k else n.older k

def rotate (n : Node) : Node := { n with waiting := ∅, older := n.read }

/-- A batch with the keys `ks` is collected and copied; `kept` of them reach the end of the
collection, and they are copied in some order. -/
def Commits (n : Node) (ks : List Key) (after : Key → Option Value) (kept : Finset Key)
    (n' : Node) : Prop :=
  Puts tempCapacity ∅ ks kept ∧
    ∃ n₀ order waiting, (n₀ = n ∨ n₀ = n.rotate) ∧ order.toFinset = kept ∧
      Puts defaultCapacity n₀.waiting order waiting ∧
      n' = { n₀ with
        waiting := waiting
        top := fun k => if k ∈ kept then after k else n₀.top k }

def totalKey (env : Env) (address : Address) (token : Hash) : Hash :=
  env.hashData (hashBytes address ++ hashBytes token)

def storedAmount (n : Node) (address : Address) (token : Hash) : ℕ :=
  (n.stored.entries.filter fun e => e.1.address = address ∧ e.2.type = token).foldl
    (fun sum e => Balance.add sum e.2.amount) 0

/-- The answer of `PendingAmount`. -/
def pendingAmount (env : Env) (n : Node) (address : Address) (token : Hash) : ℕ :=
  (n.totals.get (totalKey env address token)).getD (n.storedAmount address token)

/-- `PendingAmount` keeps its answer. -/
def query (env : Env) (n : Node) (address : Address) (token : Hash) : Node :=
  { n with totals := n.totals.put (totalKey env address token) (n.pendingAmount env address token) }

end Node

namespace Env

def PendingChange.info : PendingChange → PendingInfo
  | .add _ info => info
  | .delete _ info => info

def PendingChange.apply : PendingChange → ℕ → ℕ
  | .add _ info, amount => Balance.add amount info.amount
  | .delete _ info, amount => Balance.sub amount info.amount

def PendingChange.totalKey (env : Env) (p : PendingChange) : Hash :=
  Node.totalKey env p.key.address p.info.type

def updateAccountPending (env : Env) (p : PendingChange) (totals : Table Hash ℕ) : Table Hash ℕ :=
  match totals.get (p.totalKey env) with
  | some amount => totals.put (p.totalKey env) (p.apply amount)
  | none => totals

/-- The change of the totals when a block is processed: it is made as soon as the pending has
been written into the temporary cache. -/
def totalChange (env : Env) (v : View) (l : Ledger) (b : StateBlock) : Option PendingChange :=
  match updateStateBlock env.hashData (env.isGenesisBlock b) v l b l,
    env.updatePending v l b l with
  | .ok _, .ok _ => env.pendingChange v l b
  | _, _ => none

def totalsAfter (env : Env) (v : View) (l : Ledger) (b : StateBlock) (totals : Table Hash ℕ) :
    Table Hash ℕ :=
  ((env.totalChange v l b).map fun p => env.updateAccountPending p totals).getD totals

/-- `BlockProcess` on a node that reads the ledger `l`. -/
inductive ProcessesNode (env : Env) (v : View) (l : Ledger) (other : List Bytes) (b : StateBlock)
    (n : Node) : Except ProcessError Ledger → Node → Prop where
  | failed {e : ProcessError} : env.blockProcess v l b = .error e →
      ProcessesNode env v l other b n (.error e) { n with totals := env.totalsAfter v l b n.totals }
  | done {l' : Ledger} {kept : Finset Key} {n' : Node} : env.blockProcess v l b = .ok l' →
      n.Commits (env.writtenKeys v l other b) l'.read kept n' →
      ProcessesNode env v l other b n (.ok l')
        { n' with totals := env.totalsAfter v l b n.totals }

end Env

namespace Node

variable {env : Env} {v : View} {l l' : Ledger} {b : StateBlock} {other : List Bytes}
variable {n n' : Node} {ks : List Key} {after : Key → Option Value} {kept : Finset Key}

theorem read_rotate (n : Node) : n.rotate.read = n.read := by
  funext k
  simp [read, rotate]

theorem Commits.stored (h : n.Commits ks after kept n') : n'.stored = n.stored := by
  obtain ⟨-, n₀, order, waiting, hn₀, -, -, rfl⟩ := h
  rcases hn₀ with rfl | rfl <;> rfl

theorem Commits.read (h : n.Commits ks after kept n') (hfit : ks.toFinset.card ≤ tempCapacity)
    (hroom : (n.waiting ∪ ks.toFinset).card ≤ defaultCapacity) (k : Key) :
    n'.read k = if k ∈ ks then after k else n.read k := by
  obtain ⟨hcollect, n₀, order, waiting, hn₀, horder, hcopy, rfl⟩ := h
  have hkept : kept = ks.toFinset := by
    rw [hcollect.eq_union (by rwa [Finset.empty_union]), Finset.empty_union]
  have hwaiting : waiting = n₀.waiting ∪ ks.toFinset := by
    rw [hcopy.eq_union, horder, hkept]
    rw [horder, hkept]
    rcases hn₀ with rfl | rfl
    · exact hroom
    · change (∅ ∪ ks.toFinset).card ≤ defaultCapacity
      rw [Finset.empty_union]
      exact hfit.trans (by decide)
  have hsame : n₀.read = n.read := by
    rcases hn₀ with rfl | rfl
    · rfl
    · exact read_rotate n
  rw [← hsame, hwaiting, hkept]
  unfold Node.read
  by_cases hk : k ∈ ks <;> simp [hk]

theorem Commits.exists_lost (h : n.Commits ks after kept n') (hmany : tempCapacity < ks.toFinset.card) :
    ∃ k ∈ ks, n'.read k = n.read k ∨ n'.read k = n.older k := by
  obtain ⟨hcollect, n₀, order, waiting, hn₀, horder, hcopy, rfl⟩ := h
  obtain ⟨k, hk, hlost⟩ : ∃ k ∈ ks, k ∉ kept := by
    by_contra! hall
    have hsub : ks.toFinset ⊆ kept := fun k hk => hall k (mem_toFinset.mp hk)
    exact absurd (hcollect.keeps_all_iff.mp hsub) (Nat.not_le.mpr hmany)
  refine ⟨k, hk, ?_⟩
  have hnew : k ∈ waiting → k ∈ n₀.waiting := by
    intro hmem
    have hsub := hcopy.subset hmem
    rw [Finset.mem_union, horder] at hsub
    exact hsub.resolve_right hlost
  have hrotated : n.rotate.older = n.read := rfl
  unfold Node.read
  dsimp only
  rw [if_neg hlost]
  by_cases hmem : k ∈ waiting
  · rw [if_pos hmem]
    rcases hn₀ with rfl | rfl
    · rw [if_pos (hnew hmem)]
      exact Or.inl rfl
    · exact absurd (hnew hmem) (Finset.notMem_empty k)
  · rw [if_neg hmem]
    rcases hn₀ with rfl | rfl
    · exact Or.inr rfl
    · exact Or.inl (congrFun hrotated k)

theorem get_totalsAfter (totals : Table Hash ℕ) (h : Hash) :
    (env.totalsAfter v l b totals).get h =
      match env.totalChange v l b with
      | some p => if h = p.totalKey env then (totals.get h).map p.apply else totals.get h
      | none => totals.get h := by
  unfold totalsAfter updateAccountPending
  cases env.totalChange v l b with
  | none => rfl
  | some p =>
    simp only [map_some, getD_some]
    cases hget : totals.get (p.totalKey env) with
    | none =>
      dsimp only
      split_ifs with hkey
      · rw [hkey, hget]
        rfl
      · rfl
    | some amount =>
      dsimp only
      rw [get_put]
      split_ifs with hkey
      · rw [hkey, hget]
        rfl
      · rfl

theorem totalChange_of_ok (h : env.blockProcess v l b = .ok l') :
    env.totalChange v l b = env.pendingChange v l b := by
  unfold blockProcess processStateBlock Env.atStage at h
  simp only [bind_eq_ok, mapError_eq_ok] at h
  obtain ⟨c₁, hstate, p, hpending, -⟩ := h
  -- an error of `updatePending` does not depend on the batch
  have hother : ∃ q, env.updatePending v l b l = .ok q := by
    unfold updatePending updateContractSendPending at hpending ⊢
    revert hpending
    repeat' split
    all_goals simp
  obtain ⟨q, hq⟩ := hother
  rw [totalChange, hstate, hq]

/-- When `BlockProcess` fails, every table is read as before, and the totals are exactly if the
block has not changed one that is kept. -/
theorem block_process_all_or_nothing {r : Except ProcessError Ledger}
    (hread : ∀ k, n.read k = l.read k) (h : env.ProcessesNode v l other b n r n') :
    (∀ e, r = .error e → (∀ k, n'.read k = n.read k) ∧
      ((∀ a t, n'.pendingAmount env a t = n.pendingAmount env a t) ↔
        ∀ p amount, env.totalChange v l b = some p → n.totals.get (p.totalKey env) = some amount →
          p.apply amount = amount)) ∧
    (∀ l', r = .ok l' →
      ((env.writtenKeys v l other b).toFinset.card ≤ tempCapacity →
        (n.waiting ∪ (env.writtenKeys v l other b).toFinset).card ≤ defaultCapacity →
        ∀ k, n'.read k = l'.read k) ∧
      (tempCapacity < (env.writtenKeys v l other b).toFinset.card →
        ∃ k ∈ env.writtenKeys v l other b, n'.read k = n.read k ∨ n'.read k = n.older k) ∧
      ∀ p, env.pendingChange v l b = some p →
        (n'.pendingAmount env p.key.address p.info.type =
            p.apply (n.pendingAmount env p.key.address p.info.type) ↔
          n.totals.get (p.totalKey env) ≠ none ∨
            p.apply (n.storedAmount p.key.address p.info.type) =
              n.storedAmount p.key.address p.info.type)) := by
  cases h with
  | @failed e herror =>
    refine ⟨fun _ _ => ⟨fun _ => rfl, ?_⟩, fun _ hr => by cases hr⟩
    unfold pendingAmount
    simp only [get_totalsAfter]
    constructor
    · intro hsame p amount hp hget
      have hkey := hsame p.key.address p.info.type
      simp only [hp] at hkey
      change (if p.totalKey env = p.totalKey env then (n.totals.get (p.totalKey env)).map p.apply
        else _).getD _ = (n.totals.get (p.totalKey env)).getD _ at hkey
      rw [if_pos rfl, hget] at hkey
      exact hkey
    · intro hsame a t
      cases hp : env.totalChange v l b with
      | none => rfl
      | some p =>
        dsimp only
        split_ifs with hkey
        · cases hget : n.totals.get (totalKey env a t) with
          | none => rfl
          | some amount =>
            rw [hkey] at hget
            rw [map_some, hsame p amount hp hget]
            rfl
        · rfl
  | @done l₁ kept n₁ hok hcommit =>
    refine ⟨(fun _ hr => by cases hr), ?_⟩
    rintro l' ⟨⟩
    refine ⟨fun hfit hroom k => ?_, fun hmany => hcommit.exists_lost hmany, fun p hp => ?_⟩
    · have hk := hcommit.read hfit hroom k
      change n₁.read k = l₁.read k
      rw [hk]
      split_ifs with hwritten
      · rfl
      · rw [hread, read_of_not_written hok hwritten]
    · have hstored : n₁.storedAmount = n.storedAmount := by
        unfold storedAmount
        rw [hcommit.stored]
      change ((env.totalsAfter v l b n.totals).get (p.totalKey env)).getD (n₁.storedAmount _ _) =
        p.apply ((n.totals.get (p.totalKey env)).getD _) ↔ _
      rw [get_totalsAfter, totalChange_of_ok hok, hp, hstored]
      dsimp only
      rw [if_pos rfl]
      cases n.totals.get (p.totalKey env) with
      | some amount => simp
      | none => simp [eq_comm]

end Node

/-! ## A block that fails after its pending -/

section Failing

open Devnet Env

def strayReward : StateBlock where
  type := .contractReward
  token := chainToken
  address := stranger
  balance := 100
  previous := 0
  link := (shortSend 34).getHash (headHash 34)
  representative := genesisAddress

def Node.flushedAt (l : Ledger) : Node where
  waiting := ∅
  top := fun _ => none
  older := l.read
  stored := l.pendings
  totals := ∅

theorem failed_block_changes_total :
    ∃ l e n', (shortEnv 34).Reachable anyBlock l ∧
      (shortEnv 34).ProcessesNode view l [] strayReward
        ((Node.flushedAt l).query (shortEnv 34) stranger chainToken) (.error e) n' ∧
      ((Node.flushedAt l).query (shortEnv 34) stranger chainToken).pendingAmount (shortEnv 34)
        stranger chainToken = 100 ∧
      n'.pendingAmount (shortEnv 34) stranger chainToken = 0 := by
  have hrun : (((shortEnv 34).run view (shortEnv 34).genesisLedger [shortSend 34]).any fun l =>
      decide ((shortEnv 34).blockProcess view l strayReward =
          .error ⟨.contractData, .invalidContract stranger⟩ ∧
        ((Node.flushedAt l).query (shortEnv 34) stranger chainToken).pendingAmount (shortEnv 34)
          stranger chainToken = 100 ∧
        (((shortEnv 34).totalsAfter view l strayReward
          ((Node.flushedAt l).query (shortEnv 34) stranger chainToken).totals).get
            (Node.totalKey (shortEnv 34) stranger chainToken)) = some 0)) = true := by
    decide +kernel
  obtain ⟨l, hl, hfacts⟩ := (any_eq_true _ _).mp hrun
  obtain ⟨hfails, hbefore, hafter⟩ := of_decide_eq_true hfacts
  refine ⟨l, _, _, reachable_of_run hl, .failed hfails, hbefore, ?_⟩
  unfold Node.pendingAmount
  dsimp only
  rw [hafter]
  rfl

theorem Node.exists_commits (n : Node) (ks : List Key) (after : Key → Option Value) :
    ∃ kept n', n.Commits ks after kept n' := by
  obtain ⟨kept, hcollect⟩ := Puts.exists_of_pos (by decide : 0 < tempCapacity) ∅ ks
  obtain ⟨waiting, hcopy⟩ := Puts.exists_of_pos (by decide : 0 < defaultCapacity) n.waiting
    kept.toList
  exact ⟨kept, _, hcollect, n, kept.toList, waiting, Or.inl rfl, Finset.toList_toFinset kept, hcopy,
    rfl⟩

/-- A plain send needs few keys: all of it is read back. -/
theorem processed_send_read_back :
    ∃ l' n', (shortEnv 34).ProcessesNode view (shortEnv 34).genesisLedger [] (shortSend 34)
        (Node.flushedAt (shortEnv 34).genesisLedger) (.ok l') n' ∧
      l'.blocks.get ((shortSend 34).getHash (headHash 34)) = some (shortSend 34).clone ∧
      ∀ k, n'.read k = l'.read k := by
  have hrun : (((shortEnv 34).blockProcess view (shortEnv 34).genesisLedger
      (shortSend 34)).toOption.any fun l' =>
        decide (l'.blocks.get ((shortSend 34).getHash (headHash 34)) = some (shortSend 34).clone ∧
          ((shortEnv 34).writtenKeys view (shortEnv 34).genesisLedger [] (shortSend 34)).length ≤
            tempCapacity)) = true := by
    decide +kernel
  obtain ⟨l', hl', hfacts⟩ := (any_eq_true _ _).mp hrun
  obtain ⟨hstored, hlength⟩ := of_decide_eq_true hfacts
  have hok := toOption_eq_some.mp hl'
  obtain ⟨kept, n₁, hcommit⟩ := (Node.flushedAt (shortEnv 34).genesisLedger).exists_commits
    ((shortEnv 34).writtenKeys view (shortEnv 34).genesisLedger [] (shortSend 34)) l'.read
  have hdone := ProcessesNode.done hok hcommit
  have hfit := (toFinset_card_le _).trans hlength
  refine ⟨l', _, hdone, hstored, ((Node.block_process_all_or_nothing (fun _ => rfl) hdone).2 l'
    rfl).1 hfit ?_⟩
  have hwaiting : (Node.flushedAt (shortEnv 34).genesisLedger).waiting = ∅ := rfl
  rw [hwaiting, Finset.empty_union]
  exact hfit.trans (by decide)

end Failing

end GoQlc
