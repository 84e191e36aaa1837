import GoQlc.Process.ProcessSpec

/-!
# Runs

A run starts at the genesis ledger and takes one block after another: each is accepted by
`BlockCheck` and then applied by `BlockProcess`.
-/

namespace GoQlc

open Config Result Ledger List Option Relation Table

/-- What holds in every run: accounts under their address, one meta for each
token, blocks under their hash. -/
structure Ledger.WellKept (hashData : Bytes → Hash) (l : Ledger) : Prop where
  keyed : ∀ a am, l.accounts.get a = some am → am.address = a
  nodup : ∀ a am, l.accounts.get a = some am → (am.tokens.map TokenMeta.type).Nodup
  stored : ∀ h b, l.blocks.get h = some b → b.getHash hashData = h

def Ledger.coinsOf (l : Ledger) (a : Address) : Benefit :=
  ((l.accounts.get a).map AccountMeta.benefit).getD Benefit.zero

def Ledger.balanceAt (l : Ledger) (a : Address) (t : Hash) : ℕ :=
  ((l.getTokenMetaConfirmed a t).map TokenMeta.balance).getD 0

namespace Env

/-- One block: accepted under the view `v`, then applied under the view `v'`. -/
structure Step (env : Env) (v v' : View) (l : Ledger) (b : StateBlock) (l' : Ledger) : Prop where
  accepted : env.blockCheck v l b = .ok ()
  applied : env.blockProcess v' l b = .ok l'

abbrev Condition := View → View → Ledger → StateBlock → Prop

def Next (env : Env) (P : Condition) (l l' : Ledger) : Prop :=
  ∃ v v' b, env.Step v v' l b l' ∧ P v v' l b

def Reachable (env : Env) (P : Condition) (l : Ledger) : Prop :=
  ReflTransGen (env.Next P) env.genesisLedger l

variable {env : Env} {v v' : View} {l l' : Ledger} {b : StateBlock} {P Q : Condition}

theorem Reachable.mono (hPQ : ∀ v v' l b, P v v' l b → Q v v' l b) (h : env.Reachable P l) :
    env.Reachable Q l := by
  refine ReflTransGen.mono ?_ _ _ h
  rintro l₁ l₂ ⟨v, v', b, hstep, hp⟩
  exact ⟨v, v', b, hstep, hPQ v v' l₁ b hp⟩

theorem Reachable.invariant {I : Ledger → Prop} (hgenesis : I env.genesisLedger)
    (hstep : ∀ v v' l b l', env.Step v v' l b l' → P v v' l b → I l → I l')
    (h : env.Reachable P l) : I l := by
  induction h with
  | refl => exact hgenesis
  | tail _ hnext ih =>
    obtain ⟨v, v', b, hs, hp⟩ := hnext
    exact hstep v v' _ b _ hs hp ih

def run (env : Env) (v : View) : Ledger → List StateBlock → Option Ledger
  | l, [] => some l
  | l, b :: bs =>
    match env.blockCheck v l b with
    | .ok () => (env.blockProcess v l b).toOption.bind fun l' => run env v l' bs
    | .error _ => none

def anyBlock : Condition := fun _ _ _ _ => True

variable {bs : List StateBlock}

theorem step_of_run (h : env.run v l (b :: bs) = some l') :
    ∃ l₁, env.Step v v l b l₁ ∧ env.run v l₁ bs = some l' := by
  unfold run at h
  split at h
  · rename_i hcheck
    obtain ⟨l₁, hl₁, hrest⟩ := bind_eq_some_iff.mp h
    exact ⟨l₁, ⟨hcheck, toOption_eq_some.mp hl₁⟩, hrest⟩
  · cases h

theorem reflTransGen_of_run (h : env.run v l bs = some l') :
    ReflTransGen (env.Next anyBlock) l l' := by
  induction bs generalizing l with
  | nil =>
    cases h
    exact .refl
  | cons b bs ih =>
    obtain ⟨l₁, hstep, hrest⟩ := step_of_run h
    exact .head ⟨v, v, b, hstep, trivial⟩ (ih hrest)

theorem reachable_of_run (h : env.run v env.genesisLedger bs = some l) : env.Reachable anyBlock l :=
  reflTransGen_of_run h

def runIf (env : Env) (v : View) (P : Condition) [∀ l b, Decidable (P v v l b)] :
    Ledger → List StateBlock → Option Ledger
  | l, [] => some l
  | l, b :: bs =>
    if P v v l b then (env.run v l [b]).bind fun l' => runIf env v P l' bs else none

theorem reflTransGen_of_runIf [∀ l b, Decidable (P v v l b)] (h : env.runIf v P l bs = some l') :
    ReflTransGen (env.Next P) l l' := by
  induction bs generalizing l with
  | nil =>
    cases h
    exact .refl
  | cons b bs ih =>
    unfold runIf at h
    split_ifs at h with hP
    obtain ⟨l₁, hone, hrest⟩ := bind_eq_some_iff.mp h
    obtain ⟨l₂, hstep, hdone⟩ := step_of_run hone
    cases hdone
    exact .head ⟨v, v, b, hstep, hP⟩ (ih hrest)

theorem reachable_of_runIf [∀ l b, Decidable (P v v l b)]
    (h : env.runIf v P env.genesisLedger bs = some l) : env.Reachable P l :=
  reflTransGen_of_runIf h

/-! ## The genesis ledger -/

theorem isGenesisBlock_of_mem (h : b ∈ allGenesisBlocks) : env.isGenesisBlock b = true := by
  unfold isGenesisBlock Config.isGenesisBlock
  exact any_eq_true.mpr ⟨b, h, beq_self_eq_true _⟩

theorem updateStateBlock_issue {c : Ledger} (hmem : b ∈ [genesisMintageBlock, gasMintageBlock])
    (h : updateStateBlock env.hashData (env.isGenesisBlock b) v l b l = .ok c) :
    c = { l with blocks := l.blocks.put (b.getHash env.hashData) b.clone } := by
  obtain ⟨-, t, hchild, rfl⟩ := updateStateBlock_ok h
  have hb : b ∈ allGenesisBlocks ∧ b.type = .contractSend := by
    simp only [mem_cons, not_mem_nil, or_false] at hmem
    rcases hmem with rfl | rfl <;> simp [allGenesisBlocks] <;> rfl
  obtain ⟨hall, ht⟩ := hb
  have hgen : env.isGenesisBlock b = true := isGenesisBlock_of_mem hall
  rcases hchild with ⟨-, rfl⟩ | ⟨hno, -⟩
  · simp [StateBlock.isReceiveBlock, ht]
  · rw [hgen] at hno
    cases hno

section Genesis

variable {I : Ledger → Prop}
  (hissue : ∀ (l : Ledger) (b : StateBlock), b ∈ [genesisMintageBlock, gasMintageBlock] → I l →
    l.blocks.get (b.getHash env.hashData) = none →
    I { l with blocks := l.blocks.put (b.getHash env.hashData) b.clone })
include hissue

theorem storeIssue_induction {mb : StateBlock}
    (hmb : mb ∈ [genesisMintageBlock, gasMintageBlock]) (hl : I l) :
    I (env.storeIssue mb l) ∧ (env.storeIssue mb l).accounts = l.accounts := by
  unfold storeIssue
  split_ifs with hhas
  · exact ⟨hl, rfl⟩
  · cases hup : updateStateBlock env.hashData (env.isGenesisBlock mb) emptyView l mb l with
    | error e => exact ⟨hl, rfl⟩
    | ok c =>
      obtain rfl := updateStateBlock_issue hmb hup
      exact ⟨hissue l mb hmb hl (hasStateBlockConfirmed_eq_false.mp (by simpa using hhas)), rfl⟩

theorem initToken_induction {mb gb : StateBlock}
    (hmb : mb ∈ [genesisMintageBlock, gasMintageBlock])
    (hopen : ∀ l l', I l → l.blocks.get (gb.getHash env.hashData) = none →
      l.accounts.get gb.address = none → env.blockProcess emptyView l gb = .ok l' → I l')
    (hl : I l) (hnew : l.accounts.get gb.address = none) : I (env.initToken mb gb l) := by
  obtain ⟨hI, haccounts⟩ := storeIssue_induction hissue hmb hl
  unfold initToken
  simp only []
  split_ifs with hhas
  · exact hI
  · cases hproc : env.blockProcess emptyView (env.storeIssue mb l) gb with
    | error e => exact hI
    | ok l₂ =>
      have hfresh := hasStateBlockConfirmed_eq_false.mp (by simpa using hhas)
      exact hopen _ l₂ hI hfresh (by rw [haccounts, hnew]) hproc

theorem genesisLedger_induction (hempty : I {})
    (hopen : ∀ l b l', b ∈ [genesisBlock, gasBlock] → I l →
      l.blocks.get (b.getHash env.hashData) = none → l.accounts.get b.address = none →
      env.blockProcess emptyView l b = .ok l' → I l')
    (hsave : ∀ entries l, I l → I (saveStorage entries l)) : I env.genesisLedger := by
  have hfirst : I (env.initToken genesisMintageBlock genesisBlock {}) ∧
      (env.initToken genesisMintageBlock genesisBlock {}).accounts.get gasAddress = none := by
    refine initToken_induction (I := fun l => I l ∧ l.accounts.get gasAddress = none)
      (fun l b hb hl hf => ⟨hissue l b hb hl.1 hf, hl.2⟩) (by simp) ?_
      ⟨hempty, get_empty _⟩ (get_empty _)
    rintro l l' ⟨hl, hgas⟩ hfresh hnew hp
    refine ⟨hopen l _ l' (by simp) hl hfresh hnew hp, ?_⟩
    have haddr : (env.accountAfter l (env.resentBlock emptyView l genesisBlock)).address =
        genesisAddress := by
      obtain ⟨d, hd⟩ := sameButData_resentBlock (v := emptyView) (l := l)
        (b := genesisBlock)
      rw [hd]
      apply accountAfter_address
      intro am ham
      rw [show l.accounts.get _ = none from hnew] at ham
      cases ham
    rw [(blockProcess_ok hp).accounts, haddr, get_put_of_ne _ (by decide)]
    exact hgas
  apply hsave
  exact initToken_induction hissue (by simp)
    (fun l l' hl hf hn hp => hopen l _ l' (by simp) hl hf hn hp) hfirst.1 hfirst.2

end Genesis

theorem type_of_firstBlock (hb : b ∈ [genesisBlock, gasBlock]) : b.type = .contractReward := by
  simp only [mem_cons, not_mem_nil, or_false] at hb
  rcases hb with rfl | rfl <;> rfl

theorem previous_of_firstBlock (hb : b ∈ [genesisBlock, gasBlock]) : b.previous = 0 := by
  simp only [mem_cons, not_mem_nil, or_false] at hb
  rcases hb with rfl | rfl <;> rfl

/-! ## What every run keeps -/

namespace Processed

variable (hp : env.Processed v l b l')
include hp

theorem get_block (h : Hash) :
    l'.blocks.get h = if h = b.getHash env.hashData then some b.clone else l.blocks.get h := by
  rw [hp.blocks, get_put]

theorem get_block_of_get (hfresh : l.blocks.get (b.getHash env.hashData) = none) {h : Hash}
    {x : StateBlock} (hx : l.blocks.get h = some x) : l'.blocks.get h = some x := by
  rw [hp.get_block, if_neg, hx]
  rintro rfl
  rw [hfresh] at hx
  cases hx

variable (hk : l.WellKept env.hashData)

include hk

theorem get_account (a : Address) :
    l'.accounts.get a =
      if a = b.address then some (env.accountAfter l (env.resentBlock v l b)) else l.accounts.get a := by
  obtain ⟨d, hd⟩ := sameButData_resentBlock (v := v) (l := l) (b := b)
  have haddr : (env.accountAfter l (env.resentBlock v l b)).address = b.address := by
    rw [hd]
    exact accountAfter_address (hk.keyed _)
  rw [hp.accounts, haddr, get_put]

theorem getTokenMeta (a : Address) (t : Hash) :
    l'.getTokenMetaConfirmed a t =
      if a = b.address ∧ t = b.token then some (env.tokenAfter l (env.resentBlock v l b))
      else l.getTokenMetaConfirmed a t := by
  obtain ⟨d, hd⟩ := sameButData_resentBlock (v := v) (l := l) (b := b)
  unfold getTokenMetaConfirmed getAccountMetaConfirmed
  rw [hp.get_account hk]
  by_cases ha : a = b.address
  · rw [if_pos ha, bind_some, accountAfter_token, hd, ha]
    simp only [true_and]
    rfl
  · rw [if_neg ha, if_neg (fun h => ha h.1)]

theorem wellKept : l'.WellKept env.hashData := by
  obtain ⟨d, hd⟩ := sameButData_resentBlock (v := v) (l := l) (b := b)
  refine ⟨?_, ?_, ?_⟩
  · intro a am ham
    rw [hp.get_account hk] at ham
    split_ifs at ham with ha
    · cases ham
      rw [ha, hd]
      exact accountAfter_address (hk.keyed _)
    · exact hk.keyed a am ham
  · intro a am ham
    rw [hp.get_account hk] at ham
    split_ifs at ham with ha
    · cases ham
      apply accountAfter_nodup
      intro am ham
      exact hk.nodup _ am ham
    · exact hk.nodup a am ham
  · intro h x hx
    rw [hp.get_block] at hx
    split_ifs at hx with hh
    · cases hx
      exact hh.symm
    · exact hk.stored h x hx

theorem coinsOf (a : Address) :
    l'.coinsOf a = if a = b.address ∧ b.token = chainToken then b.benefit else l.coinsOf a := by
  obtain ⟨d, hd⟩ := sameButData_resentBlock (v := v) (l := l) (b := b)
  unfold Ledger.coinsOf
  rw [hp.get_account hk]
  by_cases ha : a = b.address
  · rw [if_pos ha, map_some, getD_some, accountAfter_benefit, hd, ha]
    simp only [true_and]
    rfl
  · rw [if_neg ha, if_neg (fun h => ha h.1)]

end Processed

theorem wellKept_issue (hl : l.WellKept env.hashData) :
    Ledger.WellKept env.hashData
      { l with blocks := l.blocks.put (b.getHash env.hashData) b.clone } := by
  refine ⟨hl.keyed, hl.nodup, ?_⟩
  intro h x hx
  simp only [get_put] at hx
  split_ifs at hx with hh
  · cases hx
    exact hh.symm
  · exact hl.stored h x hx

theorem wellKept_empty : Ledger.WellKept env.hashData {} := by
  refine ⟨?_, ?_, ?_⟩ <;> intro k x hx <;> rw [get_empty] at hx <;> cases hx

theorem wellKept_genesis : env.genesisLedger.WellKept env.hashData := by
  apply genesisLedger_induction (fun l b _ hl _ => wellKept_issue hl) wellKept_empty
  · intro l b l' _ hl _ _ hp
    exact (blockProcess_ok hp).wellKept hl
  · intro _ l hl
    exact ⟨hl.keyed, hl.nodup, hl.stored⟩

theorem genesis_invariant {I : Ledger → Prop} (hempty : I {})
    (hissue : ∀ (l : Ledger) (b : StateBlock), b ∈ [genesisMintageBlock, gasMintageBlock] → I l →
      l.blocks.get (b.getHash env.hashData) = none →
      I { l with blocks := l.blocks.put (b.getHash env.hashData) b.clone })
    (hopen : ∀ l b l', b ∈ [genesisBlock, gasBlock] → l.WellKept env.hashData → I l →
      l.blocks.get (b.getHash env.hashData) = none → l.accounts.get b.address = none →
      env.Processed emptyView l b l' → I l')
    (hsave : ∀ entries l, I l → I (saveStorage entries l)) : I env.genesisLedger := by
  suffices h : env.genesisLedger.WellKept env.hashData ∧ I env.genesisLedger from h.2
  refine genesisLedger_induction (I := fun l => l.WellKept env.hashData ∧ I l) ?_
    ⟨wellKept_empty, hempty⟩ ?_ ?_
  · rintro l b hb ⟨hk, hl⟩ hfresh
    exact ⟨wellKept_issue hk, hissue l b hb hl hfresh⟩
  · rintro l b l' hb ⟨hk, hl⟩ hfresh hnew hp
    have hp := blockProcess_ok hp
    exact ⟨hp.wellKept hk, hopen l b l' hb hk hl hfresh hnew hp⟩
  · rintro entries l ⟨hk, hl⟩
    exact ⟨⟨hk.keyed, hk.nodup, hk.stored⟩, hsave entries l hl⟩

theorem Reachable.wellKept (h : env.Reachable P l) : l.WellKept env.hashData :=
  h.invariant wellKept_genesis fun _ _ _ _ _ hs _ hl => (blockProcess_ok hs.applied).wellKept hl

end Env
end GoQlc

/-! ## Calls of one contract -/

namespace GoQlc

open Result Ledger List Option VmContext

namespace Table

variable {K V : Type} [DecidableEq K]

theorem get_foldl_put {f : K → K} (hf : Function.Injective f) (t batch : Table K V) (k : K) :
    ((batch.entries.map fun e => (f e.1, e.2)).foldl (fun t e => t.put e.1 e.2) t).get (f k) =
      (batch.get k).or (t.get (f k)) := by
  change _ = (batch.entries.dlookup k).or (t.get (f k))
  have hnodup := batch.nodupKeys
  revert hnodup
  induction batch.entries generalizing t with
  | nil => simp
  | cons e es ih =>
    intro hnodup
    rw [nodupKeys_cons] at hnodup
    rw [map_cons, foldl_cons, ih _ hnodup.2]
    by_cases hk : k = e.1
    · subst hk
      rw [dlookup_cons_eq, dlookup_eq_none.mpr hnodup.1, get_put_self]
      rfl
    · rw [dlookup_cons_ne _ _ hk, get_put_of_ne _ (hf.ne hk)]

end Table

namespace Ledger

def area (l : Ledger) (addr : Address) (key : Bytes) : Option Bytes :=
  l.vmStorage.get (hashBytes addr ++ key)

theorem area_saveStorage (l : Ledger) (ctx : VmContext) (key : Bytes) :
    (saveStorage ctx.toCache l).area ctx.contractAddr key =
      (ctx.cache.get key).or (l.area ctx.contractAddr key) :=
  Table.get_foldl_put (append_right_injective (hashBytes ctx.contractAddr)) _ _ _

end Ledger

namespace Env

variable {v : View} {l : Ledger} {b : StateBlock}

theorem newVMContextWithBlock_eq_some {ctx : VmContext}
    (h : newVMContextWithBlock v l b = some ctx) :
    ctx.ledger = l ∧ ctx.view = v ∧ ctx.cache = ∅ ∧
      l.contractAddress v b = some ctx.contractAddr := by
  unfold newVMContextWithBlock at h
  obtain ⟨latest, -, h⟩ := bind_eq_some_iff.mp h
  dsimp only at h
  generalize (if latest < b.povHeight then latest else b.povHeight) = povHeight at h
  cases hheader : v.hasPovHeader povHeight with
  | false => simp [hheader] at h
  | true =>
    rw [if_pos hheader] at h
    obtain ⟨addr, haddr, h⟩ := bind_eq_some_iff.mp h
    cases h
    exact ⟨rfl, rfl, rfl, haddr⟩

theorem contractAddress_of_send (ht : b.type = .contractSend) :
    l.contractAddress v b = some b.link := by
  simp [contractAddress, StateBlock.isSendBlock, ht]

end Env

namespace VmContext

def area (ctx : VmContext) (key : Bytes) : Option Bytes :=
  (ctx.cache.get key).or (ctx.ledger.area ctx.contractAddr key)

theorem getStorage_eq_area (ctx : VmContext) (pre key : Bytes) :
    ctx.getStorage pre key = ctx.area (pre ++ key) := rfl

theorem area_setStorage (ctx : VmContext) (pre key value : Bytes) :
    (ctx.setStorage pre key value).area =
      Function.update ctx.area (pre ++ key) (some value) := by
  funext x
  by_cases hx : x = pre ++ key
  · subst hx
    rw [Function.update_self, area, setStorage, Table.get_put_self]
    rfl
  · rw [Function.update_of_ne hx, area, setStorage, Table.get_put_of_ne _ hx]
    rfl

structure SameCall (ctx ctx' : VmContext) : Prop where
  ledger : ctx'.ledger = ctx.ledger
  contractAddr : ctx'.contractAddr = ctx.contractAddr

namespace SameCall

variable {ctx ctx' ctx'' : VmContext}

theorem refl (ctx : VmContext) : SameCall ctx ctx := ⟨rfl, rfl⟩

theorem setStorage (h : SameCall ctx ctx') (pre key value : Bytes) :
    SameCall ctx (ctx'.setStorage pre key value) := ⟨h.ledger, h.contractAddr⟩

end SameCall
end VmContext

namespace Calls

structure Node where
  ledger : Ledger
  view : View

/-- Processes a send to the contract at `addr` that is accepted; `lookup` finds the method. -/
def Node.send (lookup : Bytes → Option Contract) (addr : Address) (s : Node)
    (block : StateBlock) : Option Node :=
  if block.type = .contractSend ∧ block.link = addr then do
    let c ← lookup block.getPayload
    let ctx ← newVMContextWithBlock s.view s.ledger block
    let (_, ctx) ← (c.processSend ctx block).result.toOption
    return { s with ledger := saveStorage ctx.toCache s.ledger }
  else none

/-- The send `block` runs the method `c` in the context `ctx`. -/
structure Node.Runs (lookup : Bytes → Option Contract) (addr : Address) (s : Node)
    (block : StateBlock) (c : Contract) (ctx : VmContext) : Prop where
  type : block.type = .contractSend
  link : block.link = addr
  contract : lookup block.getPayload = some c
  context : newVMContextWithBlock s.view s.ledger block = some ctx

namespace Node

variable {lookup : Bytes → Option Contract} {addr : Address} {s s' : Node} {block : StateBlock}
  {c : Contract} {ctx ctx' : VmContext}

theorem send_eq_some (h : s.send lookup addr block = some s') :
    ∃ c ctx pending ctx', s.Runs lookup addr block c ctx ∧
      (c.processSend ctx block).result = .ok (pending, ctx') ∧
      s' = { s with ledger := saveStorage ctx'.toCache s.ledger } := by
  unfold send at h
  split_ifs at h with hto
  obtain ⟨c, hc, h⟩ := bind_eq_some_iff.mp h
  obtain ⟨ctx, hctx, h⟩ := bind_eq_some_iff.mp h
  obtain ⟨⟨pending, ctx'⟩, hres, h⟩ := bind_eq_some_iff.mp h
  exact ⟨c, ctx, pending, ctx', ⟨hto.1, hto.2, hc, hctx⟩, toOption_eq_some.mp hres,
    (Option.some.inj h).symm⟩

variable (h : s.Runs lookup addr block c ctx)

include h

theorem Runs.reads :
    ctx.ledger = s.ledger ∧ ctx.view = s.view ∧ ctx.cache = ∅ ∧ ctx.contractAddr = addr := by
  obtain ⟨hledger, hview, hcache, haddr⟩ := Env.newVMContextWithBlock_eq_some h.context
  rw [Env.contractAddress_of_send h.type, h.link] at haddr
  exact ⟨hledger, hview, hcache, (Option.some.inj haddr).symm⟩

theorem Runs.area : ctx.area = s.ledger.area addr := by
  obtain ⟨hledger, -, hcache, haddr⟩ := h.reads
  funext key
  rw [VmContext.area, hcache, Table.get_empty, haddr, hledger]
  rfl

theorem Runs.area_saveStorage (hsame : ctx.SameCall ctx') :
    (saveStorage ctx'.toCache s.ledger).area addr = ctx'.area := by
  obtain ⟨hledger, -, -, haddr⟩ := h.reads
  funext key
  rw [← haddr, ← hsame.contractAddr, Ledger.area_saveStorage, VmContext.area, hsame.ledger,
    hledger]

end Node

/-- The accepted sends to a contract from `start` on, the latest first. -/
inductive Run (lookup : Bytes → Option Contract) (addr : Address) (start : Node) :
    List StateBlock → Node → Prop
  | start : Run lookup addr start [] start
  | send {ops : List StateBlock} {s s' : Node} {block : StateBlock} :
    Run lookup addr start ops s → s.send lookup addr block = some s' →
    Run lookup addr start (block :: ops) s'
  | other {ops : List StateBlock} {s s' : Node} :
    Run lookup addr start ops s → s'.ledger.area addr = s.ledger.area addr →
    Run lookup addr start ops s'

def Node.sends (lookup : Bytes → Option Contract) (addr : Address) (start : Node) :
    List StateBlock → Option Node
  | [] => some start
  | block :: ops => (start.sends lookup addr ops).bind fun s => s.send lookup addr block

variable {lookup : Bytes → Option Contract} {addr : Address} {ops : List StateBlock}

theorem run_of_sends {start s : Node} (h : start.sends lookup addr ops = some s) :
    Run lookup addr start ops s := by
  induction ops generalizing s with
  | nil =>
    cases h
    exact .start
  | cons block ops ih =>
    obtain ⟨s₀, hops, hsend⟩ := bind_eq_some_iff.mp h
    exact (ih hops).send hsend

theorem Run.invariant {start s : Node} {P : List StateBlock → (Bytes → Option Bytes) → Prop}
    (h : Run lookup addr start ops s) (hstart : P [] (start.ledger.area addr))
    (hstep : ∀ ops s block c ctx pending ctx', Run lookup addr start ops s → P ops ctx.area → s.Runs lookup addr block c ctx → (c.processSend ctx block).result = .ok (pending, ctx') → ctx.SameCall ctx' ∧ P (block :: ops) ctx'.area) :
    P ops (s.ledger.area addr) := by
  induction h with
  | start => exact hstart
  | send hrun hsend ih =>
    obtain ⟨c, ctx, pending, ctx', hcalls, hres, rfl⟩ := Node.send_eq_some hsend
    obtain ⟨hsame, hP⟩ := hstep _ _ _ c ctx pending ctx' hrun (hcalls.area ▸ ih) hcalls hres
    rwa [hcalls.area_saveStorage hsame]
  | other _ harea ih => rwa [harea]

end Calls
end GoQlc
