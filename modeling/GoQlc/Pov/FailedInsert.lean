import GoQlc.Pov.BestChain
import GoQlc.Pov.Insert

/-!
# Calls of `InsertBlock` that fail

Once a call has dealt with the transactions of a first block, its listeners know of it.
-/

namespace GoQlc.Pov

open Effect Result Keeps

variable {txs : PovBlock → List Hash} {fails : Op → Bool} {g : Genesis} {db : Files}
  {b : PovBlock} {s : Session}

namespace Session

def SameMem (s s' : Session) : Prop := s'.mem = s.mem

def Grows (s s' : Session) : Prop := s.mem.events.length ≤ s'.mem.events.length

instance : Std.Refl SameMem := ⟨fun _ => rfl⟩

instance : IsTrans Session SameMem := ⟨fun _ _ _ h₁ h₂ => Eq.trans h₂ h₁⟩

instance : Std.Refl Grows := ⟨fun _ => Nat.le_refl _⟩

instance : IsTrans Session Grows := ⟨fun _ _ _ h₁ h₂ => Nat.le_trans h₁ h₂⟩

section
variable {R : Session → Session → Prop} [Std.Refl R]

theorem keeps_get : Keeps R (get : InsertM Session) := fun s => refl s

theorem keeps_throwIf (p : Prop) [Decidable p] (e : InsertError) : Keeps R (throwIf p e) := by
  unfold throwIf
  split_ifs
  · exact throw e
  · exact pure ()

theorem keeps_liftPov {α : Type} (x : Except PovError α) : Keeps R (liftPov x) := by
  cases x with
  | ok a => exact pure a
  | error e => exact throw _

end

theorem keeps_dbWrite (op : Op) (write : Tables → Tables) :
    Keeps SameMem (dbWrite fails op write) :=
  (keeps_throwIf _ _).bind fun _ => modify fun _ => rfl

theorem keeps_writeCoinbase (op : Op) (b : PovBlock)
    (write : Hash → Table Hash TxLookup → Table Hash TxLookup) :
    Keeps SameMem (writeCoinbase txs fails op b write) := by
  unfold writeCoinbase
  cases (txs b).head? with
  | none => exact pure ()
  | some coinbase => exact keeps_dbWrite _ _

theorem keeps_getPovTD (op : Op) (td : Option ℕ) : Keeps SameMem (getPovTD fails op td) :=
  (keeps_throwIf _ _).bind fun _ => keeps_liftPov _

theorem keeps_savePovBlock (td : ℕ) : Keeps SameMem (savePovBlock fails b td) := by
  refine keeps_get.bind fun s => ?_
  split_ifs
  · exact pure ()
  · exact keeps_dbWrite _ _

theorem SameMem.grows {α : Type} {x : InsertM α} (h : Keeps SameMem x) : Keeps Grows x := by
  intro s
  unfold Grows
  rw [h s]

theorem grows_announce (event : Event) : Keeps Grows (announce event) :=
  modify fun s => by
    change s.mem.events.length ≤ (s.mem.events ++ [event]).length
    rw [List.length_append]
    omega

theorem grows_modify {f : Session → Session} (h : ∀ s, (f s).mem.events = s.mem.events) :
    Keeps Grows (modify f : InsertM Unit) :=
  modify fun s => Nat.le_of_eq (congrArg List.length (h s).symm)

theorem grows_setPovLatestHeight (b : PovBlock) : Keeps Grows (setPovLatestHeight fails b) :=
  SameMem.grows (keeps_dbWrite _ _)

theorem grows_afterConnect (b : PovBlock) : Keeps Grows (do
    setPovLatestHeight fails b
    modify fun s => { s with mem := s.mem.storeLatestBlock b }
    announce (.connectBestBlock b) : InsertM Unit) :=
  (grows_setPovLatestHeight b).bind fun _ =>
    (grows_modify fun _ => rfl).bind fun _ => grows_announce _

theorem grows_connectBestBlock (b : PovBlock) : Keeps Grows (connectBestBlock txs fails b) := by
  refine keeps_get.bind fun s => (keeps_throwIf _ _).bind fun _ => ?_
  refine (SameMem.grows (keeps_dbWrite _ _)).bind fun _ => ?_
  refine ((SameMem.grows (keeps_writeCoinbase _ _ _)).bind fun _ => grows_announce _).bind
    fun _ => grows_afterConnect b

theorem grows_afterDisconnect (b : PovBlock) : Keeps Grows (do
    dbWrite fails (.deletePovBestHash b) fun t =>
      { t with store := { t.store with bestHash := t.store.bestHash.delete b.height } }
    let prev ← liftPov ((db.getBlockByHash b.previous).elim (.error .invalidPrevious) .ok)
    setPovLatestHeight fails prev
    modify fun s =>
      { s with
        mem := { s.mem with
          heightBlockCache := s.mem.heightBlockCache.delete b.height }.storeLatestBlock prev }
    announce (.disconnectBestBlock b) : InsertM Unit) := by
  refine (SameMem.grows (keeps_dbWrite _ _)).bind fun _ => (keeps_liftPov _).bind fun prev => ?_
  refine (grows_setPovLatestHeight prev).bind fun _ => ?_
  exact (grows_modify fun _ => rfl).bind fun _ => grows_announce _

theorem grows_disconnectBestBlock (b : PovBlock) :
    Keeps Grows (disconnectBestBlock txs fails db b) := by
  refine keeps_get.bind fun s => (keeps_throwIf _ _).bind fun _ => ?_
  exact ((SameMem.grows (keeps_writeCoinbase _ _ _)).bind fun _ => grows_announce _).bind
    fun _ => grows_afterDisconnect b

/-! ## The first event -/

variable {e : InsertError} {op : Op} {write : Hash → Table Hash TxLookup → Table Hash TxLookup}
  {point : ForkPoint} {new : PovBlock} {td : ℕ} {s' : Session}

theorem throwIf_of_not {p : Prop} [Decidable p] (h : ¬ p) : throwIf p e s = .ok () s := by
  unfold throwIf
  rw [if_neg h]
  rfl

theorem throwIf_of {p : Prop} [Decidable p] (h : p) : throwIf p e s = .error e s := by
  unfold throwIf
  rw [if_pos h]
  rfl

theorem dbWrite_of_ok {write : Tables → Tables} (h : fails op = false) :
    dbWrite fails op write s = .ok () { s with batch := write s.batch } := by
  unfold dbWrite
  rw [bind_of_ok (throwIf_of_not (by rw [h]; decide))]
  rfl

theorem dbWrite_of_fails {write : Tables → Tables} (h : fails op = true) :
    dbWrite fails op write s = .error (.storage op) s :=
  bind_of_error (throwIf_of h)

def CoinbaseOk (txs : PovBlock → List Hash) (fails : Op → Bool) (op : Op) (b : PovBlock) : Prop :=
  txs b = [] ∨ fails op = false

theorem writeCoinbase_of_ok (h : CoinbaseOk txs fails op b) :
    ∃ s', writeCoinbase txs fails op b write s = .ok () s' ∧ s'.mem = s.mem := by
  unfold writeCoinbase
  cases hhead : (txs b).head? with
  | none => exact ⟨s, rfl, rfl⟩
  | some coinbase =>
    rcases h with hnil | hok
    · rw [hnil] at hhead
      cases hhead
    · exact ⟨_, dbWrite_of_ok hok, rfl⟩

theorem writeCoinbase_of_fails (h : ¬ CoinbaseOk txs fails op b) :
    writeCoinbase txs fails op b write s = .error (.storage op) s := by
  obtain ⟨hne, hfails⟩ := not_or.mp h
  unfold writeCoinbase
  cases htxs : txs b with
  | nil => exact absurd htxs hne
  | cons coinbase rest => exact dbWrite_of_fails (Bool.eq_true_of_not_eq_false hfails)

theorem connectTransactions_of_ok (h : CoinbaseOk txs fails (.addPovTxLookup b) b) :
    ∃ s', connectTransactions txs fails b s = .ok () s' ∧
      s'.mem = s.mem.announce (.connectPovBlock b) := by
  obtain ⟨s', hwrite, hmem⟩ := writeCoinbase_of_ok h
  exact ⟨_, bind_of_ok hwrite, congrArg (Memory.announce · _) hmem⟩

theorem disconnectTransactions_of_ok (h : CoinbaseOk txs fails (.deletePovTxLookup b) b) :
    ∃ s', disconnectTransactions txs fails b s = .ok () s' ∧
      s'.mem = s.mem.announce (.disconnectPovBlock b) := by
  obtain ⟨s', hwrite, hmem⟩ := writeCoinbase_of_ok h
  exact ⟨_, bind_of_ok hwrite, congrArg (Memory.announce · _) hmem⟩

theorem lt_of_announce {x rest : InsertM Unit} {s₁ : Session} {event : Event}
    (hsame : s₁.mem = s.mem) (hx : ∃ s', x s₁ = .ok () s' ∧ s'.mem = s₁.mem.announce event)
    (hrest : Keeps Grows rest) :
    s.mem.events.length < (final ((x >>= fun _ => rest) s₁)).mem.events.length := by
  obtain ⟨s', hx, hmem⟩ := hx
  rw [hsame] at hmem
  have hgrows := hrest s'
  unfold Grows at hgrows
  rw [hmem] at hgrows
  change (s.mem.events ++ [event]).length ≤ _ at hgrows
  rw [List.length_append] at hgrows
  rw [bind_of_ok hx]
  exact Nat.lt_of_lt_of_le (Nat.lt_succ_self _) hgrows

/-- `connectBestBlock` gets to its first event. -/
def ConnectAnnounces (txs : PovBlock → List Hash) (fails : Op → Bool) (latest b : PovBlock) :
    Prop :=
  b.height = latest.height + 1 ∧ fails (.addPovBestHash b) = false ∧
    CoinbaseOk txs fails (.addPovTxLookup b) b

theorem connectBestBlock_announces (h : ConnectAnnounces txs fails s.mem.latest b) :
    s.mem.events.length < (final (connectBestBlock txs fails b s)).mem.events.length := by
  obtain ⟨hheight, hbest, hcoinbase⟩ := h
  unfold connectBestBlock
  rw [get_bind, bind_of_ok (throwIf_of_not (not_not.mpr hheight)),
    bind_of_ok (dbWrite_of_ok hbest)]
  exact lt_of_announce rfl (connectTransactions_of_ok hcoinbase) (grows_afterConnect b)

theorem connectBestBlock_quiet (h : ¬ ConnectAnnounces txs fails s.mem.latest b) :
    (final (connectBestBlock txs fails b s)).mem = s.mem := by
  unfold connectBestBlock
  rw [get_bind]
  by_cases hheight : b.height = s.mem.latest.height + 1
  · rw [bind_of_ok (throwIf_of_not (not_not.mpr hheight))]
    cases hbest : fails (.addPovBestHash b) with
    | true =>
      rw [bind_of_error (dbWrite_of_fails hbest)]
      rfl
    | false =>
      have hcoinbase : ¬ CoinbaseOk txs fails (.addPovTxLookup b) b := fun hcoinbase =>
        h ⟨hheight, hbest, hcoinbase⟩
      have htxs : ∀ s, connectTransactions txs fails b s = .error _ s := fun s =>
        bind_of_error (writeCoinbase_of_fails hcoinbase)
      rw [bind_of_ok (dbWrite_of_ok hbest), bind_of_error (htxs _)]
      rfl
  · rw [bind_of_error (throwIf_of hheight)]
    rfl

theorem disconnectBestBlock_announces (hhash : s.mem.latest.hash = b.hash)
    (h : CoinbaseOk txs fails (.deletePovTxLookup b) b) :
    s.mem.events.length < (final (disconnectBestBlock txs fails db b s)).mem.events.length := by
  unfold disconnectBestBlock
  rw [get_bind, bind_of_ok (throwIf_of_not (not_not.mpr hhash))]
  exact lt_of_announce rfl (disconnectTransactions_of_ok h) (grows_afterDisconnect b)

theorem disconnectBestBlock_quiet (h : ¬ CoinbaseOk txs fails (.deletePovTxLookup b) b) :
    disconnectBestBlock txs fails db b s =
        .error (.pov .invalidHash) s ∨
      disconnectBestBlock txs fails db b s = .error (.storage (.deletePovTxLookup b)) s := by
  unfold disconnectBestBlock
  rw [get_bind]
  by_cases hhash : s.mem.latest.hash = b.hash
  · right
    have htxs : disconnectTransactions txs fails b s = .error _ s :=
      bind_of_error (writeCoinbase_of_fails h)
    rw [bind_of_ok (throwIf_of_not (not_not.mpr hhash)), bind_of_error htxs]
  · left
    rw [bind_of_error (throwIf_of hhash)]

theorem findForkPoint_head {fuel : ℕ} {attach detach : PovBlock}
    (h : findForkPoint db fuel attach detach = .ok point) :
    ∃ rest, point.detach = detach :: rest := by
  cases fuel with
  | zero => cases h
  | succ fuel =>
    rw [findForkPoint] at h
    split_ifs at h
    · cases h
      exact ⟨[], rfl⟩
    · cases hattach : db.getBlockByHash attach.previous with
      | none =>
        rw [hattach] at h
        cases h
      | some prevAttach =>
        cases hdetach : db.getBlockByHash detach.previous with
        | none =>
          rw [hattach, hdetach] at h
          cases h
        | some prevDetach =>
          rw [hattach, hdetach] at h
          obtain ⟨below, _, hret⟩ := bind_eq_ok.mp h
          cases hret
          exact ⟨below.detach, rfl⟩

theorem collectBlocks_head {n : ℕ} {last : PovBlock} {blocks : List PovBlock}
    (h : collectBlocks db n b = .ok (blocks, last)) :
    blocks = [] ∧ last = b ∨ ∃ rest, blocks = b :: rest := by
  cases n with
  | zero =>
    cases h
    exact Or.inl ⟨rfl, rfl⟩
  | succ n =>
    right
    rw [collectBlocks] at h
    split_ifs at h
    · cases h
      exact ⟨[], rfl⟩
    · cases hget : db.getBlockByHash b.previous with
      | none =>
        rw [hget] at h
        cases h
      | some prev =>
        rw [hget] at h
        obtain ⟨⟨rest, below⟩, _, hret⟩ := bind_eq_ok.mp h
        cases hret
        exact ⟨rest, rfl⟩

theorem forkPoint_head {latest fork : PovBlock} (h : forkPoint g db latest new = .ok (point, fork)) :
    ∃ rest, point.detach = latest :: rest := by
  obtain ⟨point', hbranches, h⟩ := bind_eq_ok.mp h
  obtain ⟨fork', _, h⟩ := bind_eq_ok.mp h
  obtain ⟨_, h⟩ := ite_error_eq_ok.mp h
  cases h
  obtain ⟨⟨attach, attachBlock⟩, _, hbranches⟩ := bind_eq_ok.mp hbranches
  obtain ⟨⟨detach, detachBlock⟩, hcollect, hbranches⟩ := bind_eq_ok.mp hbranches
  obtain ⟨_, hbranches⟩ := ite_error_eq_ok.mp hbranches
  obtain ⟨below, hfind, hret⟩ := bind_eq_ok.mp hbranches
  cases hret
  rcases collectBlocks_head hcollect with ⟨rfl, rfl⟩ | ⟨rest, rfl⟩
  · obtain ⟨rest, hrest⟩ := findForkPoint_head hfind
    exact ⟨rest, hrest⟩
  · exact ⟨rest ++ below.detach, rfl⟩

/-- `processFork` gets to its first event. -/
def ForkAnnounces (txs : PovBlock → List Hash) (fails : Op → Bool) (g : Genesis) (db : Files)
    (latest new : PovBlock) : Prop :=
  (∃ r, forkPoint g db latest new = .ok r) ∧ CoinbaseOk txs fails (.deletePovTxLookup latest) latest

theorem processFork_announces (h : ForkAnnounces txs fails g db s.mem.latest new) :
    s.mem.events.length < (final (processFork txs fails g db new s)).mem.events.length := by
  obtain ⟨⟨⟨point, fork⟩, hpoint⟩, hcoinbase⟩ := h
  obtain ⟨rest, hdetach⟩ := forkPoint_head hpoint
  have hlift : liftPov (forkPoint g db s.mem.latest new) s = .ok (point, fork) s := by
    rw [hpoint]
    rfl
  have hfirst := @disconnectBestBlock_announces txs fails db s.mem.latest s rfl hcoinbase
  have hloops : Keeps Grows (do
      rest.forM (disconnectBestBlock txs fails db)
      point.attach.reverse.forM (connectBestBlock txs fails)
      return fork : InsertM PovBlock) :=
    (forM grows_disconnectBestBlock rest).bind fun _ =>
      (forM grows_connectBestBlock _).bind fun _ => pure fork
  unfold processFork
  rw [get_bind, bind_of_ok hlift]
  dsimp only
  rw [hdetach, forM_cons_bind]
  cases hstep : disconnectBestBlock txs fails db s.mem.latest s with
  | error e s₁ =>
    rw [bind_of_error hstep]
    rw [hstep] at hfirst
    exact hfirst
  | ok u s₁ =>
    rw [bind_of_ok hstep]
    rw [hstep] at hfirst
    exact Nat.lt_of_lt_of_le hfirst (hloops s₁)

theorem processFork_quiet (h : ¬ ForkAnnounces txs fails g db s.mem.latest new) :
    (final (processFork txs fails g db new s)).mem = s.mem := by
  unfold processFork
  rw [get_bind]
  cases hpoint : forkPoint g db s.mem.latest new with
  | error e => rfl
  | ok r =>
    obtain ⟨point, fork⟩ := r
    have hlift : liftPov (.ok (point, fork)) s = .ok (point, fork) s := rfl
    have hcoinbase := fun hcoinbase => h ⟨⟨_, hpoint⟩, hcoinbase⟩
    obtain ⟨rest, hdetach⟩ := forkPoint_head hpoint
    rw [bind_of_ok hlift]
    dsimp only
    rw [hdetach, forM_cons_bind]
    rcases @disconnectBestBlock_quiet txs fails db s.mem.latest s hcoinbase with hstep | hstep
    · rw [bind_of_error hstep]
      rfl
    · rw [bind_of_error hstep]
      rfl

theorem getPovTD_some (h : fails op = false) : getPovTD fails op (some td) s = .ok td s := by
  unfold getPovTD
  rw [bind_of_ok (throwIf_of_not (by rw [h]; decide))]
  rfl

theorem getPovTD_eq_ok {td : Option ℕ} {a : ℕ} (h : getPovTD fails op td s = .ok a s') :
    fails op = false ∧ td = some a ∧ s' = s := by
  cases hfails : fails op with
  | true =>
    unfold getPovTD at h
    rw [bind_of_error (throwIf_of hfails)] at h
    cases h
  | false =>
    cases td with
    | none =>
      unfold getPovTD at h
      rw [bind_of_ok (throwIf_of_not (by rw [hfails]; decide))] at h
      cases h
    | some td =>
      rw [getPovTD_some hfails] at h
      cases h
      exact ⟨rfl, rfl, rfl⟩

theorem dbWrite_eq_ok {write : Tables → Tables} (h : dbWrite fails op write s = .ok () s') :
    fails op = false ∧ s' = { s with batch := write s.batch } := by
  cases hfails : fails op with
  | true =>
    rw [dbWrite_of_fails hfails] at h
    cases h
  | false =>
    rw [dbWrite_of_ok hfails] at h
    cases h
    exact ⟨rfl, rfl⟩

def SaveOk (fails : Op → Bool) (t : Tables) (b : PovBlock) : Prop :=
  (t.store.headers.get (b.height, b.hash)).isSome = true ∨ fails .addPovBlock = false

theorem savePovBlock_of_ok (h : SaveOk fails s.batch b) :
    ∃ s', savePovBlock fails b td s = .ok () s' ∧ s'.mem = s.mem := by
  unfold savePovBlock
  rw [get_bind]
  split_ifs with hsome
  · exact ⟨s, rfl, rfl⟩
  · exact ⟨_, dbWrite_of_ok (h.resolve_left hsome), rfl⟩

theorem savePovBlock_of_fails (h : ¬ SaveOk fails s.batch b) :
    savePovBlock fails b td s = .error (.storage .addPovBlock) s := by
  obtain ⟨hsome, hfails⟩ := not_or.mp h
  unfold savePovBlock
  rw [get_bind, if_neg hsome]
  exact dbWrite_of_fails (Bool.eq_true_of_not_eq_false hfails)

def GrowAnnounces (txs : PovBlock → List Hash) (fails : Op → Bool) (g : Genesis) (coin : Bool)
    (db : Files) (bestTD blockTD : ℕ) (latest b : PovBlock) : Prop :=
  isBest coin blockTD bestTD b latest = true ∧
    if b.previous = latest.hash then ConnectAnnounces txs fails latest b
    else ForkAnnounces txs fails g db latest b

variable {coin : Bool} {bestTD blockTD : ℕ}

theorem growChain_announces
    (h : GrowAnnounces txs fails g coin db bestTD blockTD s.mem.latest b) :
    s.mem.events.length <
      (final (growChain txs fails g coin db bestTD blockTD s.mem.latest b s)).mem.events.length := by
  obtain ⟨hbest, h⟩ := h
  unfold growChain
  rw [if_pos hbest]
  split_ifs at h ⊢ with hextend
  · rw [final_bind_pure]
    exact connectBestBlock_announces h
  · rw [final_bind_pure]
    exact processFork_announces h

theorem growChain_quiet (h : ¬ GrowAnnounces txs fails g coin db bestTD blockTD s.mem.latest b) :
    (final (growChain txs fails g coin db bestTD blockTD s.mem.latest b s)).mem = s.mem := by
  unfold growChain
  split_ifs with hbest hextend
  · rw [final_bind_pure]
    refine connectBestBlock_quiet fun hannounces => h ⟨hbest, ?_⟩
    rw [if_pos hextend]
    exact hannounces
  · rw [final_bind_pure]
    refine processFork_quiet fun hannounces => h ⟨hbest, ?_⟩
    rw [if_neg hextend]
    exact hannounces
  · rfl

/-- A call gets to its first event: the block is filed and best, and the transactions of the
first block to connect or to disconnect are dealt with. -/
def Announces (txs : PovBlock → List Hash) (fails : Op → Bool) (g : Genesis) (coin : Bool)
    (t : Tables) (latest b : PovBlock) : Prop :=
  fails .getBestTD = false ∧ fails .getPreviousTD = false ∧ SaveOk fails t b ∧
  fails .commitToDB = false ∧
  ∃ bestTD prevTD, t.store.td.get (latest.height, latest.hash) = some bestTD ∧
    t.store.previousTD b = some prevTD ∧
    GrowAnnounces txs fails g coin t.store.toFiles bestTD (prevTD + b.work) latest b

theorem insertBlock_announces (h : Announces txs fails g coin s.batch s.mem.latest b) :
    s.mem.events.length <
      (final (insertBlock txs fails g coin s.batch.store.toFiles b s)).mem.events.length := by
  obtain ⟨hbestOk, hprevOk, hsave, hcommit, bestTD, prevTD, hbest, hprev, hgrow⟩ := h
  obtain ⟨s', hsaved, hmem⟩ := @savePovBlock_of_ok fails b s (prevTD + b.work) hsave
  rw [← hmem] at hgrow ⊢
  unfold insertBlock
  rw [get_bind, hbest, hprev, bind_of_ok (getPovTD_some hbestOk),
    bind_of_ok (getPovTD_some hprevOk), bind_of_ok hsaved, bind_of_ok (dbWrite_of_ok hcommit), ← hmem]
  exact growChain_announces hgrow

theorem insertBlock_quiet (h : ¬ Announces txs fails g coin s.batch s.mem.latest b) :
    (final (insertBlock txs fails g coin s.batch.store.toFiles b s)).mem = s.mem := by
  unfold insertBlock
  rw [get_bind]
  -- the memory is untouched up to the end of the call
  refine (keeps_getPovTD _ _).bind_at fun bestTD s₁ hbest => ?_
  refine (keeps_getPovTD _ _).bind_at fun prevTD s₂ hprev => ?_
  refine (keeps_savePovBlock _).bind_at fun _ s₃ hsave => ?_
  refine (keeps_dbWrite _ _).bind_at fun _ s₄ hcommit => ?_
  obtain ⟨hbestOk, hbest, rfl⟩ := getPovTD_eq_ok hbest
  obtain ⟨hprevOk, hprev, rfl⟩ := getPovTD_eq_ok hprev
  have hmem : s₄.mem = s₂.mem := by
    rw [(keeps_dbWrite _ _).of_ok hcommit, (keeps_savePovBlock _).of_ok hsave]
  have hsaveOk : SaveOk fails s₂.batch b := by
    by_contra hno
    rw [savePovBlock_of_fails hno] at hsave
    cases hsave
  rw [← hmem] at h ⊢
  refine growChain_quiet fun hgrow => h ?_
  exact ⟨hbestOk, hprevOk, hsaveOk, (dbWrite_eq_ok hcommit).1, bestTD, prevTD, hmem ▸ hbest, hprev,
    hgrow⟩

end Session

/-! ## After the batch -/

namespace Node

variable {n n' : Node} {coin : Bool}

structure SameHead (n n' : Node) : Prop where
  latest : n'.mem.latest = n.mem.latest
  events : n'.mem.events = n.mem.events
  store : n'.db.store = n.db.store
  blocks : ∀ height, n'.getBlockByHeight height = n.getBlockByHeight height

theorem SameHead.rfl (n : Node) : SameHead n n := ⟨Eq.refl _, Eq.refl _, Eq.refl _, fun _ => Eq.refl _⟩

theorem SameHead.trans {n₁ n₂ n₃ : Node} (h : SameHead n₁ n₂) (h' : SameHead n₂ n₃) :
    SameHead n₁ n₃ :=
  ⟨h'.latest.trans h.latest, h'.events.trans h.events, h'.store.trans h.store,
    fun height => (h'.blocks height).trans (h.blocks height)⟩

theorem sameHead_cacheBlock {height : ℕ} (h : n.getBlockByHeight height = some b) :
    SameHead n (n.cacheBlock height b) where
  latest := Eq.refl _
  events := Eq.refl _
  store := Eq.refl _
  blocks := by
    intro i
    by_cases hi : i = height
    · rw [hi, h]
      change ((n.mem.heightBlockCache.put height b).get height).or _ = _
      rw [Table.get_put_self]
      exact Eq.refl _
    · change ((n.mem.heightBlockCache.put height b).get i).or _ = _
      rw [Table.get_put_of_ne _ hi]
      exact Eq.refl _

theorem sameHead_addTxLookups : SameHead n (n.addTxLookups txs b) :=
  ⟨Eq.refl _, Eq.refl _, Eq.refl _, fun _ => Eq.refl _⟩

theorem sameHead_setPovTxlScanCursor (height : ℕ) : SameHead n (n.setPovTxlScanCursor height) :=
  ⟨Eq.refl _, Eq.refl _, Eq.refl _, fun _ => Eq.refl _⟩

theorem sameHead_updateTxLookups (count height : ℕ) :
    SameHead n (updateTxLookups txs fails count height n) := by
  induction count generalizing height n with
  | zero => exact SameHead.rfl n
  | succ count ih =>
    unfold updateTxLookups
    cases hget : n.getBlockByHeight height with
    | none => exact SameHead.rfl n
    | some b =>
      have hcache := sameHead_cacheBlock hget
      dsimp only
      split_ifs
      · exact hcache
      · exact hcache.trans sameHead_addTxLookups
      · have hwrite := hcache.trans (@sameHead_addTxLookups txs b _)
        exact hwrite.trans ((sameHead_setPovTxlScanCursor height).trans (ih (height + 1)))

theorem sameHead_batchUpdateTxLookupInSync (fork : Option PovBlock) :
    SameHead n (batchUpdateTxLookupInSync txs fails fork n) := by
  unfold batchUpdateTxLookupInSync
  cases fork with
  | none =>
    dsimp only
    split_ifs
    · exact SameHead.rfl n
    · exact sameHead_updateTxLookups _ _
  | some fork =>
    dsimp only
    split_ifs
    · exact SameHead.rfl n
    · exact (sameHead_setPovTxlScanCursor _).trans (sameHead_updateTxLookups _ _)

theorem insertBlock_error {e : InsertError} (h : insertBlock txs fails g coin n b = (some e, n')) :
    SameHead { db := n.db, mem := (final (Session.insertBlock txs fails g coin n.db.store.toFiles b
      ⟨n.db, n.mem⟩)).mem } n' := by
  unfold insertBlock at h
  cases hrun : Session.insertBlock txs fails g coin n.db.store.toFiles b ⟨n.db, n.mem⟩ with
  | error e' s =>
    rw [hrun] at h
    obtain ⟨_, rfl⟩ := Prod.mk.inj h
    exact sameHead_batchUpdateTxLookupInSync none
  | ok r s =>
    rw [hrun] at h
    dsimp only at h
    split_ifs at h with hcommit
    · obtain ⟨_, rfl⟩ := Prod.mk.inj h
      exact sameHead_batchUpdateTxLookupInSync _
    · cases h

/-- A call that fails leaves the head of the chain alone and keeps quiet if and only if it has
not come to the point where the transactions of a first block are dealt with. -/
theorem failed_insert_iff (txs : PovBlock → List Hash) (fails : Op → Bool) (g : Genesis)
    (coin : Bool) (n n' : Node) (b : PovBlock) (e : InsertError)
    (h : insertBlock txs fails g coin n b = (some e, n')) :
    (n'.mem.latest = n.mem.latest ∧
      (∀ height, n'.getBlockByHeight height = n.getBlockByHeight height) ∧
      n'.db.store.bestHash = n.db.store.bestHash ∧ n'.mem.events = n.mem.events) ↔
    ¬ Session.Announces txs fails g coin n.db n.mem.latest b := by
  have hhead := insertBlock_error h
  constructor
  · rintro ⟨_, _, _, hevents⟩ hannounces
    have hlt := @Session.insertBlock_announces txs fails g b ⟨n.db, n.mem⟩ coin hannounces
    rw [← hhead.events, hevents] at hlt
    exact Nat.lt_irrefl _ hlt
  · intro hquiet
    rw [@Session.insertBlock_quiet txs fails g b ⟨n.db, n.mem⟩ coin hquiet] at hhead
    exact ⟨hhead.latest, hhead.blocks, congrArg Store.bestHash hhead.store, hhead.events⟩

def forkNode : Node :=
  (forkCalls.take 3).foldl
    (fun n call => (insertBlock (fun b => [b.hash + 100]) (fun _ => false) smallGenesis call.2 n
      call.1).2)
    (resetWithGenesisBlock (fun b => [b.hash + 100]) smallGenesis)

theorem failed_insert_iff_orphan :
    (insertBlock (fun b => [b.hash + 100]) (fun _ => false) smallGenesis false forkNode
      ⟨9, 8, 3, 7⟩).2.mem.events = forkNode.mem.events := by
  refine ((failed_insert_iff (fun b => [b.hash + 100]) (fun _ => false) smallGenesis false forkNode
    _ ⟨9, 8, 3, 7⟩ (.pov .tdNotFound) ?_).mpr ?_).2.2.2
  · exact Prod.ext (by decide +kernel) rfl
  · rintro ⟨_, _, _, _, _, _, _, hprev, _⟩
    have hnone : forkNode.db.store.previousTD ⟨9, 8, 3, 7⟩ = none := by decide +kernel
    rw [hnone] at hprev
    cases hprev

/-- The batch is dropped, but block 4 is the latest block and the listeners have seen it come. -/
theorem failed_insert_moves_head :
    let r := insertBlock (fun b => [b.hash + 100])
      (fun op => op == .addPovBestHash ⟨5, 4, 2, 3⟩) smallGenesis false forkNode ⟨5, 4, 2, 3⟩
    r.1 = some (.storage (.addPovBestHash ⟨5, 4, 2, 3⟩)) ∧
      forkNode.mem.latest.hash = 3 ∧ r.2.mem.latest.hash = 4 ∧
      r.2.db.store.bestHash.get 1 = some 2 ∧ r.2.getBlockByHeight 1 = some ⟨4, 1, 1, 1⟩ ∧
      r.2.mem.events.length = forkNode.mem.events.length + 6 := by
  decide +kernel

end Node
end GoQlc.Pov
