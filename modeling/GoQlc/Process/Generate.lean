import GoQlc.Config.Devnet
import GoQlc.Process.Unconfirmed

/-!
# Blocks that the ledger generates

`GenerateSendBlock`, `GenerateReceiveBlock`, `GenerateChangeBlock` and `GenerateOnlineBlock` put the
next block of an account together from the confirmed ledger under the unconfirmed blocks.
-/

namespace GoQlc

open Config Balance BlockCache Ledger Option Result StateBlock Table Devnet

namespace Ledger

def getTokenMeta (l : Ledger) (v : View) (address : Address) (token : Hash) : Option TokenMeta :=
  (l.getAccountMeta v address).bind fun am => am.token token

def hasTokenMeta (l : Ledger) (v : View) (address : Address) (token : Hash) : Bool :=
  (l.getAccountMeta v address).any fun am => am.tokens.any fun tm => tm.type == token

end Ledger

inductive GenerateError where
  | tokenNotFound
  | blockNotFound (hash : Hash)
  | noPovHeader
  | notEnoughBalance (balance amount : ℕ)
  | addressMismatch (address key : Address)
  | notSendBlock (hash : Hash)
  | sendNotFound (hash : Hash)
  | pendingNotFound (key : PendingKey)
  | invalidRepresentative (address : Address)
  | accountNotFound (address : Address)
  | noChainToken (address : Address)
deriving DecidableEq, Repr

abbrev GenerateM := Except GenerateError

def found {α : Type} (x : Option α) (e : GenerateError) : GenerateM α := x.elim (.error e) .ok

structure PrivateKey where
  address : Address
  sign : Hash → Signature

namespace Env

variable (env : Env) (generateWork : Hash → UInt64)

def checkKey (prk : Option PrivateKey) (address : Address) : GenerateM Unit :=
  match prk with
  | none => .ok ()
  | some key => if key.address ≠ address then .error (.addressMismatch address key.address) else .ok ()

def complete (prk : Option PrivateKey) (block : StateBlock) : StateBlock :=
  match prk with
  | none => block
  | some key =>
    { block with
      signature := key.sign (block.getHash env.hashData), work := generateWork block.root }

def generateSendBlock (v : View) (l : Ledger) (block : StateBlock) (amount : ℕ)
    (prk : Option PrivateKey) : GenerateM StateBlock := do
  let tm ← found (l.getTokenMeta v block.address block.token) .tokenNotFound
  let prev ← found (l.getStateBlock v tm.header) (.blockNotFound tm.header)
  let povHeight ← found v.latestPovHeight .noPovHeader
  if tm.balance < amount then .error (.notEnoughBalance tm.balance amount)
  else
    checkKey prk block.address
    .ok (env.complete generateWork prk
      { block with
        type := .send, balance := Balance.sub tm.balance amount, previous := tm.header
        representative := tm.representative, timestamp := v.timeNow
        vote := some prev.getVote, network := some prev.getNetwork
        oracle := some prev.getOracle, storage := some prev.getStorage, povHeight })

def receiveBlock (v : View) (hash : Hash) (rxAccount : Address) (info : PendingInfo)
    (rxTm : TokenMeta) (prev : StateBlock) (povHeight : UInt64) : StateBlock where
  type := .receive
  address := rxAccount
  balance := Balance.add rxTm.balance info.amount
  vote := some prev.getVote
  oracle := some prev.getOracle
  network := some prev.getNetwork
  storage := some prev.getStorage
  previous := rxTm.header
  link := hash
  representative := rxTm.representative
  token := rxTm.type
  timestamp := v.timeNow
  povHeight := povHeight

def openBlock (v : View) (hash : Hash) (rxAccount : Address) (info : PendingInfo)
    (sendBlock : StateBlock) (povHeight : UInt64) : StateBlock where
  type := .open_
  address := rxAccount
  balance := info.amount
  vote := some 0
  oracle := some 0
  network := some 0
  storage := some 0
  previous := 0
  link := hash
  representative := sendBlock.representative
  token := sendBlock.token
  timestamp := v.timeNow
  povHeight := povHeight

def generateReceiveBlock (v : View) (l : Ledger) (sendBlock : StateBlock)
    (prk : Option PrivateKey) : GenerateM StateBlock :=
  let hash := sendBlock.getHash env.hashData
  let rxAccount : Address := sendBlock.link
  if sendBlock.type ≠ .send then .error (.notSendBlock hash)
  else if (l.getStateBlock v hash).isNone then .error (.sendNotFound hash)
  else do
    checkKey prk rxAccount
    let key : PendingKey := { address := rxAccount, hash }
    let info ← found (l.getPending key) (.pendingNotFound key)
    if l.hasTokenMeta v rxAccount sendBlock.token then
      let rxTm ← found (l.getTokenMeta v rxAccount sendBlock.token) .tokenNotFound
      let prev ← found (l.getStateBlock v rxTm.header) (.blockNotFound rxTm.header)
      let povHeight ← found v.latestPovHeight .noPovHeader
      .ok (env.complete generateWork prk (receiveBlock v hash rxAccount info rxTm prev povHeight))
    else
      let povHeight ← found v.latestPovHeight .noPovHeader
      .ok (env.complete generateWork prk (openBlock v hash rxAccount info sendBlock povHeight))

def idleBlock (v : View) (type : BlockType) (account representative : Address) (tm : TokenMeta)
    (prev : StateBlock) (povHeight : UInt64) : StateBlock where
  type := type
  address := account
  balance := tm.balance
  vote := some prev.getVote
  oracle := some prev.getOracle
  network := some prev.getNetwork
  storage := some prev.getStorage
  previous := tm.header
  link := 0
  representative := representative
  token := tm.type
  timestamp := v.timeNow
  povHeight := povHeight

def generateChangeBlock (v : View) (l : Ledger) (account representative : Address)
    (prk : Option PrivateKey) : GenerateM StateBlock := do
  let _ ← found (l.getAccountMeta v representative) (.invalidRepresentative representative)
  let am ← found (l.getAccountMeta v account) (.accountNotFound account)
  let tm ← found (am.token chainToken) (.noChainToken account)
  let prev ← found (l.getStateBlock v tm.header) (.blockNotFound tm.header)
  let povHeight ← found v.latestPovHeight .noPovHeader
  checkKey prk account
  .ok (env.complete generateWork prk (idleBlock v .change account representative tm prev povHeight))

def generateOnlineBlock (v : View) (l : Ledger) (account : Address) (prk : Option PrivateKey)
    (povHeight : UInt64) : GenerateM StateBlock := do
  let am ← found (l.getAccountMeta v account) (.accountNotFound account)
  let tm ← found (am.token chainToken) (.noChainToken account)
  let prev ← found (l.getStateBlock v tm.header) (.blockNotFound tm.header)
  checkKey prk account
  .ok (env.complete generateWork prk
    (idleBlock v .online account tm.representative tm prev povHeight))

inductive Generated (v : View) (l : Ledger) : StateBlock → Prop
  | send {request b : StateBlock} {amount : ℕ} {prk : Option PrivateKey} (hamount : 0 < amount)
      (h : env.generateSendBlock generateWork v l request amount prk = .ok b) : Generated v l b
  | receive {sendBlock b : StateBlock} {prk : Option PrivateKey}
      (h : env.generateReceiveBlock generateWork v l sendBlock prk = .ok b) : Generated v l b
  | change {account representative : Address} {b : StateBlock} {prk : Option PrivateKey}
      (h : env.generateChangeBlock generateWork v l account representative prk = .ok b) :
      Generated v l b
  | online {account : Address} {b : StateBlock} {prk : Option PrivateKey} {povHeight : UInt64}
      (h : env.generateOnlineBlock generateWork v l account prk povHeight = .ok b) :
      Generated v l b

/-! ## What is generated -/

/-- `b` is put behind the head `tm`, whose block is `prev`. -/
structure Follows (m : Ledger) (b : StateBlock) (tm : TokenMeta) (prev : StateBlock) : Prop where
  head : m.getTokenMetaConfirmed b.address b.token = some tm
  block : m.blocks.get tm.header = some prev
  previous : b.previous = tm.header
  weights : sameWeights prev b

/-- The blocks that the four functions make of the merged ledger `m`. -/
inductive Shape (m : Ledger) (b : StateBlock) : Prop
  | send {tm : TokenMeta} {prev : StateBlock} {amount : ℕ} (hfollows : Follows m b tm prev)
      (htype : b.type = .send) (hamount : 0 < amount) (hle : amount ≤ tm.balance)
      (hbalance : b.balance = Balance.sub tm.balance amount)
  | receive {tm : TokenMeta} {prev : StateBlock} {info : PendingInfo}
      (hfollows : Follows m b tm prev) (htype : b.type = .receive)
      (hsource : ∃ send, m.blocks.get b.link = some send)
      (hpending : m.getPending (pendingKeyOf b) = some info)
      (hbalance : b.balance = Balance.add tm.balance info.amount)
  | opening {info : PendingInfo} (htype : b.type = .open_) (hprevious : b.previous = 0)
      (hhead : m.getTokenMetaConfirmed b.address b.token = none)
      (hsource : ∃ send, m.blocks.get b.link = some send)
      (hpending : m.getPending (pendingKeyOf b) = some info)
      (hbalance : b.balance = info.amount)
      (hweights : b.getVote = 0 ∧ b.getNetwork = 0 ∧ b.getStorage = 0 ∧ b.getOracle = 0)
  | idle {tm : TokenMeta} {prev : StateBlock} (hfollows : Follows m b tm prev)
      (htype : b.type = .change ∨ b.type = .online) (hlink : b.link = 0)
      (htoken : b.token = chainToken) (hbalance : b.balance = tm.balance)

section Completed

variable {m : Ledger} {b : StateBlock} {tm : TokenMeta} {prev : StateBlock}

theorem Follows.completed (h : Follows m b tm prev) (work : UInt64) (signature : Signature) :
    Follows m { b with work, signature } tm prev :=
  ⟨h.head, h.block, h.previous, h.weights⟩

theorem Shape.completed (h : Shape m b) (work : UInt64) (signature : Signature) :
    Shape m { b with work, signature } := by
  cases h with
  | send hfollows htype hamount hle hbalance =>
    exact .send (hfollows.completed work signature) htype hamount hle hbalance
  | receive hfollows htype hsource hpending hbalance =>
    exact .receive (hfollows.completed work signature) htype hsource hpending hbalance
  | opening htype hprevious hhead hsource hpending hbalance hweights =>
    exact .opening htype hprevious hhead hsource hpending hbalance hweights
  | idle hfollows htype hlink htoken hbalance =>
    exact .idle (hfollows.completed work signature) htype hlink htoken hbalance

end Completed

variable {amount : ℕ}

section Shapes

variable {env : Env} {generateWork : Hash → UInt64} {v : View} {l : Ledger} {c : BlockCache}

theorem found_eq_ok {α : Type} {x : Option α} {e : GenerateError} {a : α} :
    found x e = .ok a ↔ x = some a := by
  cases x <;> simp [found]

variable {b : StateBlock}

theorem Shape.complete {m : Ledger} (h : Shape m b) (prk : Option PrivateKey) :
    Shape m (env.complete generateWork prk b) := by
  cases prk with
  | none => exact h
  | some key => exact h.completed _ _

theorem getTokenMeta_view (address : Address) (token : Hash) :
    l.getTokenMeta (c.view v) address token =
      (c.merged l).getTokenMetaConfirmed address token := by
  unfold getTokenMeta getTokenMetaConfirmed
  rw [getAccountMeta_view]

theorem hasTokenMeta_eq (address : Address) (token : Hash) :
    l.hasTokenMeta v address token = (l.getTokenMeta v address token).isSome := by
  unfold hasTokenMeta getTokenMeta
  cases l.getAccountMeta v address with
  | none => rfl
  | some am =>
    change am.tokens.any _ = (am.tokens.find? _).isSome
    rw [Bool.eq_iff_iff, List.any_eq_true, List.find?_isSome]

theorem generateSendBlock_shape {request : StateBlock} {prk : Option PrivateKey}
    (hamount : 0 < amount)
    (h : env.generateSendBlock generateWork (c.view v) l request amount prk = .ok b) :
    Shape (c.merged l) b := by
  unfold generateSendBlock at h
  obtain ⟨tm, htm, h⟩ := bind_eq_ok.mp h
  obtain ⟨prev, hprev, h⟩ := bind_eq_ok.mp h
  obtain ⟨povHeight, _, h⟩ := bind_eq_ok.mp h
  rw [found_eq_ok, getTokenMeta_view] at htm
  rw [found_eq_ok, getStateBlock_view] at hprev
  obtain ⟨hle, h⟩ := ite_error_eq_ok.mp h
  obtain ⟨_, _, h⟩ := bind_eq_ok.mp h
  cases h
  apply Shape.complete
  exact .send ⟨htm, hprev, rfl, rfl, rfl, rfl, rfl⟩ rfl hamount (Nat.le_of_not_lt hle) rfl

theorem generateReceiveBlock_shape {sendBlock : StateBlock} {prk : Option PrivateKey}
    (h : env.generateReceiveBlock generateWork (c.view v) l sendBlock prk = .ok b) :
    Shape (c.merged l) b := by
  unfold generateReceiveBlock at h
  obtain ⟨_, h⟩ := ite_error_eq_ok.mp h
  obtain ⟨hsource, h⟩ := ite_error_eq_ok.mp h
  obtain ⟨_, _, h⟩ := bind_eq_ok.mp h
  obtain ⟨info, hinfo, h⟩ := bind_eq_ok.mp h
  rw [found_eq_ok] at hinfo
  rw [isNone_iff_eq_none, getStateBlock_view] at hsource
  have hsend := ne_none_iff_exists'.mp hsource
  split_ifs at h with hhas
  · obtain ⟨rxTm, hrxTm, h⟩ := bind_eq_ok.mp h
    obtain ⟨prev, hprev, h⟩ := bind_eq_ok.mp h
    obtain ⟨povHeight, _, h⟩ := bind_eq_ok.mp h
    rw [found_eq_ok, getTokenMeta_view] at hrxTm
    rw [found_eq_ok, getStateBlock_view] at hprev
    cases h
    apply Shape.complete
    obtain ⟨_, _, htoken⟩ := bind_eq_some_iff.mp hrxTm
    refine .receive ⟨?_, hprev, rfl, rfl, rfl, rfl, rfl⟩ rfl hsend hinfo rfl
    change (c.merged l).getTokenMetaConfirmed sendBlock.link rxTm.type = some rxTm
    rwa [AccountMeta.token_type htoken]
  · obtain ⟨povHeight, _, h⟩ := bind_eq_ok.mp h
    cases h
    apply Shape.complete
    rw [hasTokenMeta_eq, getTokenMeta_view, not_isSome_iff_eq_none] at hhas
    exact .opening rfl rfl hhas hsend hinfo rfl ⟨rfl, rfl, rfl, rfl⟩

theorem idleBlock_shape {account representative : Address} {type : BlockType} {am : AccountMeta}
    {tm : TokenMeta} {prev : StateBlock} (htype : type = .change ∨ type = .online)
    (ham : found (l.getAccountMeta (c.view v) account) (.accountNotFound account) = .ok am)
    (htm : found (am.token chainToken) (.noChainToken account) = .ok tm)
    (hprev : found (l.getStateBlock (c.view v) tm.header) (.blockNotFound tm.header) = .ok prev)
    (povHeight : UInt64) :
    Shape (c.merged l) (idleBlock (c.view v) type account representative tm prev povHeight) := by
  rw [found_eq_ok, getAccountMeta_view] at ham
  rw [found_eq_ok] at htm
  rw [found_eq_ok, getStateBlock_view] at hprev
  have htoken := AccountMeta.token_type htm
  refine .idle ⟨?_, hprev, rfl, rfl, rfl, rfl, rfl⟩ htype rfl htoken rfl
  change (c.merged l).getTokenMetaConfirmed account tm.type = some tm
  rw [htoken, getTokenMetaConfirmed, ham, bind_some, htm]

theorem Generated.shape (h : Generated env generateWork (c.view v) l b) : Shape (c.merged l) b := by
  cases h with
  | send hamount h => exact generateSendBlock_shape hamount h
  | receive h => exact generateReceiveBlock_shape h
  | change h =>
    obtain ⟨_, _, h⟩ := bind_eq_ok.mp h
    obtain ⟨am, ham, h⟩ := bind_eq_ok.mp h
    obtain ⟨tm, htm, h⟩ := bind_eq_ok.mp h
    obtain ⟨prev, hprev, h⟩ := bind_eq_ok.mp h
    obtain ⟨povHeight, _, h⟩ := bind_eq_ok.mp h
    obtain ⟨_, _, h⟩ := bind_eq_ok.mp h
    cases h
    exact (idleBlock_shape (.inl rfl) ham htm hprev povHeight).complete _
  | @online _ _ _ povHeight h =>
    obtain ⟨am, ham, h⟩ := bind_eq_ok.mp h
    obtain ⟨tm, htm, h⟩ := bind_eq_ok.mp h
    obtain ⟨prev, hprev, h⟩ := bind_eq_ok.mp h
    obtain ⟨_, _, h⟩ := bind_eq_ok.mp h
    cases h
    exact (idleBlock_shape (.inr rfl) ham htm hprev povHeight).complete _

end Shapes

/-! ## What is accepted -/

/-- The ledger with the cache over it: blocks lie under their hashes and accounts under their
addresses, a head has the balance of its block, and balances are words. -/
structure CacheSound (env : Env) (c : BlockCache) (l : Ledger) : Prop where
  keys : ∀ hash b, (c.merged l).blocks.get hash = some b → b.getHash env.hashData = hash
  accounts : ∀ a am, (c.merged l).accounts.get a = some am → am.address = a
  heads : ∀ a t tm prev, (c.merged l).getTokenMetaConfirmed a t = some tm →
    (c.merged l).blocks.get tm.header = some prev → prev.balance = tm.balance
  balances : ∀ a t tm, (c.merged l).getTokenMetaConfirmed a t = some tm → tm.balance < 2 ^ 64
  pendings : ∀ key info, l.getPending key = some info → info.amount < 2 ^ 64

/-- No unconfirmed block has the link, and the amount fits the token and the balance. -/
structure Receivable (c : BlockCache) (l : Ledger) (b : StateBlock) : Prop where
  unreceived : ∀ hash b', c.blocks.get hash = some b' → b'.link ≠ b.link
  typed : ∀ info, l.getPending (pendingKeyOf b) = some info → info.type = b.token
  fits : ∀ info tm, l.getPending (pendingKeyOf b) = some info →
    (c.merged l).getTokenMetaConfirmed b.address b.token = some tm →
      tm.balance + info.amount < 2 ^ 64

/-- The block is new, it is signed, and it can be received if it is a receive. -/
structure Acceptable (env : Env) (c : BlockCache) (l : Ledger) (b : StateBlock) : Prop where
  fresh : (c.merged l).blocks.get (b.getHash env.hashData) = none
  signed : b.isSigned env.toCrypto
  receivable : b.isReceiveBlock → Receivable c l b

section Acceptance

variable {env : Env} {generateWork : Hash → UInt64} {v : View} {l : Ledger} {c : BlockCache}
  {b prev : StateBlock} {tm : TokenMeta}

variable (hs : CacheSound env c l) (hwork : b.isValid env.toCrypto)
  (hfollows : Follows (c.merged l) b tm prev)

include hs

theorem Follows.fork_ok (h : Follows (c.merged l) b tm prev) :
    env.forkPrevious (c.merged l) b = .ok () := by
  rw [forkPrevious_ok]
  refine ⟨prev, h.previous ▸ h.block, fun tm' htm' => ?_⟩
  obtain rfl := Option.some.inj (h.head.symm.trans htm')
  exact hs.keys _ _ h.block

theorem repeat_ok_iff (hfresh : (c.merged l).blocks.get (b.getHash env.hashData) = none) :
    env.checkReceiveBlockRepeat c b = .ok () ↔
      (b.isReceiveBlock → ∀ hash b', c.blocks.get hash = some b' → b'.link ≠ b.link) := by
  rw [checkReceiveBlockRepeat_ok]
  refine forall_congr' fun _ => forall_congr' fun hash => forall_congr' fun b' =>
    forall_congr' fun hget => ?_
  have hmerged : (c.merged l).blocks.get hash = some b' := by
    change (l.blocks.putAll c.blocks).get hash = some b'
    rw [get_putAll, hget, some_or]
  constructor
  · intro hsame hlink
    rw [← hsame hlink, hs.keys hash b' hmerged, hmerged] at hfresh
    cases hfresh
  · exact fun hne hlink => absurd hlink hne

omit hs in
theorem sub_add_eq_iff {balance : ℕ} (hbalance : balance < 2 ^ 64) (hamount : amount < 2 ^ 64) :
    amount = Balance.sub (Balance.add balance amount) balance ↔ balance + amount < 2 ^ 64 := by
  rw [sub_of_lt (add_lt _ _) hbalance, add_eq, uint64_of_lt hbalance,
    uint64_of_lt hamount]
  split_ifs <;> omega

include hwork in
theorem base_ok_iff (htype : b.type ≠ .contractSend ∧ b.type ≠ .contractReward) :
    env.cacheBaseInfo c l b = .ok () ↔
      (c.merged l).blocks.get (b.getHash env.hashData) = none ∧ b.isSigned env.toCrypto ∧
        (b.isReceiveBlock → ∀ hash b', c.blocks.get hash = some b' → b'.link ≠ b.link) := by
  rw [cacheBaseInfo_ok htype]
  constructor
  · rintro ⟨hrepeat, hfresh, _, hsigned⟩
    exact ⟨hfresh, hsigned, (repeat_ok_iff hs hfresh).mp hrepeat⟩
  · rintro ⟨hfresh, hsigned, hrepeat⟩
    exact ⟨(repeat_ok_iff hs hfresh).mpr hrepeat, hfresh, hwork, hsigned⟩

include hwork in
theorem acceptable_iff_of_not_receive (htype : b.type ≠ .contractSend ∧ b.type ≠ .contractReward)
    (hreceive : b.isReceiveBlock = false) :
    env.cacheBaseInfo c l b = .ok () ↔ Acceptable env c l b := by
  rw [base_ok_iff hs hwork htype]
  constructor
  · rintro ⟨hfresh, hsigned, _⟩
    exact ⟨hfresh, hsigned, fun h => absurd h (by simp [hreceive])⟩
  · intro h
    exact ⟨h.fresh, h.signed, fun h => absurd h (by simp [hreceive])⟩

variable {info : PendingInfo}

include hfollows in
theorem pendingReceive_ok_iff (hpending : l.getPending (pendingKeyOf b) = some info)
    (hbalance : b.balance = Balance.add tm.balance info.amount) :
    pendingReceive (c.merged l) b = .ok () ↔
      info.type = b.token ∧ tm.balance + info.amount < 2 ^ 64 := by
  have hiff := sub_add_eq_iff (hs.balances _ _ _ hfollows.head) (hs.pendings _ _ hpending)
  rw [pendingReceive_ok, hfollows.previous, hfollows.head, hfollows.block, hbalance]
  change (∃ previous pending tm', _ ∧ l.getPending (pendingKeyOf b) = some pending ∧ _) ↔ _
  rw [hpending]
  constructor
  · rintro ⟨_, _, _, ⟨⟩, ⟨⟩, ⟨⟩, hamount, htype, _⟩
    exact ⟨htype, hiff.mp hamount⟩
  · rintro ⟨htype, hlt⟩
    exact ⟨prev, info, tm, rfl, rfl, rfl, hiff.mpr hlt, htype, hfollows.weights⟩

include hwork hfollows in
theorem send_check_iff (htype : b.type = .send) (hamount : 0 < amount) (hle : amount ≤ tm.balance)
    (hbalance : b.balance = Balance.sub tm.balance amount) :
    env.cacheSendBlockCheck c l b = .ok () ↔ Acceptable env c l b := by
  have hfork : env.cacheFork c l b = .ok () := by
    rw [cacheFork, fork, htype]
    exact hfollows.fork_ok hs
  have hbal : cacheBalance c l b = .ok () := by
    rw [cacheBalance, balance_send_ok htype]
    refine ⟨prev, hfollows.previous ▸ hfollows.block, ?_, hfollows.weights⟩
    have hword := hs.balances _ _ _ hfollows.head
    rw [hs.heads _ _ _ _ hfollows.head hfollows.block, hbalance,
      sub_of_lt hword (by omega)]
    omega
  rw [cacheSendBlockCheck, seq_eq_ok, seq_eq_ok,
    acceptable_iff_of_not_receive hs hwork (by simp [htype])
      (by simp [isReceiveBlock, htype])]
  exact and_iff_left ⟨hfork, hbal⟩

include hwork hfollows in
theorem idle_check_iff (htype : b.type = .change ∨ b.type = .online) (hlink : b.link = 0)
    (htoken : b.token = chainToken) (hbalance : b.balance = tm.balance) :
    env.cacheChangeBlockCheck c l b = .ok () ↔ Acceptable env c l b := by
  have hfork : env.cacheFork c l b = .ok () := by
    rw [← hfollows.fork_ok hs]
    rcases htype with htype | htype <;> rw [cacheFork, fork, htype]
  have hbal : cacheBalance c l b = .ok () := by
    rw [cacheBalance, balance_change_ok htype]
    refine ⟨prev, hfollows.previous ▸ hfollows.block, ?_, hfollows.weights⟩
    rw [hbalance, hs.heads _ _ _ _ hfollows.head hfollows.block]
  have hother : (b.type ≠ .contractSend ∧ b.type ≠ .contractReward) ∧ b.isReceiveBlock = false := by
    rcases htype with htype | htype <;> simp [isReceiveBlock, htype]
  rw [cacheChangeBlockCheck, if_neg (not_not.mpr hlink), if_neg (not_not.mpr htoken),
    seq_eq_ok, seq_eq_ok, acceptable_iff_of_not_receive hs hwork hother.1 hother.2]
  exact and_iff_left ⟨hfork, hbal⟩

include hwork hfollows in
theorem receive_check_iff (htype : b.type = .receive)
    (hsource : ∃ send, (c.merged l).blocks.get b.link = some send)
    (hpending : l.getPending (pendingKeyOf b) = some info)
    (hbalance : b.balance = Balance.add tm.balance info.amount) :
    env.cacheReceiveBlockCheck c l b = .ok () ↔ Acceptable env c l b := by
  have hfork : env.cacheFork c l b = .ok () := by
    rw [cacheFork, fork, htype]
    exact hfollows.fork_ok hs
  have hsrc : cacheSource c l b = .ok () := (source_ok (.inl htype)).mpr hsource
  have hpend : env.cachePending c l b = pendingReceive (c.merged l) b := by
    rw [cachePending, if_neg (by simp [htype]), pending, htype]
  have hreceive : b.isReceiveBlock := by simp [isReceiveBlock, htype]
  rw [cacheReceiveBlockCheck, seq_eq_ok, seq_eq_ok, seq_eq_ok, hpend,
    pendingReceive_ok_iff hs hfollows hpending hbalance, base_ok_iff hs hwork (by simp [htype])]
  constructor
  · rintro ⟨⟨hfresh, hsigned, hunreceived⟩, _, _, htyped, hfits⟩
    refine ⟨hfresh, hsigned, fun _ => ⟨hunreceived hreceive, ?_, ?_⟩⟩
    · rw [hpending]
      rintro _ ⟨⟩
      exact htyped
    · rw [hpending, hfollows.head]
      rintro _ _ ⟨⟩ ⟨⟩
      exact hfits
  · intro h
    have hr := h.receivable hreceive
    exact ⟨⟨h.fresh, h.signed, fun _ => hr.unreceived⟩, hfork, hsrc, hr.typed info hpending,
      hr.fits info tm hpending hfollows.head⟩

include hwork in
theorem opening_check_iff (htype : b.type = .open_) (hprevious : b.previous = 0)
    (hhead : (c.merged l).getTokenMetaConfirmed b.address b.token = none)
    (hsource : ∃ send, (c.merged l).blocks.get b.link = some send)
    (hpending : l.getPending (pendingKeyOf b) = some info) (hbalance : b.balance = info.amount)
    (hweights : b.getVote = 0 ∧ b.getNetwork = 0 ∧ b.getStorage = 0 ∧ b.getOracle = 0) :
    env.cacheOpenBlockCheck c l b = .ok () ↔ Acceptable env c l b := by
  have hfork : env.cacheFork c l b = .ok () := by
    rw [cacheFork, fork, htype]
    exact forkOpen_ok.mpr hhead
  have hsrc : cacheSource c l b = .ok () := (source_ok (.inr htype)).mpr hsource
  have hpend : env.cachePending c l b = pendingOpen (c.merged l) b := by
    rw [cachePending, if_neg (by simp [htype]), pending, htype]
  have hreceive : b.isReceiveBlock := by simp [isReceiveBlock, htype]
  rw [cacheOpenBlockCheck, if_neg (not_not.mpr hprevious), seq_eq_ok, seq_eq_ok,
    seq_eq_ok, hpend, pendingOpen_ok, base_ok_iff hs hwork (by simp [htype])]
  constructor
  · rintro ⟨⟨hfresh, hsigned, hunreceived⟩, _, _, pending, hget, _, htyped, _⟩
    refine ⟨hfresh, hsigned, fun _ => ⟨hunreceived hreceive, fun info' hinfo' => ?_, ?_⟩⟩
    · rwa [Option.some.inj (hinfo'.symm.trans hget)]
    · rw [hhead]
      rintro _ _ _ ⟨⟩
  · intro h
    have hr := h.receivable hreceive
    exact ⟨⟨h.fresh, h.signed, fun _ => hr.unreceived⟩, hsrc, hfork, info, hpending,
      hbalance.symm, hr.typed info hpending, hweights⟩

omit hs

theorem Shape.check_ok_iff (hs : CacheSound env c l) (h : Shape (c.merged l) b)
    (hwork : b.isValid env.toCrypto) :
    env.blockCacheCheck v c l b = .ok () ↔ Acceptable env c l b := by
  unfold blockCacheCheck
  cases h with
  | send hfollows htype hamount hle hbalance =>
    rw [htype]
    exact send_check_iff hs hwork hfollows htype hamount hle hbalance
  | receive hfollows htype hsource hpending hbalance =>
    rw [htype]
    exact receive_check_iff hs hwork hfollows htype hsource hpending hbalance
  | opening htype hprevious hhead hsource hpending hbalance hweights =>
    rw [htype]
    exact opening_check_iff hs hwork htype hprevious hhead hsource hpending hbalance hweights
  | idle hfollows htype hlink htoken hbalance =>
    have hcheck := idle_check_iff hs hwork hfollows htype hlink htoken hbalance
    rcases htype with htype | htype
    · rwa [htype]
    · rwa [htype]

/-- A generated block with valid work is accepted, and is the cached head of its account after
`BlockCacheProcess`, exactly if it is acceptable. -/
theorem generated_accepted_iff (hs : CacheSound env c l)
    (h : Generated env generateWork (c.view v) l b) {work : UInt64}
    (hwork : StateBlock.isValid env.toCrypto { b with work }) :
    (env.blockCacheCheck v c l { b with work } = .ok () ∧
      ∃ c', env.blockCacheProcess v l { b with work } c = .ok c' ∧
        (cachedHead c'.accounts b.address b.token).map TokenMeta.header =
          some (b.getHash env.hashData)) ↔
      Acceptable env c l b := by
  have hcheck : env.blockCacheCheck v c l { b with work } = .ok () ↔
      Acceptable env c l { b with work } :=
    (h.shape.completed work b.signature).check_ok_iff hs hwork
  constructor
  · rintro ⟨hok, _⟩
    have haccept := hcheck.mp hok
    exact ⟨haccept.fresh, haccept.signed, fun hr =>
      ⟨(haccept.receivable hr).unreceived, (haccept.receivable hr).typed,
        (haccept.receivable hr).fits⟩⟩
  · intro haccept
    refine ⟨hcheck.mpr ⟨haccept.fresh, haccept.signed, fun hr =>
      ⟨(haccept.receivable hr).unreceived, (haccept.receivable hr).typed,
        (haccept.receivable hr).fits⟩⟩, ?_⟩
    have hfresh : c.blocks.get (b.getHash env.hashData) = none := by
      have hmerged : (l.blocks.putAll c.blocks).get (b.getHash env.hashData) = none := haccept.fresh
      rw [get_putAll, or_eq_none_iff] at hmerged
      exact hmerged.1
    obtain ⟨c', hok, _, hhead⟩ := blockCacheProcess_head (b := { b with work }) v hfresh
      (hs.accounts b.address)
    exact ⟨c', hok, hhead⟩

end Acceptance

end Env

/-! ## A send that is received twice -/

namespace Generate

def env : Env := shortEnv 1

def receiver : Address := 7

def receiverKey : PrivateKey where
  address := receiver
  sign := fun h => sign receiver (hashBytes h)

def sentBlock : StateBlock where
  type := .send
  token := chainToken
  address := 1
  balance := 95
  previous := 2
  link := receiver
  representative := 1

def sentLedger : Ledger where
  blocks := Table.put ∅ (sentBlock.getHash env.hashData) sentBlock
  pendings := Table.put ∅ { address := receiver, hash := sentBlock.getHash env.hashData }
    { source := 1, amount := 5, type := chainToken }

def received (c : BlockCache) : Option StateBlock :=
  (env.generateReceiveBlock (fun _ => 0) (c.view view) sentLedger sentBlock
    (some receiverKey)).toOption

/-- While the first receive is unconfirmed the pending is still there: a second one is generated
behind it, and refused. -/
theorem second_receive_refused :
    (do
      let first ← received {}
      let c ← (env.blockCacheProcess view sentLedger first {}).toOption
      let second ← received c
      return ((env.blockCacheCheck view {} sentLedger first).toOption,
        env.blockCacheCheck view c sentLedger second)) =
      some (some (), .error { result := .receiveRepeated }) := by decide +kernel

theorem sentLedger_sound : Env.CacheSound env {} sentLedger where
  keys hash b hget := by
    change (Table.put ∅ _ sentBlock).get hash = some b at hget
    rw [get_put] at hget
    split_ifs at hget with hhash
    · rw [← Option.some.inj hget, hhash]
    · cases hget
  accounts a am hget := by cases hget
  heads a t tm prev hget := by cases hget
  balances a t tm hget := by cases hget
  pendings key info hget := by
    change (Table.put ∅ _ _).get key = some info at hget
    rw [get_put] at hget
    split_ifs at hget
    · rw [← Option.some.inj hget]
      decide
    · cases hget

theorem first_receive_accepted :
    ∃ b, received {} = some b ∧ env.blockCacheCheck view {} sentLedger b = .ok () ∧
      ∃ c', env.blockCacheProcess view sentLedger b {} = .ok c' ∧
        (cachedHead c'.accounts b.address b.token).map TokenMeta.header =
          some (b.getHash env.hashData) := by
  have hvalues : (received {}).map (fun b => (sentLedger.blocks.get (b.getHash env.hashData),
      b.isSigned env.toCrypto, b.token)) = some (none, true, chainToken) := by decide +kernel
  obtain ⟨b, hb, hvalues⟩ := map_eq_some_iff.mp hvalues
  obtain ⟨hfresh, hsigned, htoken⟩ : _ ∧ _ ∧ _ := by simpa using hvalues
  have hgenerated : Env.Generated env (fun _ => 0) (BlockCache.view {} view) sentLedger b :=
    .receive (toOption_eq_some.mp hb)
  have haccept : Env.Acceptable env {} sentLedger b := by
    refine ⟨hfresh, hsigned, fun _ => ⟨?_, ?_, ?_⟩⟩
    · intro hash b' hget
      cases hget
    · intro info hget
      change (Table.put ∅ _ _).get _ = some info at hget
      rw [get_put] at hget
      split_ifs at hget
      · rw [← Option.some.inj hget, htoken]
      · cases hget
    · intro info tm _ hget
      cases hget
  have hwork : StateBlock.isValid env.toCrypto { b with work := b.work } := rfl
  exact ⟨b, hb, (Env.generated_accepted_iff sentLedger_sound hgenerated hwork).mpr haccept⟩

end Generate

end GoQlc
