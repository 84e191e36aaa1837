import GoQlc.Lib.Table
import GoQlc.Types.Block

/-!
# Votes on their way to a processor

The dispatcher looks up which processor has subscribed to the hash of a vote, and then sends the
vote there or puts it into a cache.
-/

namespace GoQlc.Delivery

open List Option Table

structure VoteInfo where
  account : Address
  hash : Hash
deriving DecidableEq

inductive Phase where
  | idle
  | found (index : ℕ) (vi : VoteInfo)
  | missed (vi : VoteInfo)
deriving DecidableEq

/-- The tables, the messages to the subscription loop, and the message whose votes the loop has
still to forward. -/
structure State where
  subAck : Table Hash ℕ := ∅
  voteCache : Table Hash (Table Address VoteInfo) := ∅
  subMsg : List (ℕ × Hash) := []
  dispatcher : Phase := .idle
  loop : Option (ℕ × Hash) := none
  delivered : List (ℕ × VoteInfo) := []
  arrived : List VoteInfo := []
  subscribed : List (ℕ × Hash) := []
deriving DecidableEq

inductive Action where
  /-- The dispatcher takes a vote for an unconfirmed hash and looks up the subscription. -/
  | lookup (vi : VoteInfo)
  /-- It sends the vote to the processor it has found, or puts it into the cache. -/
  | dispatch
  /-- A processor asks for the votes of a hash (`subAckDo`). -/
  | subscribe (index : ℕ) (hash : Hash)
  /-- The subscription loop records the next subscription. -/
  | record
  /-- It forwards and removes the cached votes of the hash. -/
  | forward
deriving DecidableEq

namespace State

def cacheAck (vi : VoteInfo) (s : State) : State :=
  { s with
    voteCache := s.voteCache.put vi.hash
      (((s.voteCache.get vi.hash).getD ∅).put vi.account vi) }

def cachedVotes (hash : Hash) (s : State) : List VoteInfo :=
  ((s.voteCache.get hash).map Table.values).getD []

def lookup (vi : VoteInfo) (s : State) : Option State :=
  match s.dispatcher with
  | .idle =>
    match s.subAck.get vi.hash with
    | some index => some { s with arrived := vi :: s.arrived, dispatcher := .found index vi }
    | none => some { s with arrived := vi :: s.arrived, dispatcher := .missed vi }
  | _ => none

def dispatch (s : State) : Option State :=
  match s.dispatcher with
  | .idle => none
  | .found index vi =>
    some { s with dispatcher := .idle, delivered := (index, vi) :: s.delivered }
  | .missed vi => some { s.cacheAck vi with dispatcher := .idle }

def subscribe (index : ℕ) (hash : Hash) (s : State) : State :=
  { s with subMsg := s.subMsg ++ [(index, hash)], subscribed := (index, hash) :: s.subscribed }

def record (s : State) : Option State :=
  match s.loop, s.subMsg with
  | none, (index, hash) :: subMsg => some { s with
      subAck := s.subAck.put hash index, subMsg, loop := some (index, hash) }
  | _, _ => none

def forward (s : State) : Option State :=
  match s.loop with
  | none => none
  | some (index, hash) => some { s with
      delivered := (s.cachedVotes hash).map (fun vi => (index, vi)) ++ s.delivered
      voteCache := s.voteCache.delete hash
      loop := none }

def step (s : State) : Action → Option State
  | .lookup vi => s.lookup vi
  | .dispatch => s.dispatch
  | .subscribe index hash => some (s.subscribe index hash)
  | .record => s.record
  | .forward => s.forward

def Awaits (s : State) (hash : Hash) : Prop :=
  (∃ index, s.loop = some (index, hash)) ∨ ∃ index, (index, hash) ∈ s.subMsg

/-- A vote goes into the cache before the last forwarding of its hash, and the subscriptions
of a hash come from one processor. -/
def Orderly (s : State) : Action → Prop
  | .dispatch => ∀ vi, s.dispatcher = .missed vi →
      s.subAck.get vi.hash = none ∨ s.Awaits vi.hash
  | .subscribe index hash => ∀ i, (i, hash) ∈ s.subscribed → i = index
  | _ => True

def Quiet (s : State) : Prop := s.dispatcher = .idle ∧ s.loop = none ∧ s.subMsg = []

instance (s : State) : Decidable s.Quiet := inferInstanceAs (Decidable (_ ∧ _ ∧ _))

end State

/-- A run whose actions all satisfy `P` in the state they are taken in. -/
inductive Runs (P : State → Action → Prop) (s : State) : State → Prop
  | refl : Runs P s s
  | step {s₁ s₂ : State} {a : Action} : Runs P s s₁ → P s₁ a → s₁.step a = some s₂ → Runs P s s₂

variable {P : State → Action → Prop} {s : State}

theorem Runs.invariant {I : State → Prop} {s' : State} (h : Runs P s s') (hs : I s)
    (hstep : ∀ s₁ s₂ a, I s₁ → P s₁ a → s₁.step a = some s₂ → I s₂) : I s' := by
  induction h with
  | refl => exact hs
  | step _ hP hnext ih => exact hstep _ _ _ ih hP hnext

namespace State

variable {s s' : State}

/-! ## The cached votes -/

def Cached (s : State) (vi : VoteInfo) : Prop :=
  ∃ vc, s.voteCache.get vi.hash = some vc ∧ vc.get vi.account = some vi

variable {vi : VoteInfo}

theorem Cached.mem_cachedVotes (h : s.Cached vi) : vi ∈ s.cachedVotes vi.hash := by
  obtain ⟨vc, hvc, hvi⟩ := h
  rw [cachedVotes, hvc]
  exact mem_values.mpr ⟨vi.account, hvi⟩

theorem cached_cacheAck_self (s : State) (vi : VoteInfo) : (s.cacheAck vi).Cached vi :=
  ⟨_, get_put_self _ _ _, get_put_self _ _ _⟩

theorem Cached.cacheAck (h : s.Cached vi) (other : VoteInfo) : (s.cacheAck other).Cached vi := by
  by_cases hsame : vi = other
  · rw [hsame]
    exact cached_cacheAck_self s other
  obtain ⟨vc, hvc, hvi⟩ := h
  by_cases hhash : vi.hash = other.hash
  · have haccount : vi.account ≠ other.account := by
      intro haccount
      apply hsame
      cases vi
      cases other
      simp_all
    refine ⟨vc.put other.account other, ?_, ?_⟩
    · unfold State.cacheAck
      dsimp only
      rw [hhash, get_put_self, ← hhash, hvc, getD_some]
    · rw [get_put_of_ne _ haccount, hvi]
  · refine ⟨vc, ?_, hvi⟩
    unfold State.cacheAck
    dsimp only
    rw [get_put_of_ne _ hhash, hvc]

/-! ## Where a vote can be -/

/-- A vote that has arrived is with the dispatcher, at a processor that has subscribed, or in
the cache with its forwarding still to come. -/
def Placed (s : State) (vi : VoteInfo) : Prop :=
  (∃ index, s.dispatcher = .found index vi) ∨ s.dispatcher = .missed vi ∨
  (∃ index, (index, vi) ∈ s.delivered ∧ (index, vi.hash) ∈ s.subscribed) ∨
  (s.Cached vi ∧ (s.subAck.get vi.hash = none ∨ s.Awaits vi.hash))

structure Inv (s : State) : Prop where
  placed : ∀ vi ∈ s.arrived, s.Placed vi
  recorded : ∀ index hash, (index, hash) ∈ s.subscribed →
    s.subAck.get hash ≠ none ∨ (index, hash) ∈ s.subMsg
  subAck : ∀ index hash, s.subAck.get hash = some index → (index, hash) ∈ s.subscribed
  subMsg : ∀ m ∈ s.subMsg, m ∈ s.subscribed
  loop : ∀ m, s.loop = some m → m ∈ s.subscribed ∧ s.subAck.get m.2 ≠ none
  found : ∀ index vi, s.dispatcher = .found index vi → (index, vi.hash) ∈ s.subscribed
  one : ∀ i j hash, (i, hash) ∈ s.subscribed → (j, hash) ∈ s.subscribed → i = j

theorem Inv.lookup (h : s.Inv) (hstep : s.lookup vi = some s') : s'.Inv := by
  unfold State.lookup at hstep
  split at hstep
  · rename_i hidle
    have hrest : ∀ v ∈ s.arrived, ∀ phase,
        State.Placed { s with arrived := vi :: s.arrived, dispatcher := phase } v := by
      intro v hv phase
      rcases h.placed v hv with ⟨index, hfound⟩ | hmissed | hplaced
      · rw [hidle] at hfound
        cases hfound
      · rw [hidle] at hmissed
        cases hmissed
      · exact Or.inr (Or.inr hplaced)
    split at hstep
    · rename_i index hget
      cases hstep
      refine { h with placed := ?_, found := ?_ }
      · intro v hv
        rcases mem_cons.mp hv with rfl | hv
        · exact Or.inl ⟨index, rfl⟩
        · exact hrest v hv _
      · rintro _ _ ⟨⟩
        exact h.subAck index _ hget
    · cases hstep
      refine { h with placed := ?_, found := nofun }
      intro v hv
      rcases mem_cons.mp hv with rfl | hv
      · exact Or.inr (Or.inl rfl)
      · exact hrest v hv _
  · cases hstep

theorem Inv.dispatch (h : s.Inv) (horderly : s.Orderly .dispatch)
    (hstep : s.dispatch = some s') : s'.Inv := by
  unfold State.dispatch at hstep
  split at hstep
  · cases hstep
  · rename_i index vi hfound
    cases hstep
    refine { h with placed := ?_, found := nofun }
    intro v hv
    rcases h.placed v hv with ⟨i, hi⟩ | hmissed | ⟨i, hi, hsub⟩ | hcached
    · rw [hfound] at hi
      obtain ⟨rfl, rfl⟩ := Phase.found.inj hi
      exact Or.inr (Or.inr (Or.inl ⟨_, mem_cons_self, h.found _ _ hfound⟩))
    · rw [hfound] at hmissed
      cases hmissed
    · exact Or.inr (Or.inr (Or.inl ⟨i, mem_cons_of_mem _ hi, hsub⟩))
    · exact Or.inr (Or.inr (Or.inr hcached))
  · rename_i vi hmiss
    cases hstep
    refine { h with placed := ?_, found := nofun }
    intro v hv
    rcases h.placed v hv with ⟨i, hi⟩ | hmissed | hdelivered | ⟨hcached, hcome⟩
    · rw [hmiss] at hi
      cases hi
    · rw [hmiss] at hmissed
      obtain rfl := Phase.missed.inj hmissed
      exact Or.inr (Or.inr (Or.inr ⟨cached_cacheAck_self s _, horderly _ hmiss⟩))
    · exact Or.inr (Or.inr (Or.inl hdelivered))
    · exact Or.inr (Or.inr (Or.inr ⟨hcached.cacheAck vi, hcome⟩))

variable {hash : Hash} {a : Action}

theorem Awaits.subscribe (h : s.Awaits hash) (index : ℕ) (other : Hash) :
    (s.subscribe index other).Awaits hash :=
  h.imp_right fun ⟨i, hi⟩ => ⟨i, mem_append_left _ hi⟩

theorem Inv.subscribe (h : s.Inv) {index : ℕ} (horderly : s.Orderly (.subscribe index hash)) :
    (s.subscribe index hash).Inv := by
  refine ⟨fun v hv => ?_, ?_, ?_, ?_, ?_, ?_, ?_⟩
  · rcases h.placed v hv with hfound | hmissed | ⟨i, hi, hsub⟩ | ⟨hcached, hcome⟩
    · exact Or.inl hfound
    · exact Or.inr (Or.inl hmissed)
    · exact Or.inr (Or.inr (Or.inl ⟨i, hi, mem_cons_of_mem _ hsub⟩))
    · exact Or.inr (Or.inr (Or.inr ⟨hcached, hcome.imp_right fun ha => ha.subscribe _ _⟩))
  · intro i g hg
    rcases mem_cons.mp hg with heq | hg
    · exact Or.inr (mem_append_right _ (mem_singleton.mpr heq))
    · exact (h.recorded i g hg).imp_right (mem_append_left _)
  · exact fun i g hg => mem_cons_of_mem _ (h.subAck i g hg)
  · intro m hm
    rcases mem_append.mp hm with hm | hm
    · exact mem_cons_of_mem _ (h.subMsg m hm)
    · exact mem_cons.mpr (Or.inl (mem_singleton.mp hm))
  · exact fun m hm => ⟨mem_cons_of_mem _ (h.loop m hm).1, (h.loop m hm).2⟩
  · exact fun i v hv => mem_cons_of_mem _ (h.found i v hv)
  · intro i j g hi hj
    rcases mem_cons.mp hi with hnew | hold <;> rcases mem_cons.mp hj with hnew' | hold'
    · exact (Prod.mk.inj hnew).1.trans (Prod.mk.inj hnew').1.symm
    · obtain ⟨rfl, rfl⟩ := Prod.mk.inj hnew
      exact (horderly j hold').symm
    · obtain ⟨rfl, rfl⟩ := Prod.mk.inj hnew'
      exact horderly i hold
    · exact h.one i j g hold hold'

theorem Inv.record (h : s.Inv) (hstep : s.record = some s') : s'.Inv := by
  unfold State.record at hstep
  split at hstep
  · rename_i index hash subMsg hidle hmsg
    cases hstep
    have hmem : (index, hash) ∈ s.subscribed := h.subMsg _ (hmsg ▸ mem_cons_self)
    have hget : ∀ g, (s.subAck.put hash index).get g ≠ none ↔
        g = hash ∨ s.subAck.get g ≠ none := by
      intro g
      rw [get_put]
      split_ifs with hg <;> simp [hg]
    refine ⟨fun v hv => ?_, ?_, ?_, ?_, ?_, h.found, h.one⟩
    · rcases h.placed v hv with hfound | hmissed | hdelivered | ⟨hcached, hcome⟩
      · exact Or.inl hfound
      · exact Or.inr (Or.inl hmissed)
      · exact Or.inr (Or.inr (Or.inl hdelivered))
      · refine Or.inr (Or.inr (Or.inr ⟨hcached, ?_⟩))
        by_cases hv : v.hash = hash
        · exact Or.inr (Or.inl ⟨index, by rw [hv]⟩)
        · rcases hcome with hnone | ⟨i, hi⟩ | ⟨i, hi⟩
          · exact Or.inl ((get_put_of_ne _ hv _).trans hnone)
          · rw [hidle] at hi
            cases hi
          · rw [hmsg] at hi
            rcases mem_cons.mp hi with hi | hi
            · exact absurd (Prod.mk.inj hi).2 hv
            · exact Or.inr (Or.inr ⟨i, hi⟩)
    · intro i g hg
      rw [hget]
      rcases h.recorded i g hg with hknown | hqueued
      · exact Or.inl (Or.inr hknown)
      · rw [hmsg] at hqueued
        rcases mem_cons.mp hqueued with heq | hqueued
        · exact Or.inl (Or.inl (Prod.mk.inj heq).2)
        · exact Or.inr hqueued
    · intro i g hg
      change (s.subAck.put hash index).get g = some i at hg
      rw [get_put] at hg
      split_ifs at hg with hsame
      · rw [hsame, ← Option.some.inj hg]
        exact hmem
      · exact h.subAck i g hg
    · exact fun m hm => h.subMsg m (hmsg ▸ mem_cons_of_mem _ hm)
    · rintro _ ⟨⟩
      exact ⟨hmem, (hget hash).mpr (Or.inl rfl)⟩
  · cases hstep

theorem Inv.forward (h : s.Inv) (hstep : s.forward = some s') : s'.Inv := by
  unfold State.forward at hstep
  split at hstep
  · cases hstep
  · rename_i index hash hloop
    cases hstep
    obtain ⟨hsub, hknown⟩ := h.loop _ hloop
    refine ⟨fun v hv => ?_, h.recorded, h.subAck, h.subMsg, nofun, h.found, h.one⟩
    rcases h.placed v hv with hfound | hmissed | ⟨i, hi, hisub⟩ | ⟨hcached, hcome⟩
    · exact Or.inl hfound
    · exact Or.inr (Or.inl hmissed)
    · exact Or.inr (Or.inr (Or.inl ⟨i, mem_append_right _ hi, hisub⟩))
    · by_cases hv : v.hash = hash
      · refine Or.inr (Or.inr (Or.inl ⟨index, mem_append_left _ ?_, hv ▸ hsub⟩))
        exact mem_map.mpr ⟨v, hv ▸ hcached.mem_cachedVotes, rfl⟩
      · obtain ⟨vc, hvc, hvi⟩ := hcached
        refine Or.inr (Or.inr (Or.inr
          ⟨⟨vc, (get_delete_of_ne _ hv).trans hvc, hvi⟩, hcome.imp_right ?_⟩))
        rintro (⟨i, hi⟩ | hqueued)
        · rw [hloop] at hi
          exact absurd (Prod.mk.inj (Option.some.inj hi)).2.symm hv
        · exact Or.inr hqueued

theorem Inv.step (h : s.Inv) (horderly : s.Orderly a) (hstep : s.step a = some s') : s'.Inv := by
  cases a with
  | lookup vi => exact h.lookup hstep
  | dispatch => exact h.dispatch horderly hstep
  | subscribe index hash =>
    cases hstep
    exact h.subscribe horderly
  | record => exact h.record hstep
  | forward => exact h.forward hstep

theorem inv_of_runs (h : Runs Orderly {} s) : s.Inv := by
  refine h.invariant ⟨nofun, nofun, ?_, nofun, nofun, nofun, nofun⟩ fun _ _ _ hI => hI.step
  intro index hash hget
  rw [get_empty] at hget
  cases hget

/-! ## A vote that comes too late -/

def Filed (s : State) : Prop := ∀ hash, ∀ vi ∈ s.cachedVotes hash, vi.hash = hash

theorem mem_cachedVotes :
    vi ∈ s.cachedVotes hash ↔
      ∃ vc account, s.voteCache.get hash = some vc ∧ vc.get account = some vi := by
  unfold cachedVotes
  cases s.voteCache.get hash with
  | none => simp
  | some vc => simp [mem_values]

theorem Filed.cacheAck (h : s.Filed) (vi : VoteInfo) : (s.cacheAck vi).Filed := by
  intro hash v hv
  obtain ⟨vc, account, hvc, hget⟩ := mem_cachedVotes.mp hv
  change (s.voteCache.put vi.hash _).get hash = some vc at hvc
  rw [get_put] at hvc
  split_ifs at hvc with hhash
  · cases hvc
    rw [get_put] at hget
    split_ifs at hget with haccount
    · rw [← Option.some.inj hget, hhash]
    · cases hold : s.voteCache.get vi.hash with
      | none =>
        rw [hold, getD_none, get_empty] at hget
        cases hget
      | some vc =>
        rw [hold, getD_some] at hget
        rw [hhash]
        exact h _ v (mem_cachedVotes.mpr ⟨vc, account, hold, hget⟩)
  · exact h hash v (mem_cachedVotes.mpr ⟨vc, account, hvc, hget⟩)

theorem Filed.step (h : s.Filed) (hstep : s.step a = some s') : s'.Filed := by
  cases a with
  | lookup vi =>
    change s.lookup vi = some s' at hstep
    unfold State.lookup at hstep
    repeat' split at hstep
    all_goals first | cases hstep; exact h | cases hstep
  | dispatch =>
    change s.dispatch = some s' at hstep
    unfold State.dispatch at hstep
    split at hstep
    · cases hstep
    · cases hstep
      exact h
    · cases hstep
      exact h.cacheAck _
  | subscribe index hash =>
    cases hstep
    exact h
  | record =>
    change s.record = some s' at hstep
    unfold State.record at hstep
    split at hstep
    · cases hstep
      exact h
    · cases hstep
  | forward =>
    change s.forward = some s' at hstep
    unfold State.forward at hstep
    split at hstep
    · cases hstep
    · rename_i index hash hloop
      cases hstep
      intro g v hv
      obtain ⟨vc, account, hvc, hget⟩ := mem_cachedVotes.mp hv
      change (s.voteCache.delete hash).get g = some vc at hvc
      rw [get_delete] at hvc
      split_ifs at hvc
      exact h g v (mem_cachedVotes.mpr ⟨vc, account, hvc, hget⟩)

/-- No step to come sends the vote: it is not with the dispatcher, and its hash will not be
forwarded. -/
structure Stuck (s : State) (vi : VoteInfo) : Prop where
  filed : s.Filed
  delivered : ∀ index, (index, vi) ∉ s.delivered
  dispatcher : ∀ index, s.dispatcher ≠ .found index vi
  awaits : ¬s.Awaits vi.hash

def Unrelated (vi : VoteInfo) (a : Action) : Prop :=
  a ≠ .lookup vi ∧ ∀ index, a ≠ .subscribe index vi.hash

theorem Stuck.step (h : s.Stuck vi) (ha : Unrelated vi a) (hstep : s.step a = some s') :
    s'.Stuck vi := by
  have hfiled := h.filed.step hstep
  cases a with
  | lookup v =>
    change s.lookup v = some s' at hstep
    unfold State.lookup at hstep
    split at hstep
    · split at hstep
      · cases hstep
        refine ⟨hfiled, h.delivered, ?_, h.awaits⟩
        rintro _ ⟨⟩
        exact ha.1 rfl
      · cases hstep
        exact ⟨hfiled, h.delivered, nofun, h.awaits⟩
    · cases hstep
  | dispatch =>
    change s.dispatch = some s' at hstep
    unfold State.dispatch at hstep
    split at hstep
    · cases hstep
    · rename_i index v hfound
      cases hstep
      refine ⟨hfiled, fun i hi => ?_, nofun, h.awaits⟩
      rcases mem_cons.mp hi with hi | hi
      · exact h.dispatcher index ((Prod.mk.inj hi).2 ▸ hfound)
      · exact h.delivered i hi
    · cases hstep
      exact ⟨hfiled, h.delivered, nofun, h.awaits⟩
  | subscribe index hash =>
    cases hstep
    refine ⟨hfiled, h.delivered, h.dispatcher, ?_⟩
    rintro (hloop | ⟨i, hi⟩)
    · exact h.awaits (Or.inl hloop)
    · rcases mem_append.mp hi with hi | hi
      · exact h.awaits (Or.inr ⟨i, hi⟩)
      · obtain ⟨-, rfl⟩ := Prod.mk.inj (mem_singleton.mp hi)
        exact ha.2 index rfl
  | record =>
    change s.record = some s' at hstep
    unfold State.record at hstep
    split at hstep
    · rename_i index hash subMsg hidle hmsg
      cases hstep
      have hne : hash ≠ vi.hash := by
        rintro rfl
        exact h.awaits (Or.inr ⟨index, hmsg ▸ mem_cons_self⟩)
      refine ⟨hfiled, h.delivered, h.dispatcher, ?_⟩
      rintro (⟨i, hi⟩ | ⟨i, hi⟩)
      · exact hne (Prod.mk.inj (Option.some.inj hi)).2
      · exact h.awaits (Or.inr ⟨i, hmsg ▸ mem_cons_of_mem _ hi⟩)
    · cases hstep
  | forward =>
    change s.forward = some s' at hstep
    unfold State.forward at hstep
    split at hstep
    · cases hstep
    · rename_i index hash hloop
      cases hstep
      refine ⟨hfiled, fun i hi => ?_, h.dispatcher, ?_⟩
      · rcases mem_append.mp hi with hi | hi
        · obtain ⟨v, hv, heq⟩ := mem_map.mp hi
          obtain ⟨-, rfl⟩ := Prod.mk.inj heq
          exact h.awaits (Or.inl ⟨index, by rw [h.filed hash v hv, hloop]⟩)
        · exact h.delivered i hi
      · rintro (⟨i, hi⟩ | hqueued)
        · cases hi
        · exact h.awaits (Or.inr hqueued)

theorem stuck_of_dispatch (hfiled : s.Filed) (hdelivered : ∀ index, (index, vi) ∉ s.delivered)
    (hmissed : s.dispatcher = .missed vi) (hlate : ¬s.Awaits vi.hash)
    (hstep : s.step .dispatch = some s') : s'.Stuck vi := by
  have hfiled' := hfiled.step hstep
  change s.dispatch = some s' at hstep
  unfold State.dispatch at hstep
  rw [hmissed] at hstep
  cases hstep
  exact ⟨hfiled', hdelivered, nofun, hlate⟩

end State

/-- In every run in which each vote is cached before the last forwarding of its hash and the
subscriptions of a hash come from one processor, the votes that have arrived are delivered to the
processor that subscribes to them once both loops have nothing left to do. -/
theorem votes_delivered_in_time (s : State) :
    (Runs State.Orderly {} s → s.Quiet →
      ∀ vi ∈ s.arrived, ∀ index, (index, vi.hash) ∈ s.subscribed → (index, vi) ∈ s.delivered) ∧
    ∀ s₁ s' vi, Runs (fun _ _ => True) {} s → s.dispatcher = .missed vi →
      ¬s.Orderly .dispatch → (∀ index, (index, vi) ∉ s.delivered) → s.step .dispatch = some s₁ →
      Runs (fun _ a => State.Unrelated vi a) s₁ s' → ∀ index, (index, vi) ∉ s'.delivered := by
  constructor
  · rintro hrun ⟨hidle, hloop, hmsg⟩ vi hvi index hsub
    have hinv := State.inv_of_runs hrun
    have hawaits : ¬s.Awaits vi.hash := by
      rintro (⟨i, hi⟩ | ⟨i, hi⟩)
      · rw [hloop] at hi
        cases hi
      · rw [hmsg] at hi
        exact absurd hi not_mem_nil
    rcases hinv.placed vi hvi with ⟨i, hi⟩ | hmissed | ⟨i, hi, hisub⟩ | ⟨-, hnone | hcome⟩
    · rw [hidle] at hi
      cases hi
    · rw [hidle] at hmissed
      cases hmissed
    · rwa [hinv.one index i vi.hash hsub hisub]
    · rcases hinv.recorded index vi.hash hsub with hknown | hqueued
      · exact absurd hnone hknown
      · rw [hmsg] at hqueued
        exact absurd hqueued not_mem_nil
    · exact absurd hcome hawaits
  · intro s₁ s' vi hrun hmissed hlate hdelivered hstep hrest index
    have hfiled : s.Filed := by
      refine hrun.invariant ?_ fun _ _ _ hI _ => hI.step
      intro hash v hv
      obtain ⟨vc, account, hvc, -⟩ := State.mem_cachedVotes.mp hv
      rw [get_empty] at hvc
      cases hvc
    have hawaits : ¬s.Awaits vi.hash := by
      intro hcome
      apply hlate
      intro v hv
      rw [hmissed] at hv
      obtain rfl := Phase.missed.inj hv
      exact Or.inr hcome
    have hstuck := State.stuck_of_dispatch hfiled hdelivered hmissed hawaits hstep
    exact (hrest.invariant (I := fun s => s.Stuck vi) hstuck fun _ _ _ hI => hI.step).delivered index

/-! ## A vote behind its subscription -/

def run (actions : List Action) : Option State := actions.foldlM State.step {}

theorem runs_of_run {actions : List Action} (hrun : run actions = some s)
    (hP : ∀ t s₁, run (actions.take t) = some s₁ → ∀ a, actions[t]? = some a → P s₁ a) :
    Runs P {} s := by
  induction actions using List.reverseRecOn generalizing s with
  | nil =>
    cases hrun
    exact .refl
  | append_singleton actions a ih =>
    have hsplit : run (actions ++ [a]) = (run actions).bind fun s => s.step a := by
      simp [run, foldlM_append]
    rw [hsplit] at hrun
    obtain ⟨s₁, hs₁, hstep⟩ := bind_eq_some_iff.mp hrun
    refine (ih hs₁ fun t s₂ hs₂ b hb => ?_).step ?_ hstep
    · have ht : t < actions.length := (List.getElem?_eq_some_iff.mp hb).1
      refine hP t s₂ ?_ b ?_
      · rwa [take_append_of_le_length (Nat.le_of_lt ht)]
      · rwa [List.getElem?_append_left ht]
    · refine hP actions.length s₁ ?_ a ?_
      · rwa [take_left']
        rfl
      · simp

def vote : VoteInfo := { account := 1, hash := 2 }

/-- The subscription is recorded and forwarded between the look-up and the caching of the vote. -/
theorem vote_not_delivered :
    ∃ s, run [.lookup vote, .subscribe 0 2, .record, .forward, .dispatch] = some s ∧
      s.Quiet ∧ vote ∈ s.arrived ∧ (0, vote.hash) ∈ s.subscribed ∧ s.delivered = [] :=
  ⟨_, rfl, by decide, by decide, by decide, rfl⟩

def prompt : List Action := [.lookup vote, .subscribe 0 2, .record, .dispatch, .forward]

theorem prompt_orderly (hrun : run prompt = some s) : Runs State.Orderly {} s := by
  refine runs_of_run hrun fun t s₁ hs₁ a ha => ?_
  match t with
  | 0 | 2 | 4 =>
    cases ha
    trivial
  | 1 =>
    cases ha
    cases hs₁
    rintro i ⟨⟩
  | 3 =>
    cases ha
    cases hs₁
    exact fun vi hvi => Or.inr (Or.inl ⟨0, by cases hvi; rfl⟩)
  | t + 5 => cases ha

theorem vote_delivered :
    ∃ s, run prompt = some s ∧ s.Quiet ∧ (0, vote) ∈ s.delivered := by
  refine ⟨_, rfl, by decide, ?_⟩
  exact (votes_delivered_in_time _).1 (prompt_orderly rfl) (by decide) vote (by decide) 0 (by decide)

end GoQlc.Delivery
