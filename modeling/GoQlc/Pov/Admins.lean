import GoQlc.Pov.Determinism

/-!
# Administrators

The permission and the KYC contract each have an administrator, at the start the genesis account.
-/

namespace GoQlc.Pov

open Abi Config Devnet List Permission Table AdminAccount

namespace Permission

def commentMaxLen : ℕ := 128

def isAdmin (cs : PovContracts) (addr : Address) : Bool :=
  if addr = genesisAddress then !(cs.admins.values.any valid)
  else (cs.admins.get addr).any valid

def adminHandOver (b : Build) (cs : PovContracts) : Contract where
  describe := { specVer := 2, signature := true, work := true }
  processSend ctx block :=
    Kyc.processCall (unpackHandOver b.hashData block.data)
      (fun admin => decide (admin.comment.length ≤ commentMaxLen)) Kyc.errInvalidLen
      (isAdmin cs block.address) Kyc.errInvalidAdmin
      (fun admin => packMethod b.hashData adminHandOverMethod (admin.account, admin.comment, ()))
      ctx block

end Permission

inductive Office where
  | permission
  | kyc
deriving DecidableEq, Repr

namespace Office

def admins : Office → PovContracts → Table Address AdminAccount
  | permission => PovContracts.admins
  | kyc => PovContracts.kycAdmins

def isAdmin : Office → PovContracts → Address → Bool
  | permission => Permission.isAdmin
  | kyc => Kyc.isAdmin

/-- The method `AdminHandOver`, with the PoV state it checks the sender against. -/
def handOverContract (b : Build) (cs : PovContracts) : Office → Contract
  | permission => adminHandOver b cs
  | kyc => Kyc.adminHandOver b cs

def povMethod : Office → PovMethod
  | permission => .adminHandOver
  | kyc => .kycAdminHandOver

end Office

/-- The chain with the hand-overs that were accepted: those that wait, and those that were applied
with the state each was applied to. -/
structure HandOvers where
  cs : PovContracts
  waiting : List (Office × StateBlock)
  applied : List (Office × StateBlock × PovContracts)

namespace HandOvers

inductive Event where
  | accept (o : Office) (block : StateBlock)
  | apply (o : Office) (block : StateBlock)
  | other

/-- A node accepts a hand-over against the latest state, a later block of the chain applies it, or
the chain changes anything but the administrators. -/
inductive Step (b : Build) (s : HandOvers) : Event → HandOvers → Prop
  | accept {o : Office} {block : StateBlock} {ctx ctx' : VmContext}
    {pending : Option (PendingKey × PendingInfo)}
    (sent : ((o.handOverContract b s.cs).processSend ctx block).result = .ok (pending, ctx')) :
    Step b s (.accept o block) { s with waiting := s.waiting ++ [(o, block)] }
  | apply {o : Office} {block : StateBlock} {order : MapOrder} {ctx : VmContext} {height : ℕ}
    {cs' : PovContracts} (waits : (o, block) ∈ s.waiting)
    (run : o.povMethod.doSendOnPov b order ctx height block s.cs = .ok cs') :
    Step b s (.apply o block)
      { cs := cs', waiting := s.waiting.erase (o, block)
        applied := s.applied ++ [(o, block, s.cs)] }
  | other {cs' : PovContracts} (kept : ∀ o : Office, o.admins cs' = o.admins s.cs) :
    Step b s .other { s with cs := cs' }

/-- The states of runs that start without administrators on record and whose events all meet the
condition. -/
inductive Reaches (b : Build) (P : HandOvers → Event → Prop) : HandOvers → Prop
  | start {cs : PovContracts} (empty : ∀ o : Office, o.admins cs = ∅) : Reaches b P ⟨cs, [], []⟩
  | step {s s' : HandOvers} {e : Event} (before : Reaches b P s) (now : Step b s e s') (fair : P s e) :
    Reaches b P s'

/-- A hand-over is accepted only if none is waiting for the same office, and not on the word of a
sync. -/
def OneAtATime (s : HandOvers) : Event → Prop
  | .accept o block => block.isFromSync = false ∧ ∀ other, (o, other) ∉ s.waiting
  | .apply _ _ | .other => True

end HandOvers

/-! ### The administrator of a table -/

theorem any_values {V : Type} {t : Table Address V} {p : V → Bool} :
    t.values.any p = true ↔ ∃ a v, t.get a = some v ∧ p v = true := by
  rw [any_eq_true]
  constructor
  · rintro ⟨v, hv, hp⟩
    obtain ⟨e, he, rfl⟩ := mem_map.mp hv
    exact ⟨e.1, e.2, mem_dlookup t.nodupKeys he, hp⟩
  · rintro ⟨a, v, hget, hp⟩
    exact ⟨v, mem_map.mpr ⟨⟨a, v⟩, of_mem_dlookup hget, rfl⟩, hp⟩

def EffectiveAdmin (admins : Table Address AdminAccount) (addr : Address) : Prop :=
  if addr = genesisAddress then ∀ a r, admins.get a = some r → r.valid = false
  else ∃ r, admins.get addr = some r ∧ r.valid = true

theorem isAdmin_iff (o : Office) (cs : PovContracts) (addr : Address) :
    o.isAdmin cs addr = true ↔ EffectiveAdmin (o.admins cs) addr := by
  have htable (t : Table Address AdminAccount) :
      (if addr = genesisAddress then !(t.values.any valid)
        else (t.get addr).any valid) = true ↔ EffectiveAdmin t addr := by
    unfold EffectiveAdmin
    by_cases hgenesis : addr = genesisAddress
    · rw [if_pos hgenesis, if_pos hgenesis, Bool.not_eq_true', ← Bool.not_eq_true, any_values]
      simp
    · rw [if_neg hgenesis, if_neg hgenesis, Option.any_eq_true]
  cases o with
  | permission => exact htable cs.admins
  | kyc => exact htable cs.kycAdmins

/-- The genesis account has no record, and one account is the administrator. -/
structure OneAdmin (admins : Table Address AdminAccount) (addr : Address) : Prop where
  genesis : admins.get genesisAddress = none
  effective : ∀ a, EffectiveAdmin admins a ↔ a = addr

theorem oneAdmin_empty : OneAdmin ∅ genesisAddress := by
  refine ⟨get_empty _, fun a => ?_⟩
  unfold EffectiveAdmin
  by_cases hgenesis : a = genesisAddress
  · simp [hgenesis]
  · simp [hgenesis]

theorem oneAdmin_updateAdmin {admins : Table Address AdminAccount} (addr : Address)
    (comment : Bytes) (hgenesis : admins.get genesisAddress = none)
    (hnone : ∀ a r, admins.get a = some r → r.valid = false) :
    OneAdmin (updateAdmin addr comment admins) addr := by
  unfold updateAdmin
  by_cases haddr : addr = genesisAddress
  · rw [if_pos haddr]
    refine ⟨hgenesis, fun a => ?_⟩
    unfold EffectiveAdmin
    by_cases ha : a = genesisAddress
    · rw [if_pos ha]
      exact ⟨fun _ => ha.trans haddr.symm, fun _ => hnone⟩
    · rw [if_neg ha]
      refine ⟨fun ⟨r, hr, hvalid⟩ => ?_, fun h => absurd (h.trans haddr) ha⟩
      rw [hnone a r hr] at hvalid
      cases hvalid
  · rw [if_neg haddr]
    refine ⟨by rw [get_put_of_ne _ (Ne.symm haddr), hgenesis], fun a => ?_⟩
    unfold EffectiveAdmin
    by_cases ha : a = genesisAddress
    · rw [if_pos ha]
      refine ⟨fun h => ?_, fun h => absurd (h.symm.trans ha) haddr⟩
      have := h addr _ (get_put_self _ _ _)
      cases this
    · rw [if_neg ha]
      constructor
      · rintro ⟨r, hr, hvalid⟩
        by_contra hne
        rw [get_put_of_ne _ hne] at hr
        rw [hnone a r hr] at hvalid
        cases hvalid
      · rintro rfl
        exact ⟨_, get_put_self _ _ _, rfl⟩

theorem oneAdmin_handOver {admins admins' : Table Address AdminAccount} {sender : Address}
    {admin : HandOver} (h : OneAdmin admins sender)
    (hrun : handOver sender admin admins = .ok admins') : OneAdmin admins' admin.account := by
  have hsender := (h.effective sender).mpr rfl
  unfold handOver removeAdmin at hrun
  unfold EffectiveAdmin at hsender
  by_cases hgenesis : sender = genesisAddress
  · rw [if_pos hgenesis] at hrun hsender
    cases hrun
    exact oneAdmin_updateAdmin _ _ h.genesis hsender
  · rw [if_neg hgenesis] at hrun hsender
    obtain ⟨r, hr, -⟩ := hsender
    simp only [hr] at hrun
    cases hrun
    apply oneAdmin_updateAdmin
    · rw [get_put_of_ne _ (Ne.symm hgenesis), h.genesis]
    · intro a r' hr'
      by_cases ha : a = sender
      · rw [ha, get_put_self] at hr'
        cases hr'
        rfl
      · rw [get_put_of_ne _ ha] at hr'
        -- another valid record would be a second administrator
        by_contra hvalid
        have hne : a ≠ genesisAddress := by
          rintro rfl
          rw [h.genesis] at hr'
          cases hr'
        have heff : EffectiveAdmin admins a := by
          rw [EffectiveAdmin, if_neg hne]
          exact ⟨r', hr', by simpa using hvalid⟩
        exact ha ((h.effective a).mp heff)

/-! ### Runs -/

variable {cs : PovContracts} {ctx : VmContext} {block : StateBlock}

theorem isAdmin_of_processSend {b : Build} {o : Office} {ctx' : VmContext}
    {pending : Option (PendingKey × PendingInfo)}
    (h : ((o.handOverContract b cs).processSend ctx block).result = .ok (pending, ctx'))
    (hsync : block.isFromSync = false) : o.isAdmin cs block.address = true := by
  have hcall {call : Option HandOver} {verify : HandOver → Bool} {param right : ContractError}
      {allowed : Bool} {packed : HandOver → Bytes}
      (hok : (Kyc.processCall call verify param allowed right packed ctx block).result =
        .ok (pending, ctx')) : allowed = true := by
    unfold Kyc.processCall at hok
    by_contra hno
    have hdenied : allowed = false := by simpa using hno
    rw [hsync, hdenied] at hok
    cases call with
    | none =>
      dsimp only at hok
      split_ifs at hok
    | some args =>
      simp only [Bool.not_false, Bool.and_self, if_true] at hok
      split_ifs at hok
  cases o with
  | permission => exact hcall h
  | kyc => exact hcall h

theorem admins_of_doSendOnPov {b : Build} {o : Office} {order : MapOrder} {height : ℕ}
    {cs' : PovContracts} (h : o.povMethod.doSendOnPov b order ctx height block cs = .ok cs') :
    (∃ admin, handOver block.address admin (o.admins cs) = .ok (o.admins cs')) ∧
    ∀ o', o' ≠ o → o'.admins cs' = o'.admins cs := by
  cases o with
  | permission =>
    simp only [Office.povMethod, PovMethod.doSendOnPov, PovMethod.unpacked] at h
    cases hcall : unpackHandOver b.hashData block.data with
    | none => simp [hcall] at h
    | some admin =>
      simp only [hcall] at h
      obtain ⟨admins, hadmins, rfl⟩ := Result.map_eq_ok.mp h
      refine ⟨⟨admin, hadmins⟩, fun o' ho' => ?_⟩
      cases o' with
      | permission => exact absurd rfl ho'
      | kyc => rfl
  | kyc =>
    simp only [Office.povMethod, PovMethod.doSendOnPov, PovMethod.unpacked] at h
    cases hcall : Kyc.unpackHandOver b.hashData block.data with
    | none => simp [hcall] at h
    | some admin =>
      simp only [hcall] at h
      obtain ⟨admins, hadmins, rfl⟩ := Result.map_eq_ok.mp h
      refine ⟨⟨admin, hadmins⟩, fun o' ho' => ?_⟩
      cases o' with
      | permission => rfl
      | kyc => exact absurd rfl ho'

namespace HandOvers

/-- The office has one administrator, who has sent the hand-over that may wait and all that were
applied. -/
structure Orderly (s : HandOvers) (o : Office) (addr : Address) : Prop where
  one : OneAdmin (o.admins s.cs) addr
  waiting : ∀ block, (o, block) ∈ s.waiting → block.address = addr
  single : s.waiting.countP (fun w => w.1 = o) ≤ 1
  genesis : (∀ e ∈ s.applied, e.1 ≠ o) → addr = genesisAddress
  issued : ∀ e ∈ s.applied, e.1 = o → EffectiveAdmin (o.admins e.2.2) e.2.1.address

variable {b : Build} {s s' : HandOvers} {e : Event} {o : Office} {addr : Address}

theorem Orderly.step (h : s.Orderly o addr) (hstep : Step b s e s') (hfair : s.OneAtATime e) :
    ∃ addr', s'.Orderly o addr' := by
  cases hstep with
  | @accept o' block ctx ctx' pending sent =>
    refine ⟨addr, h.one, fun block' hmem => ?_, ?_, h.genesis, h.issued⟩
    · rcases mem_append.mp hmem with hmem | hmem
      · exact h.waiting block' hmem
      · obtain ⟨rfl, rfl⟩ := Prod.mk.inj (mem_singleton.mp hmem)
        exact (h.one.effective _).mp ((isAdmin_iff o s.cs _).mp
          (isAdmin_of_processSend sent hfair.1))
    · rw [countP_append, countP_singleton]
      by_cases ho : o' = o
      · -- none was waiting
        have hnone : s.waiting.countP (fun w => w.1 = o) = 0 := by
          rw [countP_eq_zero]
          rintro ⟨o₁, block₁⟩ hmem hmatch
          obtain rfl : o₁ = o := by simpa using hmatch
          exact hfair.2 block₁ (ho ▸ hmem)
        rw [hnone]
        split_ifs <;> simp
      · simpa [ho] using h.single
  | @apply o' block order ctx height cs' waits run =>
    obtain ⟨⟨admin, hadmins⟩, hothers⟩ := admins_of_doSendOnPov run
    by_cases ho : o' = o
    · subst ho
      have hsender : block.address = addr := h.waiting block waits
      have hempty : ∀ block', (o', block') ∉ s.waiting.erase (o', block) := by
        have hcount : (s.waiting.erase (o', block)).countP (fun w => w.1 = o') = 0 := by
          have hsplit := (perm_cons_erase waits).countP_eq fun w => decide (w.1 = o')
          have hone := h.single
          simp only [countP_cons, decide_true, if_true] at hsplit
          omega
        intro block' hmem
        have := countP_eq_zero.mp hcount _ hmem
        simp at this
      refine ⟨admin.account, oneAdmin_handOver (hsender ▸ h.one) hadmins,
        fun block' hmem => absurd hmem (hempty block'), ?_, fun hno => ?_, fun e he ho => ?_⟩
      · have hzero : (s.waiting.erase (o', block)).countP (fun w => w.1 = o') = 0 := by
          rw [countP_eq_zero]
          rintro ⟨o₁, block₁⟩ hmem hmatch
          obtain rfl : o₁ = o' := by simpa using hmatch
          exact hempty block₁ hmem
        exact hzero.le.trans (Nat.zero_le _)
      · exact absurd rfl (hno (o', block, s.cs) (by simp))
      · rcases mem_append.mp he with he | he
        · exact h.issued e he ho
        · rw [mem_singleton.mp he]
          exact (h.one.effective _).mpr hsender
    · have hsame : o.admins cs' = o.admins s.cs := hothers o (Ne.symm ho)
      refine ⟨addr, hsame ▸ h.one, fun block' hmem => h.waiting block' (mem_of_mem_erase hmem),
        (List.Sublist.countP_le erase_sublist).trans h.single, fun hno => h.genesis fun e he =>
          hno e (mem_append_left _ he), fun e he heq => ?_⟩
      rcases mem_append.mp he with he | he
      · exact h.issued e he heq
      · rw [mem_singleton.mp he] at heq
        exact absurd heq ho
  | @other cs' kept =>
    exact ⟨addr, kept o ▸ h.one, h.waiting, h.single, h.genesis, h.issued⟩

theorem Reaches.orderly (h : Reaches b OneAtATime s) (o : Office) : ∃ addr, s.Orderly o addr := by
  induction h with
  | start empty =>
    refine ⟨genesisAddress, ?_, fun _ h => absurd h not_mem_nil, Nat.zero_le _, fun _ => rfl,
      fun _ h => absurd h not_mem_nil⟩
    rw [empty o]
    exact oneAdmin_empty
  | step _ now fair ih =>
    obtain ⟨addr, horderly⟩ := ih
    exact horderly.step now fair

/-- There is always one administrator, and each hand-over that was applied came from the one in
force. -/
theorem one_admin (h : Reaches b OneAtATime s) :
    (∀ o : Office, ∃! a, o.isAdmin s.cs a = true) ∧
    (∀ o : Office, (∀ e ∈ s.applied, e.1 ≠ o) → o.isAdmin s.cs genesisAddress = true) ∧
    ∀ e ∈ s.applied, e.1.isAdmin e.2.2 e.2.1.address = true := by
  refine ⟨fun o => ?_, fun o hno => ?_, fun e he => ?_⟩
  · obtain ⟨addr, horderly⟩ := h.orderly o
    refine ⟨addr, (isAdmin_iff o s.cs addr).mpr ((horderly.one.effective addr).mpr rfl),
      fun a ha => ?_⟩
    exact (horderly.one.effective a).mp ((isAdmin_iff o s.cs a).mp ha)
  · obtain ⟨addr, horderly⟩ := h.orderly o
    rw [isAdmin_iff, horderly.one.effective, horderly.genesis hno]
  · obtain ⟨addr, horderly⟩ := h.orderly e.1
    exact (isAdmin_iff _ _ _).mpr (horderly.issued e he rfl)

/-! ### Two hand-overs that wait -/

def handOverTo (account : Address) : StateBlock where
  type := .contractSend
  token := chainToken
  address := genesisAddress
  balance := 0
  previous := 0
  link := permissionAddress
  representative := genesisAddress
  data := packMethod (headHash 40) adminHandOverMethod (account, ([] : Bytes), ())

def handOverContext : VmContext where
  ledger := {}
  view := Devnet.view
  contractAddr := permissionAddress
  povHeight := 0

def namedAdmins (accounts : List Address) : PovContracts where
  admins := accounts.foldl (fun t a => t.put a { comment := [], valid := true }) ∅

theorem accept_handOverTo {s : HandOvers} {account : Address}
    (hcall : unpackHandOver (headHash 40) (handOverTo account).data =
      some ⟨account, []⟩)
    (hadmin : Permission.isAdmin s.cs genesisAddress = true) :
    Step (shortBuild true) s (.accept .permission (handOverTo account))
      { s with waiting := s.waiting ++ [(.permission, handOverTo account)] } := by
  have hcall' : unpackHandOver (shortBuild true).hashData (handOverTo account).data =
      some ⟨account, []⟩ := hcall
  have hadmin' : Permission.isAdmin s.cs (handOverTo account).address = true := hadmin
  have htoken : (handOverTo account).token = chainToken := rfl
  have hsent : ((Office.permission.handOverContract (shortBuild true) s.cs).processSend
      handOverContext (handOverTo account)).result = .ok (none, handOverContext) := by
    simp [Office.handOverContract, adminHandOver, Kyc.processCall, hcall', hadmin',
      htoken]
  exact .accept hsent

theorem one_admin_after_hand_over :
    ∃ s, Reaches (shortBuild true) OneAtATime s ∧ s.cs = namedAdmins [stranger] ∧
      ∃! a, Office.permission.isAdmin s.cs a = true := by
  have hfacts : unpackHandOver (headHash 40) (handOverTo stranger).data =
        some ⟨stranger, []⟩ ∧
      Permission.isAdmin {} genesisAddress = true ∧
      PovMethod.adminHandOver.doSendOnPov (shortBuild true) .keep handOverContext 1
        (handOverTo stranger) {} = .ok (namedAdmins [stranger]) := by
    decide +kernel
  obtain ⟨hcall, hadmin, hrun⟩ := hfacts
  have hstart : Reaches (shortBuild true) OneAtATime ⟨{}, [], []⟩ :=
    .start fun o => by cases o <;> rfl
  have hreach := (hstart.step (accept_handOverTo hcall hadmin)
    ⟨rfl, fun _ h => absurd h not_mem_nil⟩).step
      (.apply (o := .permission) (mem_append_right _ (mem_singleton.mpr rfl)) hrun) trivial
  exact ⟨_, hreach, rfl, (one_admin hreach).1 .permission⟩

theorem Reaches.apply_both {block' : StateBlock} {order : MapOrder} {height height' : ℕ}
    {cs₁ cs₂ : PovContracts} (h : Reaches b (fun _ _ => True) ⟨cs, [(o, block), (o, block')], []⟩)
    (hrun : o.povMethod.doSendOnPov b order ctx height block cs = .ok cs₁)
    (hrun' : o.povMethod.doSendOnPov b order ctx height' block' cs₁ = .ok cs₂) :
    Reaches b (fun _ _ => True) ⟨cs₂, [], [(o, block, cs), (o, block', cs₁)]⟩ := by
  have hone := h.step (.apply (o := o) mem_cons_self hrun) trivial
  rw [erase_cons_head] at hone
  have htwo := hone.step (.apply (o := o) mem_cons_self hrun') trivial
  rw [erase_cons_head] at htwo
  exact htwo

/-- Both accounts are administrators, and the second hand-over was applied when the genesis account
was none any more. -/
theorem two_admins_after_two_hand_overs :
    ∃ s, Reaches (shortBuild true) (fun _ _ => True) s ∧
      Office.permission.isAdmin s.cs stranger = true ∧
      Office.permission.isAdmin s.cs neighbour = true ∧
      stranger ≠ neighbour ∧
      ∃ e ∈ s.applied, e.1.isAdmin e.2.2 e.2.1.address = false := by
  have hfacts : unpackHandOver (headHash 40) (handOverTo stranger).data =
        some ⟨stranger, []⟩ ∧
      unpackHandOver (headHash 40) (handOverTo neighbour).data =
        some ⟨neighbour, []⟩ ∧
      Permission.isAdmin {} genesisAddress = true ∧
      PovMethod.adminHandOver.doSendOnPov (shortBuild true) .keep handOverContext 1
        (handOverTo stranger) {} = .ok (namedAdmins [stranger]) ∧
      PovMethod.adminHandOver.doSendOnPov (shortBuild true) .keep handOverContext 2
        (handOverTo neighbour) (namedAdmins [stranger]) =
          .ok (namedAdmins [stranger, neighbour]) ∧
      Permission.isAdmin (namedAdmins [stranger, neighbour]) stranger = true ∧
      Permission.isAdmin (namedAdmins [stranger, neighbour]) neighbour =
        true ∧
      Permission.isAdmin (namedAdmins [stranger]) genesisAddress = false ∧
      stranger ≠ neighbour := by
    decide +kernel
  obtain ⟨hcall, hcall', hadmin, hrun, hrun', hfirst, hsecond, hgenesis, hne⟩ := hfacts
  have hstart : Reaches (shortBuild true) (fun _ _ => True) ⟨{}, [], []⟩ :=
    .start fun o => by cases o <;> rfl
  have hwait := (hstart.step (accept_handOverTo hcall hadmin) trivial).step
    (accept_handOverTo hcall' hadmin) trivial
  have happlied := Reaches.apply_both (o := .permission) hwait hrun hrun'
  exact ⟨_, happlied, hfirst, hsecond, hne,
    (.permission, handOverTo neighbour, namedAdmins [stranger]),
    mem_cons_of_mem _ mem_cons_self, hgenesis⟩

end HandOvers
end GoQlc.Pov
