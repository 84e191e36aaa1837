import GoQlc.Vm.PublicKeyDistribution
import GoQlc.Vm.AbiRead
import GoQlc.Process.Run
import GoQlc.Config.Devnet

/-!
# Registered verifiers

The stored registration of an account says what its latest accepted registration call was: valid
after a register, not valid after an unregister.
-/

namespace GoQlc.PublicKeyDistribution

open Abi Config Calls Result Function List Option VmContext

def registration (crypto : Crypto) (b : StateBlock) : Option (Address × UInt32 × Bool) :=
  match unpackVerifierRegister crypto.hashData b.data with
  | some reg => some (b.address, reg.vType, true)
  | none => (unpackVerifierUnregister crypto.hashData b.data).map fun vType =>
    (b.address, vType, false)

def latest (crypto : Crypto) (account : Address) (vType : UInt32) : List StateBlock → Option Bool
  | [] => none
  | b :: ops =>
    match registration crypto b with
    | some (a, t, r) =>
      if (a, t) = (account, vType) then some r else latest crypto account vType ops
    | none => latest crypto account vType ops

def actsFor (crypto : Crypto) (b : StateBlock) : Option (List UInt32) :=
  match unpackVerifierHeart crypto.hashData b.data with
  | some vTypes => some vTypes
  | none => (unpackOracle crypto.hashData b.data).map fun info => [info.oType]

/-! ### Records -/

theorem verifierKey_injective {t t' : UInt32} {a a' : Address}
    (h : verifierKey t a = verifierKey t' a') : (a, t) = (a', t') := by
  obtain ⟨ht, ha⟩ := append_inj (List.cons.inj h).2 (by simp [Bytes.beBytes_length])
  have hnat := congrArg Bytes.toNat ht
  rw [Bytes.toNat_beBytes, Bytes.toNat_beBytes, Nat.mod_eq_of_lt (t.toNat_lt.trans_le (by simp)),
    Nat.mod_eq_of_lt (t'.toNat_lt.trans_le (by simp))] at hnat
  rw [hashBytes_injective ha, UInt32.toNat_inj.mp hnat]

theorem eq_of_parse_pack {vs vs' : VerifierStorage}
    (hshort : ShortAll verifierInfoInputs (vs.vInfo, vs.vKey, vs.valid, ()))
    (h : parseVerifierStorage vs.pack = some vs') : vs' = vs := by
  obtain ⟨read, hread, rfl⟩ := map_eq_some_iff.mp h
  have hfit : FitAll verifierInfoInputs (vs.vInfo, vs.vKey, vs.valid, ()) :=
    ⟨trivial, fun _ _ => trivial, trivial, trivial⟩
  rw [eq_of_unpackVariable_pack (by decide) (by decide) hfit hshort hread]

variable {data : Bytes}

theorem shortAll_of_parse {vs : VerifierStorage} (h : parseVerifierStorage data = some vs) :
    ShortAll verifierInfoInputs (vs.vInfo, vs.vKey, vs.valid, ()) := by
  obtain ⟨read, hread, rfl⟩ := map_eq_some_iff.mp h
  unfold unpackVariable at hread
  split_ifs at hread
  exact shortAll_of_unpackValues hread

variable {hashData : Bytes → Hash} {ops : List StateBlock}

theorem shortAll_of_unpack {reg : VerifierRegInfo}
    (h : unpackVerifierRegister hashData data = some reg) (valid : Bool) :
    ShortAll verifierInfoInputs (reg.vInfo, reg.vKey, valid, ()) := by
  obtain ⟨read, hread, rfl⟩ := map_eq_some_iff.mp h
  have hshort := shortAll_of_unpackValues (unpackValues_of_unpackMethod hread)
  exact ⟨hshort.2.1, hshort.2.2.1, trivial, trivial⟩

theorem unpackMethod_eq_none {m m' : Method} (hne : m ≠ m')
    (h : (unpackMethod hashData methods m data).isSome) :
    unpackMethod hashData methods m' data = none := by
  obtain ⟨vs, h⟩ := isSome_iff_exists.mp h
  unfold unpackMethod at h ⊢
  split_ifs at h ⊢ with hlen
  cases hfound : methodById hashData methods (data.take 4) with
  | none => rfl
  | some found =>
    simp only [hfound] at h ⊢
    split_ifs at h with hm
    rw [if_neg (by rw [hm]; exact hne)]

/-! ### What one call stores -/

def recordKey (vType : UInt32) (account : Address) : Bytes :=
  hashBytes pubKeyDistributionAddress ++ verifierKey vType account

theorem recordKey_inj {t t' : UInt32} {a a' : Address} :
    recordKey t a = recordKey t' a' ↔ (a, t) = (a', t') :=
  ⟨fun h => verifierKey_injective (append_cancel_left h), fun h => by cases h; rfl⟩

/-- What an accepted call of a verifier changes: a registration call writes the record of the
sender and its type, the other calls write no registration. -/
inductive Stores (crypto : Crypto) (ctx ctx' : VmContext) (b : StateBlock) : Prop
  | record {vType : UInt32} {vs : VerifierStorage}
    (call : registration crypto b = some (b.address, vType, vs.valid))
    (short : ShortAll verifierInfoInputs (vs.vInfo, vs.vKey, vs.valid, ()))
    (area : ctx'.area = update ctx.area (recordKey vType b.address) (some vs.pack)) :
    Stores crypto ctx ctx' b
  | nothing (call : registration crypto b = none)
    (area : ∀ vType account,
      ctx'.area (recordKey vType account) = ctx.area (recordKey vType account)) :
    Stores crypto ctx ctx' b

variable {pending : Option (PendingKey × PendingInfo)} {payload : Bytes} {c : Contract}

section
variable {crypto : Crypto} {sha256 : Bytes → Hash} {verifyEmailFormat : Bytes → Bool}
  {ctx ctx' : VmContext} {b : StateBlock} {data : Bytes}

theorem registration_of_register {reg : VerifierRegInfo}
    (h : unpackVerifierRegister crypto.hashData b.data = some reg) :
    registration crypto b = some (b.address, reg.vType, true) := by
  rw [registration, h]

theorem registration_of_unregister {vType : UInt32}
    (h : unpackVerifierUnregister crypto.hashData b.data = some vType) :
    registration crypto b = some (b.address, vType, false) := by
  have hcall := isSome_map.symm.trans (congrArg Option.isSome h)
  rw [registration, unpackVerifierRegister,
    unpackMethod_eq_none (by decide : verifierUnregisterMethod ≠ _) hcall, h]
  rfl

theorem registration_eq_none {m : Method} (hregister : m ≠ verifierRegisterMethod)
    (hunregister : m ≠ verifierUnregisterMethod)
    (h : (unpackMethod crypto.hashData methods m b.data).isSome) :
    registration crypto b = none := by
  rw [registration, unpackVerifierRegister, unpackMethod_eq_none hregister h,
    unpackVerifierUnregister, unpackMethod_eq_none hunregister h]
  rfl

theorem verifierRegister.stores
    (h : verifierRegister.run crypto verifyEmailFormat ctx b = .ok (data, ctx')) :
    ctx.SameCall ctx' ∧ Stores crypto ctx ctx' b := by
  unfold verifierRegister.run at h
  rw [ite_error_eq_ok] at h
  cases hcall : unpackVerifierRegister crypto.hashData b.data with
  | none => simp [hcall] at h
  | some reg =>
    simp only [hcall, seq_eq_ok, ite_error_eq_ok] at h
    obtain ⟨-, -, -, h⟩ := h
    cases h
    exact ⟨(VmContext.SameCall.refl ctx).setStorage _ _ _,
      .record (registration_of_register hcall) (shortAll_of_unpack hcall true)
        (area_setStorage _ _ _ _)⟩

theorem verifierUnregister.stores (h : verifierUnregister.run crypto ctx b = .ok (data, ctx')) :
    ctx.SameCall ctx' ∧ Stores crypto ctx ctx' b := by
  unfold verifierUnregister.run at h
  rw [ite_error_eq_ok] at h
  cases hcall : unpackVerifierUnregister crypto.hashData b.data with
  | none => simp [hcall] at h
  | some vType =>
    simp only [hcall, ite_error_eq_ok] at h
    obtain ⟨-, -, h⟩ := h
    match hget : getVerifierInfoByAccountAndType ctx b.address vType with
    | .error _ | .ok none => simp [hget] at h
    | .ok (some vs) =>
      simp only [hget] at h
      cases h
      refine ⟨(VmContext.SameCall.refl ctx).setStorage _ _ _,
        .record (registration_of_unregister hcall) ?_ (area_setStorage _ _ _ _)⟩
      unfold getVerifierInfoByAccountAndType at hget
      cases hval : ctx.getStorage (hashBytes pubKeyDistributionAddress)
          (verifierKey vType b.address) with
      | none => simp [hval] at hget
      | some val =>
        cases hparse : parseVerifierStorage val with
        | none => simp [hval, hparse] at hget
        | some read =>
          have hshort := shortAll_of_parse hparse
          simp only [hval, hparse, Except.ok.injEq, ite_none_right_eq_some,
            Option.some.injEq] at hget
          obtain ⟨-, rfl⟩ := hget
          exact ⟨hshort.1, hshort.2.1, trivial, trivial⟩

theorem verifierHeart.stores (h : verifierHeart.run crypto ctx b = .ok (data, ctx')) :
    ctx.SameCall ctx' ∧ Stores crypto ctx ctx' b := by
  unfold verifierHeart.run at h
  rw [ite_error_eq_ok] at h
  cases hcall : unpackVerifierHeart crypto.hashData b.data with
  | none => simp [hcall] at h
  | some vTypes =>
    simp only [hcall, seq_eq_ok] at h
    obtain ⟨-, -, -, h⟩ := h
    cases h
    have hmethod := isSome_map.symm.trans (congrArg Option.isSome hcall)
    exact ⟨.refl ctx, .nothing
      (registration_eq_none (by decide) (by decide) hmethod) fun _ _ => rfl⟩

theorem oracle.stores (h : oracle.run crypto sha256 ctx b = .ok (data, ctx')) :
    ctx.SameCall ctx' ∧ Stores crypto ctx ctx' b := by
  unfold oracle.run at h
  rw [ite_error_eq_ok] at h
  cases hcall : unpackOracle crypto.hashData b.data with
  | none => simp [hcall] at h
  | some info =>
    simp only [hcall, seq_eq_ok] at h
    obtain ⟨-, -, -, -, h⟩ := h
    cases h
    have hmethod := isSome_map.symm.trans (congrArg Option.isSome hcall)
    refine ⟨(VmContext.SameCall.refl ctx).setStorage _ _ _,
      .nothing (registration_eq_none (by decide) (by decide) hmethod) fun vType account => ?_⟩
    rw [area_setStorage, update_of_ne]
    -- the two kinds of records differ in the byte behind the address
    intro heq
    exact absurd (List.cons.inj (append_cancel_left heq)).1 (by decide)

theorem sendOutcome_eq_ok {r : Except ContractError (Bytes × VmContext)}
    (h : (sendOutcome b r).result = .ok (pending, ctx')) : ∃ data, r = .ok (data, ctx') := by
  cases r with
  | error e => cases h
  | ok r =>
    obtain ⟨data, ctx''⟩ := r
    cases h
    exact ⟨data, rfl⟩

theorem verifierContract_cases
    (h : verifierContract crypto sha256 verifyEmailFormat payload = some c) :
    c = verifierRegister crypto verifyEmailFormat ∨ c = verifierUnregister crypto ∨
      c = verifierHeart crypto ∨ c = oracle crypto sha256 := by
  unfold verifierContract at h
  cases hm : methodById crypto.hashData methods payload with
  | none => simp [hm] at h
  | some m =>
    simp only [hm] at h
    split_ifs at h <;> cases h <;> simp

theorem stores_of_processSend
    (hc : verifierContract crypto sha256 verifyEmailFormat payload = some c)
    (h : (c.processSend ctx b).result = .ok (pending, ctx')) :
    ctx.SameCall ctx' ∧ Stores crypto ctx ctx' b := by
  rcases verifierContract_cases hc with rfl | rfl | rfl | rfl <;>
    obtain ⟨data, hrun⟩ := sendOutcome_eq_ok h
  · exact verifierRegister.stores hrun
  · exact verifierUnregister.stores hrun
  · exact verifierHeart.stores hrun
  · exact oracle.stores hrun

end

/-! ### Runs -/

def Recorded (crypto : Crypto) (account : Address) (vType : UInt32) (ops : List StateBlock)
    (area : Bytes → Option Bytes) : Prop :=
  match latest crypto account vType ops with
  | none => area (recordKey vType account) = none
  | some registered => ∃ val, area (recordKey vType account) = some val ∧
    ∀ vs, parseVerifierStorage val = some vs → vs.valid = registered

variable {ctx : VmContext}

theorem Recorded.step {crypto : Crypto} {account : Address} {vType : UInt32} {ctx' : VmContext}
    {b : StateBlock} (h : Recorded crypto account vType ops ctx.area)
    (hb : Stores crypto ctx ctx' b) : Recorded crypto account vType (b :: ops) ctx'.area := by
  cases hb with
  | nothing hcall harea =>
    rw [Recorded, latest, hcall, harea]
    exact h
  | @record t vs hcall hshort harea =>
    rw [Recorded, latest, hcall, harea]
    by_cases hsame : (b.address, t) = (account, vType)
    · simp only [if_pos hsame, recordKey_inj.mpr hsame.symm, update_self]
      exact ⟨vs.pack, rfl, fun vs' hread => by rw [eq_of_parse_pack hshort hread]⟩
    · simp only [if_neg hsame, update_of_ne fun heq => hsame (recordKey_inj.mp heq).symm]
      exact h

section
variable {crypto : Crypto} {sha256 : Bytes → Hash} {verifyEmailFormat : Bytes → Bool}
  {start s s' : Calls.Node} {ops : List StateBlock} {b : StateBlock}

theorem recorded_of_run
    (hrun : Run (verifierContract crypto sha256 verifyEmailFormat) pubKeyDistributionAddress
      start ops s)
    (hstart : ∀ account vType,
      start.ledger.area pubKeyDistributionAddress (recordKey vType account) = none)
    (account : Address) (vType : UInt32) :
    Recorded crypto account vType ops (s.ledger.area pubKeyDistributionAddress) := by
  apply hrun.invariant (P := Recorded crypto account vType)
  · exact hstart account vType
  · intro ops s block c ctx pending ctx' _ hops hcalls hres
    obtain ⟨hsame, hstores⟩ := stores_of_processSend hcalls.contract hres
    exact ⟨hsame, hops.step hstores⟩

variable {vTypes : List UInt32}

theorem exists_of_getVerifierCheck {account : Address}
    (h : getVerifierCheck ctx account vTypes = .ok ()) {t : UInt32} (ht : t ∈ vTypes) :
    ∃ val vs, ctx.area (recordKey t account) = some val ∧ parseVerifierStorage val = some vs := by
  induction vTypes with
  | nil => exact absurd ht not_mem_nil
  | cons u vTypes ih =>
    unfold getVerifierCheck at h ih
    rw [List.forM, seq_eq_ok] at h
    rcases mem_cons.mp ht with rfl | ht
    · cases hval : ctx.getStorage (hashBytes pubKeyDistributionAddress) (verifierKey t account) with
      | none => simp [getVerifierInfoByAccountAndType, hval] at h
      | some val =>
        cases hparse : parseVerifierStorage val with
        | none => simp [getVerifierInfoByAccountAndType, hval, hparse] at h
        | some vs => exact ⟨val, vs, hval, hparse⟩
    · exact ih h.2 ht

theorem getVerifierCheck_of_processSend {ctx' : VmContext}
    (hc : verifierContract crypto sha256 verifyEmailFormat payload = some c)
    (hres : (c.processSend ctx b).result = .ok (pending, ctx')) (hsync : b.isFromSync = false)
    (hacts : actsFor crypto b = some vTypes) : getVerifierCheck ctx b.address vTypes = .ok () := by
  have hnone {m : Method} (hm : (unpackMethod crypto.hashData methods m b.data).isSome)
      (hheart : m ≠ verifierHeartMethod) (horacle : m ≠ oracleMethod) :
      actsFor crypto b = none := by
    rw [actsFor, unpackVerifierHeart, unpackMethod_eq_none hheart hm, unpackOracle,
      unpackMethod_eq_none horacle hm]
    rfl
  have hcheck {ts : List UInt32} (h : verifierCheck ctx b ts = .ok ()) :
      getVerifierCheck ctx b.address ts = .ok () := by
    rw [verifierCheck, hsync, if_neg (by decide), seq_eq_ok] at h
    exact h.2
  rcases verifierContract_cases hc with rfl | rfl | rfl | rfl <;>
    obtain ⟨data, hrun⟩ := sendOutcome_eq_ok hres
  · unfold verifierRegister.run at hrun
    rw [ite_error_eq_ok] at hrun
    cases hcall : unpackVerifierRegister crypto.hashData b.data with
    | none => simp [hcall] at hrun
    | some reg =>
      have hmethod := isSome_map.symm.trans (congrArg Option.isSome hcall)
      rw [hnone hmethod (by decide) (by decide)] at hacts
      cases hacts
  · unfold verifierUnregister.run at hrun
    rw [ite_error_eq_ok] at hrun
    cases hcall : unpackVerifierUnregister crypto.hashData b.data with
    | none => simp [hcall] at hrun
    | some vType =>
      have hmethod := isSome_map.symm.trans (congrArg Option.isSome hcall)
      rw [hnone hmethod (by decide) (by decide)] at hacts
      cases hacts
  · unfold verifierHeart.run at hrun
    rw [ite_error_eq_ok] at hrun
    cases hcall : unpackVerifierHeart crypto.hashData b.data with
    | none => simp [hcall] at hrun
    | some ts =>
      simp only [hcall, seq_eq_ok] at hrun
      rw [actsFor, hcall] at hacts
      cases hacts
      exact hcheck hrun.2.1
  · unfold oracle.run at hrun
    rw [ite_error_eq_ok] at hrun
    cases hcall : unpackOracle crypto.hashData b.data with
    | none => simp [hcall] at hrun
    | some info =>
      simp only [hcall, seq_eq_ok] at hrun
      have hmethod := isSome_map.symm.trans (congrArg Option.isSome hcall)
      rw [actsFor, unpackVerifierHeart,
        unpackMethod_eq_none (by decide : oracleMethod ≠ _) hmethod, hcall] at hacts
      cases hacts
      exact hcheck hrun.2.1

/-- An accepted heartbeat or oracle call is one of an account whose latest registration call for
each of its types is a register, exactly when a valid registration is stored for each of them. -/
theorem acts_as_registered_iff
    (hrun : Run (verifierContract crypto sha256 verifyEmailFormat) pubKeyDistributionAddress
      start ops s)
    (hstart : ∀ account vType,
      start.ledger.area pubKeyDistributionAddress (recordKey vType account) = none)
    (hsend : s.send (verifierContract crypto sha256 verifyEmailFormat) pubKeyDistributionAddress b =
      some s')
    (hsync : b.isFromSync = false) {vTypes : List UInt32} (hacts : actsFor crypto b = some vTypes)
    {ctx : VmContext} (hctx : newVMContextWithBlock s.view s.ledger b = some ctx) :
    (∀ t ∈ vTypes, latest crypto b.address t ops = some true) ↔
      ∀ t ∈ vTypes, checkVerifierExist ctx b.address t = true := by
  obtain ⟨c, ctx₀, pending, ctx', hcalls, hres, -⟩ := Calls.Node.send_eq_some hsend
  obtain rfl : ctx₀ = ctx := Option.some.inj (hcalls.context.symm.trans hctx)
  have hcheck := getVerifierCheck_of_processSend hcalls.contract hres hsync hacts
  refine forall₂_congr fun t ht => ?_
  obtain ⟨val, vs, hval, hparse⟩ := exists_of_getVerifierCheck hcheck ht
  have hrecorded := recorded_of_run hrun hstart b.address t
  have hexist : checkVerifierExist ctx₀ b.address t = vs.valid := by
    rw [checkVerifierExist, getStorage_eq_area]
    simp only [show ctx₀.area (hashBytes pubKeyDistributionAddress ++ verifierKey t b.address) =
      some val from hval, hparse]
  rw [← hcalls.area, Recorded, hval] at hrecorded
  cases hlatest : latest crypto b.address t ops with
  | none => simp [hlatest] at hrecorded
  | some registered =>
    simp only [hlatest, Option.some.injEq, exists_eq_left'] at hrecorded
    rw [hexist, hrecorded vs hparse, Option.some.injEq]

end

/-! ### A verifier that has unregistered -/

def verifierNode : Calls.Node where
  ledger := {}
  view :=
    { Devnet.view with
      accountCache := fun address =>
        some { address, coinOracle := some minVerifierPledgeAmount }
      blockCache := fun _ =>
        some
          { type := .send, token := gasToken, address := Devnet.stranger, balance := oracleCost
            previous := 0, link := 0, representative := Devnet.stranger } }

def verifierMethods : Bytes → Option Contract :=
  verifierContract Devnet.env.toCrypto Devnet.hashData fun _ => true

def verifierBlock (token : Hash) (data : Bytes) : StateBlock where
  type := .contractSend
  token := token
  address := Devnet.stranger
  balance := 0
  previous := 1
  link := pubKeyDistributionAddress
  data := data
  representative := Devnet.stranger

def registerBlock : StateBlock :=
  verifierBlock chainToken
    (packMethod Devnet.hashData verifierRegisterMethod
      ((0 : UInt32), asciiBytes "a@b.c", ([1, 2] : Bytes), ()))

def unregisterBlock : StateBlock :=
  verifierBlock chainToken (packMethod Devnet.hashData verifierUnregisterMethod ((0 : UInt32), ()))

def heartBlock : StateBlock :=
  verifierBlock gasToken (packMethod Devnet.hashData verifierHeartMethod (([0] : List UInt32), ()))

def verifierNodeAfter (ops : List StateBlock) : Calls.Node :=
  (verifierNode.sends verifierMethods pubKeyDistributionAddress ops).getD verifierNode

theorem run_verifierNodeAfter
    (h : (verifierNode.sends verifierMethods pubKeyDistributionAddress ops).isSome) :
    Run verifierMethods pubKeyDistributionAddress verifierNode ops (verifierNodeAfter ops) := by
  apply run_of_sends
  obtain ⟨s, hs⟩ := isSome_iff_exists.mp h
  rw [verifierNodeAfter, hs, getD_some]

theorem acts_as_registered_after_register :
    ∃ ctx, newVMContextWithBlock (verifierNodeAfter [registerBlock]).view
        (verifierNodeAfter [registerBlock]).ledger heartBlock = some ctx ∧
      ((∀ t ∈ [(0 : UInt32)],
          latest Devnet.env.toCrypto heartBlock.address t [registerBlock] = some true) ↔
        ∀ t ∈ [(0 : UInt32)], checkVerifierExist ctx heartBlock.address t = true) := by
  obtain ⟨ctx, hctx⟩ := isSome_iff_exists.mp (show (newVMContextWithBlock
    (verifierNodeAfter [registerBlock]).view (verifierNodeAfter [registerBlock]).ledger
    heartBlock).isSome by decide +kernel)
  obtain ⟨s', hsend⟩ := isSome_iff_exists.mp (show
    ((verifierNodeAfter [registerBlock]).send verifierMethods pubKeyDistributionAddress
      heartBlock).isSome by decide +kernel)
  exact ⟨ctx, hctx, acts_as_registered_iff (run_verifierNodeAfter (by decide +kernel))
    (fun _ _ => rfl) hsend (by decide +kernel) (by decide +kernel) hctx⟩

/-- The heartbeat of an account whose latest registration call is an unregister is accepted. -/
theorem heartbeat_after_unregister :
    Run verifierMethods pubKeyDistributionAddress verifierNode [unregisterBlock, registerBlock]
      (verifierNodeAfter [unregisterBlock, registerBlock]) ∧
    ((verifierNodeAfter [unregisterBlock, registerBlock]).send verifierMethods
      pubKeyDistributionAddress heartBlock).isSome ∧
    heartBlock.isFromSync = false ∧ actsFor Devnet.env.toCrypto heartBlock = some [0] ∧
    latest Devnet.env.toCrypto heartBlock.address 0 [unregisterBlock, registerBlock] =
      some false := by
  refine ⟨run_verifierNodeAfter ?_, ?_, ?_, ?_, ?_⟩ <;> decide +kernel

end GoQlc.PublicKeyDistribution
