import GoQlc.Settlement.Contract
import GoQlc.Config.Devnet

/-!
# The life cycle of a settlement contract

An accepted call changes at most one contract: it creates it, signs it, terminates it or changes its
stops.
-/

namespace GoQlc.Settlement

open Result Config ContractParam Devnet List Option Table

/-! ### What one call changes -/

inductive Terminates (operator : Terminator) (cp cp' : ContractParam) : Prop
  | close (waiting : cp.status = .activeStage1) (party : cp.partyA.address = operator.address)
    (result : cp' = { cp with status := .destroyed }) : Terminates operator cp cp'
  | reject (waiting : cp.status = .activeStage1) (party : cp.partyB.address = operator.address)
    (result : cp' = { cp with status := .rejected }) : Terminates operator cp cp'
  | request (active : cp.status = .activated) (party : cp.isContractor operator.address = true)
    (asked : operator.request = true)
    (result : cp' = { cp with terminator := some operator, status := .destroyStage1 }) :
    Terminates operator cp cp'
  | resume (asked : cp.status = .destroyStage1) (withdrawn : operator.request = false)
    (result : cp' = { cp with status := .activated, terminator := none }) :
    Terminates operator cp cp'
  | confirm {terminator : Terminator} (asked : cp.status = .destroyStage1)
    (by_ : cp.terminator = some terminator) (other : operator.address ≠ terminator.address)
    (party : cp.isContractor operator.address = true) (agreed : operator.request = true)
    (result : cp' = { cp with status := .destroyed }) : Terminates operator cp cp'
  | idle {terminator : Terminator} (by_ : cp.terminator = some terminator)
    (cancelled : terminator.request = false) (result : cp' = cp) : Terminates operator cp cp'

theorem terminates_of_doTerminate {operator : Terminator} {cp cp' : ContractParam}
    (h : cp.doTerminate operator = .ok cp') : Terminates operator cp cp' := by
  unfold doTerminate at h
  simp only [ite_error_eq_ok] at h
  obtain ⟨-, hparty, h⟩ := h
  replace hparty : cp.isContractor operator.address = true := by simpa using hparty
  cases hby : cp.terminator with
  | some terminator =>
    simp only [hby, ite_error_eq_ok] at h
    obtain ⟨hother, h⟩ := h
    by_cases hstatus : cp.status = .destroyStage1
    · rw [if_pos hstatus] at h
      by_cases hself : operator.address = terminator.address
      · rw [if_pos hself] at h
        split_ifs at h with hrequest
        · exact .resume hstatus (by simpa using hrequest) (Except.ok.inj h).symm
        · refine .idle hby ?_ (Except.ok.inj h).symm
          by_contra hasked
          apply hother
          obtain ⟨address, request⟩ := operator
          obtain ⟨address', request'⟩ := terminator
          simp_all
      · rw [if_neg hself] at h
        split_ifs at h with hrequest
        · exact .confirm hstatus hby hself hparty hrequest (hby ▸ (Except.ok.inj h).symm)
        · exact .resume hstatus (by simpa using hrequest) (Except.ok.inj h).symm
    · rw [if_neg hstatus] at h
      cases h
  | none =>
    simp only [hby, ite_error_eq_ok] at h
    obtain ⟨hrequest, h⟩ := h
    replace hrequest : operator.request = true := by simpa using hrequest
    cases hstatus : cp.status with
    | activeStage1 =>
      simp only [hstatus] at h
      by_cases hA : cp.partyA.address = operator.address
      · rw [if_pos hA] at h
        exact .close hstatus hA (hby ▸ (Except.ok.inj h).symm)
      · rw [if_neg hA] at h
        have hB : cp.partyB.address = operator.address := by
          simpa [isContractor, hA] using hparty
        exact .reject hstatus hB (hby ▸ (Except.ok.inj h).symm)
    | activated =>
      simp only [hstatus] at h
      exact .request hstatus hparty hrequest (Except.ok.inj h).symm
    | destroyStage1 | destroyed | rejected => simp [hstatus] at h

/-- Some stops are kept, and at most one is added that no live contract of the party has. -/
structure Restops (st : Store) (side : Side) (party : Address) (before after : List Bytes) :
    Prop where
  split : ∃ kept added, after = kept ++ added ∧ kept.Sublist before ∧ added.length ≤ 1 ∧
    ∀ name ∈ added, name ∉ side.names st party ∧ name ∉ kept

inductive Change (st : Store) (block : StateBlock) (call : Call) (a : Address)
    (cp cp' : ContractParam) : Prop
  | sign {param : SignContractParam} (called : call = .signContract param)
    (address : param.contractAddress = a) (waiting : cp.status = .activeStage1)
    (party : block.address = cp.partyB.address)
    (result : cp' = { cp with status := .activated, confirmDate := param.confirmDate }) :
    Change st block call a cp cp'
  | terminate {param : TerminateParam} (called : call = .terminateContract param)
    (address : param.contractAddress = a)
    (step : Terminates { address := block.address, request := param.request } cp cp') :
    Change st block call a cp cp'
  | stops {side : Side} {stops : List Bytes} (other : ∀ param, call ≠ .terminateContract param)
    (party : block.address = side.party cp)
    (step : Restops st side block.address (side.stops cp) stops)
    (result : cp' = side.setStops cp stops) : Change st block call a cp cp'

inductive Effect (hashData : Bytes → Hash) (st st' : Store) (block : StateBlock) (call : Call) :
    Prop
  | kept (other : ∀ param, call ≠ .terminateContract param)
    (contracts : st'.contracts = st.contracts) : Effect hashData st st' block call
  | created {param : CreateContractParam} {a : Address} (called : call = .createContract param)
    (address : param.address hashData = .ok a) (absent : st.contracts.get a = none)
    (contracts : st'.contracts = st.contracts.put a param.toContractParam) :
    Effect hashData st st' block call
  | changed {a : Address} {cp cp' : ContractParam} (stored : st.contracts.get a = some cp)
    (change : Change st block call a cp cp') (contracts : st'.contracts = st.contracts.put a cp') :
    Effect hashData st st' block call

variable {st : Store} {calls : List (StateBlock × Call)}

theorem getContractParam_eq_ok {a : Address} {cp : ContractParam}
    (h : st.getContractParam a = .ok cp) : st.contracts.get a = some cp := by
  unfold Store.getContractParam at h
  cases hget : st.contracts.get a with
  | none => simp [hget] at h
  | some found =>
    simp only [hget] at h
    cases h
    rfl

theorem doActive_eq_ok {cp cp' : ContractParam} {operator : Address}
    (h : cp.doActive operator = .ok cp') :
    operator = cp.partyB.address ∧ cp.status = .activeStage1 ∧
      cp' = { cp with status := .activated } := by
  unfold doActive at h
  rw [ite_error_eq_ok, not_not] at h
  obtain ⟨hparty, h⟩ := h
  cases hstatus : cp.status with
  | activeStage1 =>
    simp only [hstatus] at h
    exact ⟨hparty.symm, rfl, (Except.ok.inj h).symm⟩
  | activated | destroyStage1 | destroyed | rejected => simp [hstatus] at h

section
variable {hashData : Bytes → Hash} {amount : Option ℕ} {st st' : Store} {block : StateBlock}

theorem createContract_eq_ok {param : CreateContractParam}
    (h : createContract hashData amount st block param = .ok st') :
    ∃ a, param.address hashData = .ok a ∧
      ((st.contracts.get a).isSome ∧ st' = st ∨
        st.contracts.get a = none ∧ st' = st.saveContractParam a param.toContractParam) := by
  unfold createContract at h
  rw [ite_error_eq_ok, seq_eq_ok] at h
  obtain ⟨-, -, h⟩ := h
  cases amount with
  | none => cases h
  | some amount =>
    simp only [ite_error_eq_ok] at h
    obtain ⟨a, ha, h⟩ := bind_eq_ok.mp h.2
    refine ⟨a, ha, ?_⟩
    cases hget : st.contracts.get a with
    | none =>
      simp only [hget] at h
      exact .inr ⟨rfl, (Except.ok.inj h).symm⟩
    | some param2 =>
      simp only [hget] at h
      obtain ⟨saved, -, h⟩ := bind_eq_ok.mp h
      rw [ite_error_eq_ok] at h
      exact .inl ⟨rfl, (Except.ok.inj h.2).symm⟩

theorem signContract_eq_ok {param : SignContractParam}
    (h : signContract st block param = .ok st') :
    ∃ cp, st.contracts.get param.contractAddress = some cp ∧ cp.status = .activeStage1 ∧
      block.address = cp.partyB.address ∧ st' = st.saveContractParam param.contractAddress
        { cp with status := .activated, confirmDate := param.confirmDate } := by
  unfold signContract at h
  simp only [ite_error_eq_ok] at h
  obtain ⟨-, -, h⟩ := h
  obtain ⟨cp, hcp, h⟩ := bind_eq_ok.mp h
  obtain ⟨cp', hactive, h⟩ := bind_eq_ok.mp h
  obtain ⟨hparty, hstatus, rfl⟩ := doActive_eq_ok hactive
  exact ⟨cp, getContractParam_eq_ok hcp, hstatus, hparty, (Except.ok.inj h).symm⟩

theorem terminateContract_eq_ok {param : TerminateParam}
    (h : terminateContract st block param = .ok st') :
    ∃ cp cp', st.contracts.get param.contractAddress = some cp ∧
      Terminates { address := block.address, request := param.request } cp cp' ∧
      st' = st.saveContractParam param.contractAddress cp' := by
  unfold terminateContract at h
  rw [ite_error_eq_ok] at h
  obtain ⟨cp, hcp, h⟩ := bind_eq_ok.mp h.2
  obtain ⟨cp', hterminate, h⟩ := bind_eq_ok.mp h
  exact ⟨cp, cp', getContractParam_eq_ok hcp, terminates_of_doTerminate hterminate,
    (Except.ok.inj h).symm⟩

variable {side : Side} {ca : Address} {contract : ContractParam} {name : Bytes}

theorem handleSend_eq_ok {a : Address} {process : List Bytes → Except SettlementError (List Bytes)}
    (h : handleSend st block side a process = .ok st') :
    ∃ cp stops, st.contracts.get a = some cp ∧ block.address = side.party cp ∧
      process (side.stops cp) = .ok stops ∧
      st' = st.saveContractParam a (side.setStops cp stops) := by
  unfold handleSend at h
  rw [ite_error_eq_ok] at h
  obtain ⟨cp, hcp, h⟩ := bind_eq_ok.mp h.2
  rw [ite_error_eq_ok, not_not] at h
  obtain ⟨hparty, h⟩ := h
  obtain ⟨stops, hstops, h⟩ := bind_eq_ok.mp h
  exact ⟨cp, stops, getContractParam_eq_ok hcp, hparty.symm, hstops, (Except.ok.inj h).symm⟩

theorem saveCDR_contracts {param : CDRParam}
    (h : saveCDR hashData block ca contract st param = .ok st') :
    st'.contracts = st.contracts ∧ contract.isContractor block.address = true := by
  unfold saveCDR at h
  rw [seq_eq_ok] at h
  simp only [ite_error_eq_ok] at h
  obtain ⟨-, -, hparty, h⟩ := h
  obtain ⟨status, -, h⟩ := bind_eq_ok.mp h
  cases h
  exact ⟨rfl, by simpa using hparty⟩

theorem foldlM_saveCDR_contracts {params : List CDRParam}
    (h : params.foldlM (saveCDR hashData block ca contract) st = .ok st') :
    st'.contracts = st.contracts := by
  induction params generalizing st with
  | nil =>
    cases h
    rfl
  | cons param params ih =>
    rw [foldlM_cons] at h
    obtain ⟨st₁, hsave, h⟩ := bind_eq_ok.mp h
    rw [ih h, (saveCDR_contracts hsave).1]

theorem processCDR_eq_ok {paramList : CDRParamList}
    (h : processCDR hashData st block paramList = .ok st') :
    st'.contracts = st.contracts ∧ ∃ contract,
      st.contracts.get paramList.contractAddress = some contract ∧
      contract.isContractor block.address = true := by
  unfold processCDR at h
  rw [seq_eq_ok] at h
  obtain ⟨hverify, h⟩ := h
  obtain ⟨contract, hcontract, h⟩ := bind_eq_ok.mp h
  rw [ite_error_eq_ok] at h
  refine ⟨foldlM_saveCDR_contracts h.2, contract, getContractParam_eq_ok hcontract, ?_⟩
  -- there is a first record, and saving it checks the sender
  unfold CDRParamList.verify at hverify
  rw [ite_error_eq_ok] at hverify
  cases hparams : paramList.params with
  | nil => simp [hparams] at hverify
  | cons param params =>
    rw [hparams, foldlM_cons] at h
    obtain ⟨st₁, hsave, -⟩ := bind_eq_ok.mp h.2
    exact (saveCDR_contracts hsave).2

theorem add_eq_ok {s s' : List Bytes} (h : add s name = .ok s') : name ∉ s ∧ s' = s ++ [name] := by
  unfold add at h
  rw [ite_error_eq_ok] at h
  exact ⟨by simpa using h.1, (Except.ok.inj h.2).symm⟩

theorem remove_eq_ok {s s' : List Bytes} (h : remove s name = .ok s') : s'.Sublist s := by
  unfold remove at h
  rw [ite_ok_eq_ok] at h
  rw [← h.2]
  exact erase_sublist

theorem restops_of_add {party : Address} {before kept after : List Bytes}
    (hkept : kept.Sublist before) (hfree : ¬ (side.names st party).contains name = true)
    (h : add kept name = .ok after) : Restops st side party before after := by
  obtain ⟨hnew, rfl⟩ := add_eq_ok h
  refine ⟨kept, [name], rfl, hkept, le_refl _, fun n hn => ?_⟩
  rw [mem_singleton.mp hn]
  exact ⟨by simpa using hfree, hnew⟩

theorem effect_of_processSend {call : Call}
    (h : processSend hashData amount st block call = .ok st') :
    Effect hashData st st' block call := by
  have hstops {side : Side} {a : Address}
      {process : List Bytes → Except SettlementError (List Bytes)}
      (h : handleSend st block side a process = .ok st')
      (hother : ∀ param, call ≠ .terminateContract param)
      (hprocess : ∀ before after, process before = .ok after →
        Restops st side block.address before after) : Effect hashData st st' block call := by
    obtain ⟨cp, stops, hget, hparty, hstops, rfl⟩ := handleSend_eq_ok h
    exact .changed hget (.stops hother hparty (hprocess _ _ hstops) rfl) rfl
  cases call with
  | createContract param =>
    obtain ⟨a, ha, ⟨-, rfl⟩ | ⟨hget, rfl⟩⟩ := createContract_eq_ok h
    · exact .kept nofun rfl
    · exact .created rfl ha hget rfl
  | signContract param =>
    obtain ⟨cp, hget, hstatus, hparty, rfl⟩ := signContract_eq_ok h
    exact .changed hget (.sign rfl rfl hstatus hparty rfl) rfl
  | terminateContract param =>
    obtain ⟨cp, cp', hget, hstep, rfl⟩ := terminateContract_eq_ok h
    exact .changed hget (.terminate rfl rfl hstep) rfl
  | processCDR param => exact .kept nofun (processCDR_eq_ok h).1
  | addStop side param =>
    unfold processSend addStop at h
    refine hstops h nofun fun before after hadd => ?_
    rw [ite_error_eq_ok] at hadd
    exact restops_of_add (List.Sublist.refl before) hadd.1 hadd.2
  | removeStop side param =>
    unfold processSend removeStop at h
    refine hstops h nofun fun before after hremove => ?_
    exact ⟨after, [], by simp, remove_eq_ok hremove, by simp, by simp⟩
  | updateStop side param =>
    unfold processSend updateStop at h
    refine hstops h nofun fun before after hupdate => ?_
    rw [ite_error_eq_ok] at hupdate
    obtain ⟨kept, hremove, hadd⟩ := bind_eq_ok.mp hupdate.2
    exact restops_of_add (remove_eq_ok hremove) hupdate.1 hadd

end

/-! ### Runs -/

structure Entry where
  before : Store
  block : StateBlock
  call : Call

inductive Run (hashData : Bytes → Hash) : List Entry → Store → Prop
  | start : Run hashData [] {}
  | send {ops : List Entry} {st st' : Store} {amount : Option ℕ} {block : StateBlock}
    {call : Call} : Run hashData ops st → processSend hashData amount st block call = .ok st' →
    Run hashData (⟨st, block, call⟩ :: ops) st'

def Store.status (st : Store) (a : Address) : Option ContractStatus :=
  (st.contracts.get a).map ContractParam.status

def lastTermination (a : Address) : List Entry → Option Terminator
  | [] => none
  | e :: ops =>
    match e.call with
    | .terminateContract param =>
      if param.contractAddress = a then some { address := e.block.address, request := param.request }
      else lastTermination a ops
    | _ => lastTermination a ops

/-- What may be said of the accepted call `call` of `block` after `ops`, for the contract at
`a`. -/
structure Decides (ops : List Entry) (st st' : Store) (block : StateBlock) (call : Call)
    (a : Address) : Prop where
  firstActivated : (∀ e ∈ ops, e.before.status a ≠ some .activated) →
    st.status a ≠ some .activated → st'.status a = some .activated →
    ∃ cp param, st.contracts.get a = some cp ∧ cp.status = .activeStage1 ∧
      call = .signContract param ∧ param.contractAddress = a ∧ block.address = cp.partyB.address
  destroyed : st.status a ≠ some .destroyed → st'.status a = some .destroyed →
    ∃ cp param, st.contracts.get a = some cp ∧ call = .terminateContract param ∧
      param.contractAddress = a ∧
      (cp.status = .activeStage1 ∧ block.address = cp.partyA.address ∨
        cp.status = .destroyStage1 ∧ cp.isContractor block.address = true ∧
        param.request = true ∧ ∃ first, lastTermination a ops = some first ∧
          first.request = true ∧ cp.isContractor first.address = true ∧
          first.address ≠ block.address)
  rejected : st.status a ≠ some .rejected → st'.status a = some .rejected →
    ∃ cp param, st.contracts.get a = some cp ∧ cp.status = .activeStage1 ∧
      call = .terminateContract param ∧ param.contractAddress = a ∧
      block.address = cp.partyB.address
  final : st.status a = some .destroyed ∨ st.status a = some .rejected →
    st'.status a = st.status a

/-- A contract with a termination request carries the latest termination call, and was activated
when it was asked. -/
def Asked (a : Address) (ops : List Entry) (st : Store) : Prop :=
  ∀ cp, st.contracts.get a = some cp → cp.status = .destroyStage1 →
    ∃ first, cp.terminator = some first ∧ first.request = true ∧
      cp.isContractor first.address = true ∧ lastTermination a ops = some first ∧
      ∃ e ∈ ops, e.before.status a = some .activated

section
variable {hashData : Bytes → Hash} {st st' : Store} {block : StateBlock} {call : Call}
  {ops : List Entry} {a : Address}

theorem lastTermination_of_other (h : ∀ param, call ≠ .terminateContract param) :
    lastTermination a (⟨st, block, call⟩ :: ops) = lastTermination a ops := by
  cases call with
  | terminateContract param => exact absurd rfl (h param)
  | createContract | signContract | processCDR | addStop | removeStop | updateStop => rfl

theorem lastTermination_of_terminate {param : TerminateParam} :
    lastTermination a (⟨st, block, .terminateContract param⟩ :: ops) =
      if param.contractAddress = a then some { address := block.address, request := param.request }
      else lastTermination a ops := rfl

theorem Asked.of_kept (h : Asked a ops st) {e : Entry}
    (hget : st'.contracts.get a = st.contracts.get a)
    (hlast : lastTermination a (e :: ops) = lastTermination a ops) : Asked a (e :: ops) st' := by
  intro cp hcp hstatus
  obtain ⟨first, hby, hrequest, hparty, hterm, e', he', hactive⟩ := h cp (hget ▸ hcp) hstatus
  exact ⟨first, hby, hrequest, hparty, hlast ▸ hterm, e', mem_cons_of_mem _ he', hactive⟩

theorem Asked.step (h : Asked a ops st) (hb : Effect hashData st st' block call) :
    Asked a (⟨st, block, call⟩ :: ops) st' := by
  cases hb with
  | kept hother hcontracts =>
    exact h.of_kept (by rw [hcontracts]) (lastTermination_of_other hother)
  | @created param a' hcall haddress habsent hcontracts =>
    by_cases ha : a = a'
    · subst ha
      intro cp hcp hstatus
      rw [hcontracts, get_put_self] at hcp
      cases hcp
      cases hstatus
    · exact h.of_kept (by rw [hcontracts, get_put_of_ne _ ha])
        (lastTermination_of_other (by simp [hcall]))
  | @changed a' cp cp' hget hchange hcontracts =>
    by_cases ha : a = a'
    · subst ha
      intro cp₁ hcp₁ hstatus
      rw [hcontracts, get_put_self] at hcp₁
      cases hcp₁
      cases hchange with
      | sign hcall haddress hwaiting hparty hresult =>
        rw [hresult] at hstatus
        cases hstatus
      | @terminate param hcall haddress hstep =>
        subst hcall
        cases hstep with
        | close hwaiting hparty hresult | reject hwaiting hparty hresult
        | resume hasked hwithdrawn hresult | confirm hasked hby hother hparty hagreed hresult =>
          rw [hresult] at hstatus
          cases hstatus
        | request hactive hparty hasked hresult =>
          refine ⟨_, by rw [hresult], hasked, by rw [hresult]; exact hparty, ?_,
            ⟨st, block, _⟩, mem_cons_self, ?_⟩
          · rw [lastTermination_of_terminate, if_pos haddress]
          · rw [Store.status, hget, map_some, hactive]
        | idle hby hcancelled hresult =>
          rw [hresult] at hstatus
          obtain ⟨first, hby', hrequest, -⟩ := h cp hget hstatus
          rw [hby] at hby'
          cases hby'
          rw [hcancelled] at hrequest
          cases hrequest
      | @stops side stops hother hparty hstep hresult =>
        have hkeep : cp'.status = cp.status ∧ cp'.terminator = cp.terminator ∧
            cp'.isContractor = cp.isContractor := by
          rw [hresult]
          cases side <;> exact ⟨rfl, rfl, rfl⟩
        rw [hkeep.1] at hstatus
        obtain ⟨first, hby, hrequest, hcontractor, hterm, e, he, hactive⟩ := h cp hget hstatus
        exact ⟨first, hkeep.2.1.trans hby, hrequest, by rw [hkeep.2.2]; exact hcontractor,
          (lastTermination_of_other hother).trans hterm, e, mem_cons_of_mem _ he, hactive⟩
    · refine h.of_kept (by rw [hcontracts, get_put_of_ne _ ha]) ?_
      cases hchange with
      | sign hcall => exact lastTermination_of_other (by simp [hcall])
      | terminate hcall haddress =>
        rw [hcall, lastTermination_of_terminate, if_neg (by rw [haddress]; exact Ne.symm ha)]
      | stops hother => exact lastTermination_of_other hother

theorem asked_of_run (h : Run hashData ops st) (a : Address) : Asked a ops st := by
  induction h with
  | start =>
    intro cp hcp
    simp at hcp
  | send _ hsend ih => exact ih.step (effect_of_processSend hsend)

theorem Decides.of_status_eq (h : st'.status a = st.status a) :
    Decides ops st st' block call a where
  firstActivated _ hbefore hafter := absurd (h ▸ hafter) hbefore
  destroyed hbefore hafter := absurd (h ▸ hafter) hbefore
  rejected hbefore hafter := absurd (h ▸ hafter) hbefore
  final _ := h

/-- The status of one contract in a run: who has activated, destroyed and rejected it, and that
the last two are final. -/
theorem decides_of_run {amount : Option ℕ} (hrun : Run hashData ops st)
    (hsend : processSend hashData amount st block call = .ok st') (a : Address) :
    Decides ops st st' block call a := by
  have hasked := asked_of_run hrun a
  cases effect_of_processSend hsend with
  | kept _ hcontracts => exact .of_status_eq (by rw [Store.status, hcontracts, Store.status])
  | @created param a' hcall haddress habsent hcontracts =>
    by_cases ha : a = a'
    · subst ha
      have hbefore : st.status a = none := by rw [Store.status, habsent, map_none]
      have hafter : st'.status a = some .activeStage1 := by
        rw [Store.status, hcontracts, get_put_self]
        rfl
      constructor <;> simp [hbefore, hafter]
    · exact .of_status_eq
        (by rw [Store.status, hcontracts, get_put_of_ne _ ha, Store.status])
  | @changed a' cp cp' hget hchange hcontracts =>
    by_cases ha : a = a'
    · subst ha
      have hbefore : st.status a = some cp.status := by rw [Store.status, hget, map_some]
      have hafter : st'.status a = some cp'.status := by
        rw [Store.status, hcontracts, get_put_self, map_some]
      cases hchange with
      | @sign param hcall haddress hwaiting hparty hresult =>
        constructor
        · exact fun _ _ _ => ⟨cp, param, hget, hwaiting, hcall, haddress, hparty⟩
        all_goals simp [hbefore, hafter, hwaiting, hresult]
      | @terminate param hcall haddress hstep =>
        cases hstep with
        | close hwaiting hparty hresult =>
          constructor
          case destroyed =>
            exact fun _ _ => ⟨cp, param, hget, hcall, haddress, .inl ⟨hwaiting, hparty.symm⟩⟩
          all_goals simp [hbefore, hafter, hwaiting, hresult]
        | reject hwaiting hparty hresult =>
          constructor
          case rejected =>
            exact fun _ _ => ⟨cp, param, hget, hwaiting, hcall, haddress, hparty.symm⟩
          all_goals simp [hbefore, hafter, hwaiting, hresult]
        | request hactive hparty hrequest hresult =>
          constructor <;> simp [hbefore, hafter, hactive, hresult]
        | resume hstatus hwithdrawn hresult =>
          -- the contract was activated when the termination was asked for
          obtain ⟨first, -, -, -, -, e, he, hactive⟩ := hasked cp hget hstatus
          constructor
          case firstActivated => exact fun hnever => absurd hactive (hnever e he)
          all_goals simp [hbefore, hafter, hstatus, hresult]
        | confirm hstatus hby hother hparty hagreed hresult =>
          obtain ⟨first, hby', hrequest, hcontractor, hlast, -⟩ := hasked cp hget hstatus
          rw [hby] at hby'
          cases hby'
          constructor
          case destroyed =>
            exact fun _ _ => ⟨cp, param, hget, hcall, haddress,
              .inr ⟨hstatus, hparty, hagreed, _, hlast, hrequest, hcontractor, Ne.symm hother⟩⟩
          all_goals simp [hbefore, hafter, hstatus, hresult]
        | idle hby hcancelled hresult => exact .of_status_eq (by rw [hbefore, hafter, hresult])
      | @stops side stops hother hparty hstep hresult =>
        refine .of_status_eq ?_
        rw [hbefore, hafter, hresult]
        cases side <;> rfl
    · exact .of_status_eq
        (by rw [Store.status, hcontracts, get_put_of_ne _ ha, Store.status])

end

/-! ### A contract that both parties end -/

def runOf (hashData : Bytes → Hash) (amount : ℕ) :
    List (StateBlock × Call) → Except SettlementError (List Entry × Store)
  | [] => .ok ([], {})
  | (block, call) :: calls => do
    let (ops, st) ← runOf hashData amount calls
    let st' ← processSend hashData (some amount) st block call
    return (⟨st, block, call⟩ :: ops, st')

theorem run_of_runOf {hashData : Bytes → Hash} {amount : ℕ} {ops : List Entry}
    (h : runOf hashData amount calls = .ok (ops, st)) : Run hashData ops st := by
  induction calls generalizing ops st with
  | nil =>
    cases h
    exact .start
  | cons c calls ih =>
    obtain ⟨⟨ops₀, st₀⟩, hcalls, h⟩ := bind_eq_ok.mp h
    obtain ⟨st', hsend, h⟩ := bind_eq_ok.mp h
    cases h
    exact (ih hcalls).send hsend

def sampleParam : CreateContractParam where
  partyA := { address := stranger, name := ⟨Abi.asciiBytes "A", by decide⟩ }
  partyB := { address := neighbour, name := ⟨Abi.asciiBytes "B", by decide⟩ }
  previous := 1
  services :=
    [{ serviceId := ⟨Abi.asciiBytes "sms", by decide⟩, mcc := 22, mnc := 1, totalAmount := 100
       unitPrice := 0x3ff0000000000000, currency := ⟨Abi.asciiBytes "USD", by decide⟩ }]
  signDate := 10
  startDate := 10
  endDate := 100

def sampleAddress : Address := hashData sampleParam.addressData

def blockOf (address : Address) : StateBlock where
  type := .contractSend
  token := gasToken
  address := address
  balance := 0
  previous := 1
  link := settlementAddress
  representative := address
  timestamp := 50

def sampleCreate (sender : Address) : StateBlock × Call :=
  (blockOf sender, .createContract sampleParam)

def sampleSign : StateBlock × Call :=
  (blockOf neighbour, .signContract { contractAddress := sampleAddress, confirmDate := 20 })

def sampleTerminate (sender : Address) (request : Bool) : StateBlock × Call :=
  (blockOf sender, .terminateContract { contractAddress := sampleAddress, request })

def sampleRun (calls : List (StateBlock × Call)) : List Entry × Store :=
  (runOf hashData 100000000 calls).toOption.getD ([], {})

theorem run_sampleRun (h : (runOf hashData 100000000 calls).toOption.isSome) :
    Run hashData (sampleRun calls).1 (sampleRun calls).2 := by
  obtain ⟨⟨ops, st⟩, hrun⟩ := isSome_iff_exists.mp h
  rw [sampleRun, hrun, getD_some]
  exact run_of_runOf (toOption_eq_some.mp hrun)

def askedCalls : List (StateBlock × Call) :=
  [sampleTerminate stranger true, sampleSign, sampleCreate stranger]

/-- Party B confirms the termination that party A has asked for. -/
theorem decides_of_confirmation :
    ∃ st', processSend hashData (some 0) (sampleRun askedCalls).2 (blockOf neighbour)
        (sampleTerminate neighbour true).2 = .ok st' ∧
      st'.status sampleAddress = some .destroyed ∧
      Decides (sampleRun askedCalls).1 (sampleRun askedCalls).2 st' (blockOf neighbour)
        (sampleTerminate neighbour true).2 sampleAddress := by
  have hdone : ∃ st' ∈ (processSend hashData (some 0) (sampleRun askedCalls).2
      (blockOf neighbour) (sampleTerminate neighbour true).2).toOption,
      st'.status sampleAddress = some .destroyed := by decide +kernel
  obtain ⟨st', hsend, hstatus⟩ := hdone
  have hsend := toOption_eq_some.mp hsend
  exact ⟨st', hsend, hstatus, decides_of_run (run_sampleRun (by decide +kernel)) hsend _⟩

end GoQlc.Settlement
