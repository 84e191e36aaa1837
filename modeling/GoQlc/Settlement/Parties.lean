import GoQlc.Settlement.LifeCycle

/-!
# What both parties have agreed to

A contract that is activated was created and signed.
-/

namespace GoQlc.Settlement

open Config Devnet List

def Entry.Agreed (now : Int64) (e : Entry) : Prop :=
  match e.call with
  | .createContract param => e.block.address = param.partyA.address
  | .processCDR param =>
    ∀ cp ∈ e.before.contracts.get param.contractAddress, cp.isAvailable now = true
  | _ => True

instance (now : Int64) : DecidablePred (Entry.Agreed now)
  | ⟨_, _, .createContract _⟩ | ⟨_, _, .processCDR _⟩ => by
    unfold Entry.Agreed
    infer_instance
  | ⟨_, _, .signContract _⟩ | ⟨_, _, .terminateContract _⟩ | ⟨_, _, .addStop _ _⟩
  | ⟨_, _, .removeStop _ _⟩ | ⟨_, _, .updateStop _ _⟩ => .isTrue trivial

/-- Both parties have acted: for an activated contract party A has created it and party B signed
it, and every upload is one of a party of an activated contract. -/
structure BothParties (hashData : Bytes → Hash) (ops : List Entry) (st : Store) : Prop where
  activated : ∀ a cp, st.contracts.get a = some cp → cp.status = .activated →
    (∃ e ∈ ops, ∃ param, e.call = .createContract param ∧ param.address hashData = .ok a ∧
      e.block.address = cp.partyA.address) ∧
    ∃ e ∈ ops, ∃ param, e.call = .signContract param ∧ param.contractAddress = a ∧
      e.block.address = cp.partyB.address
  uploads : ∀ e ∈ ops, ∀ param, e.call = .processCDR param →
    ∃ cp, e.before.contracts.get param.contractAddress = some cp ∧ cp.status = .activated ∧
      cp.isContractor e.block.address = true

def CreatedBy (hashData : Bytes → Hash) (ops : List Entry) (a : Address) (cp : ContractParam) :
    Prop :=
  ∃ e ∈ ops, e.call = .createContract cp.toCreateContractParam ∧
    cp.toCreateContractParam.address hashData = .ok a

def SignedBy (ops : List Entry) (a : Address) (cp : ContractParam) : Prop :=
  ∃ e ∈ ops, ∃ param, e.call = .signContract param ∧ param.contractAddress = a ∧
    e.block.address = cp.partyB.address

structure Traced (hashData : Bytes → Hash) (ops : List Entry) (a : Address) (cp : ContractParam) :
    Prop where
  created : CreatedBy hashData ops a cp
  signed : cp.status = .activated ∨ cp.status = .destroyStage1 → SignedBy ops a cp

section
variable {hashData : Bytes → Hash} {ops : List Entry} {st st' : Store} {a : Address}
  {cp cp' : ContractParam} {e : Entry}

theorem Traced.cons (h : Traced hashData ops a cp) : Traced hashData (e :: ops) a cp := by
  obtain ⟨e', he', hcreate⟩ := h.created
  refine ⟨⟨e', mem_cons_of_mem _ he', hcreate⟩, fun hstatus => ?_⟩
  obtain ⟨e', he', hsign⟩ := h.signed hstatus
  exact ⟨e', mem_cons_of_mem _ he', hsign⟩

theorem Traced.of_change (h : Traced hashData ops a cp)
    (hparam : cp'.toCreateContractParam = cp.toCreateContractParam)
    (hstatus : cp'.status = .activated ∨ cp'.status = .destroyStage1 →
      cp.status = .activated ∨ cp.status = .destroyStage1) : Traced hashData ops a cp' where
  created := by
    obtain ⟨e, he, hcreate⟩ := h.created
    exact ⟨e, he, by rwa [hparam]⟩
  signed h' := by
    obtain ⟨e, he, param, hsign, haddress, hparty⟩ := h.signed (hstatus h')
    exact ⟨e, he, param, hsign, haddress, by rw [hparty, ← hparam]⟩

theorem Terminates.traced {operator : Terminator} (hstep : Terminates operator cp cp')
    (h : Traced hashData ops a cp) : Traced hashData ops a cp' := by
  cases hstep with
  | close hwaiting hparty hresult | reject hwaiting hparty hresult
  | confirm hasked hby hother hparty hagreed hresult =>
    exact h.of_change (by rw [hresult]) (by simp [hresult])
  | request hactive hparty hrequest hresult =>
    exact h.of_change (by rw [hresult]) fun _ => .inl hactive
  | resume hasked hwithdrawn hresult => exact h.of_change (by rw [hresult]) fun _ => .inr hasked
  | idle hby hcancelled hresult => exact hresult ▸ h

theorem traced_step {block : StateBlock} {call : Call}
    (h : ∀ a cp, st.contracts.get a = some cp → Traced hashData ops a cp)
    (hb : Effect hashData st st' block call) (hget : st'.contracts.get a = some cp) :
    Traced hashData (⟨st, block, call⟩ :: ops) a cp := by
  cases hb with
  | kept _ hcontracts => exact (h a cp (hcontracts ▸ hget)).cons
  | @created param a' hcall haddress habsent hcontracts =>
    rw [hcontracts, Table.get_put] at hget
    split_ifs at hget with ha
    · cases hget
      exact ⟨⟨_, mem_cons_self, hcall, ha ▸ haddress⟩, by
        simp [CreateContractParam.toContractParam]⟩
    · exact (h a cp hget).cons
  | @changed a' cp₀ cp₁ hget₀ hchange hcontracts =>
    rw [hcontracts, Table.get_put] at hget
    split_ifs at hget with ha
    · cases hget
      subst ha
      have htraced := h a cp₀ hget₀
      cases hchange with
      | @sign param hcall haddress hwaiting hparty hresult =>
        obtain ⟨e, he, hcreate⟩ := htraced.created
        refine ⟨⟨e, mem_cons_of_mem _ he, by rwa [hresult]⟩, fun _ => ?_⟩
        exact ⟨_, mem_cons_self, param, hcall, haddress, by rw [hresult]; exact hparty⟩
      | terminate hcall haddress hstep => exact (hstep.traced htraced).cons
      | @stops side stops hother hparty hstep hresult =>
        refine (htraced.of_change ?_ ?_).cons
        · rw [hresult]
          cases side <;> rfl
        · rw [hresult]
          cases side <;> exact id
    · exact (h a cp hget).cons

theorem traced_of_run (h : Run hashData ops st) :
    ∀ a cp, st.contracts.get a = some cp → Traced hashData ops a cp := by
  induction h with
  | start => exact fun a cp hget => by simp at hget
  | send _ hsend ih => exact fun a cp hget => traced_step ih (effect_of_processSend hsend) hget

theorem uploader_of_run (h : Run hashData ops st) (he : e ∈ ops) {param : CDRParamList}
    (hcall : e.call = .processCDR param) :
    ∃ cp, e.before.contracts.get param.contractAddress = some cp ∧
      cp.isContractor e.block.address = true := by
  induction h with
  | start => exact absurd he not_mem_nil
  | send _ hsend ih =>
    rcases mem_cons.mp he with rfl | he
    · subst hcall
      exact (processCDR_eq_ok hsend).2
    · exact ih he

/-- In a run in which the creates come from party A and the uploads meet available contracts,
both parties have acted. -/
theorem bothParties_of_run (now : Entry → Int64) (hrun : Run hashData ops st)
    (hagreed : ∀ e ∈ ops, e.Agreed (now e)) : BothParties hashData ops st where
  activated a cp hget hstatus := by
    have htraced := traced_of_run hrun a cp hget
    obtain ⟨e, he, hcall, haddress⟩ := htraced.created
    have hsender := hagreed e he
    rw [Entry.Agreed, hcall] at hsender
    exact ⟨⟨e, he, _, hcall, haddress, hsender⟩, htraced.signed (.inl hstatus)⟩
  uploads e he param hcall := by
    obtain ⟨cp, hget, hparty⟩ := uploader_of_run hrun he hcall
    have havailable := hagreed e he
    rw [Entry.Agreed, hcall] at havailable
    replace havailable := havailable cp hget
    simp only [ContractParam.isAvailable, Bool.and_eq_true, beq_iff_eq] at havailable
    exact ⟨cp, hget, havailable.1.1, hparty⟩

end

/-! ### A contract that party A knows nothing of -/

def sampleCDR : CDRParam where
  index := 1
  smsDt := 60
  sender := Abi.asciiBytes "ab"
  destination := Abi.asciiBytes "c"
  sendingStatus := .sent
  dlrStatus := .delivered

def sampleUpload (sender : Address) : StateBlock × Call :=
  (blockOf sender, .processCDR { contractAddress := sampleAddress, params := [sampleCDR] })

/-- Party A creates the contract, party B signs it, and party A uploads a record. -/
theorem bothParties_of_agreed_run :
    BothParties hashData
      (sampleRun [sampleUpload stranger, sampleSign, sampleCreate stranger]).1
      (sampleRun [sampleUpload stranger, sampleSign, sampleCreate stranger]).2 :=
  bothParties_of_run (fun _ => 50) (run_sampleRun (by decide +kernel)) (by decide +kernel)

/-- Party B creates a contract in the name of party A and signs it, and uploads a record before it
is signed. -/
theorem activated_without_partyA :
    Run hashData
      (sampleRun [sampleSign, sampleUpload neighbour, sampleCreate neighbour]).1
      (sampleRun [sampleSign, sampleUpload neighbour, sampleCreate neighbour]).2 ∧
    (sampleRun [sampleSign, sampleUpload neighbour,
      sampleCreate neighbour]).2.status sampleAddress = some .activated ∧
    (∀ e ∈ (sampleRun [sampleSign, sampleUpload neighbour,
      sampleCreate neighbour]).1, e.block.address ≠ sampleParam.partyA.address) ∧
    (sampleRun [sampleCreate neighbour]).2.status sampleAddress = some .activeStage1 ∧
    (processSend hashData none (sampleRun [sampleCreate neighbour]).2
      (sampleUpload neighbour).1 (sampleUpload neighbour).2).toOption.isSome := by
  refine ⟨run_sampleRun ?_, ?_, ?_, ?_, ?_⟩ <;> decide +kernel

/-! ## Stop names -/

open Table Store

def Entry.Unclaimed (e : Entry) : Prop :=
  match e.call with
  | .terminateContract param =>
    ∀ cp ∈ e.before.contracts.get param.contractAddress,
      cp.status = .destroyStage1 → param.request = false →
      (∀ name ∈ cp.preStops, name ∉ e.before.getPreStopNames cp.partyB.address) ∧
        ∀ name ∈ cp.nextStops, name ∉ e.before.getNextStopNames cp.partyA.address
  | _ => True

instance : DecidablePred Entry.Unclaimed
  | ⟨_, _, .terminateContract _⟩ => by
    unfold Entry.Unclaimed
    infer_instance
  | ⟨_, _, .createContract _⟩ | ⟨_, _, .processCDR _⟩ | ⟨_, _, .signContract _⟩
  | ⟨_, _, .addStop _ _⟩ | ⟨_, _, .removeStop _ _⟩ | ⟨_, _, .updateStop _ _⟩ => .isTrue trivial

theorem Side.names_eq (side : Side) (st : Store) (addr : Address) :
    side.names st addr =
      (st.contracts.values.filter fun cp => side.party cp == addr && live cp).flatMap
        side.stops := by
  cases side <;> rfl

theorem Side.mem_names {side : Side} {st : Store} {addr : Address} {name : Bytes} :
    name ∈ side.names st addr ↔ ∃ a cp, st.contracts.get a = some cp ∧ side.party cp = addr ∧
      live cp = true ∧ name ∈ side.stops cp := by
  rw [names_eq, mem_flatMap]
  constructor
  · rintro ⟨cp, hcp, hname⟩
    rw [mem_filter, Bool.and_eq_true, beq_iff_eq] at hcp
    obtain ⟨a, hget⟩ := mem_values.mp hcp.1
    exact ⟨a, cp, hget, hcp.2.1, hcp.2.2, hname⟩
  · rintro ⟨a, cp, hget, hparty, hlive, hname⟩
    refine ⟨cp, mem_filter.mpr ⟨mem_values.mpr ⟨a, hget⟩, ?_⟩, hname⟩
    rw [Bool.and_eq_true, beq_iff_eq]
    exact ⟨hparty, hlive⟩

/-- No stop is named twice in one contract, nor in two live contracts of a party. -/
structure Unambiguous (st : Store) : Prop where
  own : ∀ (side : Side) a cp, st.contracts.get a = some cp → (side.stops cp).Nodup
  apart : ∀ (side : Side) a a' cp cp', a ≠ a' → st.contracts.get a = some cp →
    st.contracts.get a' = some cp' → live cp = true → live cp' = true →
    side.party cp = side.party cp' → List.Disjoint (side.stops cp) (side.stops cp')

theorem Unambiguous.nodup_names {st : Store} (h : Unambiguous st) (side : Side) (addr : Address) :
    (side.names st addr).Nodup := by
  rw [Side.names_eq, nodup_flatMap]
  constructor
  · intro cp hcp
    obtain ⟨a, hget⟩ := mem_values.mp (mem_of_mem_filter hcp)
    exact h.own side a cp hget
  · rw [pairwise_filter, Table.values, pairwise_map]
    have hnodup := nodupKeys_iff_pairwise.mp st.contracts.nodupKeys
    refine hnodup.imp_of_mem fun {e e'} he he' hne hcp hcp' => ?_
    rw [Bool.and_eq_true, beq_iff_eq] at hcp hcp'
    exact h.apart side e.1 e'.1 e.2 e'.2 hne (AList.mem_lookup_iff.mpr he)
      (AList.mem_lookup_iff.mpr he') hcp.2 hcp'.2 (hcp.1.trans hcp'.1.symm)

section
variable {st st' : Store} {a : Address} {cp cp' : ContractParam}

theorem Unambiguous.put (h : Unambiguous st) (hcontracts : st'.contracts = st.contracts.put a cp')
    (hown : ∀ side : Side, (side.stops cp').Nodup)
    (hfree : ∀ (side : Side) a' cp'', a' ≠ a → st.contracts.get a' = some cp'' →
      live cp' = true → live cp'' = true → side.party cp' = side.party cp'' →
      List.Disjoint (side.stops cp') (side.stops cp'')) : Unambiguous st' where
  own side a' cp'' hget := by
    rw [hcontracts, get_put] at hget
    split_ifs at hget with ha
    · cases hget
      exact hown side
    · exact h.own side a' cp'' hget
  apart side a₁ a₂ cp₁ cp₂ hne hget₁ hget₂ hlive₁ hlive₂ hparty := by
    rw [hcontracts, get_put] at hget₁ hget₂
    split_ifs at hget₁ hget₂ with h₁ h₂ h₂
    · exact absurd (h₁.trans h₂.symm) hne
    · cases hget₁
      exact hfree side a₂ cp₂ h₂ hget₂ hlive₁ hlive₂ hparty
    · cases hget₂
      exact (hfree side a₁ cp₁ h₁ hget₁ hlive₂ hlive₁ hparty.symm).symm
    · exact h.apart side a₁ a₂ cp₁ cp₂ hne hget₁ hget₂ hlive₁ hlive₂ hparty

theorem Unambiguous.of_same_stops (h : Unambiguous st) (hget : st.contracts.get a = some cp)
    (hcontracts : st'.contracts = st.contracts.put a cp')
    (hstops : ∀ side : Side, side.stops cp' = side.stops cp)
    (hparty : ∀ side : Side, side.party cp' = side.party cp)
    (hlive : live cp' = true → live cp = true) : Unambiguous st' := by
  refine h.put hcontracts (fun side => hstops side ▸ h.own side a cp hget) ?_
  intro side a' cp'' ha hget' hlive' hlive'' hsame
  rw [hstops]
  exact h.apart side a a' cp cp'' (Ne.symm ha) hget hget' (hlive hlive') hlive''
    ((hparty side).symm.trans hsame)

theorem nodup_of_restops {side : Side} {party : Address} {before after : List Bytes}
    (h : Restops st side party before after) (hbefore : before.Nodup) : after.Nodup := by
  obtain ⟨kept, added, rfl, hsub, hlen, hfresh⟩ := h.split
  have hadded : added.Nodup := by
    match added, hlen with
    | [], _ => exact nodup_nil
    | [name], _ => exact nodup_singleton name
  exact (hbefore.sublist hsub).append hadded fun name hk ha => (hfresh name ha).2 hk

theorem Unambiguous.restops (h : Unambiguous st) (hget : st.contracts.get a = some cp)
    {side : Side} {stops : List Bytes}
    (hstep : Restops st side (side.party cp) (side.stops cp) stops)
    (hcontracts : st'.contracts = st.contracts.put a (side.setStops cp stops)) :
    Unambiguous st' := by
  have hparty (side' : Side) : side'.party (side.setStops cp stops) = side'.party cp := by
    cases side <;> cases side' <;> rfl
  have hlive : live (side.setStops cp stops) = live cp := by cases side <;> rfl
  have hstops (side' : Side) : side'.stops (side.setStops cp stops) =
      if side' = side then stops else side'.stops cp := by
    cases side <;> cases side' <;> rfl
  refine h.put hcontracts (fun side' => ?_) fun side' a' cp'' ha hget' hlive' hlive'' hsame => ?_
  · rw [hstops]
    split_ifs with hside
    · exact nodup_of_restops hstep (h.own side a cp hget)
    · exact h.own side' a cp hget
  · rw [hparty] at hsame
    rw [hlive] at hlive'
    have hold := h.apart side' a a' cp cp'' (Ne.symm ha) hget hget' hlive' hlive'' hsame
    rw [hstops]
    split_ifs with hside
    · subst hside
      obtain ⟨kept, added, rfl, hsub, -, hfresh⟩ := hstep.split
      intro name hname hname''
      rcases mem_append.mp hname with hk | hadd
      · exact hold (hsub.subset hk) hname''
      · exact (hfresh name hadd).1
          (Side.mem_names.mpr ⟨a', cp'', hget', hsame.symm, hlive'', hname''⟩)
    · exact hold

theorem Unambiguous.step {hashData : Bytes → Hash} {block : StateBlock} {call : Call}
    (h : Unambiguous st) (hb : Effect hashData st st' block call)
    (hclear : Entry.Unclaimed ⟨st, block, call⟩) : Unambiguous st' := by
  cases hb with
  | kept _ hcontracts =>
    exact ⟨fun side a cp hget => h.own side a cp (hcontracts ▸ hget),
      fun side a a' cp cp' hne hget hget' =>
        h.apart side a a' cp cp' hne (hcontracts ▸ hget) (hcontracts ▸ hget')⟩
  | created hcall haddress habsent hcontracts =>
    refine h.put hcontracts (fun side => ?_) fun side a' cp'' _ _ _ _ _ name hname => ?_
    · cases side <;> exact nodup_nil
    · cases side <;> exact absurd hname not_mem_nil
  | @changed a cp cp' hget hchange hcontracts =>
    cases hchange with
    | sign hcall haddress hwaiting hparty hresult =>
      refine h.of_same_stops hget hcontracts (fun side => ?_) (fun side => ?_) fun _ => ?_
      · rw [hresult]; cases side <;> rfl
      · rw [hresult]; cases side <;> rfl
      · simp [live, hwaiting]
    | @terminate param hcall haddress hstep =>
      cases hstep with
      | close hwaiting hparty hresult | reject hwaiting hparty hresult
      | request hactive hparty hasked hresult
      | confirm hasked hby hother hparty hagreed hresult =>
        refine h.of_same_stops hget hcontracts (fun side => ?_) (fun side => ?_) fun hlive => ?_
        · rw [hresult]; cases side <;> rfl
        · rw [hresult]; cases side <;> rfl
        · simp [hresult, live] at hlive
      | idle hby hcancelled hresult =>
        subst hresult
        exact h.of_same_stops hget hcontracts (fun _ => rfl) (fun _ => rfl) id
      | resume hasked hwithdrawn hresult =>
        -- the contract becomes live again with the names it had
        rw [Entry.Unclaimed, hcall] at hclear
        have hnames : ∀ side : Side, ∀ name ∈ side.stops cp,
            name ∉ side.names st (side.party cp) := by
          obtain ⟨hpre, hnext⟩ := hclear cp (haddress ▸ hget) hasked hwithdrawn
          intro side
          cases side
          · exact hpre
          · exact hnext
        have hstops : ∀ side : Side, side.stops cp' = side.stops cp := by
          intro side; rw [hresult]; cases side <;> rfl
        have hparty : ∀ side : Side, side.party cp' = side.party cp := by
          intro side; rw [hresult]; cases side <;> rfl
        refine h.put hcontracts (fun side => hstops side ▸ h.own side a cp hget) ?_
        intro side a' cp'' ha hget' _ hlive'' hsame name hname hname''
        rw [hstops] at hname
        exact hnames side name hname (Side.mem_names.mpr ⟨a', cp'', hget',
          hsame.symm.trans (hparty side), hlive'', hname''⟩)
    | stops hother hparty hstep hresult =>
      subst hresult
      exact h.restops hget (hparty ▸ hstep) hcontracts

end

/-- Where contracts go back to activated only with free names, no stop is named twice. -/
theorem stop_names_nodup {hashData : Bytes → Hash} {ops : List Entry} {st : Store}
    (hrun : Run hashData ops st) (hclear : ∀ e ∈ ops, e.Unclaimed) (addr : Address) :
    (st.getPreStopNames addr).Nodup ∧ (st.getNextStopNames addr).Nodup := by
  have h : Unambiguous st := by
    induction hrun with
    | start => exact ⟨fun _ _ _ hget => by simp at hget, fun _ _ _ _ _ _ hget => by simp at hget⟩
    | send _ hsend ih =>
      exact (ih fun e he => hclear e (mem_cons_of_mem _ he)).step
        (effect_of_processSend hsend) (hclear _ mem_cons_self)
  exact ⟨h.nodup_names .pre addr, h.nodup_names .next addr⟩

/-! ### A name of two contracts -/

def laterParam : CreateContractParam := { sampleParam with signDate := 11 }

def laterAddress : Address := hashData laterParam.addressData

def sampleStop (contractAddress : Address) : StateBlock × Call :=
  (blockOf neighbour, .addStop .pre { contractAddress, stopName := Abi.asciiBytes "x" })

def sharedCalls : List (StateBlock × Call) :=
  [sampleStop laterAddress, sampleTerminate stranger true, sampleStop sampleAddress,
    (blockOf stranger, .createContract laterParam), sampleSign,
    sampleCreate stranger]

/-- The first contract is terminated, and its name goes to the second. -/
theorem stop_names_nodup_after_termination :
    ((sampleRun (sampleTerminate neighbour true :: sharedCalls)).2.getPreStopNames
      neighbour).Nodup ∧
    ((sampleRun (sampleTerminate neighbour true :: sharedCalls)).2.getNextStopNames
      neighbour).Nodup :=
  stop_names_nodup (run_sampleRun (by decide +kernel)) (by decide +kernel) neighbour

/-- The request is withdrawn after its name was given to the second contract. -/
theorem stop_name_twice_after_withdrawal :
    Run hashData (sampleRun (sampleTerminate stranger false :: sharedCalls)).1
      (sampleRun (sampleTerminate stranger false :: sharedCalls)).2 ∧
    (sampleRun (sampleTerminate stranger false :: sharedCalls)).2.getPreStopNames
      neighbour = [Abi.asciiBytes "x", Abi.asciiBytes "x"] :=
  ⟨run_sampleRun (by decide +kernel), by decide +kernel⟩

end GoQlc.Settlement
