import GoQlc.Settlement.Parties
import GoQlc.Lib.Deferred

/-!
# Uploads of one record by both parties

`ProcessCDR.save` holds the lock of a record while it reads the status and writes the new one into
the batch of its own block.
-/

namespace GoQlc.Settlement

open Config Result

def uploadsOf (stored : Option CDRStatus) (addr : Address) : List CDRParam :=
  (stored.bind fun status => status.params.get addr).getD []

theorem uploadsOf_uploadCDR {stored : Option CDRStatus} {addr : Address} {param : CDRParam}
    {status : CDRStatus} (h : uploadCDR stored addr param = .ok status) (other : Address) :
    uploadsOf (some status) other =
      if other = addr then uploadsOf stored addr ++ [param] else uploadsOf stored other := by
  have hparams : ∃ params : Table Address (List CDRParam),
      (∀ x, (params.get x).getD [] = uploadsOf stored x) ∧
      status.params = params.put addr (uploadsOf stored addr ++ [param]) := by
    cases stored with
    | none =>
      cases h
      exact ⟨∅, fun x => by simp [uploadsOf], rfl⟩
    | some state =>
      refine ⟨state.params, fun x => rfl, ?_⟩
      simp only [uploadCDR, CDRStatus.doSettlement] at h
      split_ifs at h <;> cases h <;> rfl
  obtain ⟨params, hget, hput⟩ := hparams
  rw [uploadsOf, Option.bind_some, hput, Table.get_put]
  split_ifs
  · rfl
  · exact hget other

theorem cdrs_of_saveCDR {hashData : Bytes → Hash} {block : StateBlock} {ca : Address}
    {contract : ContractParam} {st st' : Store} {param : CDRParam}
    (h : saveCDR hashData block ca contract st param = .ok st') :
    ∃ status,
      uploadCDR (st.cdrs.get (ca, param.toHash hashData)) block.address param = .ok status ∧
      st'.cdrs = st.cdrs.put (ca, param.toHash hashData) status := by
  unfold saveCDR at h
  rw [seq_eq_ok] at h
  simp only [ite_error_eq_ok] at h
  obtain ⟨-, -, -, h⟩ := h
  obtain ⟨status, hstatus, h⟩ := bind_eq_ok.mp h
  cases h
  exact ⟨status, hstatus, rfl⟩

section
variable (parties : Bool → Address) (params : Bool → CDRParam)

def upload (w : Bool) (stored : Option CDRStatus) : Option (Option CDRStatus) :=
  (uploadCDR stored (parties w) (params w)).toOption.map some

/-- The status has both uploads, and it is the one that comes out when they are processed one
after the other. -/
structure Merged (before after : Option CDRStatus) : Prop where
  contains : ∀ w, uploadsOf after (parties w) = uploadsOf before (parties w) ++ [params w]
  inOrder : ∃ w, (upload parties params w before).bind (upload parties params !w) = some after

variable {parties params}

theorem uploadsOf_upload {w : Bool} {before after : Option CDRStatus}
    (h : upload parties params w before = some after) (addr : Address) :
    uploadsOf after addr =
      if addr = parties w then uploadsOf before (parties w) ++ [params w]
      else uploadsOf before addr := by
  obtain ⟨status, hstatus, rfl⟩ := Option.map_eq_some_iff.mp h
  exact uploadsOf_uploadCDR (toOption_eq_some.mp hstatus) addr

/-- Nothing is lost exactly when one upload is published before the other one reads. -/
theorem merged_iff_published_before_read (hne : parties true ≠ parties false)
    {before : Option CDRStatus} {trace : List Deferred.Event}
    {s : Deferred.State (Option CDRStatus)}
    (hrun : Deferred.run (upload parties params) before trace = some s)
    (hdone : ∀ w, s.stage w = .published) :
    Merged parties params before s.stored ↔
      ∃ w, Deferred.Before trace (w, .publish) (!w, .read) := by
  have hother (w : Bool) : parties (!w) ≠ parties w := by
    cases w
    · exact hne
    · exact hne.symm
  rcases Deferred.stored_of_run hrun hdone with ⟨w, hbefore, hstored⟩ | ⟨hnot, w, hstored⟩
  · refine ⟨fun _ => ⟨w, hbefore⟩, fun _ => ⟨fun w' => ?_, w, hstored⟩⟩
    obtain ⟨first, hfirst, hsecond⟩ := Option.bind_eq_some_iff.mp hstored
    rw [uploadsOf_upload hsecond]
    by_cases hw : w' = w
    · rw [hw, if_neg (hother w).symm, uploadsOf_upload hfirst, if_pos rfl]
    · obtain rfl : w' = !w := by cases w <;> cases w' <;> simp_all
      rw [if_pos rfl, uploadsOf_upload hfirst, if_neg (hother w)]
  · refine ⟨fun hmerged => ?_, fun ⟨w', hbefore⟩ => absurd hbefore (hnot w')⟩
    -- the other party has what it had before
    have hlost := hmerged.contains (!w)
    rw [uploadsOf_upload hstored, if_neg (hother w)] at hlost
    simp at hlost

end

/-! ### Two uploads of one record -/

def sampleParties (w : Bool) : Address := if w then Devnet.stranger else Devnet.neighbour

def wholeUpload (w : Bool) : List Deferred.Event :=
  [(w, .publish), (w, .release), (w, .write), (w, .read)]

/-- The second party reads after the first has released the lock, but before it publishes. -/
def overlapping : List Deferred.Event :=
  [(false, .publish), (true, .publish), (false, .release), (false, .write), (false, .read),
    (true, .release), (true, .write), (true, .read)]

def storedAfter (trace : List Deferred.Event) : Option CDRStatus :=
  (Deferred.run (upload sampleParties fun _ => sampleCDR) none trace).bind Deferred.State.stored

theorem merged_of_one_after_the_other :
    Merged sampleParties (fun _ => sampleCDR) none
        (storedAfter (wholeUpload false ++ wholeUpload true)) ↔
      ∃ w, Deferred.Before (wholeUpload false ++ wholeUpload true) (w, .publish) (!w, .read) := by
  have hdone : ∃ s ∈ Deferred.run (upload sampleParties fun _ => sampleCDR) none
      (wholeUpload false ++ wholeUpload true), ∀ w, s.stage w = .published := by decide +kernel
  obtain ⟨s, hrun, hdone⟩ := hdone
  rw [storedAfter, hrun]
  exact merged_iff_published_before_read (by decide) hrun hdone

theorem upload_lost :
    ∃ s ∈ Deferred.run (upload sampleParties fun _ => sampleCDR) none overlapping,
      (∀ w, s.stage w = .published) ∧
      uploadsOf s.stored (sampleParties true) = [] ∧
      uploadsOf s.stored (sampleParties false) = [sampleCDR] ∧
      ∀ w, (upload sampleParties (fun _ => sampleCDR) w none).bind
        (upload sampleParties (fun _ => sampleCDR) !w) ≠ some s.stored := by
  decide +kernel

/-! ## The status of a record -/

open Devnet List

/-- The loop of `DoSettlement` over the uploads of the parties, in the order the map gives them. -/
def combineStatus : Bool → List (List CDRParam) → SettlementStatus
  | b, [] => if b then .success else .failure
  | b, params :: rest =>
    if 1 < params.length then .duplicate
    else combineStatus (b && params.head?.all CDRParam.status) rest

/-- What the uploads of the two parties should make of a record. -/
def settled (a b : Multiset CDRParam) : SettlementStatus :=
  if a = 0 ∨ b = 0 then .stage1
  else if 1 < a.card ∨ 1 < b.card then .duplicate
  else if (∀ p ∈ a, p.status) ∧ ∀ p ∈ b, p.status then .success
  else .failure

theorem settled_comm (a b : Multiset CDRParam) : settled a b = settled b a := by
  simp only [settled, or_comm, and_comm]

theorem combineStatus_pair {a b : List CDRParam} (ha : a ≠ []) (hb : b ≠ []) :
    combineStatus true [a, b] = settled a b := by
  obtain ⟨p, a, rfl⟩ := exists_cons_of_ne_nil ha
  obtain ⟨q, b, rfl⟩ := exists_cons_of_ne_nil hb
  rcases a with _ | ⟨p', a⟩ <;> rcases b with _ | ⟨q', b⟩ <;> simp [combineStatus, settled]

theorem combineStatus_eq (b : Bool) (uploads : List (List CDRParam)) :
    combineStatus b uploads =
      if uploads.any fun ps => decide (1 < ps.length) then .duplicate
      else if b && uploads.all fun ps => ps.head?.all CDRParam.status then .success
      else .failure := by
  induction uploads generalizing b with
  | nil => cases b <;> rfl
  | cons ps rest ih =>
    by_cases h : 1 < ps.length
    · simp [combineStatus, h]
    · simp [combineStatus, h, ih, Bool.and_assoc]

theorem combineStatus_perm {uploads uploads' : List (List CDRParam)}
    (h : uploads.Perm uploads') (b : Bool) : combineStatus b uploads = combineStatus b uploads' := by
  rw [combineStatus_eq, combineStatus_eq, h.any_eq, h.all_eq]

section
variable {p : Bool → Address} {u u' : Bool → List CDRParam} {v : Bool} {param : CDRParam}

/-- The record holds the uploads `u` of the parties `p`, the last one first. -/
def Holds (p : Bool → Address) (u : Bool → List CDRParam) (z : CDRStatus) : Prop :=
  ∃ v, u v ≠ [] ∧
    z.params.entries = ⟨p v, u v⟩ :: (if u (!v) = [] then [] else [⟨p !v, u !v⟩]) ∧
    z.status = settled (u v) (u !v)

theorem doSettlement_holds {z : CDRStatus} (hp : p.Injective) (h : Holds p u z)
    (hv : u' v = u v ++ [param]) (hother : u' (!v) = u !v) :
    ∃ z', z.doSettlement (p v) param = .ok z' ∧ Holds p u' z' := by
  have hne (v : Bool) : p (!v) ≠ p v := fun heq => by simpa using hp heq
  obtain ⟨w, hw, hentries, -⟩ := h
  have hcases : v = w ∨ v = !w := by cases v <;> cases w <;> simp
  have hget : (z.params.get (p v)).getD [] = u v := by
    rw [Table.get, AList.lookup, hentries]
    obtain rfl | rfl := hcases
    · simp
    · rw [List.dlookup_cons_ne _ _ (hne w)]
      by_cases hnil : u (!w) = [] <;> simp [hnil]
  have hput : (z.params.put (p v) (u' v)).entries =
      ⟨p v, u' v⟩ :: (if u (!v) = [] then [] else [⟨p !v, u !v⟩]) := by
    rw [Table.put, AList.entries_insert, hentries]
    obtain rfl | rfl := hcases
    · by_cases hnil : u (!v) = [] <;> simp [hnil]
    · by_cases hnil : u (!w) = [] <;> simp [hnil, hw, hne, List.kerase]
  have hsome : u' v ≠ [] := by simp [hv]
  unfold CDRStatus.doSettlement
  rw [hget, ← hv]
  by_cases hnil : u (!v) = []
  · rw [hnil, if_pos rfl] at hput
    refine ⟨_, if_pos (by simp [Table.values, hput]), v, hsome, ?_⟩
    simp [hother, hnil, hput, settled]
  · rw [if_neg hnil] at hput
    have hvalues : (z.params.put (p v) (u' v)).values = [u' v, u !v] := by
      rw [Table.values, hput]
      rfl
    have hstatus := combineStatus_eq true [u' v, u !v]
    rw [Bool.true_and, combineStatus_pair hsome hnil] at hstatus
    refine ⟨⟨z.params.put (p v) (u' v), settled (u' v) (u !v)⟩, ?_, v, hsome, ?_, by rw [hother]⟩
    · rw [hstatus]
      simp only [hvalues]
      split_ifs <;> first | rfl | simp_all
    · rw [hother, if_neg hnil, hput]

theorem uploadCDR_holds {stored : Option CDRStatus} (hp : p.Injective)
    (hnone : stored = none → ∀ w, u w = []) (hsome : ∀ z ∈ stored, Holds p u z)
    (hv : u' v = u v ++ [param]) (hother : u' (!v) = u !v) :
    ∃ z', uploadCDR stored (p v) param = .ok z' ∧ Holds p u' z' := by
  cases stored with
  | none =>
    rw [hnone rfl] at hv hother
    exact ⟨_, rfl, v, by simp [hv], by simp [hv, hother, Table.put], by simp [hother, settled]⟩
  | some z => exact doSettlement_holds hp (hsome z rfl) hv hother

/-- The checks of `save`, for an upload of the record with the hash `h`. -/
structure Accepted (hashData : Bytes → Hash) (contract : ContractParam) (h : Hash)
    (up : StateBlock × CDRParam) : Prop where
  verified : up.2.verify = .ok ()
  dated : ¬ (up.2.smsDt ≤ 0 ∨ up.2.smsDt < contract.startDate ∨ contract.endDate < up.2.smsDt)
  party : contract.isContractor up.1.address
  hashed : up.2.toHash hashData = h

variable {hashData : Bytes → Hash} {contract : ContractParam} {h : Hash} {ca : Address}

theorem saveCDR_eq {up : StateBlock × CDRParam} {st : Store} {z : CDRStatus}
    (hup : Accepted hashData contract h up)
    (hz : uploadCDR (st.cdrs.get (ca, h)) up.1.address up.2 = .ok z) :
    saveCDR hashData up.1 ca contract st up.2 = .ok { st with cdrs := st.cdrs.put (ca, h) z } := by
  obtain ⟨hverified, hdated, hparty, rfl⟩ := hup
  simp only [saveCDR, hverified, hdated, hparty, hz, bind, Except.bind, if_false, Bool.not_true,
    Bool.false_eq_true]
  rfl

def uploadsBy (uploads : List (StateBlock × CDRParam)) (addr : Address) : List CDRParam :=
  (uploads.filter (·.1.address = addr)).map Prod.snd

def parties (contract : ContractParam) (w : Bool) : Address :=
  if w then contract.partyA.address else contract.partyB.address

theorem saveCDRs_holds (hp : (parties contract).Injective) (uploads : List (StateBlock × CDRParam))
    (huploads : ∀ up ∈ uploads, Accepted hashData contract h up) :
    ∀ {st : Store} {u : Bool → List CDRParam},
      (st.cdrs.get (ca, h) = none → ∀ w, u w = []) →
      (∀ z ∈ st.cdrs.get (ca, h), Holds (parties contract) u z) →
      ∃ st', uploads.foldlM (fun st up => saveCDR hashData up.1 ca contract st up.2) st = .ok st' ∧
        (uploads ≠ [] → ∃ z ∈ st'.cdrs.get (ca, h),
          Holds (parties contract) (fun w => u w ++ uploadsBy uploads (parties contract w)) z) := by
  induction uploads with
  | nil => exact fun _ _ => ⟨_, rfl, fun h => absurd rfl h⟩
  | cons up rest ih =>
    intro st u hnone hsome
    rw [forall_mem_cons] at huploads
    obtain ⟨v, hv⟩ : ∃ v, up.1.address = parties contract v := by
      have hparty := huploads.1.party
      simp only [ContractParam.isContractor, Bool.or_eq_true, beq_iff_eq] at hparty
      rcases hparty with hA | hB
      exacts [⟨true, hA.symm⟩, ⟨false, hB.symm⟩]
    have hother : (parties contract !v) ≠ parties contract v := fun heq => by simpa using hp heq
    obtain ⟨z, hz, hholds⟩ := @uploadCDR_holds _ u
      (fun w => u w ++ uploadsBy [up] (parties contract w)) v up.2 _ hp hnone hsome
      (by simp [uploadsBy, hv]) (by simp [uploadsBy, hv, hother.symm])
    rw [← hv] at hz
    rw [foldlM_cons, saveCDR_eq huploads.1 hz]
    obtain ⟨st', hrun, hlast⟩ := @ih huploads.2 { st with cdrs := st.cdrs.put (ca, h) z } _
      (by simp) (by simpa using hholds)
    refine ⟨st', hrun, fun _ => ?_⟩
    cases rest with
    | nil =>
      cases hrun
      exact ⟨z, Table.get_put_self _ _ _, hholds⟩
    | cons next rest =>
      obtain ⟨z', hz', hholds'⟩ := hlast (by simp)
      refine ⟨z', hz', ?_⟩
      have happ (a : Address) : uploadsBy (up :: next :: rest) a =
          uploadsBy [up] a ++ uploadsBy (next :: rest) a := by
        rw [uploadsBy, ← singleton_append, filter_append, map_append]
        rfl
      simpa only [happ, append_assoc] using hholds'

/-- The status of a record is a function of what the parties have uploaded, and every order of the
loop over the map gives it. -/
theorem record_settled {st : Store} {uploads : List (StateBlock × CDRParam)}
    (hne : contract.partyA.address ≠ contract.partyB.address)
    (hnew : st.cdrs.get (ca, h) = none) (hsome : uploads ≠ [])
    (huploads : ∀ up ∈ uploads, Accepted hashData contract h up) :
    ∃ st', uploads.foldlM (fun st up => saveCDR hashData up.1 ca contract st up.2) st = .ok st' ∧
      ∃ z ∈ st'.cdrs.get (ca, h),
        z.status = settled (uploadsBy uploads contract.partyA.address)
          (uploadsBy uploads contract.partyB.address) ∧
        ∀ order : List (List CDRParam), order.Perm z.params.values → order.length = 2 →
          combineStatus true order = z.status := by
  have hp : (parties contract).Injective := by
    rintro (_ | _) (_ | _) heq
    exacts [rfl, absurd heq.symm hne, absurd heq hne, rfl]
  obtain ⟨st', hrun, hlast⟩ := @saveCDRs_holds hashData contract h ca hp uploads huploads st
    (fun _ => []) (fun _ _ => rfl) (by simp [hnew])
  obtain ⟨z, hz, v, hv, hentries, hstatus⟩ := hlast hsome
  simp only [nil_append] at hv hentries hstatus
  refine ⟨st', hrun, z, hz, ?_, ?_⟩
  · rw [hstatus]
    cases v
    · exact settled_comm _ _
    · rfl
  · intro order hperm hlength
    rw [combineStatus_perm hperm, hstatus]
    rw [hperm.length_eq] at hlength
    rw [Table.values, hentries] at hlength ⊢
    by_cases hnil : uploadsBy uploads (parties contract !v) = []
    · simp [hnil] at hlength
    · rw [if_neg hnil]
      exact combineStatus_pair hv hnil

end

theorem record_settled_sample :
    let uploads := [(blockOf stranger, sampleCDR), (blockOf neighbour, sampleCDR)]
    ∃ st', uploads.foldlM (fun st up => saveCDR hashData up.1 0
        sampleParam.toContractParam st up.2) {} = .ok st' ∧
      ∃ z ∈ st'.cdrs.get (0, sampleCDR.toHash hashData),
        z.status = settled (uploadsBy uploads sampleParam.partyA.address)
          (uploadsBy uploads sampleParam.partyB.address) ∧
        ∀ order : List (List CDRParam), order.Perm z.params.values → order.length = 2 →
          combineStatus true order = z.status := by
  refine @record_settled _ sampleParam.toContractParam _ _ _ _ (by decide) rfl (by simp) ?_
  rw [forall_mem_cons, forall_mem_singleton]
  exact ⟨⟨rfl, by decide, by decide, rfl⟩, rfl, by decide, by decide, rfl⟩

end GoQlc.Settlement
