import Mathlib.Data.List.Basic

/-!
# Updates that are published later

Two workers update one value: each reads it under a lock, computes the new value into a private
batch, releases the lock and publishes the batch some time after.
-/

namespace GoQlc.Deferred

open Function List

inductive Action where
  | read
  | write
  | release
  | publish
deriving DecidableEq, Repr

abbrev Event := Bool × Action

inductive Stage (V : Type) where
  | idle
  | seen (v : V)
  | written (v : V)
  | released (v : V)
  | published
deriving DecidableEq

def Stage.locked {V : Type} : Stage V → Bool
  | seen _ | written _ => true
  | idle | released _ | published => false

structure State (V : Type) where
  stored : V
  stage : Bool → Stage V

variable {V : Type}

def State.enter (s : State V) (w : Bool) (stage : Stage V) : State V :=
  { s with stage := update s.stage w stage }

/-- One action of a worker; `f` is the update, which may refuse the value it reads. -/
def step (f : Bool → V → Option V) (s : State V) : Event → Option (State V)
  | (w, .read) =>
    match s.stage w with
    | .idle => if (s.stage !w).locked then none else some (s.enter w (.seen s.stored))
    | _ => none
  | (w, .write) =>
    match s.stage w with
    | .seen v => (f w v).map fun v' => s.enter w (.written v')
    | _ => none
  | (w, .release) =>
    match s.stage w with
    | .written v => some (s.enter w (.released v))
    | _ => none
  | (w, .publish) =>
    match s.stage w with
    | .released v => some { s.enter w .published with stored := v }
    | _ => none

def run (f : Bool → V → Option V) (v₀ : V) : List Event → Option (State V)
  | [] => some { stored := v₀, stage := fun _ => .idle }
  | e :: trace => (run f v₀ trace).bind fun s => step f s e

/-- The event `e` happened before `e'`. -/
def Before (trace : List Event) (e e' : Event) : Prop := [e', e].Sublist trace

def lastPublisher : List Event → Option Bool
  | [] => none
  | (w, .publish) :: _ => some w
  | _ :: trace => lastPublisher trace

section
variable {trace : List Event} {e e' a : Event}

theorem before_cons_of_ne (h : e' ≠ e) : Before (e :: trace) a e' ↔ Before trace a e' := by
  constructor
  · intro hsub
    cases hsub with
    | cons _ hsub => exact hsub
    | cons_cons _ hsub => exact absurd rfl h
  · exact fun hsub => hsub.cons e

theorem before_cons_self (h : e' ∉ trace) : Before (e' :: trace) a e' ↔ a ∈ trace := by
  constructor
  · intro hsub
    cases hsub with
    | cons _ hsub => exact absurd (hsub.subset mem_cons_self) h
    | cons_cons _ hsub => exact singleton_sublist.mp hsub
  · exact fun ha => (singleton_sublist.mpr ha).cons_cons e'

theorem Before.mem (h : Before trace a e') : a ∈ trace ∧ e' ∈ trace :=
  ⟨h.subset (by simp), h.subset (by simp)⟩

end

section
variable {f : Bool → V → Option V} {v₀ : V} {trace : List Event} {s s' : State V} {w : Bool}

/-- What a worker has read: the update of the other one if that was published before, else the
value from the start. -/
def Reads (f : Bool → V → Option V) (v₀ : V) (trace : List Event) (w : Bool) (v : V) : Prop :=
  Before trace (!w, .publish) (w, .read) ∧ f (!w) v₀ = some v ∨
    ¬ Before trace (!w, .publish) (w, .read) ∧ v = v₀

def StageOk (f : Bool → V → Option V) (v₀ : V) (trace : List Event) (w : Bool) :
    Stage V → Prop
  | .idle => (w, .read) ∉ trace ∧ (w, .publish) ∉ trace
  | .seen v => Reads f v₀ trace w v ∧ (w, .publish) ∉ trace
  | .written v | .released v =>
    (∃ u, Reads f v₀ trace w u ∧ f w u = some v) ∧ (w, .publish) ∉ trace
  | .published => (w, .publish) ∈ trace

structure Ok (f : Bool → V → Option V) (v₀ : V) (trace : List Event) (s : State V) : Prop where
  stage : ∀ w, StageOk f v₀ trace w (s.stage w)
  stored : (∀ w, (w, .publish) ∉ trace) ∧ s.stored = v₀ ∨
    ∃ w u, lastPublisher trace = some w ∧ Reads f v₀ trace w u ∧ f w u = some s.stored
  last : ∀ w, Before trace (!w, .publish) (w, .read) → (w, .publish) ∈ trace →
    lastPublisher trace = some w

theorem Reads.cons {e : Event} (he : e ≠ (w, .read)) {v : V} :
    Reads f v₀ (e :: trace) w v ↔ Reads f v₀ trace w v := by
  rw [Reads, Reads, before_cons_of_ne he.symm]

theorem mem_of_lastPublisher (h : lastPublisher trace = some w) : (w, .publish) ∈ trace := by
  induction trace with
  | nil => cases h
  | cons e trace ih =>
    obtain ⟨w', action⟩ := e
    cases action with
    | publish =>
      cases h
      exact mem_cons_self
    | read | write | release => exact mem_cons_of_mem _ (ih h)

variable {stage : Stage V}

theorem StageOk.cons_other {e : Event} (he : e.1 ≠ w) (h : StageOk f v₀ trace w stage) :
    StageOk f v₀ (e :: trace) w stage := by
  have hne (action : Action) : (w, action) ≠ e := fun heq => he (by rw [← heq])
  have hread {v : V} : Reads f v₀ (e :: trace) w v ↔ Reads f v₀ trace w v :=
    Reads.cons (hne .read).symm
  cases stage with
  | idle => simpa [StageOk, hne] using h
  | seen v | written v | released v => simpa [StageOk, hne, hread] using h
  | published => exact mem_cons_of_mem _ h

variable {action : Action}

theorem stageOk_enter (h : ∀ w, StageOk f v₀ trace w (s.stage w))
    (hstage : StageOk f v₀ ((w, action) :: trace) w stage) (w' : Bool) :
    StageOk f v₀ ((w, action) :: trace) w' (update s.stage w stage w') := by
  by_cases hw : w' = w
  · subst hw
    rwa [update_self]
  · rw [update_of_ne hw]
    exact (h w').cons_other (Ne.symm hw)

theorem lastPublisher_cons (h : action ≠ .publish) :
    lastPublisher ((w, action) :: trace) = lastPublisher trace := by
  cases action with
  | publish => exact absurd rfl h
  | read | write | release => rfl

theorem Ok.of_private (h : Ok f v₀ trace s) (hread : action ≠ .read)
    (hpublish : action ≠ .publish) (hstage : StageOk f v₀ ((w, action) :: trace) w stage) :
    Ok f v₀ ((w, action) :: trace) (s.enter w stage) where
  stage := stageOk_enter h.stage hstage
  stored := by
    rcases h.stored with ⟨hnone, hv⟩ | ⟨w', u, hw', hu, hf⟩
    · exact .inl ⟨fun w' => by simp [hnone w', Ne.symm hpublish], hv⟩
    · exact .inr ⟨w', u, (lastPublisher_cons hpublish).trans hw',
        (Reads.cons (by simp [hread])).mpr hu, hf⟩
  last w' hbefore hmem := by
    rw [before_cons_of_ne (by simp [Ne.symm hread])] at hbefore
    rw [lastPublisher_cons hpublish]
    exact h.last w' hbefore (by simpa [Ne.symm hpublish] using hmem)

theorem Ok.of_read (h : Ok f v₀ trace s) (hidle : s.stage w = .idle) :
    Ok f v₀ ((w, .read) :: trace) (s.enter w (.seen s.stored)) := by
  have hfresh := h.stage w
  rw [hidle] at hfresh
  obtain ⟨hunread, hunpublished⟩ := hfresh
  have hreads : Reads f v₀ ((w, .read) :: trace) w s.stored := by
    rw [Reads, before_cons_self hunread]
    rcases h.stored with ⟨hnone, hv⟩ | ⟨w', u, hlast, hu, hf⟩
    · exact .inr ⟨hnone _, hv⟩
    · obtain rfl : w' = !w := by
        by_contra hne
        obtain rfl : w' = w := by cases w <;> cases w' <;> simp_all
        exact hunpublished (mem_of_lastPublisher hlast)
      refine .inl ⟨mem_of_lastPublisher hlast, ?_⟩
      -- the other one has read before this worker has published
      rcases hu with ⟨hbefore, -⟩ | ⟨-, rfl⟩
      · exact absurd (by simpa using hbefore.mem.1) hunpublished
      · exact hf
  refine ⟨stageOk_enter h.stage ⟨hreads, by simpa using hunpublished⟩, ?_, fun w' hbefore hmem => ?_⟩
  · rcases h.stored with ⟨hnone, hv⟩ | ⟨w', u, hlast, hu, hf⟩
    · exact .inl ⟨fun w' => by simp [hnone w'], hv⟩
    · have hne : w' ≠ w := by
        rintro rfl
        exact hunpublished (mem_of_lastPublisher hlast)
      exact .inr ⟨w', u, hlast, (Reads.cons (by simp [Ne.symm hne])).mpr hu, hf⟩
  · have hne : w' ≠ w := by
      rintro rfl
      exact hunpublished (by simpa using hmem)
    rw [before_cons_of_ne (by simp [hne])] at hbefore
    exact h.last w' hbefore (by simpa using hmem)

theorem Ok.of_publish (h : Ok f v₀ trace s) {v : V} (hstage : s.stage w = .released v) :
    Ok f v₀ ((w, .publish) :: trace) { s.enter w .published with stored := v } := by
  have hready := h.stage w
  rw [hstage] at hready
  obtain ⟨⟨u, hu, hf⟩, hunpublished⟩ := hready
  refine ⟨stageOk_enter h.stage mem_cons_self,
    .inr ⟨w, u, rfl, (Reads.cons (by simp)).mpr hu, hf⟩, fun w' hbefore hmem => ?_⟩
  rw [before_cons_of_ne (by simp)] at hbefore
  by_cases hw : w' = w
  · rw [hw]
    rfl
  · -- the other one has read after a publication that has only happened now
    obtain rfl : w' = !w := by cases w <;> cases w' <;> simp_all
    exact absurd (by simpa using hbefore.mem.1) hunpublished

theorem Ok.step {e : Event} (h : Ok f v₀ trace s) (hs : Deferred.step f s e = some s') :
    Ok f v₀ (e :: trace) s' := by
  obtain ⟨w, action⟩ := e
  have hok := h.stage w
  cases action with
  | read =>
    unfold Deferred.step at hs
    cases hstage : s.stage w with
    | idle =>
      simp only [hstage] at hs
      split_ifs at hs
      cases hs
      exact h.of_read hstage
    | seen | written | released | published => simp [hstage] at hs
  | write =>
    unfold Deferred.step at hs
    cases hstage : s.stage w with
    | seen v =>
      simp only [hstage] at hs
      obtain ⟨v', hf, rfl⟩ := Option.map_eq_some_iff.mp hs
      rw [hstage] at hok
      exact h.of_private (by simp) (by simp)
        ⟨⟨v, (Reads.cons (by simp)).mpr hok.1, hf⟩, by simpa using hok.2⟩
    | idle | written | released | published => simp [hstage] at hs
  | release =>
    unfold Deferred.step at hs
    cases hstage : s.stage w with
    | written v =>
      simp only [hstage] at hs
      cases hs
      rw [hstage] at hok
      obtain ⟨⟨u, hu, hf⟩, hunpublished⟩ := hok
      exact h.of_private (by simp) (by simp)
        ⟨⟨u, (Reads.cons (by simp)).mpr hu, hf⟩, by simpa using hunpublished⟩
    | idle | seen | released | published => simp [hstage] at hs
  | publish =>
    unfold Deferred.step at hs
    cases hstage : s.stage w with
    | released v =>
      simp only [hstage] at hs
      cases hs
      exact h.of_publish hstage
    | idle | seen | written | published => simp [hstage] at hs

theorem ok_of_run (h : run f v₀ trace = some s) : Ok f v₀ trace s := by
  induction trace generalizing s with
  | nil =>
    cases h
    exact ⟨fun w => ⟨not_mem_nil, not_mem_nil⟩, .inl ⟨fun w => not_mem_nil, rfl⟩,
      fun w hbefore => absurd hbefore.mem.1 not_mem_nil⟩
  | cons e trace ih =>
    obtain ⟨s₀, hrun, hs⟩ := Option.bind_eq_some_iff.mp h
    exact (ih hrun).step hs

/-- When both have published, the stored value is the one update after the other, if the first was
published before the second has read; else it is an update of the value from the start. -/
theorem stored_of_run (h : run f v₀ trace = some s) (hdone : ∀ w, s.stage w = .published) :
    (∃ w, Before trace (w, .publish) (!w, .read) ∧ (f w v₀).bind (f !w) = some s.stored) ∨
      (∀ w, ¬ Before trace (w, .publish) (!w, .read)) ∧ ∃ w, f w v₀ = some s.stored := by
  have hok := ok_of_run h
  have hpublished (w : Bool) : (w, .publish) ∈ trace := by
    have := hok.stage w
    rwa [hdone w] at this
  rcases hok.stored with ⟨hnone, -⟩ | ⟨w, u, hlast, hu, hf⟩
  · exact absurd (hpublished true) (hnone true)
  · rcases hu with ⟨hbefore, hfirst⟩ | ⟨hnot, rfl⟩
    · exact .inl ⟨!w, by simpa using hbefore, by simpa [hfirst] using hf⟩
    · refine .inr ⟨fun w' hbefore => ?_, w, hf⟩
      by_cases hw : w' = w
      · -- then the other one would have published last
        have hother := hok.last (!w') (by simpa using hbefore) (hpublished _)
        rw [hlast, hw] at hother
        exact absurd hother (by simp)
      · obtain rfl : w' = !w := by cases w <;> cases w' <;> simp_all
        exact hnot (by simpa using hbefore)

end
end GoQlc.Deferred
