import GoQlc.Lib.Bytes

/-!
# The outgoing queue of a stream

Senders put a message into the channel of its priority and then a signal into a fourth channel.
-/

namespace GoQlc.P2p

open Function List Relation

structure QlcMessage where
  messageType : UInt8
  content : Bytes
deriving DecidableEq, Repr

inductive Priority where
  | high
  | normal
  | low
deriving DecidableEq, Repr

def messageResponse : UInt8 := 8

def QlcMessage.priority (message : QlcMessage) : Priority :=
  if message.messageType = messageResponse then .high else .normal

inductive Writer where
  | waiting
  | looking (p : Priority)
deriving DecidableEq, Repr

/-- The channels, the senders that have still to signal and the write loop. -/
structure Stream where
  chan : Priority → List QlcMessage
  messageNotifyChan : ℕ
  signalling : ℕ
  writer : Writer
  accepted : Priority → List QlcMessage
  written : Priority → List QlcMessage
  lost : ℕ
  wasted : ℕ

def newStreamInstance : Stream := ⟨fun _ => [], 0, 0, .waiting, fun _ => [], fun _ => [], 0, 0⟩

def priorityChanSize : ℕ := 20 * 1024
def notifyChanSize : ℕ := 60 * 1024

inductive Action where
  -- the two halves of `SendMessageToChan`
  | put (message : QlcMessage)
  | signal
  -- the two halves of a round of `writeLoop`
  | takeSignal
  | look

/-- One step of a sender or of the write loop; `none` if there is nobody to take it. -/
def step (s : Stream) : Action → Option Stream
  | .put message =>
    let p := message.priority
    if (s.chan p).length < priorityChanSize then
      some { s with
        chan := update s.chan p (s.chan p ++ [message])
        accepted := update s.accepted p (s.accepted p ++ [message])
        signalling := s.signalling + 1 }
    else some s
  | .signal =>
    if s.signalling = 0 then none
    else if s.messageNotifyChan < notifyChanSize then
      some { s with
        messageNotifyChan := s.messageNotifyChan + 1, signalling := s.signalling - 1 }
    else some { s with lost := s.lost + 1, signalling := s.signalling - 1 }
  | .takeSignal =>
    if s.writer = .waiting ∧ 0 < s.messageNotifyChan then
      some { s with messageNotifyChan := s.messageNotifyChan - 1, writer := .looking .high }
    else none
  | .look =>
    match s.writer with
    | .waiting => none
    | .looking p =>
      match s.chan p, p with
      | message :: rest, _ =>
        some { s with
          chan := update s.chan p rest
          written := update s.written p (s.written p ++ [message])
          writer := .waiting }
      | [], .high => some { s with writer := .looking .normal }
      | [], .normal => some { s with writer := .looking .low }
      | [], .low => some { s with writer := .waiting, wasted := s.wasted + 1 }

def Steps (s s' : Stream) : Prop := ∃ a, step s a = some s'

/-- The numbers of messages and of signals agree, and the write loop looks where a message is. -/
structure Inv (s : Stream) : Prop where
  order : ∀ p, s.accepted p = s.written p ++ s.chan p
  room : ∀ p, (s.chan p).length ≤ priorityChanSize
  low : s.chan .low = []
  signals : (s.chan .high).length + (s.chan .normal).length =
    s.messageNotifyChan + s.signalling + if s.writer = .waiting then 0 else 1
  looking : ∀ p, s.writer = .looking p → p = .high ∨ p = .normal ∧ s.chan .normal ≠ []
  none_lost : s.lost = 0
  none_wasted : s.wasted = 0

variable {s s' : Stream} {a : Action}

theorem inv_newStreamInstance : Inv newStreamInstance := by
  constructor <;> simp [newStreamInstance]

theorem QlcMessage.priority_cases (message : QlcMessage) :
    message.priority = .high ∨ message.priority = .normal := by
  unfold QlcMessage.priority
  split_ifs
  · exact Or.inl rfl
  · exact Or.inr rfl

theorem Inv.step (h : Inv s) (hstep : step s a = some s') : Inv s' := by
  obtain ⟨horder, hroom, hlow, hsignals, hlooking, hlost, hwasted⟩ := h
  have hhigh := hroom .high
  have hnormal := hroom .normal
  cases a with
  | put message =>
    have hp := message.priority_cases
    simp only [P2p.step] at hstep
    split_ifs at hstep with hroom'
    · cases hstep
      constructor <;> grind [update_apply]
    · cases hstep
      exact ⟨horder, hroom, hlow, hsignals, hlooking, hlost, hwasted⟩
  | signal =>
    simp only [P2p.step] at hstep
    split_ifs at hstep with hsender hnotify
    · cases hstep
      exact ⟨horder, hroom, hlow, by dsimp only; omega, hlooking, hlost, hwasted⟩
    · -- the signals are no more than the messages, for which the channels have less room
      unfold priorityChanSize at hhigh hnormal
      unfold notifyChanSize at hnotify
      omega
  | takeSignal =>
    simp only [P2p.step] at hstep
    split_ifs at hstep with hsignal
    cases hstep
    rw [if_pos hsignal.1] at hsignals
    exact ⟨horder, hroom, hlow, by simp only [reduceCtorEq, if_false]; omega, by simp, hlost,
      hwasted⟩
  | look =>
    simp only [P2p.step] at hstep
    split at hstep
    · cases hstep
    · split at hstep
      all_goals
        cases hstep
        constructor <;> grind [update_apply]

/-! ## When a message is written -/

def Stream.writes (s : Stream) : ℕ := (s.written .high).length + (s.written .normal).length

def Stream.passed (s : Stream) : ℕ := if s.writer = .looking .normal then 1 else 0

/-- What a step adds to the messages written. -/
theorem Inv.writes_step (h : Inv s) (hstep : P2p.step s a = some s') :
    (∀ p, ∃ ms, s'.accepted p = s.accepted p ++ ms) ∧
      (s.written .high).length ≤ (s'.written .high).length ∧
      (s.chan .high ≠ [] → s'.writes + s'.passed + (s.written .high).length ≤
        s.writes + s.passed + (s'.written .high).length) := by
  have hlooking := h.looking
  unfold Stream.writes Stream.passed
  cases a with
  | put message =>
    simp only [P2p.step] at hstep
    split_ifs at hstep
    · cases hstep
      refine ⟨fun p => ?_, le_rfl, fun _ => le_rfl⟩
      by_cases hp : p = message.priority
      · exact ⟨[message], by simp [hp]⟩
      · exact ⟨[], by simp [update_of_ne hp]⟩
    · cases hstep
      exact ⟨fun p => ⟨[], by simp⟩, le_rfl, fun _ => le_rfl⟩
  | signal =>
    simp only [P2p.step] at hstep
    split_ifs at hstep <;> cases hstep <;> exact ⟨fun p => ⟨[], by simp⟩, le_rfl, fun _ => le_rfl⟩
  | takeSignal =>
    simp only [P2p.step] at hstep
    split_ifs at hstep
    cases hstep
    exact ⟨fun p => ⟨[], by simp⟩, le_rfl, by simp⟩
  | look =>
    simp only [P2p.step] at hstep
    split at hstep
    · cases hstep
    · split at hstep
      all_goals
        cases hstep
        refine ⟨fun p => ⟨[], by simp⟩, ?_⟩
        grind [update_apply]

variable {i : ℕ} {m : QlcMessage}

theorem Inv.reaches (h : Inv s) (hreach : ReflTransGen Steps s s') :
    Inv s' ∧ ∀ p, ∃ ms, s'.accepted p = s.accepted p ++ ms := by
  induction hreach with
  | refl => exact ⟨h, fun p => ⟨[], by simp⟩⟩
  | tail _ hstep ih =>
    obtain ⟨a, ha⟩ := hstep
    refine ⟨ih.1.step ha, fun p => ?_⟩
    obtain ⟨ms, hms⟩ := ih.2 p
    obtain ⟨ms', hms'⟩ := (ih.1.writes_step ha).1 p
    exact ⟨ms ++ ms', by rw [hms', hms, append_assoc]⟩

theorem Inv.written_of_length (h : Inv s) (hreach : ReflTransGen Steps s s')
    {p : Priority} (hm : (s.chan p)[i]? = some m)
    (hlength : (s.written p).length + i < (s'.written p).length) :
    (s'.written p)[(s.written p).length + i]? = some m := by
  obtain ⟨h', haccepted⟩ := h.reaches hreach
  obtain ⟨ms, hms⟩ := haccepted p
  obtain ⟨hi, -⟩ := List.getElem?_eq_some_iff.mp hm
  have hfound : (s'.accepted p)[(s.written p).length + i]? = some m := by
    rw [hms, h.order, append_assoc, List.getElem?_append_right (by omega),
      Nat.add_sub_cancel_left, List.getElem?_append_left hi, hm]
  rwa [h'.order, List.getElem?_append_left hlength] at hfound

theorem Inv.high_written (h : Inv s) (hreach : ReflTransGen Steps s s')
    (hm : (s.chan .high)[i]? = some m) (hwrites : s.writes + i + 2 ≤ s'.writes) :
    (s'.written .high)[(s.written .high).length + i]? = some m := by
  obtain ⟨hi, -⟩ := List.getElem?_eq_some_iff.mp hm
  have hcount : (s.written .high).length + i < (s'.written .high).length ∨
      s'.writes + s'.passed + (s.written .high).length ≤
        s.writes + s.passed + (s'.written .high).length := by
    clear hwrites
    induction hreach with
    | refl => exact Or.inr le_rfl
    | @tail s₁ s₂ hreach hstep ih =>
      obtain ⟨a, ha⟩ := hstep
      obtain ⟨h₁, haccepted⟩ := h.reaches hreach
      obtain ⟨-, hmono, hhigh⟩ := h₁.writes_step ha
      obtain ⟨ms, hms⟩ := haccepted .high
      by_cases hmore : (s.written .high).length + i < (s₁.written .high).length
      · exact Or.inl (hmore.trans_le hmono)
      · have hlength := congrArg List.length (hms.symm.trans (h₁.order .high))
        rw [h.order, length_append, length_append, length_append] at hlength
        have hwaits : s₁.chan .high ≠ [] := by
          intro hempty
          rw [hempty, length_nil] at hlength
          omega
        have hstep := hhigh hwaits
        have hbefore := ih.resolve_left hmore
        omega
  apply h.written_of_length hreach hm
  unfold Stream.passed at hcount
  rcases hcount with hcount | hcount
  · exact hcount
  · split_ifs at hcount <;> omega

theorem Inv.normal_written (h : Inv s) (hreach : ReflTransGen Steps s s')
    (hm : (s.chan .normal)[i]? = some m)
    (hwrites : s.writes + i + (s'.accepted .high).length <
      s'.writes + (s.written .high).length) :
    (s'.written .normal)[(s.written .normal).length + i]? = some m := by
  apply h.written_of_length hreach hm
  have hhigh := congrArg List.length ((h.reaches hreach).1.order .high)
  rw [length_append] at hhigh
  unfold Stream.writes at hwrites
  omega

theorem Inv.exists_step (h : Inv s) {p : Priority} (hp : s.chan p ≠ []) :
    ∃ a ∈ [Action.signal, .takeSignal, .look], (P2p.step s a).isSome := by
  have hlow := h.low
  have hsignals := h.signals
  have hmessage : 0 < (s.chan .high).length + (s.chan .normal).length := by
    cases p with
    | low => exact absurd hlow hp
    | high => exact Nat.add_pos_left (length_pos_iff.mpr hp) _
    | normal => exact Nat.add_pos_right _ (length_pos_iff.mpr hp)
  cases hwriter : s.writer with
  | looking p =>
    refine ⟨.look, by simp, ?_⟩
    simp only [P2p.step, hwriter]
    split <;> rfl
  | waiting =>
    rw [if_pos hwriter] at hsignals
    rcases Nat.eq_zero_or_pos s.signalling with hzero | hpos
    · have hnotify : 0 < s.messageNotifyChan := by omega
      exact ⟨.takeSignal, by simp, by simp [P2p.step, hwriter, hnotify]⟩
    · refine ⟨.signal, by simp, ?_⟩
      simp only [P2p.step, if_neg hpos.ne']
      split_ifs <;> rfl

/-- A stream that has written `k` messages of high priority while one of normal priority waits. -/
def starving (k : ℕ) : Stream where
  chan p := if p = .normal then [⟨0, []⟩] else []
  messageNotifyChan := 1
  signalling := 0
  writer := .waiting
  accepted p :=
    if p = .normal then [⟨0, []⟩] else if p = .high then List.replicate k ⟨8, []⟩ else []
  written p := if p = .high then List.replicate k ⟨8, []⟩ else []
  lost := 0
  wasted := 0

theorem reaches_starving : ReflTransGen Steps newStreamInstance (starving 0) := by
  refine .head ⟨.put ⟨0, []⟩, rfl⟩ (.single ⟨.signal, congrArg some ?_⟩)
  unfold starving
  congr 1 <;> funext p <;> cases p <;> rfl

theorem starving_succ (k : ℕ) : ReflTransGen Steps (starving k) (starving (k + 1)) := by
  refine .head ⟨.put ⟨8, []⟩, rfl⟩ (.head ⟨.signal, rfl⟩ (.head ⟨.takeSignal, rfl⟩
    (.single ⟨.look, congrArg some ?_⟩)))
  have hp : QlcMessage.priority ⟨8, []⟩ = .high := rfl
  unfold starving
  congr 1 <;> funext p <;> cases p <;> simp [replicate_succ', hp]

end GoQlc.P2p
