import GoQlc.Ledger.FailedFlush

/-!
# Batches against rotation and flush

`BatchUpdate` asks for the write cache, registers as a user of it, copies its batch into it and
releases it.
-/

namespace GoQlc

open Finset Function List Option Table

def CachedLedger.setCache {K Obj : Type} (l : CachedLedger K Obj) (i : CacheIndex)
    (c : Cache K Obj) : CachedLedger K Obj :=
  { l with cache := { l.cache with caches := Function.update l.cache.caches i c } }

theorem CachedLedger.setCache_self {K Obj : Type} (l : CachedLedger K Obj) (i : CacheIndex)
    (c : Cache K Obj) : (l.setCache i c).cache.caches i = c := by
  simp [setCache]

variable {i : CacheIndex}

theorem CachedLedger.setCache_of_ne {K Obj : Type} (l : CachedLedger K Obj) {j : CacheIndex}
    (h : j ≠ i) (c : Cache K Obj) : (l.setCache i c).cache.caches j = l.cache.caches j := by
  simp [setCache, h]

namespace Rotation

open CachedLedger

variable {K Obj W : Type} [DecidableEq K] [DecidableEq W]

/-- How far a call of `BatchUpdate` has come. -/
inductive Phase (K Obj : Type) where
  | idle
  | chosen (index : CacheIndex) (since : ℕ) (batch : Cache K Obj)
  | copying (index : CacheIndex) (since : ℕ) (batch rest : Cache K Obj)
  | returned (since : ℕ) (batch : Cache K Obj)

inductive Flush (K Obj : Type) where
  | idle
  | waiting
  | passed
  | dumped (snapshot : Cache K Obj)
  | written
  | cleared

/-- One item that a call copied, with the generation of the cache that took it. -/
structure Put (K Obj : Type) where
  generation : ℕ
  key : K
  item : CacheItem Obj

/-- The ring with its users, the calls and the flush loop. -/
structure State (K Obj W : Type) where
  l : CachedLedger K Obj
  quote : CacheIndex → ℕ
  writer : W → Phase K Obj
  flush : Flush K Obj
  generation : ℕ
  flushed : ℕ
  log : List (Put K Obj)

def init : State K Obj W where
  l := .new
  quote := fun _ => 0
  writer := fun _ => .idle
  flush := .idle
  generation := 1
  flushed := 0
  log := []

inductive Action (K Obj W : Type) where
  | choose (w : W) (intervalPassed : Bool) (batch : Cache K Obj)
  | register (w : W)
  | copy (w : W) (key : K)
  | release (w : W)
  | rotate (intervalPassed : Bool)
  | pick
  | pass
  | dump
  | write
  | clear
  | advance

namespace State

def generationAt (s : State K Obj W) (i : CacheIndex) : ℕ :=
  s.generation - (s.l.cache.writeIndex - i).val

/-- `GetCache`. -/
def getCache (s : State K Obj W) (passed : Bool) : Option (State K Obj W) :=
  (s.l.cache.getCache passed).map fun lc =>
    { s with
      l := { s.l with cache := lc }
      generation := if lc.writeIndex = s.l.cache.writeIndex then s.generation
        else s.generation + 1 }

def setWriter (s : State K Obj W) (w : W) (p : Phase K Obj) : State K Obj W :=
  { s with writer := Function.update s.writer w p }

def putItem (s : State K Obj W) (i : CacheIndex) (k : K) (item : CacheItem Obj) : State K Obj W :=
  { s with
    l := s.l.setCache i ((s.l.cache.caches i).put k item)
    log := ⟨s.generationAt i, k, item⟩ :: s.log }

/-- One step; `none` when it is not that step's turn. -/
def step (serialize : Obj → Option Bytes) (s : State K Obj W) :
    Action K Obj W → Option (State K Obj W)
  | .choose w passed batch =>
    match s.writer w with
    | .idle => (s.getCache passed).map fun s' =>
        s'.setWriter w (.chosen s'.l.cache.writeIndex s'.generation batch)
    | _ => none
  | .register w =>
    match s.writer w with
    | .chosen i since batch =>
      some { s.setWriter w (.copying i since batch batch) with
        quote := Function.update s.quote i (s.quote i + 1) }
    | _ => none
  | .copy w k =>
    match s.writer w with
    | .copying i since batch rest => (rest.get k).map fun item =>
        (s.putItem i k item).setWriter w (.copying i since batch (rest.delete k))
    | _ => none
  | .release w =>
    match s.writer w with
    | .copying i since batch rest =>
      if rest.entries.length = 0 then
        some { s.setWriter w (.returned since batch) with
          quote := Function.update s.quote i (s.quote i - 1) }
      else
        none
    | _ => none
  | .rotate passed => s.getCache passed
  | .pick =>
    match s.flush with
    | .idle =>
      if s.l.cache.readIndex + 1 ≠ s.l.cache.writeIndex then some { s with flush := .waiting }
      else none
    | _ => none
  | .pass =>
    match s.flush with
    | .waiting =>
      if s.quote (s.l.cache.readIndex + 1) = 0 then some { s with flush := .passed } else none
    | _ => none
  | .dump =>
    match s.flush with
    | .passed =>
      let snapshot := s.l.cache.caches (s.l.cache.readIndex + 1)
      -- an empty cache has nothing to write and nothing to clear
      if snapshot.entries.length = 0 then some { s with flush := .cleared }
      else some { s with flush := .dumped snapshot }
    | _ => none
  | .write =>
    match s.flush with
    | .dumped snapshot =>
      (Layers.settle (CacheItem.dumpToLevelDb serialize) snapshot s.l.store).map fun store =>
        { s with l := { s.l with store := store }, flush := .written }
    | _ => none
  | .clear =>
    match s.flush with
    | .written =>
      some { s with l := s.l.setCache (s.l.cache.readIndex + 1) ∅, flush := .cleared }
    | _ => none
  | .advance =>
    match s.flush with
    | .cleared =>
      some { s with
        l := { s.l with cache := { s.l.cache with readIndex := s.l.cache.readIndex + 1 } }
        flush := .idle
        flushed := s.flushed + 1 }
    | _ => none

end State

def Flush.Waits : Flush K Obj → Prop
  | .idle => True
  | .waiting => True
  | _ => False

instance (f : Flush K Obj) : Decidable f.Waits := by
  cases f <;> unfold Flush.Waits <;> infer_instance

/-- A call registers in time: the cache it chose still waits for the store, and its flush has not
got past the wait. -/
def InTime (s : State K Obj W) : Action K Obj W → Prop
  | .register w =>
    match s.writer w with
    | .chosen i _ _ => ¬ s.l.cache.Idle i ∧ (i = s.l.cache.readIndex + 1 → s.flush.Waits)
    | _ => True
  | _ => True

instance (s : State K Obj W) (a : Action K Obj W) : Decidable (InTime s a) := by
  unfold InTime MemoryCache.Idle
  cases a with
  | register w =>
    dsimp only
    cases s.writer w <;> infer_instance
  | _ => exact instDecidableTrue

inductive Reaches (serialize : Obj → Option Bytes) : State K Obj W → Prop where
  | init : Reaches serialize init
  | step {s s' : State K Obj W} {a : Action K Obj W} :
      Reaches serialize s → InTime s a → s.step serialize a = some s' → Reaches serialize s'

/-! ## The newest put -/

def lastPut (log : List (Put K Obj)) (generation : ℕ) (k : K) : Option (CacheItem Obj) :=
  (log.find? fun p => p.generation = generation ∧ p.key = k).map Put.item

def newestPut (log : List (Put K Obj)) : ℕ → K → Option (CacheItem Obj)
  | 0, k => lastPut log 0 k
  | n + 1, k => (lastPut log (n + 1) k).or (newestPut log n k)

variable {n m : ℕ}

section Newest

variable {log : List (Put K Obj)} {k : K}

theorem lastPut_cons (p : Put K Obj) (log : List (Put K Obj)) (n : ℕ) (k : K) :
    lastPut (p :: log) n k =
      if p.generation = n ∧ p.key = k then some p.item else lastPut log n k := by
  unfold lastPut
  rw [List.find?_cons]
  split_ifs with h
  · simp [h]
  · simp [h]

theorem lastPut_eq_none (h : ∀ p ∈ log, p.generation < n) : lastPut log n k = none := by
  rw [lastPut, map_eq_none_iff, List.find?_eq_none]
  intro p hp hmatch
  have hlt := h p hp
  simp only [decide_eq_true_eq] at hmatch
  omega

theorem newestPut_cons {p : Put K Obj} (h : n < p.generation) :
    newestPut (p :: log) n k = newestPut log n k := by
  induction n with
  | zero =>
    rw [newestPut, lastPut_cons, if_neg (by omega)]
    rfl
  | succ n ih =>
    rw [newestPut, lastPut_cons, if_neg (by omega), ih (by omega)]
    rfl

theorem newestPut_eq_of_none (hmn : m ≤ n) (h : ∀ q, m < q → q ≤ n → lastPut log q k = none) :
    newestPut log n k = newestPut log m k := by
  induction n, hmn using Nat.le_induction with
  | base => rfl
  | succ n hmn ih =>
    rw [newestPut, h (n + 1) (by omega) (Nat.le_refl _), none_or]
    exact ih fun q hmq hqn => h q hmq (by omega)

end Newest

/-! ## Positions of the ring -/

def slot (generation : ℕ) : CacheIndex := Fin.ofNat 6 generation

theorem slot_succ (n : ℕ) : slot n + 1 = slot (n + 1) := by
  apply Fin.ext
  change (n % 6 + 1) % 6 = (n + 1) % 6
  omega

theorem slot_pred (n : ℕ) : slot (n + 1) - 1 = slot n := by
  apply Fin.ext
  change (6 - 1 + (n + 1) % 6) % 6 = n % 6
  omega

theorem slot_sub (hmn : m ≤ n) (hn : n ≤ m + 5) : (slot n - slot m).val = n - m := by
  simp only [slot, Fin.ofNat, Fin.sub_def]
  omega

theorem slot_inj (h : slot m = slot n) (hmn : m ≤ n) (hn : n ≤ m + 5) : m = n := by
  have hsub := slot_sub hmn hn
  rw [h, Fin.sub_self] at hsub
  change 0 = n - m at hsub
  omega

theorem slot_ne {base : ℕ} (hm : base < m) (hm' : m ≤ base + 6) (hn : base < n)
    (hn' : n ≤ base + 6) (hne : m ≠ n) : slot m ≠ slot n := by
  intro h
  rcases Nat.le_total m n with hle | hle
  · exact hne (slot_inj h hle (by omega))
  · exact hne (slot_inj h.symm hle (by omega)).symm

theorem slot_add_six (n : ℕ) : slot (n + 6) = slot n := by
  apply Fin.ext
  simp only [slot, Fin.ofNat]
  omega

theorem exists_slot {w r : ℕ} (hr : r < w) (hw : w ≤ r + 5)
    (h : (slot w - i).val < (slot w - slot r).val) : ∃ p, i = slot p ∧ r < p ∧ p ≤ w := by
  rw [slot_sub hr.le hw] at h
  refine ⟨w - (slot w - i).val, ?_, by omega, by omega⟩
  apply Fin.ext
  have hi := i.isLt
  simp only [slot, Fin.ofNat, Fin.sub_def] at h ⊢
  omega

/-! ## The ring over a run -/

def Flush.closed : Flush K Obj → ℕ
  | .idle | .waiting => 0
  | .passed | .dumped _ | .written | .cleared => 1

def Flush.settled : Flush K Obj → ℕ
  | .idle | .waiting | .passed | .dumped _ => 0
  | .written | .cleared => 1

def Flush.emptied : Flush K Obj → ℕ
  | .idle | .waiting | .passed | .dumped _ | .written => 0
  | .cleared => 1

/-- The caches of the waiting generations hold the puts of the log, the others are empty, and
the store holds what was newest when the generations before were flushed. -/
structure RingInv (serialize : Obj → Option Bytes) (l : CachedLedger K Obj) (flush : Flush K Obj)
    (generation flushed : ℕ) (log : List (Put K Obj)) : Prop where
  writeIndex : l.cache.writeIndex = slot generation
  readIndex : l.cache.readIndex = slot flushed
  ahead : flushed < generation
  room : generation ≤ flushed + 5
  picked : flush ≠ .idle → flushed + 1 < generation
  logged : ∀ p ∈ log, p.generation ≤ generation
  layer : ∀ n, flushed + flush.emptied < n → n ≤ generation →
    ∀ k, (l.cache.caches (slot n)).get k = lastPut log n k
  empty : ∀ n, generation < n → n ≤ flushed + flush.emptied + 6 → l.cache.caches (slot n) = ∅
  stored : ∀ k, Stores serialize l k (newestPut log (flushed + flush.settled) k)
  snapshot : ∀ c, flush = .dumped c → c = l.cache.caches (slot (flushed + 1))

variable {k : K} {item : CacheItem Obj}

namespace RingInv

open MemoryCache

variable {serialize : Obj → Option Bytes} {l : CachedLedger K Obj} {flush : Flush K Obj}
variable {generation flushed : ℕ} {log : List (Put K Obj)}

omit [DecidableEq K] in
theorem layersFrom_slot (caches : CacheIndex → Cache K Obj) (n m : ℕ) :
    layersFrom caches (n + 1) (slot (m + 1)) = caches (slot (m + 1)) :: layersFrom caches n (slot m) := by
  rw [layersFrom, slot_pred]

variable {caches : CacheIndex → Cache K Obj}

theorem newestPut_eq {r a : ℕ} (hra : r ≤ a)
    (hlayer : ∀ q, a < q → q ≤ r + n → (caches (slot q)).get k = lastPut log q k)
    (hempty : ∀ q, r < q → q ≤ a → (caches (slot q)).get k = none) :
    newestPut log (max a (r + n)) k =
      (Layers.lookup (layersFrom caches n (slot (r + n))) k).or (newestPut log a k) := by
  induction n with
  | zero =>
    rw [Nat.add_zero, Nat.max_eq_left hra]
    rfl
  | succ n ih =>
    have hih := ih fun q haq hq => hlayer q haq (by omega)
    rw [← Nat.add_assoc, layersFrom_slot, Layers.lookup_cons, Option.or_assoc, ← hih]
    rcases Nat.lt_or_ge a (r + n + 1) with hlt | hge
    · rw [Nat.max_eq_right hlt.le, Nat.max_eq_right (Nat.le_of_lt_succ hlt),
        hlayer (r + n + 1) hlt (Nat.le_refl _)]
      rfl
    · rw [Nat.max_eq_left hge, Nat.max_eq_left (by omega), hempty (r + n + 1) (by omega) hge,
        none_or]

theorem get_none_of_lookup {r : ℕ} (h : Layers.lookup (layersFrom caches n (slot (r + n))) k = none)
    (q : ℕ) (hrq : r < q) (hq : q ≤ r + n) : (caches (slot q)).get k = none := by
  induction n with
  | zero => omega
  | succ n ih =>
    rw [← Nat.add_assoc, layersFrom_slot, Layers.lookup_cons, or_eq_none_iff] at h
    rcases Nat.lt_or_ge (r + n) q with hlt | hge
    · obtain rfl : q = r + n + 1 := by omega
      exact h.1
    · exact ih h.2 hge

theorem shows (h : RingInv serialize l flush generation flushed log) (k : K) :
    Shows serialize l k (newestPut log generation k) := by
  have hemptied : flushed + flush.emptied ≤ generation := by
    have hahead := h.ahead
    have hpicked := h.picked
    cases flush <;> simp only [Flush.emptied] <;> simp at hpicked <;> omega
  have hlayers : l.cache.layers =
      layersFrom l.cache.caches (generation - flushed) (slot (flushed + (generation - flushed))) := by
    rw [layers, h.writeIndex, h.readIndex, slot_sub h.ahead.le h.room]
    congr 2
    have hahead := h.ahead
    omega
  have hgeneration : max (flushed + flush.emptied) (flushed + (generation - flushed)) = generation := by
    have hahead := h.ahead
    omega
  have hcleared : ∀ q, flushed < q → q ≤ flushed + flush.emptied →
      (l.cache.caches (slot q)).get k = none := by
    intro q hlt hle
    rw [← slot_add_six, h.empty (q + 6) (by have := h.room; omega) (by omega), get_empty]
  have hnewest := newestPut_eq (n := generation - flushed)
    (Nat.le_add_right flushed flush.emptied)
    (fun q hq hle => h.layer q hq (by omega) k) hcleared
  rw [hgeneration, ← hlayers] at hnewest
  rw [shows_iff]
  unfold Layers.Represents
  cases hlookup : Layers.lookup l.cache.layers k with
  | some item =>
    rw [hlookup] at hnewest
    exact hnewest
  | none =>
    rw [hlookup, none_or] at hnewest
    rw [hlayers] at hlookup
    have hstored := h.stored k
    have hsettled : newestPut log (flushed + flush.settled) k =
        newestPut log (flushed + flush.emptied) k := by
      apply newestPut_eq_of_none
      · cases flush <;> simp [Flush.emptied, Flush.settled]
      · intro q hlt hle
        have hahead := h.ahead
        have hq : q ≤ generation := by
          have hpicked := h.picked
          cases flush <;> simp [Flush.emptied, Flush.settled] at hlt hle hpicked <;> omega
        rw [← h.layer q hlt hq k]
        exact get_none_of_lookup hlookup q (by omega) (by omega)
    rw [hnewest, ← hsettled]
    exact hstored

theorem init : RingInv serialize (.new : CachedLedger K Obj) .idle 1 0 [] where
  writeIndex := rfl
  readIndex := rfl
  ahead := Nat.one_pos
  room := by omega
  picked h := absurd rfl h
  logged := nofun
  layer _ _ _ _ := rfl
  empty _ _ _ := rfl
  stored _ := rfl
  snapshot := nofun

theorem rotate (h : RingInv serialize l flush generation flushed log)
    (hnext : l.cache.writeIndex + 1 ≠ l.cache.readIndex) :
    RingInv serialize { l with cache := { l.cache with writeIndex := l.cache.writeIndex + 1 } } flush
      (generation + 1) flushed log := by
  have hroom : generation ≠ flushed + 5 := by
    intro hfull
    rw [h.writeIndex, h.readIndex, slot_succ, hfull] at hnext
    exact hnext (slot_add_six flushed)
  have hroom' := h.room
  refine { h with
    writeIndex := ?_
    ahead := Nat.lt_succ_of_lt h.ahead
    room := by omega
    picked := fun hpicked => Nat.lt_succ_of_lt (h.picked hpicked)
    logged := fun p hp => Nat.le_succ_of_le (h.logged p hp)
    layer := ?_
    empty := fun n hn hle => h.empty n (by omega) hle }
  · dsimp only
    rw [h.writeIndex, slot_succ]
  · intro n hlt hle k
    rcases Nat.lt_or_ge generation n with hnew | hold
    · obtain rfl : n = generation + 1 := by omega
      rw [lastPut_eq_none fun p hp => Nat.lt_succ_of_le (h.logged p hp)]
      dsimp only
      rw [h.empty (generation + 1) (by omega) (by omega), get_empty]
    · exact h.layer n hlt hold k

theorem put (h : RingInv serialize l flush generation flushed log) {p : ℕ}
    (hopen : flushed + flush.closed < p) (hp : p ≤ generation) :
    RingInv serialize (l.setCache (slot p) ((l.cache.caches (slot p)).put k item)) flush generation
      flushed (⟨p, k, item⟩ :: log) := by
  have hemptied : flush.emptied ≤ flush.settled ∧ flush.settled ≤ flush.closed := by
    cases flush <;> simp [Flush.emptied, Flush.settled, Flush.closed]
  obtain ⟨hemptied, hsettled⟩ := hemptied
  have hroom := h.room
  have hother : ∀ n, flushed + flush.emptied < n → n ≤ flushed + flush.emptied + 6 → n ≠ p →
      slot n ≠ slot p :=
    fun n hlt hle hne => slot_ne hlt hle (by omega) (by omega) hne
  refine { h with
    logged := ?_
    layer := ?_
    empty := ?_
    stored := ?_
    snapshot := ?_ }
  · intro q hq
    rcases mem_cons.mp hq with rfl | hq
    · exact hp
    · exact h.logged q hq
  · intro n hlt hle k'
    rw [lastPut_cons]
    by_cases hn : n = p
    · subst hn
      rw [setCache_self, get_put, h.layer n hlt hle]
      simp only [true_and, eq_comm]
    · rw [setCache_of_ne _ (hother n hlt (by omega) hn), h.layer n hlt hle,
        if_neg fun heq => hn heq.1.symm]
  · intro n hlt hle
    rw [setCache_of_ne _ (hother n (by omega) hle (by omega)), h.empty n hlt hle]
  · intro k'
    rw [newestPut_cons (by dsimp only; omega)]
    exact h.stored k'
  · rintro c rfl
    have hclosed : flushed + 1 < p := hopen
    rw [setCache_of_ne _ (hother (flushed + 1) (Nat.lt_succ_self _) (by omega) (by omega))]
    exact h.snapshot c rfl

theorem pick (h : RingInv serialize l .idle generation flushed log)
    (hnext : l.cache.readIndex + 1 ≠ l.cache.writeIndex) :
    RingInv serialize l .waiting generation flushed log := by
  refine { h with picked := fun _ => ?_, snapshot := nofun }
  have hahead := h.ahead
  have hne : flushed + 1 ≠ generation := by
    intro heq
    rw [h.readIndex, h.writeIndex, slot_succ, heq] at hnext
    exact hnext rfl
  omega

theorem pass (h : RingInv serialize l .waiting generation flushed log) :
    RingInv serialize l .passed generation flushed log :=
  { h with picked := fun _ => h.picked nofun, snapshot := nofun }

theorem readIndex_succ (h : RingInv serialize l flush generation flushed log) :
    l.cache.readIndex + 1 = slot (flushed + 1) := by
  rw [h.readIndex, slot_succ]

theorem dump (h : RingInv serialize l .passed generation flushed log) :
    RingInv serialize l (.dumped (l.cache.caches (l.cache.readIndex + 1))) generation flushed log := by
  refine { h with picked := fun _ => h.picked nofun, snapshot := ?_ }
  rintro c ⟨⟩
  rw [h.readIndex_succ]

theorem skip (h : RingInv serialize l .passed generation flushed log)
    (hempty : (l.cache.caches (l.cache.readIndex + 1)).entries.length = 0) :
    RingInv serialize l .cleared generation flushed log := by
  have hpicked := h.picked nofun
  have hcache : l.cache.caches (slot (flushed + 1)) = ∅ := by
    rw [← h.readIndex_succ]
    exact AList.ext (length_eq_zero_iff.mp hempty)
  refine { h with
    picked := fun _ => hpicked
    layer := fun n hlt hle => h.layer n (Nat.lt_of_succ_lt hlt) hle
    empty := ?_
    stored := ?_
    snapshot := nofun }
  · intro n hlt hle
    rcases Nat.lt_or_ge (flushed + 6) n with hnew | hold
    · obtain rfl : n = flushed + 1 + 6 := by simp only [Flush.emptied] at hle; omega
      rw [slot_add_six]
      exact hcache
    · exact h.empty n hlt hold
  · intro k
    have hnone := h.layer (flushed + 1) (Nat.lt_succ_self _) hpicked.le k
    rw [hcache, get_empty] at hnone
    have hstored := h.stored k
    change Stores serialize l k (newestPut log (flushed + 1) k)
    rw [newestPut, ← hnone, none_or]
    exact hstored

theorem write {snapshot : Cache K Obj} {store : Table K Bytes}
    (h : RingInv serialize l (.dumped snapshot) generation flushed log)
    (hsettle : Layers.settle (CacheItem.dumpToLevelDb serialize) snapshot l.store = some store) :
    RingInv serialize { l with store := store } .written generation flushed log := by
  have hpicked := h.picked nofun
  refine { h with picked := fun _ => hpicked, stored := ?_, snapshot := nofun }
  intro k
  have hget := Layers.get_settle hsettle k
  have hstored := h.stored k
  rw [h.snapshot snapshot rfl, h.layer (flushed + 1) (Nat.lt_succ_self _) hpicked.le] at hget
  change Stores serialize _ k (newestPut log (flushed + 1) k)
  rw [newestPut]
  cases hlast : lastPut log (flushed + 1) k with
  | none =>
    rw [hlast] at hget
    exact hstored.trans hget
  | some item =>
    rw [hlast] at hget
    exact hget

theorem clear (h : RingInv serialize l .written generation flushed log) :
    RingInv serialize (l.setCache (l.cache.readIndex + 1) ∅) .cleared generation flushed log := by
  have hpicked := h.picked nofun
  have hroom := h.room
  have hother : ∀ n, flushed + 1 < n → n ≤ flushed + 6 → slot n ≠ l.cache.readIndex + 1 := by
    intro n hlt hle
    rw [h.readIndex_succ]
    exact slot_ne (Nat.lt_of_succ_lt hlt) hle (Nat.lt_succ_self _) (by omega) (by omega)
  refine { h with
    picked := fun _ => hpicked
    layer := ?_
    empty := ?_
    stored := h.stored
    snapshot := nofun }
  · intro n hlt hle k
    change flushed + 1 < n at hlt
    rw [setCache_of_ne _ (hother n hlt (by omega)), h.layer n (Nat.lt_of_succ_lt hlt) hle]
  · intro n hlt hle
    change n ≤ flushed + 1 + 6 at hle
    rcases Nat.lt_or_ge (flushed + 6) n with hnew | hold
    · obtain rfl : n = flushed + 1 + 6 := by omega
      rw [slot_add_six, h.readIndex_succ, setCache_self]
    · rw [setCache_of_ne _ (hother n (by omega) hold), h.empty n hlt hold]

theorem advance (h : RingInv serialize l .cleared generation flushed log) :
    RingInv serialize
      { l with cache := { l.cache with readIndex := l.cache.readIndex + 1 } }
      .idle generation (flushed + 1) log where
  writeIndex := h.writeIndex
  readIndex := h.readIndex_succ
  ahead := h.picked nofun
  room := Nat.le_succ_of_le h.room
  picked hidle := absurd rfl hidle
  logged := h.logged
  layer := h.layer
  empty := h.empty
  stored := h.stored
  snapshot := nofun

end RingInv

/-! ## The calls over a run -/

def Phase.Uses (i : CacheIndex) : Phase K Obj → Prop
  | .copying j _ _ _ => j = i
  | _ => False

def Logged (log : List (Put K Obj)) (since : ℕ) (k : K) (item : CacheItem Obj) : Prop :=
  ∃ p ∈ log, p.key = k ∧ p.item = item ∧ since ≤ p.generation

/-- What holds of a call; one that copies does so into a generation after `closed`. -/
def Phase.Ok (closed generation : ℕ) (log : List (Put K Obj)) : Phase K Obj → Prop
  | .idle => True
  | .chosen i since _ => i = slot since ∧ since ≤ generation
  | .copying i since batch rest =>
    (∃ p, i = slot p ∧ closed < p ∧ p ≤ generation ∧ since ≤ p) ∧
      ∀ k item, batch.get k = some item → rest.get k = some item ∨ Logged log since k item
  | .returned since batch => ∀ k item, batch.get k = some item → Logged log since k item

variable {since : ℕ}

omit [DecidableEq K] in
theorem Logged.cons {log : List (Put K Obj)} (h : Logged log since k item) (p : Put K Obj) :
    Logged (p :: log) since k item := by
  obtain ⟨q, hq, hfacts⟩ := h
  exact ⟨q, mem_cons_of_mem p hq, hfacts⟩

namespace Phase.Ok

variable {closed generation : ℕ} {log : List (Put K Obj)} {ph : Phase K Obj}

variable (h : ph.Ok closed generation log)

include h

theorem rotate : ph.Ok closed (generation + 1) log := by
  cases ph with
  | idle => trivial
  | chosen i since batch => exact ⟨h.1, Nat.le_succ_of_le h.2⟩
  | copying i since batch rest =>
    obtain ⟨⟨p, hi, hclosed, hp, hsince⟩, hbatch⟩ := h
    exact ⟨⟨p, hi, hclosed, Nat.le_succ_of_le hp, hsince⟩, hbatch⟩
  | returned since batch => exact h

theorem cons (p : Put K Obj) : ph.Ok closed generation (p :: log) := by
  cases ph with
  | idle => trivial
  | chosen i since batch => exact h
  | copying i since batch rest =>
    exact ⟨h.1, fun k item hitem => (h.2 k item hitem).imp_right fun hlog => hlog.cons p⟩
  | returned since batch => exact fun k item hitem => (h k item hitem).cons p

theorem close (hfree : ¬ ph.Uses (slot (closed + 1))) : ph.Ok (closed + 1) generation log := by
  cases ph with
  | idle => trivial
  | chosen i since batch => exact h
  | copying i since batch rest =>
    obtain ⟨⟨p, rfl, hclosed, hp, hsince⟩, hbatch⟩ := h
    have hne : p ≠ closed + 1 := by
      rintro rfl
      exact hfree rfl
    exact ⟨⟨p, rfl, by omega, hp, hsince⟩, hbatch⟩
  | returned since batch => exact h

end Phase.Ok

structure CallInv (quote : CacheIndex → ℕ) (writer : W → Phase K Obj) (closed generation : ℕ)
    (log : List (Put K Obj)) : Prop where
  users : ∀ i, ∃ S : Finset W, (∀ w, w ∈ S ↔ (writer w).Uses i) ∧ quote i = S.card
  phases : ∀ w, (writer w).Ok closed generation log

variable {batch : Cache K Obj}

namespace CallInv

variable {quote : CacheIndex → ℕ} {writer : W → Phase K Obj} {closed generation : ℕ}
variable {log : List (Put K Obj)} {w : W} {ph : Phase K Obj}

omit [DecidableEq W] in
theorem init : CallInv (fun _ => 0) (fun _ : W => (.idle : Phase K Obj)) 0 1 [] where
  users i := ⟨∅, by simp [Phase.Uses], rfl⟩
  phases _ := trivial

omit [DecidableEq W] in
theorem rotate (h : CallInv quote writer closed generation log) :
    CallInv quote writer closed (generation + 1) log where
  users := h.users
  phases w := (h.phases w).rotate

omit [DecidableEq W] in
theorem close (h : CallInv quote writer closed generation log)
    (hfree : quote (slot (closed + 1)) = 0) :
    CallInv quote writer (closed + 1) generation log where
  users := h.users
  phases w := by
    obtain ⟨S, hS, hcard⟩ := h.users (slot (closed + 1))
    rw [hfree, eq_comm, card_eq_zero] at hcard
    refine (h.phases w).close ?_
    rw [← hS, hcard]
    exact notMem_empty w

theorem update (h : CallInv quote writer closed generation log)
    (hph : ph.Ok closed generation log) (w : W) :
    ∀ w', (Function.update writer w ph w').Ok closed generation log := by
  intro w'
  by_cases hw : w' = w
  · subst hw
    rwa [update_self]
  · rw [update_of_ne hw]
    exact h.phases w'

theorem continues (h : CallInv quote writer closed generation log)
    (huses : ∀ i, ph.Uses i ↔ (writer w).Uses i) (hph : ph.Ok closed generation log) :
    CallInv quote (Function.update writer w ph) closed generation log where
  users i := by
    obtain ⟨S, hS, hcard⟩ := h.users i
    refine ⟨S, fun w' => ?_, hcard⟩
    rw [hS]
    by_cases hw : w' = w
    · subst hw
      rw [update_self, huses]
    · rw [update_of_ne hw]
  phases := h.update hph w

omit [DecidableEq W] in
theorem put (h : CallInv quote writer closed generation log) (p : Put K Obj) :
    CallInv quote writer closed generation (p :: log) where
  users := h.users
  phases w := (h.phases w).cons p

theorem register (h : CallInv quote writer closed generation log)
    (hw : writer w = .chosen i since batch)
    (hopen : ∃ p, i = slot p ∧ closed < p ∧ p ≤ generation ∧ since ≤ p) :
    CallInv (Function.update quote i (quote i + 1))
      (Function.update writer w (.copying i since batch batch)) closed generation log where
  users j := by
    obtain ⟨S, hS, hcard⟩ := h.users j
    have hnot : w ∉ S := by
      rw [hS, hw]
      exact id
    by_cases hj : j = i
    · subst hj
      refine ⟨insert w S, fun w' => ?_, ?_⟩
      · rw [mem_insert, hS]
        by_cases hw' : w' = w
        · subst hw'
          simp [Phase.Uses]
        · simp [hw']
      · rw [update_self, hcard, card_insert_of_notMem hnot]
    · refine ⟨S, fun w' => ?_, ?_⟩
      · rw [hS]
        by_cases hw' : w' = w
        · subst hw'
          simp [Phase.Uses, hw, Ne.symm hj]
        · simp [hw']
      · rw [update_of_ne hj, hcard]
  phases := by
    have hph : (Phase.copying i since batch batch).Ok closed generation log :=
      ⟨hopen, fun k item hitem => Or.inl hitem⟩
    exact h.update hph w

theorem release {rest : Cache K Obj} (h : CallInv quote writer closed generation log)
    (hw : writer w = .copying i since batch rest) (hrest : rest.entries.length = 0) :
    CallInv (Function.update quote i (quote i - 1))
      (Function.update writer w (.returned since batch)) closed generation log where
  users j := by
    obtain ⟨S, hS, hcard⟩ := h.users j
    by_cases hj : j = i
    · subst hj
      have hmem : w ∈ S := by
        rw [hS, hw]
        rfl
      refine ⟨S.erase w, fun w' => ?_, ?_⟩
      · rw [mem_erase, hS]
        by_cases hw' : w' = w
        · subst hw'
          simp [Phase.Uses]
        · simp [hw']
      · rw [update_self, hcard, card_erase_of_mem hmem]
    · refine ⟨S, fun w' => ?_, ?_⟩
      · rw [hS]
        by_cases hw' : w' = w
        · subst hw'
          simp [Phase.Uses, hw, Ne.symm hj]
        · simp [hw']
      · rw [update_of_ne hj, hcard]
  phases := by
    have hok := h.phases w
    rw [hw] at hok
    have hph : (Phase.returned since batch).Ok closed generation log := by
      intro k item hitem
      refine (hok.2 k item hitem).resolve_left fun hleft => ?_
      have hempty : rest = ∅ := AList.ext (length_eq_zero_iff.mp hrest)
      rw [hempty, get_empty] at hleft
      cases hleft
    exact h.update hph w

end CallInv

structure Inv (serialize : Obj → Option Bytes) (s : State K Obj W) : Prop where
  ring : RingInv serialize s.l s.flush s.generation s.flushed s.log
  calls : CallInv s.quote s.writer (s.flushed + s.flush.closed) s.generation s.log

namespace Inv

variable {serialize : Obj → Option Bytes} {s s' : State K Obj W}

omit [DecidableEq W] in
theorem getCache (h : Inv serialize s) {passed : Bool} (hget : s.getCache passed = some s') :
    Inv serialize s' ∧ s'.writer = s.writer := by
  obtain ⟨lc, hlc, rfl⟩ := map_eq_some_iff.mp hget
  unfold MemoryCache.getCache at hlc
  dsimp only at hlc
  split_ifs at hlc with _ hnext
  · cases hlc
    have hmoved : ∀ i : CacheIndex, i + 1 ≠ i := by decide
    refine ⟨⟨?_, ?_⟩, rfl⟩
    · simpa only [hmoved, if_false] using h.ring.rotate hnext
    · simpa only [hmoved, if_false] using h.calls.rotate
  · cases hlc
    refine ⟨⟨?_, ?_⟩, rfl⟩
    · simpa only [if_true] using h.ring
    · simpa only [if_true] using h.calls

omit [DecidableEq W] in
theorem exists_open (h : Inv serialize s) {w : W} (hw : s.writer w = .chosen i since batch)
    (hidle : ¬ s.l.cache.Idle i) (hwaits : i = s.l.cache.readIndex + 1 → s.flush.Waits) :
    ∃ p, i = slot p ∧ s.flushed + s.flush.closed < p ∧ p ≤ s.generation ∧ since ≤ p := by
  have hok := h.calls.phases w
  rw [hw] at hok
  obtain ⟨hi, hsince⟩ := hok
  rw [MemoryCache.Idle, h.ring.writeIndex, h.ring.readIndex, Nat.not_le] at hidle
  obtain ⟨p, hip, hflushed, hp⟩ := exists_slot h.ring.ahead h.ring.room hidle
  have hroom := h.ring.room
  refine ⟨p, hip, ?_, hp, ?_⟩
  · rw [h.ring.readIndex_succ, hip] at hwaits
    by_cases hnext : p = s.flushed + 1
    · have hopen := hwaits (by rw [hnext])
      cases hflush : s.flush <;> rw [hflush] at hopen <;> simp only [Flush.closed] <;>
        first | omega | exact absurd hopen id
    · have hclosed : s.flush.closed ≤ 1 := by cases s.flush <;> simp [Flush.closed]
      omega
  · -- an older generation at the same position would have been flushed
    by_contra hlt
    have heq := slot_inj (hip.symm.trans hi) (by omega) (by omega)
    omega

omit [DecidableEq W] in
theorem generationAt_slot (h : Inv serialize s) {p : ℕ} (hopen : s.flushed < p)
    (hp : p ≤ s.generation) : s.generationAt (slot p) = p := by
  have hroom := h.ring.room
  rw [State.generationAt, h.ring.writeIndex, slot_sub hp (by omega)]
  omega

theorem copy (h : Inv serialize s) {w : W} {rest : Cache K Obj}
    (hw : s.writer w = .copying i since batch rest) (hitem : rest.get k = some item) :
    Inv serialize ((s.putItem i k item).setWriter w (.copying i since batch (rest.delete k))) := by
  have hok := h.calls.phases w
  rw [hw] at hok
  obtain ⟨⟨p, rfl, hopen, hp, hsince⟩, hbatch⟩ := hok
  have hgeneration := h.generationAt_slot (by omega) hp
  constructor
  · unfold State.putItem State.setWriter
    rw [hgeneration]
    exact h.ring.put hopen hp
  · refine (h.calls.put ⟨s.generationAt (slot p), k, item⟩).continues ?_ ?_
    · intro j
      rw [hw]
      rfl
    · refine ⟨⟨p, rfl, hopen, hp, hsince⟩, fun k' item' hitem' => ?_⟩
      by_cases hk : k' = k
      · subst hk
        rcases hbatch k' item' hitem' with hrest | hlog
        · rw [hitem] at hrest
          cases hrest
          exact Or.inr ⟨_, mem_cons_self, rfl, rfl, by rw [hgeneration]; exact hsince⟩
        · exact Or.inr (hlog.cons _)
      · rw [get_delete_of_ne _ hk]
        exact (hbatch k' item' hitem').imp_right fun hlog => hlog.cons _

theorem step {a : Action K Obj W} (h : Inv serialize s) (htime : InTime s a)
    (hstep : s.step serialize a = some s') : Inv serialize s' := by
  unfold State.step at hstep
  cases a with
  | choose w passed batch =>
    dsimp only at hstep
    split at hstep
    · rename_i hidle
      obtain ⟨s₁, hget, rfl⟩ := map_eq_some_iff.mp hstep
      obtain ⟨h₁, hwriter⟩ := h.getCache hget
      refine ⟨h₁.ring, h₁.calls.continues (fun i => ?_) ⟨h₁.ring.writeIndex, Nat.le_refl _⟩⟩
      rw [hwriter, hidle]
      rfl
    · cases hstep
  | register w =>
    dsimp only at hstep
    split at hstep
    · rename_i i since batch hw
      cases hstep
      simp only [InTime, hw] at htime
      exact ⟨h.ring, h.calls.register hw (h.exists_open hw htime.1 htime.2)⟩
    · cases hstep
  | copy w k =>
    dsimp only at hstep
    split at hstep
    · rename_i i since batch rest hw
      obtain ⟨item, hitem, rfl⟩ := map_eq_some_iff.mp hstep
      exact h.copy hw hitem
    · cases hstep
  | release w =>
    dsimp only at hstep
    split at hstep
    · rename_i i since batch rest hw
      split_ifs at hstep with hrest
      cases hstep
      exact ⟨h.ring, h.calls.release hw hrest⟩
    · cases hstep
  | rotate passed => exact (h.getCache hstep).1
  | pick =>
    dsimp only at hstep
    split at hstep
    · rename_i hflush
      split_ifs at hstep with hnext
      cases hstep
      obtain ⟨hring, hcalls⟩ := h
      rw [hflush] at hring hcalls
      exact ⟨hring.pick hnext, hcalls⟩
    · cases hstep
  | pass =>
    dsimp only at hstep
    split at hstep
    · rename_i hflush
      split_ifs at hstep with hquote
      cases hstep
      obtain ⟨hring, hcalls⟩ := h
      rw [hflush] at hring hcalls
      rw [hring.readIndex_succ] at hquote
      exact ⟨hring.pass, hcalls.close hquote⟩
    · cases hstep
  | dump =>
    dsimp only at hstep
    split at hstep
    · rename_i hflush
      obtain ⟨hring, hcalls⟩ := h
      rw [hflush] at hring hcalls
      split_ifs at hstep with hempty
      · cases hstep
        exact ⟨hring.skip hempty, hcalls⟩
      · cases hstep
        exact ⟨hring.dump, hcalls⟩
    · cases hstep
  | write =>
    dsimp only at hstep
    split at hstep
    · rename_i snapshot hflush
      obtain ⟨store, hsettle, rfl⟩ := map_eq_some_iff.mp hstep
      obtain ⟨hring, hcalls⟩ := h
      rw [hflush] at hring hcalls
      exact ⟨hring.write hsettle, hcalls⟩
    · cases hstep
  | clear =>
    dsimp only at hstep
    split at hstep
    · rename_i hflush
      cases hstep
      obtain ⟨hring, hcalls⟩ := h
      rw [hflush] at hring hcalls
      exact ⟨hring.clear, hcalls⟩
    · cases hstep
  | advance =>
    dsimp only at hstep
    split at hstep
    · rename_i hflush
      cases hstep
      obtain ⟨hring, hcalls⟩ := h
      rw [hflush] at hring hcalls
      exact ⟨hring.advance, hcalls⟩
    · cases hstep

end Inv

variable {serialize : Obj → Option Bytes} {s : State K Obj W}

theorem Reaches.inv (h : Reaches serialize s) : Inv serialize s := by
  induction h with
  | init => exact ⟨RingInv.init, CallInv.init⟩
  | step _ htime hstep ih => exact ih.step htime hstep

/-- If every call registers before the flush of the cache it chose gets past the wait, then
every key shows its newest put, the puts of the calls that returned among them, and a call puts
into no cache older than the one it asked for. -/
theorem returned_batches_visible {serialize : Obj → Option Bytes} {s : State K Obj W}
    (h : Reaches serialize s) :
    (∀ k, Shows serialize s.l k (newestPut s.log s.generation k)) ∧
      (∀ p ∈ s.log, p.generation ≤ s.generation) ∧
      ∀ w since batch, s.writer w = .returned since batch →
        ∀ k item, batch.get k = some item → Logged s.log since k item := by
  refine ⟨h.inv.ring.shows, h.inv.ring.logged, fun w since batch hw => ?_⟩
  have hok := h.inv.calls.phases w
  rwa [hw] at hok

/-! ## A call that registers too late -/

def run (serialize : Obj → Option Bytes) (actions : List (Action K Obj W)) :
    Option (State K Obj W) :=
  actions.foldlM (State.step serialize) init

def call (w k : ℕ) (b : UInt8) : List (Action ℕ Unit ℕ) :=
  [.choose w false (Table.put ∅ k (.value (.bytes [b]))), .register w, .copy w k, .release w]

def rotateAndFlush : List (Action ℕ Unit ℕ) :=
  [.rotate true, .pick, .pass, .dump, .write, .clear, .advance]

/-- The second call asks for the write cache before the rotation and registers after the flush. -/
theorem late_batch_lost :
    ∃ s, run (fun _ => some []) (call 0 1 7 ++ (call 1 2 8).take 1 ++ rotateAndFlush ++
        (call 1 2 8).drop 1) = some s ∧
      s.writer 1 = .returned 1 (Table.put ∅ 2 (.value (.bytes [8]))) ∧
      s.l.get 2 none = .keyNotFound := by
  refine ⟨_, rfl, ?_, ?_⟩
  · rfl
  · decide

def runInTime (serialize : Obj → Option Bytes) (actions : List (Action K Obj W)) :
    Option (State K Obj W) :=
  actions.foldlM (fun s a => if InTime s a then s.step serialize a else none) init

theorem reaches_of_runInTime {actions : List (Action K Obj W)}
    (hrun : runInTime serialize actions = some s) : Reaches serialize s := by
  unfold runInTime at hrun
  have hinit : Reaches serialize (init : State K Obj W) := .init
  generalize (init : State K Obj W) = s₀ at hrun hinit
  induction actions generalizing s₀ with
  | nil =>
    cases hrun
    exact hinit
  | cons a actions ih =>
    rw [foldlM_cons] at hrun
    obtain ⟨s₁, hstep, hrest⟩ := bind_eq_some_iff.mp hrun
    split_ifs at hstep with htime
    exact ih s₁ hrest (hinit.step htime hstep)

/-- A call that registers at once is read after its cache has been flushed. -/
theorem prompt_batch_read :
    ∃ s, runInTime (fun _ : Unit => some []) (call 0 1 7 ++ rotateAndFlush) = some s ∧
      s.writer 0 = .returned 1 (Table.put ∅ 1 (.value (.bytes [7]))) ∧
      Shows (fun _ : Unit => some []) s.l 1 (some (.value (.bytes [7]))) ∧
      s.l.cache.get 1 = none := by
  refine ⟨_, rfl, rfl, ?_, by decide⟩
  exact (returned_batches_visible (reaches_of_runInTime
    (show runInTime _ (call 0 1 7 ++ rotateAndFlush) = some _ from rfl))).1 1

end Rotation

end GoQlc
