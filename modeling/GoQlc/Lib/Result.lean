import Mathlib.Data.List.Basic

/-!
# Computations that may fail

When a composed computation succeeds, each of its parts did.
-/

namespace GoQlc.Result

variable {ε ε' α β : Type}

variable {x : Except ε α}

theorem bind_eq_ok {f : α → Except ε β} {b : β} :
    (x >>= f) = .ok b ↔ ∃ a, x = .ok a ∧ f a = .ok b := by
  cases x with
  | error e | ok a => simp [bind, Except.bind]

theorem seq_eq_ok {x : Except ε Unit} {y : Except ε β} {b : β} :
    (x >>= fun _ => y) = .ok b ↔ x = .ok () ∧ y = .ok b := by
  rw [bind_eq_ok]
  exact ⟨fun ⟨_, hx, hy⟩ => ⟨hx, hy⟩, fun ⟨hx, hy⟩ => ⟨(), hx, hy⟩⟩

theorem seq_eq_error {x : Except ε Unit} {y : Except ε β} {e : ε} :
    (x >>= fun _ => y) = .error e ↔ x = .error e ∨ x = .ok () ∧ y = .error e := by
  cases x with
  | error e' | ok u => simp [bind, Except.bind]

theorem map_eq_ok {f : α → β} {b : β} : x.map f = .ok b ↔ ∃ a, x = .ok a ∧ f a = b := by
  cases x with
  | error e | ok a => simp [Except.map]

theorem mapError_eq_ok {f : ε → ε'} {a : α} : x.mapError f = .ok a ↔ x = .ok a := by
  cases x with
  | error e => constructor <;> rintro ⟨⟩
  | ok a => constructor <;> rintro ⟨⟩ <;> rfl

theorem toOption_eq_some {a : α} : x.toOption = some a ↔ x = .ok a := by
  cases x with
  | error e | ok b => simp [Except.toOption]

theorem ite_error_eq_ok {p : Prop} [Decidable p] {e : ε} {a : α} :
    (if p then .error e else x) = .ok a ↔ ¬ p ∧ x = .ok a := by
  by_cases hp : p <;> simp [hp]

theorem ite_ok_eq_ok {p : Prop} [Decidable p] {e : ε} {a b : α} :
    (if p then .ok a else .error e : Except ε α) = .ok b ↔ p ∧ a = b := by
  by_cases hp : p <;> simp [hp]

end GoQlc.Result

/-! ## Steps that need records and leave records -/

namespace GoQlc.Demand

variable {σ ι κ ε : Type} {step : σ → ι → Except ε σ} {has : σ → κ → Prop} {sound : ι → Prop}
  {needs gives : ι → κ → Prop}

structure Law (step : σ → ι → Except ε σ) (has : σ → κ → Prop) (sound : ι → Prop)
    (needs gives : ι → κ → Prop) : Prop where
  ok_iff : ∀ s x, (∃ s', step s x = .ok s') ↔ sound x ∧ ∀ k, needs x k → has s k
  has_iff : ∀ {s x s'}, step s x = .ok s' → ∀ k, has s' k ↔ has s k ∨ gives x k

def Met (has : σ → κ → Prop) (sound : ι → Prop) (needs gives : ι → κ → Prop) (s : σ)
    (xs : List ι) : Prop :=
  ∀ before x after, xs = before ++ x :: after →
    sound x ∧ ∀ k, needs x k → has s k ∨ ∃ y ∈ before, gives y k

theorem Met.head {s : σ} {x : ι} {xs : List ι} (h : Met has sound needs gives s (x :: xs)) :
    sound x ∧ ∀ k, needs x k → has s k := by
  obtain ⟨hsound, hneeds⟩ := h [] x xs rfl
  refine ⟨hsound, fun k hk => ?_⟩
  obtain hhas | ⟨y, hy, -⟩ := hneeds k hk
  · exact hhas
  · exact absurd hy List.not_mem_nil

theorem Law.met_cons (law : Law step has sound needs gives) {s s' : σ} {x : ι} {xs : List ι}
    (hstep : step s x = .ok s') :
    Met has sound needs gives s (x :: xs) ↔ Met has sound needs gives s' xs := by
  constructor
  · intro h before y after hsplit
    obtain ⟨hsound, hneeds⟩ := h (x :: before) y after (congrArg (List.cons x) hsplit)
    refine ⟨hsound, fun k hk => ?_⟩
    obtain hhas | ⟨z, hz, hgives⟩ := hneeds k hk
    · exact .inl ((law.has_iff hstep k).mpr (.inl hhas))
    · rcases List.mem_cons.mp hz with rfl | hz
      · exact .inl ((law.has_iff hstep k).mpr (.inr hgives))
      · exact .inr ⟨z, hz, hgives⟩
  · intro h before y after hsplit
    cases before with
    | nil =>
      obtain ⟨rfl, rfl⟩ := List.cons.inj hsplit
      obtain ⟨hsound, hneeds⟩ := (law.ok_iff s x).mp ⟨s', hstep⟩
      exact ⟨hsound, fun k hk => .inl (hneeds k hk)⟩
    | cons z before =>
      obtain ⟨rfl, hrest⟩ := List.cons.inj hsplit
      obtain ⟨hsound, hneeds⟩ := h before y after hrest
      refine ⟨hsound, fun k hk => ?_⟩
      obtain hhas | ⟨w, hw, hgives⟩ := hneeds k hk
      · obtain hhas | hgives := (law.has_iff hstep k).mp hhas
        · exact .inl hhas
        · exact .inr ⟨x, List.mem_cons_self, hgives⟩
      · exact .inr ⟨w, List.mem_cons_of_mem _ hw, hgives⟩

theorem Law.run_ok_iff (law : Law step has sound needs gives) (xs : List ι) (s : σ) :
    (∃ s', xs.foldlM step s = .ok s') ↔ Met has sound needs gives s xs := by
  induction xs generalizing s with
  | nil =>
    refine ⟨fun _ before x after hsplit => ?_, fun _ => ⟨s, rfl⟩⟩
    simp at hsplit
  | cons x xs ih =>
    constructor
    · rintro ⟨s', hrun⟩
      rw [List.foldlM_cons] at hrun
      obtain ⟨s₁, hstep, hrest⟩ := Result.bind_eq_ok.mp hrun
      exact (law.met_cons hstep).mpr ((ih s₁).mp ⟨s', hrest⟩)
    · intro hmet
      obtain ⟨s₁, hstep⟩ := (law.ok_iff s x).mpr hmet.head
      obtain ⟨s', hrest⟩ := (ih s₁).mpr ((law.met_cons hstep).mp hmet)
      refine ⟨s', ?_⟩
      rw [List.foldlM_cons]
      exact Result.bind_eq_ok.mpr ⟨s₁, hstep, hrest⟩

end GoQlc.Demand

/-! ## Failing computations with a state -/

namespace GoQlc.Effect

variable {ε σ α β : Type} {x : EStateM ε σ α} {f : α → EStateM ε σ β} {s s' : σ}

def final : EStateM.Result ε σ α → σ
  | .ok _ s => s
  | .error _ s => s

theorem bind_apply : (x >>= f) s =
    match x s with
    | .ok a s => f a s
    | .error e s => .error e s := rfl

theorem bind_eq_ok {b : β} :
    (x >>= f) s = .ok b s' ↔ ∃ a s₁, x s = .ok a s₁ ∧ f a s₁ = .ok b s' := by
  rw [bind_apply]
  constructor
  · intro h
    cases hx : x s with
    | ok a s₁ =>
      rw [hx] at h
      exact ⟨a, s₁, rfl, h⟩
    | error e s₁ =>
      rw [hx] at h
      cases h
  · rintro ⟨a, s₁, hx, h⟩
    rw [hx]
    exact h

theorem bind_of_ok {a : α} {s₁ : σ} (h : x s = .ok a s₁) : (x >>= f) s = f a s₁ := by
  rw [bind_apply, h]

theorem bind_of_error {e : ε} {s₁ : σ} (h : x s = .error e s₁) :
    (x >>= f) s = .error e s₁ := by
  rw [bind_apply, h]

theorem get_bind {f : σ → EStateM ε σ β} : (get >>= f) s = f s s := rfl

theorem forM_cons_bind {f : α → EStateM ε σ PUnit} {a : α} {as : List α}
    {rest : PUnit → EStateM ε σ β} :
    ((a :: as).forM f >>= rest) = f a >>= fun _ => as.forM f >>= rest := by
  change (f a >>= fun _ => as.forM f) >>= rest = _
  rw [bind_assoc]

theorem forM_append {f : α → EStateM ε σ PUnit} {as bs : List α} :
    (as ++ bs).forM f = as.forM f >>= fun _ => bs.forM f := by
  induction as with
  | nil => rfl
  | cons a as ih =>
    rw [forM_cons_bind]
    change (f a >>= fun _ => (as ++ bs).forM f) = _
    rw [ih]

theorem final_bind_pure {f : α → β} :
    final ((x >>= fun a => (pure (f a) : EStateM ε σ β)) s) = final (x s) := by
  rw [bind_apply]
  cases x s <;> rfl

/-- Whatever comes out, the state moves along `R`. -/
def Keeps (R : σ → σ → Prop) (x : EStateM ε σ α) : Prop := ∀ s, R s (final (x s))

namespace Keeps

variable {R : σ → σ → Prop}

theorem bind_at [IsTrans σ R] (hx : Keeps R x)
    (hf : ∀ a s₁, x s = .ok a s₁ → R s₁ (final (f a s₁))) : R s (final ((x >>= f) s)) := by
  have hxs := hx s
  rw [bind_apply]
  cases h : x s with
  | ok a s₁ =>
    rw [h] at hxs
    exact IsTrans.trans _ _ _ hxs (hf a s₁ h)
  | error e s₁ =>
    rw [h] at hxs
    exact hxs

theorem bind [IsTrans σ R] (hx : Keeps R x) (hf : ∀ a, Keeps R (f a)) : Keeps R (x >>= f) :=
  fun _ => hx.bind_at fun a s₁ _ => hf a s₁

theorem of_ok (hx : Keeps R x) {a : α} (h : x s = .ok a s') : R s s' := by
  have hxs := hx s
  rw [h] at hxs
  exact hxs

theorem pure [Std.Refl R] (a : α) : Keeps R (Pure.pure a : EStateM ε σ α) := fun s => refl s

theorem throw [Std.Refl R] (e : ε) : Keeps R (throw e : EStateM ε σ α) := fun s => refl s

theorem modify {g : σ → σ} (h : ∀ s, R s (g s)) : Keeps R (modify g : EStateM ε σ PUnit) := h

theorem forM [Std.Refl R] [IsTrans σ R] {f : α → EStateM ε σ PUnit} (hf : ∀ a, Keeps R (f a))
    (as : List α) : Keeps R (as.forM f) := by
  induction as with
  | nil => exact pure _
  | cons a as ih => exact bind (hf a) fun _ => ih

end Keeps

end GoQlc.Effect

/-! ## Computations that may fault -/

namespace GoQlc

inductive Panic where
  | nilPointer
  | outOfRange
  | divideByZero
deriving DecidableEq, Repr

inductive Halt (ε : Type) where
  | panic (fault : Panic)
  | reject (error : ε)
deriving DecidableEq, Repr

namespace Halt

variable {ε α β : Type}

def Safe (x : Except (Halt ε) α) : Prop := ∀ fault, x ≠ .error (.panic fault)

def Plain (x : Except (Halt ε) α) : Prop := ∀ e, x ≠ .error (.reject e)

def deref (p : Option α) : Except (Halt ε) α :=
  match p with
  | none => .error (.panic .nilPointer)
  | some a => .ok a

def index (xs : List α) (i : ℕ) : Except (Halt ε) α :=
  match xs[i]? with
  | none => .error (.panic .outOfRange)
  | some a => .ok a

/-- The elements `lo`, …, `hi - 1`. -/
def slice (xs : List α) (lo hi : ℕ) : Except (Halt ε) (List α) :=
  if lo ≤ hi ∧ hi ≤ xs.length then .ok ((xs.take hi).drop lo)
  else .error (.panic .outOfRange)

def rem (a b : UInt32) : Except (Halt ε) UInt32 :=
  if b = 0 then .error (.panic .divideByZero) else .ok (a % b)

def require (c : Prop) [Decidable c] (error : ε) : Except (Halt ε) Unit :=
  if c then .ok () else .error (.reject error)

def derefAll : List (Option α) → Except (Halt ε) (List α)
  | [] => .ok []
  | p :: ps => do
    let a ← deref p
    let as ← derefAll ps
    return a :: as

variable {x : Except (Halt ε) α} {f : α → Except (Halt ε) β}

theorem safe_bind : Safe (x >>= f) ↔ Safe x ∧ ∀ a, x = .ok a → Safe (f a) := by
  cases x with
  | error h | ok a => simp [Safe, bind, Except.bind]

theorem safe_seq {x : Except (Halt ε) Unit} {y : Except (Halt ε) β} :
    Safe (x >>= fun _ => y) ↔ Safe x ∧ (x = .ok () → Safe y) := by
  rw [safe_bind]
  exact and_congr_right fun _ => ⟨fun h hx => h () hx, fun h _ hx => h hx⟩

theorem Plain.safe_iff (h : Plain x) : Safe x ↔ ∃ a, x = .ok a := by
  rcases x with (fault | e) | a
  · simp [Safe]
  · exact absurd rfl (h e)
  · simp [Safe]

theorem Plain.safe_bind {P : Prop} (hx : Plain x) (hf : ∀ a, x = .ok a → (Safe (f a) ↔ P)) :
    Safe (x >>= f) ↔ Safe x ∧ P := by
  rw [Halt.safe_bind]
  refine and_congr_right fun hsafe => ?_
  obtain ⟨a, ha⟩ := hx.safe_iff.mp hsafe
  refine ⟨fun h => (hf a ha).mp (h a ha), fun hP b hb => (hf b hb).mpr hP⟩

theorem Plain.bind (hx : Plain x) (hf : ∀ a, x = .ok a → Plain (f a)) : Plain (x >>= f) := by
  rcases x with (fault | e) | a
  · intro e h
    cases h
  · exact absurd rfl (hx e)
  · exact hf a rfl

theorem plain_ok (a : α) : Plain (.ok a : Except (Halt ε) α) := by
  intro e h
  cases h

theorem plain_deref (p : Option α) : Plain (deref p : Except (Halt ε) α) := by
  intro e h
  cases p with
  | none => cases h
  | some a => cases h

theorem plain_index (xs : List α) (i : ℕ) : Plain (index xs i : Except (Halt ε) α) := by
  intro e h
  unfold index at h
  cases hx : xs[i]? with
  | none | some a => rw [hx] at h; cases h

theorem plain_slice (xs : List α) (lo hi : ℕ) :
    Plain (slice xs lo hi : Except (Halt ε) (List α)) := by
  intro e h
  unfold slice at h
  split_ifs at h
  cases h

theorem plain_derefAll (ps : List (Option α)) : Plain (derefAll ps : Except (Halt ε) (List α)) := by
  induction ps with
  | nil => exact plain_ok []
  | cons p ps ih => exact (plain_deref p).bind fun _ _ => ih.bind fun _ _ => plain_ok _

@[simp] theorem safe_ok (a : α) : Safe (.ok a : Except (Halt ε) α) := by
  intro fault h
  cases h

@[simp] theorem safe_pure (a : α) : Safe (pure a : Except (Halt ε) α) := safe_ok a

@[simp] theorem safe_reject (e : ε) : Safe (.error (.reject e) : Except (Halt ε) α) := by
  intro fault h
  cases h

@[simp] theorem not_safe_panic (fault : Panic) :
    ¬ Safe (.error (.panic fault) : Except (Halt ε) α) :=
  fun h => h fault rfl

@[simp] theorem safe_require (c : Prop) [Decidable c] (e : ε) : Safe (require c e) := by
  unfold require
  split_ifs
  · exact safe_ok ()
  · exact safe_reject e

@[simp] theorem require_eq_ok {c : Prop} [Decidable c] {e : ε} {u : Unit} :
    require c e = .ok u ↔ c := by
  unfold require
  split_ifs with h
  · exact iff_of_true rfl h
  · exact iff_of_false (by simp) h

@[simp] theorem deref_eq_ok {p : Option α} {a : α} :
    (deref p : Except (Halt ε) α) = .ok a ↔ p = some a := by
  cases p with
  | none => simp [deref]
  | some b => simp [deref]

@[simp] theorem safe_deref {p : Option α} :
    Safe (deref p : Except (Halt ε) α) ↔ p.isSome = true := by
  cases p with
  | none => simp [deref]
  | some a => simp [deref]

variable {xs : List α}

@[simp] theorem index_eq_ok {i : ℕ} {a : α} :
    (index xs i : Except (Halt ε) α) = .ok a ↔ xs[i]? = some a := by
  unfold index
  cases xs[i]? with
  | none => simp
  | some b => simp

@[simp] theorem safe_index {i : ℕ} : Safe (index xs i : Except (Halt ε) α) ↔ i < xs.length := by
  unfold index
  cases h : xs[i]? with
  | none => simpa using h
  | some a => simpa using (List.getElem?_eq_some_iff.mp h).1

@[simp] theorem safe_slice {lo hi : ℕ} :
    Safe (slice xs lo hi : Except (Halt ε) (List α)) ↔ lo ≤ hi ∧ hi ≤ xs.length := by
  unfold slice
  split_ifs with h
  · exact iff_of_true (safe_ok _) h
  · exact iff_of_false (not_safe_panic _) h

@[simp] theorem safe_rem {a b : UInt32} :
    Safe (rem a b : Except (Halt ε) UInt32) ↔ b ≠ 0 := by
  unfold rem
  split_ifs with h
  · exact iff_of_false (not_safe_panic _) (fun hb => hb h)
  · exact iff_of_true (safe_ok _) h

theorem derefAll_eq_ok {ps : List (Option α)} {as : List α} :
    (derefAll ps : Except (Halt ε) (List α)) = .ok as ↔ ps = as.map some := by
  induction ps generalizing as with
  | nil =>
    cases as with
    | nil => simp [derefAll]
    | cons a as => simp [derefAll]
  | cons p ps ih =>
    unfold derefAll
    simp only [Result.bind_eq_ok, deref_eq_ok, ih, pure, Except.pure, Except.ok.injEq]
    cases as with
    | nil => simp
    | cons a as => simp

@[simp] theorem safe_derefAll {ps : List (Option α)} :
    Safe (derefAll ps : Except (Halt ε) (List α)) ↔ ∀ p ∈ ps, p.isSome = true := by
  induction ps with
  | nil => simp [derefAll]
  | cons p ps ih =>
    unfold derefAll
    simp only [safe_bind, safe_deref, ih, safe_pure, List.forall_mem_cons, implies_true, and_true,
      deref_eq_ok]
    refine and_congr_right fun hp => ⟨fun h => ?_, fun h _ _ => h⟩
    obtain ⟨a, ha⟩ := Option.isSome_iff_exists.mp hp
    exact h a ha

end Halt
end GoQlc
