import GoQlc.Consensus.Election

/-!
# Votes for frontiers

While a node synchronises, `voteFrontier` takes the votes for a frontier.
-/

namespace GoQlc

open Election List Option Table

def largest (received : List BlockReceivedVotes) : ℕ :=
  received.foldl (fun balance r => if balance < r.balance then r.balance else balance) 0

theorem lt_largest_iff {n : ℕ} {received : List BlockReceivedVotes} :
    n < largest received ↔ ∃ r ∈ received, n < r.balance := by
  have hfold (b : ℕ) : n < received.foldl
      (fun balance r => if balance < r.balance then r.balance else balance) b ↔
        n < b ∨ ∃ r ∈ received, n < r.balance := by
    induction received generalizing b with
    | nil => simp
    | cons r received ih =>
      rw [foldl_cons, ih]
      simp only [mem_cons, exists_eq_or_imp]
      split_ifs <;> grind
  rw [largest, hfold]
  simp

theorem get_countVote_of_ne {weight : Address → ℕ} {t : Table Hash BlockReceivedVotes} {x : Visit}
    {hash : Hash} (hne : hash ≠ x.hash) : (countVote weight t x).get hash = t.get hash := by
  unfold countVote
  repeat' split
  all_goals first
    | exact get_put_of_ne _ hne _
    | rfl

theorem tally_exact {weight : Address → ℕ} {hash : Hash} {visits : List Visit}
    (hlisted : ∀ x ∈ visits, x.hash = hash → x.block.isSome = true)
    (hsum : visitWeight weight hash visits < 2 ^ 64) :
    ((tally weight visits).get hash).elim 0 (·.balance) = visitWeight weight hash visits := by
  induction visits using List.reverseRecOn with
  | nil => rfl
  | append_singleton visits x ih =>
    have hfold : tally weight (visits ++ [x]) = countVote weight (tally weight visits) x := by
      simp [tally]
    rw [visitWeight_append] at hsum ⊢
    have ih := ih (fun y hy => hlisted y (mem_append_left _ hy)) (by omega)
    rw [hfold]
    by_cases hx : x.hash = hash
    · rw [countVote]
      obtain ⟨block, hblock⟩ := isSome_iff_exists.mp (hlisted x (by simp) hx)
      rw [if_pos hx] at hsum ⊢
      rw [hx, hblock]
      cases hget : (tally weight visits).get hash with
      | none =>
        rw [hget] at ih
        change 0 = _ at ih
        simp only [get_put_self, elim_some]
        rw [Balance.add_of_lt (by omega)]
        omega
      | some r =>
        rw [hget] at ih
        change r.balance = _ at ih
        simp only [get_put_self, elim_some]
        rw [Balance.add_of_lt (by omega), ih]
    · rw [if_neg hx, Nat.add_zero, ← ih, get_countVote_of_ne (Ne.symm hx)]

namespace Election

def votesFor (weight : Address → ℕ) (el : Election) (hash : Hash) : ℕ :=
  el.repVotes.total fun account voted => if voted = hash then weight account else 0

def visited (el : Election) (vote : Sigma fun _ : Address => Hash) : Visit :=
  { account := vote.1, hash := vote.2, block := el.blocks.get vote.2 }

/-- `voteFrontier` with the order in which the map of the votes is ranged over. An empty tally has
no largest sum. -/
def voteFrontier (weight : Address → ℕ) (order : List (Sigma fun _ : Address => Hash))
    (el : Election) (account : Address) (hash : Hash) : Bool × Election :=
  if el.valid then
    match el.voteStatus account hash with
    | (.confirm, _) => (false, el)
    | (_, el') =>
      let t := tally weight (order.map el'.visited)
      if voteThreshold < largest t.values then (true, { el' with valid := false })
      else (false, el')
  else (false, el)

variable {weight : Address → ℕ} {order : List (Sigma fun _ : Address => Hash)} {el : Election}
  {account : Address} {hash h : Hash}

theorem visitWeight_visited (horder : order.Perm el.repVotes.entries) (h : Hash) :
    visitWeight weight h (order.map el.visited) = el.votesFor weight h := by
  have hsum : ∀ votes : List (Sigma fun _ : Address => Hash),
      visitWeight weight h (votes.map el.visited) =
        (votes.map fun e => if e.2 = h then weight e.1 else 0).sum := by
    intro votes
    induction votes with
    | nil => rfl
    | cons vote votes ih =>
      rw [map_cons, map_cons, sum_cons, ← ih]
      by_cases hvote : vote.2 = h <;> simp [visitWeight, visited, hvote]
  rw [hsum]
  exact (horder.map _).sum_eq

theorem voteStatus_cases (el : Election) (account : Address) (hash : Hash) :
    el.voteStatus account hash = (.confirm, el) ∨
      ∃ r el', r ≠ .confirm ∧ el.voteStatus account hash = (r, el') ∧ el'.valid = el.valid ∧
        el'.blocks = el.blocks ∧
        ∀ (weight : Address → ℕ) h, h ≠ hash → el'.votesFor weight h ≤ el.votesFor weight h := by
  have hput (t : Table Address Hash) (weight : Address → ℕ) (h : Hash) (hne : h ≠ hash) :
      (t.put account hash).total (fun a v => if v = h then weight a else 0) ≤
        t.total fun a v => if v = h then weight a else 0 := by
    have hadd := total_put_add (fun a v => if v = h then weight a else 0) t account hash
    rw [if_neg (Ne.symm hne)] at hadd
    omega
  unfold voteStatus
  cases hget : el.repVotes.get account with
  | none => exact Or.inr ⟨_, _, by decide, rfl, rfl, rfl, fun weight h => hput _ weight h⟩
  | some voted =>
    dsimp only
    split_ifs with hsame
    · refine Or.inr ⟨_, _, by decide, rfl, rfl, rfl, fun weight h hne => ?_⟩
      have hdelete := total_delete_add (fun a v => if v = h then weight a else 0)
        el.repVotes account
      exact (hput _ weight h hne).trans (by unfold votesFor; omega)
    · exact Or.inl rfl

variable (horder : order.Perm (el.voteStatus account hash).2.repVotes.entries)

include horder

theorem exists_of_report (hreport : (el.voteFrontier weight order account hash).1 = true) :
    el.valid = true ∧ ∃ h, ((el.voteStatus account hash).2.blocks.get h).isSome = true ∧
      voteThreshold < (el.voteStatus account hash).2.votesFor weight h := by
  unfold voteFrontier at hreport
  rcases voteStatus_cases el account hash with hsame | ⟨r, el', hr, hvote, -⟩
  · rw [hsame] at hreport
    split_ifs at hreport
  · rw [hvote] at hreport horder ⊢
    split_ifs at hreport with hvalid
    · refine ⟨hvalid, ?_⟩
      cases r with
      | confirm => exact absurd rfl hr
      | vote | changed =>
        dsimp only at hreport
        split_ifs at hreport with hlarge
        · obtain ⟨r, hmem, hlt⟩ := lt_largest_iff.mp hlarge
          obtain ⟨h, hget⟩ := mem_values.mp hmem
          obtain ⟨⟨x, hx, rfl, hblock⟩, hle⟩ := tally_sound hget
          obtain ⟨vote, -, rfl⟩ := mem_map.mp hx
          rw [visitWeight_visited horder] at hle
          exact ⟨_, isSome_iff_exists.mpr ⟨_, hblock⟩, Nat.lt_of_lt_of_le hlt hle⟩

theorem votesFor_le_of_not_report
    (hsum : (el.voteStatus account hash).2.votesFor weight hash < 2 ^ 64)
    (hreport : (el.voteFrontier weight order account hash).2.valid = true) :
    (el.voteFrontier weight order account hash).2 = el ∨
      (el.voteFrontier weight order account hash).2 = (el.voteStatus account hash).2 ∧
        (((el.voteStatus account hash).2.blocks.get hash).isSome = true →
          (el.voteStatus account hash).2.votesFor weight hash ≤ voteThreshold) := by
  unfold voteFrontier at hreport ⊢
  rcases voteStatus_cases el account hash with hsame | ⟨r, el', hr, hvote, -⟩
  · rw [hsame]
    split_ifs <;> exact Or.inl rfl
  · rw [hvote] at hreport horder hsum ⊢
    split_ifs with hvalid
    · rw [if_pos hvalid] at hreport
      cases r with
      | confirm => exact absurd rfl hr
      | vote | changed =>
        dsimp only at hreport ⊢
        split_ifs at hreport ⊢ with hlarge
        refine Or.inr ⟨rfl, fun hlisted => ?_⟩
        rw [← visitWeight_visited horder] at hsum ⊢
        have hexact := tally_exact (fun x hx hhash => ?_) hsum
        · rw [← hexact]
          cases hget : (tally weight (order.map el'.visited)).get hash with
          | none => exact Nat.zero_le _
          | some r =>
            refine Nat.le_of_not_lt fun hlt => hlarge (lt_largest_iff.mpr ⟨r, ?_, hlt⟩)
            exact mem_values.mpr ⟨hash, hget⟩
        · obtain ⟨vote, -, rfl⟩ := mem_map.mp hx
          change vote.2 = hash at hhash
          change (el'.blocks.get vote.2).isSome = true
          rw [hhash]
          exact hlisted
    · exact Or.inl rfl

end Election

/-! ## Runs -/

structure Poll where
  el : Election
  totalVote : Table Address ℕ
  ledgerWeight : Address → ℕ

namespace Poll

/-- The weight of a representative is that of the synchronised frontiers, if they name it. -/
def weight (p : Poll) (account : Address) : ℕ :=
  (p.totalVote.get account).getD (p.ledgerWeight account)

def Undecided (p : Poll) : Prop :=
  ∀ h, (p.el.blocks.get h).isSome = true → p.el.votesFor p.weight h ≤ voteThreshold

/-- The polls of a node, with anything in between that leaves an open election undecided. -/
inductive Reached : Poll → Prop
  | opened (p : Poll) (hnew : p.el.repVotes = ∅) : Reached p
  | vote {p : Poll} (h : Reached p) (account : Address) (hash : Hash)
      (order : List (Sigma fun _ : Address => Hash))
      (horder : order.Perm (p.el.voteStatus account hash).2.repVotes.entries)
      (hsum : (p.el.voteStatus account hash).2.votesFor p.weight hash < 2 ^ 64) :
      Reached { p with el := (p.el.voteFrontier p.weight order account hash).2 }
  | change {p : Poll} (h : Reached p) (p' : Poll)
      (hclear : p'.el.valid = true → p'.Undecided) : Reached p'

theorem Reached.undecided {p : Poll} (h : Reached p) : p.el.valid = true → p.Undecided := by
  induction h with
  | opened p hnew =>
    intro _ h _
    rw [votesFor, hnew]
    exact Nat.zero_le _
  | @vote p _ account hash order horder hsum ih =>
    intro hvalid h hlisted
    dsimp only at hvalid hlisted
    change votesFor p.weight _ h ≤ _
    rcases votesFor_le_of_not_report horder hsum hvalid with hsame | ⟨hvoted, hle⟩
    · rw [hsame] at hvalid hlisted ⊢
      exact ih hvalid h hlisted
    · rw [hvoted] at hvalid hlisted ⊢
      by_cases hh : h = hash
      · rw [hh] at hlisted ⊢
        exact hle hlisted
      · rcases voteStatus_cases p.el account hash with
          hsame | ⟨r, el', -, hvote, hvalid', hblocks, hothers⟩
        · rw [hsame] at hvalid hlisted ⊢
          exact ih hvalid h hlisted
        · rw [hvote] at hvalid hlisted ⊢
          exact (hothers p.weight h hh).trans (ih (hvalid' ▸ hvalid) h (hblocks ▸ hlisted))
  | change _ p' hclear _ => exact hclear

/-- In such a run a frontier is reported only if the representatives that vote for it have more
weight than the threshold. -/
theorem reported_has_majority {p : Poll} (h : Reached p) {account : Address} {hash : Hash}
    {order : List (Sigma fun _ : Address => Hash)}
    (horder : order.Perm (p.el.voteStatus account hash).2.repVotes.entries)
    (hreport : (p.el.voteFrontier p.weight order account hash).1 = true) :
    voteThreshold < (p.el.voteStatus account hash).2.votesFor p.weight hash := by
  obtain ⟨hvalid, h', hlisted, hlt⟩ := exists_of_report horder hreport
  by_cases hh : h' = hash
  · exact hh ▸ hlt
  · rcases voteStatus_cases p.el account hash with
      hsame | ⟨r, el', -, hvote, -, hblocks, hothers⟩
    · rw [hsame] at hlisted hlt
      exact absurd (h.undecided hvalid h' hlisted) (Nat.not_le_of_lt hlt)
    · rw [hvote] at hlisted hlt
      have hle := (hothers p.weight h' hh).trans (h.undecided hvalid h' (hblocks ▸ hlisted))
      exact absurd hle (Nat.not_le_of_lt hlt)

/-- An election that lists two frontiers; one account has all the weight `n`, besides a small one. -/
def twoFrontiers (n : ℕ) : Poll where
  el :=
    { id := 0
      winner := Env.blankBlock
      blocks := (Table.put ∅ 1 Env.blankBlock).put 2 Env.blankBlock }
  totalVote := (Table.put ∅ 7 n).put 8 1
  ledgerWeight := fun _ => 0

theorem majority_reported :
    voteThreshold < ((twoFrontiers (voteThreshold + 1)).el.voteStatus 7 1).2.votesFor
      (twoFrontiers (voteThreshold + 1)).weight 1 :=
  reported_has_majority (.opened (twoFrontiers (voteThreshold + 1)) rfl) (List.Perm.refl _)
    (by decide +kernel)

/-- The vote of account 8 is reported with the weight 1, once the weight of account 7 has grown. -/
theorem minority_reported :
    let p := twoFrontiers voteThreshold
    let voted := (p.el.voteFrontier p.weight [⟨7, 1⟩] 7 1).2
    let later := { twoFrontiers (voteThreshold + 1) with el := voted }
    (p.el.voteFrontier p.weight [⟨7, 1⟩] 7 1).1 = false ∧
      (later.el.voteFrontier later.weight [⟨7, 1⟩, ⟨8, 2⟩] 8 2).1 = true ∧
      (later.el.voteStatus 8 2).2.votesFor later.weight 2 = 1 := by
  decide +kernel

end Poll
end GoQlc
