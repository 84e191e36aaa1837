import Mathlib.Data.List.Lex
import Mathlib.Data.List.Perm.Basic
import GoQlc.Types.Block

/-!
# Comparison of frontiers

Both lists of frontiers are sorted by the text of the open block and closed by a zero frontier.
-/

namespace GoQlc.P2p

open List

structure Frontier where
  headerBlock : Hash
  openBlock : Hash
deriving DecidableEq, Repr

/-- A request for the blocks of a chain after `startHash` up to `endHash`. -/
structure Bulk where
  startHash : Hash
  endHash : Hash
deriving DecidableEq, Repr

def hexDigit (n : ℕ) : ℕ := if n < 10 then 48 + n else 87 + n

/-- The characters of `Hash.String`. -/
def hashText (h : Hash) : List ℕ :=
  (hashBytes h).flatMap fun b => [hexDigit (b.toNat / 16), hexDigit (b.toNat % 16)]

/-- `Frontiers.Less`, as the order `sort.Sort` makes of it. -/
def sortFrontiers (fs : List Frontier) : List Frontier :=
  fs.mergeSort fun a b => ¬ hashText b.openBlock < hashText a.openBlock

def below (remote o : Hash) : Bool := o ≠ 0 ∧ hashText o < hashText remote

def zeroFrontier : Frontier := ⟨0, 0⟩

def getLocalFrontier (stored : List Frontier) : List Frontier :=
  sortFrontiers stored ++ [zeroFrontier]

structure ServiceSync where
  frontiers : List Frontier
  openBlockHash : Hash
  headerBlockHash : Hash
  bulkPull : List Bulk

namespace ServiceSync

def next (ss : ServiceSync) : ServiceSync :=
  match ss.frontiers with
  | [] => ss
  | f :: rest =>
    { ss with frontiers := rest, openBlockHash := f.openBlock, headerBlockHash := f.headerBlock }

def pull (ss : ServiceSync) (startHash endHash : Hash) : ServiceSync :=
  { ss with bulkPull := ss.bulkPull ++ [⟨startHash, endHash⟩] }

/-- `next` as long as the open block says so; `none` if that never ends. -/
def nextWhile (goOn : Hash → Bool) (ss : ServiceSync) : Option ServiceSync :=
  if goOn ss.openBlockHash then
    match _h : ss.frontiers with
    | [] => none
    | _ :: _ => nextWhile goOn ss.next
  else some ss
termination_by ss.frontiers.length
decreasing_by simp [next, _h]

/-- `processFrontiers` up to the point where the requests are sent. -/
def processFrontiers (confirmed : Hash → Bool) (stored : List Frontier) (ss : ServiceSync) :
    List Frontier → Option ServiceSync
  | [] => some ss
  | remote :: rest =>
    if remote.openBlock ≠ 0 then
      (ss.nextWhile (below remote.openBlock)).bind fun ss =>
        if ss.openBlockHash ≠ 0 then
          if remote.openBlock = ss.openBlockHash then
            let ss :=
              if ss.headerBlockHash = remote.headerBlock ∨ confirmed remote.headerBlock then ss
              else ss.pull ss.headerBlockHash remote.headerBlock
            processFrontiers confirmed stored ss.next rest
          else if hashText ss.openBlockHash < hashText remote.openBlock then some ss
          else processFrontiers confirmed stored (ss.pull 0 remote.headerBlock) rest
        else processFrontiers confirmed stored (ss.pull 0 remote.headerBlock) rest
    else
      (ss.nextWhile (· ≠ 0)).map fun ss =>
        if ss.frontiers = [] then ({ ss with frontiers := getLocalFrontier stored }).next else ss

def checkFrontier (confirmed : Hash → Bool) (stored remotes : List Frontier) (ss : ServiceSync) :
    Option ServiceSync :=
  let ss := { ({ ss with frontiers := getLocalFrontier stored }).next with bulkPull := [] }
  if remotes = [] then some ss
  else processFrontiers confirmed stored ss (sortFrontiers remotes ++ [zeroFrontier])

end ServiceSync

def requests (confirmed : Hash → Bool) (locals : List Frontier) (remote : Frontier) : List Bulk :=
  let shared := locals.filter fun l => l.openBlock = remote.openBlock
  if shared = [] then [⟨0, remote.headerBlock⟩]
  else
    (shared.filter fun l => l.headerBlock ≠ remote.headerBlock ∧
      confirmed remote.headerBlock = false).map fun l => ⟨l.headerBlock, remote.headerBlock⟩

def Ascending (fs : List Frontier) : Prop :=
  fs.Pairwise fun a b => hashText a.openBlock < hashText b.openBlock

def NonZero (fs : List Frontier) : Prop := ∀ f ∈ fs, f.openBlock ≠ 0

variable {confirmed : Hash → Bool} {locals remotes fs : List Frontier} {l remote : Frontier}
  {ss : ServiceSync}

/-! ## The order of the texts -/

theorem hexDigit_inj {m n : ℕ} (hm : m < 16) (hn : n < 16) (h : hexDigit m = hexDigit n) :
    m = n := by
  unfold hexDigit at h
  split_ifs at h <;> omega

theorem hashText_injective : Function.Injective hashText := by
  have hbytes : ∀ a b : Bytes,
      (a.flatMap fun x => [hexDigit (x.toNat / 16), hexDigit (x.toNat % 16)]) =
        (b.flatMap fun x => [hexDigit (x.toNat / 16), hexDigit (x.toNat % 16)]) → a = b := by
    intro a
    induction a with
    | nil =>
      intro b h
      cases b with
      | nil => rfl
      | cons y b => cases h
    | cons x a ih =>
      intro b h
      cases b with
      | nil => cases h
      | cons y b =>
        simp only [flatMap_cons, cons_append, nil_append, List.cons.injEq] at h
        obtain ⟨hhigh, hlow, hrest⟩ := h
        have hx := x.toNat_lt
        have hy := y.toNat_lt
        have hhigh := hexDigit_inj (by omega) (by omega) hhigh
        have hlow := hexDigit_inj (by omega) (by omega) hlow
        rw [ih b hrest, UInt8.toNat_inj.mp (show x.toNat = y.toNat by omega)]
  exact fun h h' heq => hashBytes_injective (hbytes _ _ heq)

theorem sortFrontiers_perm (fs : List Frontier) : (sortFrontiers fs).Perm fs :=
  mergeSort_perm ..

theorem ascending_sortFrontiers (h : (fs.map Frontier.openBlock).Nodup) :
    Ascending (sortFrontiers fs) := by
  have hsorted : (sortFrontiers fs).Pairwise fun a b =>
      hashText a.openBlock ≤ hashText b.openBlock := by
    refine (pairwise_mergeSort ?_ ?_ fs).imp fun {a b} hle => ?_
    · intro a b c hab hbc
      simp only [decide_eq_true_eq, not_lt] at *
      exact hab.trans hbc
    · intro a b
      simp only [Bool.or_eq_true, decide_eq_true_eq, not_lt]
      exact le_total _ _
    · simpa using hle
  have hdistinct := pairwise_map.mp (((sortFrontiers_perm fs).map _).nodup_iff.mpr h)
  exact hsorted.imp₂ (fun a b hle hne => lt_of_le_of_ne hle (hashText_injective.ne hne)) hdistinct

theorem NonZero.sortFrontiers (h : NonZero fs) : NonZero (sortFrontiers fs) :=
  fun f hf => h f ((sortFrontiers_perm fs).mem_iff.mp hf)

/-! ## One pass over the remote chains -/

/-- The cursor and the frontiers after it are those of `locals`, closed by the zero frontier. -/
def At (locals : List Frontier) (ss : ServiceSync) : Prop :=
  ⟨ss.headerBlockHash, ss.openBlockHash⟩ :: ss.frontiers = locals ++ [zeroFrontier]

namespace At

theorem openBlock_nil (h : At [] ss) : ss.openBlockHash = 0 :=
  congrArg Frontier.openBlock (List.cons.inj h).1

theorem head (h : At (l :: locals) ss) :
    ss.openBlockHash = l.openBlock ∧ ss.headerBlockHash = l.headerBlock := by
  obtain ⟨rfl, -⟩ := List.cons.inj h
  exact ⟨rfl, rfl⟩

theorem next (h : At (l :: locals) ss) : At locals ss.next ∧ ss.next.bulkPull = ss.bulkPull := by
  obtain ⟨-, hrest⟩ := List.cons.inj h
  unfold At ServiceSync.next
  rw [hrest]
  cases locals <;> exact ⟨rfl, rfl⟩

theorem nextWhile (goOn : Hash → Bool) (hzero : goOn 0 = false) (h : At locals ss) :
    ∃ passed rest ss', locals = passed ++ rest ∧ (∀ l ∈ passed, goOn l.openBlock = true) ∧
      (∀ l ∈ rest.head?, goOn l.openBlock = false) ∧ ss.nextWhile goOn = some ss' ∧ At rest ss' ∧
      ss'.bulkPull = ss.bulkPull := by
  induction locals generalizing ss with
  | nil =>
    refine ⟨[], [], ss, rfl, by simp, by simp, ?_, h, rfl⟩
    rw [ServiceSync.nextWhile, h.openBlock_nil, hzero]
    rfl
  | cons l locals ih =>
    rw [ServiceSync.nextWhile, h.head.1]
    cases hgo : goOn l.openBlock with
    | false => exact ⟨[], l :: locals, ss, rfl, by simp, by simp [hgo], rfl, h, rfl⟩
    | true =>
      obtain ⟨hat, hpull⟩ := h.next
      obtain ⟨passed, rest, ss', rfl, hpassed, hrest, hss', hat', hpull'⟩ := ih hat
      refine ⟨l :: passed, rest, ss', rfl, ?_, hrest, ?_, hat', hpull'.trans hpull⟩
      · simpa [hgo] using hpassed
      · have hne : ss.frontiers ≠ [] := by simp [(List.cons.inj h).2]
        rw [if_pos rfl]
        split
        · exact absurd ‹_› hne
        · exact hss'

end At

theorem requests_append {passed : List Frontier}
    (h : ∀ l ∈ passed, l.openBlock ≠ remote.openBlock) :
    requests confirmed (passed ++ locals) remote = requests confirmed locals remote := by
  have hnone : (passed.filter fun l => l.openBlock = remote.openBlock) = [] := by simpa using h
  unfold requests
  rw [filter_append, hnone, nil_append]

theorem requests_none (h : ∀ l ∈ locals, l.openBlock ≠ remote.openBlock) :
    requests confirmed locals remote = [⟨0, remote.headerBlock⟩] := by
  rw [← append_nil locals, requests_append h]
  rfl

theorem requests_cons (hopen : remote.openBlock = l.openBlock)
    (h : ∀ l' ∈ locals, l'.openBlock ≠ remote.openBlock) :
    requests confirmed (l :: locals) remote =
      if l.headerBlock = remote.headerBlock ∨ confirmed remote.headerBlock then []
      else [⟨l.headerBlock, remote.headerBlock⟩] := by
  have hone : ((l :: locals).filter fun l => l.openBlock = remote.openBlock) = [l] := by
    rw [filter_cons_of_pos (by simp [hopen]), filter_eq_nil_iff.mpr (by simpa using h)]
  unfold requests
  rw [hone]
  by_cases hheader : l.headerBlock = remote.headerBlock
  · simp [hheader]
  · cases confirmed remote.headerBlock <;> simp [hheader]

theorem processFrontiers_cons (confirmed : Hash → Bool) (stored : List Frontier)
    (hat : At locals ss) (hl : Ascending locals) (hl₀ : NonZero locals)
    (hremote : remote.openBlock ≠ 0) (rest : List Frontier) :
    ∃ passed locals' ss', locals = passed ++ locals' ∧
      (∀ l ∈ passed, hashText l.openBlock ≤ hashText remote.openBlock) ∧ At locals' ss' ∧
      ss.processFrontiers confirmed stored (remote :: rest) =
        ss'.processFrontiers confirmed stored rest ∧
      ss'.bulkPull = ss.bulkPull ++ requests confirmed locals remote := by
  obtain ⟨passed, locals', ss₁, rfl, hpassed, hhead, hskip, hat₁, hpull⟩ :=
    hat.nextWhile (below remote.openBlock) (by simp [below])
  have hbelow : ∀ l ∈ passed, hashText l.openBlock < hashText remote.openBlock :=
    fun l hl => (of_decide_eq_true (hpassed l hl)).2
  rw [requests_append fun l hl heq => (hbelow l hl).ne (congrArg hashText heq),
    ServiceSync.processFrontiers, if_pos hremote, hskip, Option.bind_some, ← hpull]
  cases locals' with
  | nil =>
    rw [if_neg (not_not.mpr hat₁.openBlock_nil)]
    exact ⟨passed, [], ss₁.pull 0 remote.headerBlock, rfl, fun l hl => (hbelow l hl).le, hat₁, rfl,
      rfl⟩
  | cons l locals' =>
    obtain ⟨hopen, hheader⟩ := hat₁.head
    obtain ⟨hl₁, -⟩ := pairwise_cons.mp (pairwise_append.mp hl).2.1
    have hne : l.openBlock ≠ 0 := hl₀ l (by simp)
    have hle : hashText remote.openBlock ≤ hashText l.openBlock := by
      have hnot := of_decide_eq_false (hhead l rfl)
      exact not_lt.mp fun hlt => hnot ⟨hne, hlt⟩
    rw [hopen, hheader, if_pos hne]
    by_cases heq : remote.openBlock = l.openBlock
    · rw [if_pos heq, requests_cons heq fun l' hl' h => (hl₁ l' hl').ne' (by rw [h, heq])]
      generalize hpulled : (if l.headerBlock = remote.headerBlock ∨ confirmed remote.headerBlock
        then ss₁ else ss₁.pull l.headerBlock remote.headerBlock) = ss₂
      have hat₂ : At (l :: locals') ss₂ ∧ ss₂.bulkPull = ss₁.bulkPull ++
          if l.headerBlock = remote.headerBlock ∨ confirmed remote.headerBlock then []
          else [⟨l.headerBlock, remote.headerBlock⟩] := by
        rw [← hpulled]
        split_ifs
        · exact ⟨hat₁, (append_nil _).symm⟩
        · exact ⟨hat₁, rfl⟩
      obtain ⟨hat₃, hnext⟩ := hat₂.1.next
      refine ⟨passed ++ [l], locals', ss₂.next, by simp, fun l' hl' => ?_, hat₃, rfl,
        hnext.trans hat₂.2⟩
      rcases mem_append.mp hl' with hl' | hl'
      · exact (hbelow l' hl').le
      · rw [mem_singleton.mp hl', heq]
    · rw [if_neg heq, if_neg (not_lt_of_ge hle), requests_none]
      · exact ⟨passed, l :: locals', ss₁.pull 0 remote.headerBlock, rfl,
          fun l hl => (hbelow l hl).le, hat₁, rfl, rfl⟩
      · have hlt : hashText remote.openBlock < hashText l.openBlock :=
          lt_of_le_of_ne hle (hashText_injective.ne heq)
        intro l' hl' h
        rcases mem_cons.mp hl' with rfl | hl'
        · exact heq h.symm
        · exact (hlt.trans (hl₁ l' hl')).ne (by rw [h])

theorem processFrontiers_pulls (confirmed : Hash → Bool) (stored : List Frontier)
    (hr : Ascending remotes) (hr₀ : NonZero remotes) (hl : Ascending locals) (hl₀ : NonZero locals)
    (hat : At locals ss) :
    ∃ ss', ss.processFrontiers confirmed stored (remotes ++ [zeroFrontier]) = some ss' ∧
      ss'.bulkPull = ss.bulkPull ++ remotes.flatMap (requests confirmed locals) := by
  induction remotes generalizing locals ss with
  | nil =>
    obtain ⟨-, -, ss₁, -, -, -, hskip, -, hpull⟩ := hat.nextWhile (· ≠ 0) rfl
    refine ⟨if ss₁.frontiers = [] then
      ({ ss₁ with frontiers := getLocalFrontier stored }).next else ss₁, ?_, ?_⟩
    · rw [nil_append, ServiceSync.processFrontiers, if_neg (by simp [zeroFrontier]), hskip]
      rfl
    · rw [flatMap_nil, append_nil, ← hpull]
      unfold ServiceSync.next
      split_ifs
      · split <;> rfl
      · rfl
  | cons remote remotes ih =>
    obtain ⟨habove, hrest⟩ := pairwise_cons.mp hr
    obtain ⟨passed, locals', ss₁, rfl, hpassed, hat₁, hstep, hpull⟩ :=
      processFrontiers_cons confirmed stored hat hl hl₀ (hr₀ remote mem_cons_self)
        (remotes ++ [zeroFrontier])
    obtain ⟨ss', hrun, hpulls⟩ := ih hrest (fun f hf => hr₀ f (mem_cons_of_mem _ hf))
      (pairwise_append.mp hl).2.1 (fun f hf => hl₀ f (mem_append_right _ hf)) hat₁
    refine ⟨ss', hstep.trans hrun, ?_⟩
    -- the passed chains are below all remote chains still to come
    have hlater : remotes.flatMap (requests confirmed (passed ++ locals')) =
        remotes.flatMap (requests confirmed locals') :=
      flatMap_congr fun f hf => requests_append fun l hl heq =>
        ((hpassed l hl).trans_lt (habove f hf)).ne (congrArg hashText heq)
    rw [hpulls, hpull, flatMap_cons, hlater, append_assoc]

theorem requests_perm {locals' : List Frontier} (h : locals.Perm locals') (remote : Frontier) :
    (requests confirmed locals remote).Perm (requests confirmed locals' remote) := by
  have hshared := h.filter fun l => decide (l.openBlock = remote.openBlock)
  unfold requests
  dsimp only
  split_ifs with hnil hnil' hnil'
  · exact List.Perm.refl _
  · rw [hnil] at hshared
    exact absurd hshared.nil_eq.symm hnil'
  · rw [hnil'] at hshared
    exact absurd hshared.eq_nil hnil
  · exact (hshared.filter _).map _

/-- The pull list has one request for each remote chain that is not among the local ones, one for
each shared chain whose headers differ and whose remote header is not confirmed, and no other. -/
theorem checkFrontier_pulls (confirmed : Hash → Bool) (locals remotes : List Frontier)
    (ss : ServiceSync) (hl : (locals.map Frontier.openBlock).Nodup) (hl₀ : NonZero locals)
    (hr : (remotes.map Frontier.openBlock).Nodup) (hr₀ : NonZero remotes) :
    ∃ ss', ss.checkFrontier confirmed locals remotes = some ss' ∧
      ss'.bulkPull.Perm (remotes.flatMap (requests confirmed locals)) := by
  unfold ServiceSync.checkFrontier
  split_ifs with hempty
  · rw [hempty]
    exact ⟨_, rfl, List.Perm.refl _⟩
  · have hat : At (sortFrontiers locals)
        { ({ ss with frontiers := getLocalFrontier locals }).next with bulkPull := [] } := by
      unfold At ServiceSync.next getLocalFrontier
      cases sortFrontiers locals <;> rfl
    obtain ⟨ss', hrun, hpulls⟩ := processFrontiers_pulls confirmed locals
      (ascending_sortFrontiers hr) hr₀.sortFrontiers (ascending_sortFrontiers hl)
      hl₀.sortFrontiers hat
    refine ⟨ss', hrun, ?_⟩
    rw [hpulls, nil_append]
    exact ((sortFrontiers_perm remotes).flatMap_right _).trans
      (List.Perm.flatMap_left _ fun f _ => requests_perm (sortFrontiers_perm locals) f)

/-- Chain 1 is shared and behind, chain 2 is not known here, and chain 3 is up to date. -/
theorem checkFrontier_pulls_three : ∃ ss',
    (⟨[], 0, 0, []⟩ : ServiceSync).checkFrontier (fun _ => false) [⟨9, 3⟩, ⟨7, 1⟩]
      [⟨5, 2⟩, ⟨9, 3⟩, ⟨8, 1⟩] = some ss' ∧ ss'.bulkPull.Perm [⟨0, 5⟩, ⟨7, 8⟩] :=
  checkFrontier_pulls (fun _ => false) [⟨9, 3⟩, ⟨7, 1⟩] [⟨5, 2⟩, ⟨9, 3⟩, ⟨8, 1⟩] ⟨[], 0, 0, []⟩
    (by decide) (by unfold NonZero; decide) (by decide) (by unfold NonZero; decide)

end GoQlc.P2p
