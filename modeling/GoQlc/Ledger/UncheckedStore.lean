import GoQlc.Config.Genesis
import GoQlc.Lib.Table

/-!
# The store of unchecked blocks

Blocks that wait for something are stored under a prefix byte for each kind of gap.
-/

namespace GoQlc.UncheckedStore

open List

inductive UncheckedKind where
  | previous
  | link
  | tokenInfo
  | publish
deriving DecidableEq, Repr

inductive SynchronizedKind where
  | synchronized
  | unSynchronized
  | invalidSynchronized
deriving DecidableEq, Repr

def keyPrefixUncheckedBlockPrevious : UInt8 := 2
def keyPrefixUncheckedBlockLink : UInt8 := 3
def keyPrefixUncheckedTokenInfo : UInt8 := 27
def keyPrefixUncheckedPovHeight : UInt8 := 33
def keyPrefixGapPublish : UInt8 := 39
def keyPrefixGapDoDSettleState : UInt8 := 44

def uncheckedKindToPrefix : UncheckedKind → UInt8
  | .previous => keyPrefixUncheckedBlockPrevious
  | .link => keyPrefixUncheckedBlockLink
  | .tokenInfo => keyPrefixUncheckedTokenInfo
  | .publish => keyPrefixGapPublish

inductive Gap where
  | unchecked (kind : UncheckedKind) (key : Hash)
  | povHeight (height : UInt64)
  | doDSettleState (key : Hash)
deriving DecidableEq, Repr

/-- A block as it is visited, or as it was added: the block, its gap and its sync flag. -/
structure Visit where
  block : StateBlock
  gap : Gap
  sync : SynchronizedKind
deriving DecidableEq

/-- The store. The value of a key has a block and a sync flag; the gap is the one it was added for,
which no function reads. -/
abbrev Store := Table Bytes Visit

inductive Addition where
  | addUncheckedBlock (key : Hash) (blk : StateBlock) (kind : UncheckedKind)
      (sync : SynchronizedKind)
  | addGapPovBlock (height : UInt64) (blk : StateBlock) (sync : SynchronizedKind)
  | addGapPublishBlock (key : Hash) (blk : StateBlock) (sync : SynchronizedKind)
  | addGapDoDSettleStateBlock (key : Hash) (blk : StateBlock) (sync : SynchronizedKind)

section Additions

variable (getHash : StateBlock → Hash)

def Addition.storeKey : Addition → Bytes
  | .addUncheckedBlock key _ kind _ => uncheckedKindToPrefix kind :: hashBytes key
  | .addGapPovBlock height blk _ =>
    keyPrefixUncheckedPovHeight :: (Bytes.beBytes 8 height.toNat ++ hashBytes (getHash blk))
  | .addGapPublishBlock key blk _ =>
    keyPrefixGapPublish :: (hashBytes key ++ hashBytes (getHash blk))
  | .addGapDoDSettleStateBlock key blk _ =>
    keyPrefixGapDoDSettleState :: (hashBytes key ++ hashBytes (getHash blk))

def Addition.stored : Addition → Visit
  | .addUncheckedBlock key blk kind sync => ⟨blk, .unchecked kind key, sync⟩
  | .addGapPovBlock height blk sync => ⟨blk, .povHeight height, sync⟩
  | .addGapPublishBlock key blk sync => ⟨blk, .unchecked .publish key, sync⟩
  | .addGapDoDSettleStateBlock key blk sync => ⟨blk, .doDSettleState key, sync⟩

/-- A key that exists is refused, except for the PoV height gap, which overwrites. -/
def Addition.apply (store : Store) (a : Addition) : Store :=
  match a with
  | .addGapPovBlock .. => store.put (a.storeKey getHash) a.stored
  | _ => if (store.get (a.storeKey getHash)).isSome then store
    else store.put (a.storeKey getHash) a.stored

def addAll (additions : List Addition) : Store := additions.foldl (Addition.apply getHash) ∅

end Additions

def bytesToHash (data : Bytes) : Option Hash :=
  if data.length = 32 then some (BitVec.ofNat 256 (Bytes.toNat data)) else none

/-- The scan of a prefix, with the visits of a callback that never fails; `none` is the error of a key
that is not one hash long. -/
def scan (kind : UncheckedKind) (store : Store) : Option (List Visit) :=
  (store.entries.filter fun e => e.1.head? = some (uncheckedKindToPrefix kind)).mapM fun e =>
    (bytesToHash (e.1.drop 1)).map fun h => ⟨e.2.block, .unchecked kind h, e.2.sync⟩

def getUncheckedBlocks (store : Store) : Option (List Visit) := do
  let previous ← scan .previous store
  let link ← scan .link store
  let tokenInfo ← scan .tokenInfo store
  let publish ← scan .publish store
  return previous ++ link ++ tokenInfo ++ publish

def count (store : Store) (pre : UInt8) : ℕ :=
  (store.entries.filter fun e => e.1.head? = some pre).length

def countUncheckedBlocks (store : Store) : ℕ :=
  count store keyPrefixUncheckedBlockLink + count store keyPrefixUncheckedBlockPrevious +
    count store keyPrefixUncheckedPovHeight + count store keyPrefixGapPublish +
    count store keyPrefixGapDoDSettleState

def RoundTrip (store : Store) : Prop :=
  (∃ visits, getUncheckedBlocks store = some visits ∧
    visits.Perm (store.entries.map fun e => e.2)) ∧
  countUncheckedBlocks store = store.entries.length

/-! ## Scans and counts -/

theorem bytesToHash_hashBytes (h : Hash) : bytesToHash (hashBytes h) = some h := by
  have hlt : h.toNat < 256 ^ 32 := h.isLt
  unfold bytesToHash
  rw [if_pos (hashBytes_length h), hashBytes, Bytes.toNat_beBytes, Nat.mod_eq_of_lt hlt,
    BitVec.ofNat_toNat, BitVec.setWidth_eq]

theorem perm_prefixes (entries : List (Sigma fun _ : Bytes => Visit)) (pres : List UInt8)
    (hnodup : pres.Nodup) :
    (pres.flatMap fun pre => entries.filter fun e => e.1.head? = some pre).Perm
      (entries.filter fun e => e.1.head? ∈ pres.map some) := by
  induction pres with
  | nil => simp
  | cons pre pres ih =>
    obtain ⟨hout, hnodup⟩ := nodup_cons.mp hnodup
    set both := entries.filter fun e => e.1.head? ∈ (pre :: pres).map some with hboth
    have hfirst : (entries.filter fun e => e.1.head? = some pre) =
        both.filter fun e => e.1.head? = some pre := by
      rw [hboth, filter_filter]
      apply filter_congr
      intro e _
      by_cases he : e.1.head? = some pre <;> simp [he]
    have hrest : (entries.filter fun e => e.1.head? ∈ pres.map some) =
        both.filter fun e => !decide (e.1.head? = some pre) := by
      rw [hboth, filter_filter]
      apply filter_congr
      intro e _
      by_cases he : e.1.head? = some pre
      · simp [he, hout]
      · simp [he]
    rw [flatMap_cons]
    refine ((ih hnodup).append_left _).trans ?_
    rw [hfirst, hrest]
    exact filter_append_perm _ both

theorem mapM_eq_map {α β : Type} {f : α → Option β} {g : α → β} {l : List α}
    (h : ∀ a ∈ l, f a = some (g a)) : l.mapM f = some (l.map g) := by
  induction l with
  | nil => rfl
  | cons a l ih =>
    rw [mapM_cons, h a mem_cons_self, ih fun b hb => h b (mem_cons_of_mem a hb)]
    rfl

theorem of_mapM_eq_some {α β : Type} {f : α → Option β} {l : List α} {bs : List β}
    (h : l.mapM f = some bs) : bs.length = l.length ∧ ∀ a ∈ l, (f a).isSome = true := by
  induction l generalizing bs with
  | nil =>
    obtain rfl : [] = bs := Option.some.inj h
    simp
  | cons a l ih =>
    rw [mapM_cons] at h
    obtain ⟨b, hb, h⟩ := Option.bind_eq_some_iff.mp h
    obtain ⟨cs, hcs, h⟩ := Option.bind_eq_some_iff.mp h
    cases h
    obtain ⟨hlength, hall⟩ := ih hcs
    refine ⟨congrArg (· + 1) hlength, ?_⟩
    rintro c (_ | ⟨_, hc⟩)
    · simp [hb]
    · exact hall c hc

def PlainKey (k : Bytes) : Prop :=
  k.length = 33 ∧ (k.head? = some keyPrefixUncheckedBlockPrevious ∨
    k.head? = some keyPrefixUncheckedBlockLink ∨ k.head? = some keyPrefixGapPublish)

def Addition.plain : Addition → Bool
  | .addUncheckedBlock _ _ kind _ => kind ≠ .tokenInfo
  | _ => false

section Stores

variable {getHash : StateBlock → Hash}

theorem plainKey_storeKey (a : Addition) : PlainKey (a.storeKey getHash) ↔ a.plain = true := by
  cases a with
  | addUncheckedBlock key blk kind sync =>
    cases kind <;> simp [PlainKey, Addition.storeKey, Addition.plain, uncheckedKindToPrefix,
      keyPrefixUncheckedBlockPrevious, keyPrefixUncheckedBlockLink, keyPrefixGapPublish,
      keyPrefixUncheckedTokenInfo]
  | addGapPovBlock | addGapPublishBlock
  | addGapDoDSettleStateBlock => simp [PlainKey, Addition.storeKey, Addition.plain]

def Keyed (getHash : StateBlock → Hash) (store : Store) : Prop :=
  ∀ e ∈ store.entries, ∃ a : Addition, e.1 = a.storeKey getHash ∧ e.2 = a.stored

variable {store : Store}

theorem scan_of_plain (h : Keyed getHash store) (hplain : ∀ e ∈ store.entries, PlainKey e.1)
    (kind : UncheckedKind) :
    scan kind store = some ((store.entries.filter fun e =>
      e.1.head? = some (uncheckedKindToPrefix kind)).map fun e => e.2) := by
  apply mapM_eq_map
  intro e he
  obtain ⟨hmem, hpre⟩ := mem_filter.mp he
  obtain ⟨a, hkey, hvalue⟩ := h e hmem
  have ha : a.plain = true := (plainKey_storeKey a).mp (hkey ▸ hplain e hmem)
  cases a with
  | addUncheckedBlock key blk kind' sync =>
    rw [hkey] at hpre ⊢
    have hkind : kind' = kind := by
      revert hpre
      cases kind <;> cases kind' <;> simp [Addition.storeKey, uncheckedKindToPrefix,
        keyPrefixUncheckedBlockPrevious, keyPrefixUncheckedBlockLink, keyPrefixGapPublish,
        keyPrefixUncheckedTokenInfo]
    rw [hvalue, ← hkind]
    simp [Addition.storeKey, Addition.stored, bytesToHash_hashBytes]
  | addGapPovBlock => cases ha
  | addGapPublishBlock => cases ha
  | addGapDoDSettleStateBlock => cases ha

theorem of_scan {kind : UncheckedKind} {visits : List Visit} (h : scan kind store = some visits) :
    visits.length = count store (uncheckedKindToPrefix kind) ∧
      ∀ e ∈ store.entries, e.1.head? = some (uncheckedKindToPrefix kind) → e.1.length = 33 := by
  obtain ⟨hlength, hall⟩ := of_mapM_eq_some h
  refine ⟨hlength, fun e he hhead => ?_⟩
  have hsome := hall e (mem_filter.mpr ⟨he, decide_eq_true hhead⟩)
  rw [Option.isSome_map, bytesToHash] at hsome
  split_ifs at hsome with hdrop
  · have hpos : e.1.length ≠ 0 := by
      intro hzero
      rw [length_eq_zero_iff.mp hzero] at hhead
      cases hhead
    rw [length_drop] at hdrop
    omega
  · cases hsome

def allPrefixes : List UInt8 :=
  [keyPrefixUncheckedBlockPrevious, keyPrefixUncheckedBlockLink, keyPrefixUncheckedTokenInfo,
    keyPrefixGapPublish, keyPrefixUncheckedPovHeight, keyPrefixGapDoDSettleState]

/-- The prefixes that `GetUncheckedBlocks` scans. -/
def scannedPrefixes : List UInt8 :=
  [keyPrefixUncheckedBlockPrevious, keyPrefixUncheckedBlockLink, keyPrefixUncheckedTokenInfo,
    keyPrefixGapPublish]

theorem storeKey_head (getHash : StateBlock → Hash) (a : Addition) : (a.storeKey getHash).head? ∈ allPrefixes.map some := by
  cases a with
  | addUncheckedBlock key blk kind sync => cases kind <;> simp [Addition.storeKey, allPrefixes,
      uncheckedKindToPrefix]
  | addGapPovBlock | addGapPublishBlock
  | addGapDoDSettleStateBlock => simp [Addition.storeKey, allPrefixes]

theorem sum_counts (h : Keyed getHash store) :
    count store keyPrefixUncheckedBlockPrevious + count store keyPrefixUncheckedBlockLink +
      count store keyPrefixUncheckedTokenInfo + count store keyPrefixGapPublish +
      count store keyPrefixUncheckedPovHeight + count store keyPrefixGapDoDSettleState =
        store.entries.length := by
  have hall : (store.entries.filter fun e => e.1.head? ∈ allPrefixes.map some) =
      store.entries := by
    apply filter_eq_self.mpr
    intro e he
    obtain ⟨a, hkey, -⟩ := h e he
    exact decide_eq_true (hkey ▸ storeKey_head getHash a)
  have hperm := (perm_prefixes store.entries allPrefixes (by decide)).length_eq
  rw [hall] at hperm
  simp only [allPrefixes, flatMap_cons, flatMap_nil, length_append,
    length_nil] at hperm
  unfold count
  omega

theorem roundTrip_of_plain (h : Keyed getHash store) (hplain : ∀ e ∈ store.entries, PlainKey e.1) :
    RoundTrip store := by
  have hscan := scan_of_plain h hplain
  have hall : (store.entries.filter fun e => e.1.head? ∈ scannedPrefixes.map some) =
      store.entries := by
    apply filter_eq_self.mpr
    intro e he
    rcases (hplain e he).2 with hhead | hhead | hhead <;> simp [hhead, scannedPrefixes]
  have hperm := perm_prefixes store.entries scannedPrefixes (by decide)
  rw [hall] at hperm
  have hcount : count store keyPrefixUncheckedTokenInfo = 0 := by
    apply length_eq_zero_iff.mpr
    apply filter_eq_nil_iff.mpr
    intro e he hhead
    have hplainHead := (hplain e he).2
    rw [of_decide_eq_true hhead] at hplainHead
    revert hplainHead
    decide
  refine ⟨⟨_, ?_, (hperm.map fun e => e.2)⟩, ?_⟩
  · unfold getUncheckedBlocks
    simp only [hscan, Option.bind_eq_bind, Option.bind_some, scannedPrefixes, flatMap_cons,
      flatMap_nil, append_nil, map_append, append_assoc,
      uncheckedKindToPrefix]
    rfl
  · have hsum := sum_counts h
    unfold countUncheckedBlocks
    omega

theorem plain_of_roundTrip (h : Keyed getHash store) (htrip : RoundTrip store) :
    ∀ e ∈ store.entries, PlainKey e.1 := by
  obtain ⟨⟨visits, hvisits, hperm⟩, hcount⟩ := htrip
  unfold getUncheckedBlocks at hvisits
  obtain ⟨previous, hprevious, hvisits⟩ := Option.bind_eq_some_iff.mp hvisits
  obtain ⟨link, hlink, hvisits⟩ := Option.bind_eq_some_iff.mp hvisits
  obtain ⟨tokenInfo, htokenInfo, hvisits⟩ := Option.bind_eq_some_iff.mp hvisits
  obtain ⟨publish, hpublish, hvisits⟩ := Option.bind_eq_some_iff.mp hvisits
  cases hvisits
  have hsum := sum_counts h
  have hlength := hperm.length_eq
  simp only [length_append, length_map, (of_scan hprevious).1, (of_scan hlink).1,
    (of_scan htokenInfo).1, (of_scan hpublish).1, uncheckedKindToPrefix] at hlength
  unfold countUncheckedBlocks at hcount
  -- What is not scanned or not counted is not there.
  have hnone : ∀ pre, count store pre = 0 → ∀ e ∈ store.entries, e.1.head? ≠ some pre := by
    intro pre hzero e he hhead
    have hnil := filter_eq_nil_iff.mp (length_eq_zero_iff.mp hzero) e he
    exact hnil (decide_eq_true hhead)
  intro e he
  obtain ⟨a, hkey, -⟩ := h e he
  have hhead := storeKey_head getHash a
  have htoken := hnone keyPrefixUncheckedTokenInfo (by omega) e he
  have hpov := hnone keyPrefixUncheckedPovHeight (by omega) e he
  have hdod := hnone keyPrefixGapDoDSettleState (by omega) e he
  rw [← hkey] at hhead
  simp only [allPrefixes, map_cons, map_nil, mem_cons, htoken, hpov, hdod,
    not_mem_nil, or_false, false_or] at hhead
  rcases hhead with hhead | hhead | hhead
  · exact ⟨(of_scan hprevious).2 e he hhead, Or.inl hhead⟩
  · exact ⟨(of_scan hlink).2 e he hhead, Or.inr (Or.inl hhead)⟩
  · exact ⟨(of_scan hpublish).2 e he hhead, Or.inr (Or.inr hhead)⟩

/-! ## Sequences of additions -/

theorem mem_entries {e : Sigma fun _ : Bytes => Visit} :
    e ∈ store.entries ↔ store.get e.1 = some e.2 := AList.mem_lookup_iff.symm

theorem Addition.apply_cases (getHash : StateBlock → Hash) (store : Store) (a : Addition) :
    a.apply getHash store = store ∧ (store.get (a.storeKey getHash)).isSome = true ∨
      a.apply getHash store = store.put (a.storeKey getHash) a.stored := by
  unfold Addition.apply
  split
  · exact Or.inr rfl
  · split_ifs with hsome
    · exact Or.inl ⟨rfl, hsome⟩
    · exact Or.inr rfl

theorem Keyed.apply (h : Keyed getHash store) (a : Addition) :
    Keyed getHash (a.apply getHash store) := by
  rcases a.apply_cases getHash store with ⟨heq, -⟩ | heq <;> rw [heq]
  · exact h
  · intro e he
    rw [mem_entries, Table.get_put] at he
    split_ifs at he with hkey
    · exact ⟨a, hkey, (Option.some.inj he).symm⟩
    · exact h e (mem_entries.mpr he)

theorem isSome_apply (store : Store) (a : Addition) (k : Bytes) :
    ((a.apply getHash store).get k).isSome = true ↔
      (store.get k).isSome = true ∨ a.storeKey getHash = k := by
  rcases a.apply_cases getHash store with ⟨heq, hsome⟩ | heq <;> rw [heq]
  · refine ⟨Or.inl, ?_⟩
    rintro (hk | rfl)
    · exact hk
    · exact hsome
  · rw [Table.get_put]
    split_ifs with hkey
    · simp [hkey]
    · simp [Ne.symm hkey]

theorem foldl_apply (h : Keyed getHash store) (additions : List Addition) :
    Keyed getHash (additions.foldl (Addition.apply getHash) store) ∧
      ∀ k, ((additions.foldl (Addition.apply getHash) store).get k).isSome = true ↔
        (store.get k).isSome = true ∨ ∃ a ∈ additions, a.storeKey getHash = k := by
  induction additions generalizing store with
  | nil => exact ⟨h, fun k => by simp⟩
  | cons a additions ih =>
    obtain ⟨hkeyed, hkeys⟩ := ih (h.apply a)
    refine ⟨hkeyed, fun k => ?_⟩
    rw [foldl_cons, hkeys, isSome_apply, exists_mem_cons_iff, or_assoc]

/-- The store gives back what was added, and counts it, exactly if every addition is a call of
`AddUncheckedBlock` for another kind than the token info. -/
theorem roundTrip_iff (getHash : StateBlock → Hash) (additions : List Addition) :
    RoundTrip (addAll getHash additions) ↔ ∀ a ∈ additions, a.plain = true := by
  have hempty : Keyed getHash ∅ := fun e he => absurd he not_mem_nil
  obtain ⟨hkeyed, hkeys⟩ := foldl_apply hempty additions
  constructor
  · intro htrip a ha
    have hsome := (hkeys (a.storeKey getHash)).mpr (Or.inr ⟨a, ha, rfl⟩)
    obtain ⟨v, hv⟩ := Option.isSome_iff_exists.mp hsome
    have hplain := plain_of_roundTrip hkeyed htrip ⟨_, v⟩ (mem_entries.mpr hv)
    exact (plainKey_storeKey a).mp hplain
  · intro hplain
    apply roundTrip_of_plain hkeyed
    intro e he
    have hsome : ((addAll getHash additions).get e.1).isSome = true := by
      rw [addAll, mem_entries.mp he]
      rfl
    rcases (hkeys e.1).mp hsome with hnone | ⟨a, ha, hkey⟩
    · cases hnone
    · exact hkey ▸ (plainKey_storeKey a).mpr (hplain a ha)

/-- A block that waits for a publish makes the walk fail; one that waits for a token info is not
counted; one that waits for a PoV height is not visited. -/
theorem roundTrip_fails :
    getUncheckedBlocks
      (addAll (fun _ => 9) [.addGapPublishBlock 5 Config.genesisBlock .synchronized]) = none ∧
    countUncheckedBlocks
      (addAll (fun _ => 9) [.addUncheckedBlock 5 Config.genesisBlock .tokenInfo .synchronized]) =
        0 ∧
    getUncheckedBlocks
      (addAll (fun _ => 9) [.addGapPovBlock 1440 Config.genesisBlock .synchronized]) = some [] := by
  decide +kernel

end Stores

end GoQlc.UncheckedStore
