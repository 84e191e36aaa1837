import GoQlc.Pov.Panics

/-!
# What the hash of a PoV block commits to

The header hash is one of six fields of fixed width, among them the root of a tree whose first leaf
is the hash of the coinbase.
-/

namespace GoQlc.Pov.Wire

open Halt Bytes List PovCoinBaseTx PovVerifier Result Merkle Wire.PovBlock PovCoinBaseTxOut

section Encoding

@[simp] theorem leUint32ToBytes_length (i : UInt32) : (leUint32ToBytes i).length = 4 :=
  leBytes_length _ _

theorem leUint32ToBytes_injective : Function.Injective leUint32ToBytes := by
  intro i j h
  have hlt (k : UInt32) : k.toNat < 256 ^ 4 := k.toNat_lt
  have hv := congrArg leValue h
  rw [leUint32ToBytes, leUint32ToBytes, leValue_leBytes, leValue_leBytes,
    Nat.mod_eq_of_lt (hlt i), Nat.mod_eq_of_lt (hlt j)] at hv
  exact UInt32.toNat_inj.mp hv

def readVarInt : Bytes → ℕ × Bytes
  | [] => (0, [])
  | b :: bs =>
    if b = 0xfd then (leValue (bs.take 2), bs.drop 2)
    else if b = 0xfe then (leValue (bs.take 4), bs.drop 4)
    else if b = 0xff then (leValue (bs.take 8), bs.drop 8)
    else (b.toNat, bs)

theorem read_leBytes {w val : ℕ} (h : val < 256 ^ w) (rest : Bytes) :
    (leValue ((leBytes w val ++ rest).take w), (leBytes w val ++ rest).drop w) =
      (val, rest) := by
  rw [take_left' (leBytes_length w val), drop_left' (leBytes_length w val),
    leValue_leBytes, Nat.mod_eq_of_lt h]

theorem readVarInt_leEncodeVarInt {val : ℕ} (h : val < 2 ^ 64) (rest : Bytes) :
    readVarInt (leEncodeVarInt val ++ rest) = (val, rest) := by
  unfold leEncodeVarInt
  split_ifs with h1 h2 h3
  · have hbyte : (UInt8.ofNat val).toNat = val := UInt8.toNat_ofNat_of_lt' (by
      have hsize : UInt8.size = 256 := rfl
      omega)
    have hne (c : UInt8) (hc : 0xfd ≤ c.toNat) : UInt8.ofNat val ≠ c := by
      intro heq
      rw [← heq, hbyte] at hc
      omega
    rw [singleton_append, readVarInt, if_neg (hne _ (by decide)), if_neg (hne _ (by decide)),
      if_neg (hne _ (by decide)), hbyte]
  · rw [cons_append, readVarInt, if_pos rfl]
    exact read_leBytes (by omega) rest
  · rw [cons_append, readVarInt, if_neg (by decide), if_pos rfl]
    exact read_leBytes (by omega) rest
  · rw [cons_append, readVarInt, if_neg (by decide), if_neg (by decide), if_pos rfl]
    exact read_leBytes (by omega) rest

theorem leEncodeVarInt_append_inj {m n : ℕ} (hm : m < 2 ^ 64) (hn : n < 2 ^ 64) {s t : Bytes}
    (h : leEncodeVarInt m ++ s = leEncodeVarInt n ++ t) : m = n ∧ s = t := by
  have hread := congrArg readVarInt h
  rw [readVarInt_leEncodeVarInt hm, readVarInt_leEncodeVarInt hn] at hread
  exact Prod.mk.inj hread

theorem PovBaseHeader.buildHashData_inj {g h : PovBaseHeader}
    (heq : g.buildHashData = h.buildHashData) :
    g.previous = h.previous ∧ g.merkleRoot = h.merkleRoot ∧ g.timestamp = h.timestamp ∧
      g.bits = h.bits := by
  unfold PovBaseHeader.buildHashData at heq
  obtain ⟨heq, -⟩ := append_inj' heq (by simp)
  obtain ⟨heq, hbits⟩ := append_inj' heq (by simp)
  obtain ⟨heq, htimestamp⟩ := append_inj' heq (by simp)
  obtain ⟨heq, hroot⟩ := append_inj' heq (by simp)
  obtain ⟨-, hprevious⟩ := append_inj' heq (by simp)
  exact ⟨hashBytes_injective hprevious, hashBytes_injective hroot,
    leUint32ToBytes_injective htimestamp, leUint32ToBytes_injective hbits⟩

end Encoding

section Coinbase

def PovCoinBaseTx.data (cbTx : PovCoinBaseTx) (txIn : PovCoinBaseTxIn)
    (txOuts : List PovCoinBaseTxOut) : Bytes :=
  cbTx.getCoinBaseData1 txIn ++ leEncodeVarInt txIn.extra.length ++ txIn.extra ++
    cbTx.getCoinBaseData2 txIn txOuts

theorem PovCoinBaseTx.getCoinBaseData1_length (cbTx : PovCoinBaseTx) (txIn : PovCoinBaseTxIn) :
    (cbTx.getCoinBaseData1 txIn).length = 41 := by
  have hone : (leEncodeVarInt 1).length = 1 := rfl
  simp only [getCoinBaseData1, length_append, leUint32ToBytes_length, hashBytes_length, hone]

theorem PovCoinBaseTx.data_length (cbTx : PovCoinBaseTx) (txIn : PovCoinBaseTxIn)
    (txOuts : List PovCoinBaseTxOut) : 64 < (cbTx.data txIn txOuts).length := by
  simp only [data, getCoinBaseData2, length_append, getCoinBaseData1_length,
    leUint32ToBytes_length, hashBytes_length]
  omega

theorem PovCoinBaseTx.data_inj {cb cb' : PovCoinBaseTx} {txIn txIn' : PovCoinBaseTxIn}
    {txOuts txOuts' : List PovCoinBaseTxOut}
    (hextra : txIn.extra.length < 2 ^ 64) (hextra' : txIn'.extra.length < 2 ^ 64)
    (houts : txOuts.length < 2 ^ 64) (houts' : txOuts'.length < 2 ^ 64)
    (h : cb.data txIn txOuts = cb'.data txIn' txOuts') :
    cb.stateHash = cb'.stateHash ∧ cb.txNum = cb'.txNum ∧ txOuts.length = txOuts'.length ∧
      txOuts.flatMap outputBytes = txOuts'.flatMap outputBytes := by
  unfold data at h
  rw [append_assoc, append_assoc, append_assoc, append_assoc] at h
  obtain ⟨-, h⟩ := append_inj h (by rw [getCoinBaseData1_length, getCoinBaseData1_length])
  obtain ⟨hlen, h⟩ := leEncodeVarInt_append_inj hextra hextra' h
  obtain ⟨-, h⟩ := append_inj h hlen
  unfold getCoinBaseData2 at h
  obtain ⟨h, hnum⟩ := append_inj' h (by simp)
  obtain ⟨h, hstate⟩ := append_inj' h (by simp)
  rw [append_assoc, append_assoc] at h
  obtain ⟨-, h⟩ := append_inj h (by simp)
  obtain ⟨hcount, h⟩ := leEncodeVarInt_append_inj houts houts' h
  exact ⟨hashBytes_injective hstate, leUint32ToBytes_injective hnum, hcount, h⟩

def PovCoinBaseTxOut.width (txOut : PovCoinBaseTxOut) : Option ℕ :=
  txOut.value.map fun v => (natBytes v).length

theorem PovCoinBaseTxOut.balanceBytes_length (txOut : PovCoinBaseTxOut) :
    (balanceBytes txOut.value).length = txOut.width.getD 0 := by
  unfold balanceBytes width
  cases txOut.value with
  | none => rfl
  | some v => rfl

theorem PovCoinBaseTxOut.ext_of_bytes {o o' : PovCoinBaseTxOut} (hw : o.width = o'.width)
    (ha : hashBytes o.address = hashBytes o'.address)
    (hv : balanceBytes o.value = balanceBytes o'.value) : o = o' := by
  obtain ⟨value, address⟩ := o
  obtain ⟨value', address'⟩ := o'
  obtain rfl : address = address' := hashBytes_injective ha
  have hval : value.getD 0 = value'.getD 0 := natBytes_injective hv
  cases value with
  | none =>
    cases value' with
    | none => rfl
    | some v' => cases hw
  | some v =>
    cases value' with
    | none => cases hw
    | some v' =>
      obtain rfl : v = v' := hval
      rfl

theorem outputs_inj {txOuts txOuts' : List PovCoinBaseTxOut}
    (hw : txOuts.map width = txOuts'.map width)
    (h : txOuts.flatMap outputBytes = txOuts'.flatMap outputBytes) :
    txOuts = txOuts' := by
  induction txOuts generalizing txOuts' with
  | nil =>
    cases txOuts' with
    | nil => rfl
    | cons o' txOuts' => cases hw
  | cons o txOuts ih =>
    cases txOuts' with
    | nil => cases hw
    | cons o' txOuts' =>
      rw [map_cons, map_cons, List.cons.injEq] at hw
      rw [flatMap_cons, flatMap_cons] at h
      have hbytes : (balanceBytes o.value).length = (balanceBytes o'.value).length := by
        rw [o.balanceBytes_length, o'.balanceBytes_length, hw.1]
      obtain ⟨hhead, htail⟩ := append_inj h (by
        simp only [outputBytes, length_append, hashBytes_length, hbytes])
      obtain ⟨ha, hv⟩ := append_inj' hhead hbytes
      rw [ext_of_bytes hw.1 ha hv, ih hw.2 htail]

end Coinbase

section Verified

variable {γ ε : Type}

/-- `VerifyFull` reports no error for the block. -/
def Accepted (pv : PovVerifier γ ε) (block : PovBlock) : Prop :=
  ∃ stat, pv.verifyFull block = .ok stat ∧ stat.result = .progress

structure Contents (sha256d : Bytes → Hash) (getHeaderByHash : Hash → Option ChainHeader)
    (block : PovBlock) where
  prevHeader : ChainHeader
  cbTx : PovCoinBaseTx
  txIn : PovCoinBaseTxIn
  txOuts : List PovCoinBaseTxOut
  hashes : List Hash
  depth : ℕ
  hash_eq : sha256d block.header.basHdr.buildHashData = block.header.basHdr.hash
  prevHeader_eq : getHeaderByHash block.header.basHdr.previous = some prevHeader
  height_eq : block.header.basHdr.height = prevHeader.height + 1
  cbTx_eq : block.header.cbTx = some cbTx
  txIn_eq : cbTx.txIns[0]? = some (some txIn)
  txOuts_eq : cbTx.txOuts = txOuts.map some
  txs_eq : block.txs = hashes.map some
  hashes_ne : hashes ≠ []
  txNum_eq : cbTx.txNum = UInt32.ofNat hashes.length
  depth_eq : nextPowerOfTwo hashes.length = 2 ^ depth
  length_le : hashes.length ≤ 2 ^ depth
  merkleRoot_eq : node (hashMerkleBranches sha256d) hashes depth 0 =
    some block.header.basHdr.merkleRoot
  head_eq : hashes[0]? = some (sha256d (cbTx.data txIn txOuts))

variable {pv : PovVerifier γ ε} {block : PovBlock}

theorem accepted_iff : Accepted pv block ↔ ∃ sdb, pv.verifyStages block = .ok sdb := by
  unfold Accepted verifyFull
  rcases pv.verifyStages block with (fault | e) | sdb
  · simp
  · have hne : e.result ≠ .progress := by
      cases e <;> exact PovResult.noConfusion
    simp [hne]
  · simp

theorem accepted_of_result
    (h : (pv.verifyFull block).toOption.map PovVerifyStat.result = some .progress) :
    Accepted pv block := by
  obtain ⟨stat, hstat, hresult⟩ := Option.map_eq_some_iff.mp h
  exact ⟨stat, toOption_eq_some.mp hstat, hresult⟩

theorem PovCoinBaseTx.buildHashData_eq_ok {cbTx : PovCoinBaseTx} {bs : Bytes} :
    (cbTx.buildHashData : Except (Halt ε) Bytes) = .ok bs ↔
      ∃ txIn txOuts, cbTx.txIns[0]? = some (some txIn) ∧ cbTx.txOuts = txOuts.map some ∧
        bs = cbTx.data txIn txOuts := by
  unfold buildHashData
  simp only [bind_eq_ok, index_eq_ok, deref_eq_ok, derefAll_eq_ok, pure, Except.pure,
    Except.ok.injEq]
  constructor
  · rintro ⟨_, htxIn, txIn, rfl, txOuts, htxOuts, rfl⟩
    exact ⟨txIn, txOuts, htxIn, htxOuts, rfl⟩
  · rintro ⟨txIn, txOuts, htxIn, htxOuts, rfl⟩
    exact ⟨_, htxIn, txIn, rfl, txOuts, htxOuts, rfl⟩

theorem verifyReferred_eq_ok {prevHeader : ChainHeader}
    (h : pv.verifyReferred block = .ok prevHeader) :
    pv.getHeaderByHash block.header.basHdr.previous = some prevHeader ∧
      block.header.basHdr.height = prevHeader.height + 1 := by
  unfold verifyReferred at h
  dsimp only at h
  cases hprev : pv.getHeaderByHash block.header.basHdr.previous with
  | none => rw [hprev] at h; cases h
  | some p =>
    rw [hprev] at h
    simp only [bind_eq_ok, require_eq_ok, pure, Except.pure, Except.ok.injEq] at h
    obtain ⟨-, hheight, -, -, -, -, rfl⟩ := h
    exact ⟨rfl, hheight⟩

theorem Accepted.contents (h : Accepted pv block) :
    Nonempty (Contents pv.sha256d pv.getHeaderByHash block) := by
  obtain ⟨sdb, hstages⟩ := accepted_iff.mp h
  unfold verifyStages at hstages
  simp only [bind_eq_ok] at hstages
  obtain ⟨_, hintegrity, -, -, prevHeader, hreferred, -, -, -, -, txs, htxs, -⟩ := hstages
  obtain ⟨hprev, hheight⟩ := verifyReferred_eq_ok hreferred
  have hhash : pv.sha256d block.header.basHdr.buildHashData = block.header.basHdr.hash := by
    unfold verifyDataIntegrity at hintegrity
    simp only [bind_eq_ok, require_eq_ok] at hintegrity
    obtain ⟨-, -, -, -, -, hhash⟩ := hintegrity
    exact hhash
  unfold verifyTransactions at htxs
  simp only [bind_eq_ok, require_eq_ok, deref_eq_ok, derefAll_eq_ok,
    buildHashData_eq_ok] at htxs
  obtain ⟨cbTx, hcbTx, -, hnum, -, hlen, hashes, hhashes, _, hroot, -, -, -, rfl, _,
    ⟨txIn, txOuts, htxIn, htxOuts, rfl⟩, -, -, -, hhead, -⟩ := htxs
  rw [hhashes, length_map] at hnum hlen
  have hne : hashes ≠ [] := ne_nil_of_length_pos hlen
  obtain ⟨depth, hpow, hdepth⟩ := exists_nextPowerOfTwo (mt eq_nil_of_length_eq_zero hne)
  rw [calcMerkleTreeRootHash_eq pv.sha256d hne hpow hdepth, deref_eq_ok] at hroot
  exact ⟨{
    prevHeader, cbTx, txIn, txOuts, hashes, depth
    hash_eq := hhash
    prevHeader_eq := hprev
    height_eq := hheight
    cbTx_eq := hcbTx
    txIn_eq := htxIn
    txOuts_eq := htxOuts
    txs_eq := hhashes
    hashes_ne := hne
    txNum_eq := hnum
    depth_eq := hpow
    length_le := hdepth
    merkleRoot_eq := hroot
    head_eq := by rw [← List.head?_eq_getElem?]; exact hhead }⟩

end Verified

section Commits

/-- The strings that are hashed for a block: its header, its coinbase, and the pairs of the merkle
tree. -/
def Hashed (sha256d : Bytes → Hash) (block : PovBlock) (s : Bytes) : Prop :=
  s = block.header.basHdr.buildHashData ∨
  (∃ cbTx, block.header.cbTx = some cbTx ∧
    (cbTx.buildHashData : Except (Halt Unit) Bytes) = .ok s) ∨
  ∃ hashes depth l r, block.txs = hashes.map some ∧ nextPowerOfTwo hashes.length = 2 ^ depth ∧
    Merkle.Joins (hashMerkleBranches sha256d) hashes depth 0 l r ∧ s = hashBytes l ++ hashBytes r

def CollisionFree (sha256d : Bytes → Hash) (P : Bytes → Prop) : Prop :=
  ∀ s t, P s → P t → sha256d s = sha256d t → s = t

structure WireSized (block : PovBlock) : Prop where
  txs : block.txs.length < 2 ^ 32
  outputs : ∀ cbTx, block.header.cbTx = some cbTx → cbTx.txOuts.length < 2 ^ 32
  extra : ∀ cbTx, block.header.cbTx = some cbTx →
    ∀ txIn, some txIn ∈ cbTx.txIns → txIn.extra.length < 2 ^ 32

def PovBlock.outputs (block : PovBlock) : Option (List (Option PovCoinBaseTxOut)) :=
  block.header.cbTx.map PovCoinBaseTx.txOuts

def PovBlock.outputWidths (block : PovBlock) : Option (List (Option (Option ℕ))) :=
  block.outputs.map fun txOuts => txOuts.map fun txOut => txOut.map width

structure Agree (b b' : PovBlock) : Prop where
  previous : b.header.basHdr.previous = b'.header.basHdr.previous
  merkleRoot : b.header.basHdr.merkleRoot = b'.header.basHdr.merkleRoot
  timestamp : b.header.basHdr.timestamp = b'.header.basHdr.timestamp
  target : b.header.basHdr.bits = b'.header.basHdr.bits
  height : b.header.basHdr.height = b'.header.basHdr.height
  stateHash : b.header.cbTx.map stateHash = b'.header.cbTx.map stateHash
  outputs : b.outputs = b'.outputs
  txs : b.txs = b'.txs

variable {sha256d : Bytes → Hash} {get get' : Hash → Option ChainHeader} {b b' : PovBlock}
  {P : Bytes → Prop}

theorem Contents.hashed_data (c : Contents sha256d get b) :
    Hashed sha256d b (c.cbTx.data c.txIn c.txOuts) :=
  .inr (.inl ⟨c.cbTx, c.cbTx_eq, buildHashData_eq_ok.mpr
    ⟨c.txIn, c.txOuts, c.txIn_eq, c.txOuts_eq, rfl⟩⟩)

theorem Contents.hashed_pair (c : Contents sha256d get b) {l r : Hash}
    (h : Merkle.Joins (hashMerkleBranches sha256d) c.hashes c.depth 0 l r) :
    Hashed sha256d b (hashBytes l ++ hashBytes r) :=
  .inr (.inr ⟨c.hashes, c.depth, l, r, c.txs_eq, c.depth_eq, h, rfl⟩)

theorem CollisionFree.apart (h : CollisionFree sha256d P) :
    Merkle.Apart (hashMerkleBranches sha256d) (fun l r => P (hashBytes l ++ hashBytes r)) := by
  intro l r l' r' hp hp' hjoin
  obtain ⟨hl, hr⟩ := append_inj (h _ _ hp hp' hjoin) (by simp)
  exact ⟨hashBytes_injective hl, hashBytes_injective hr⟩

section
variable (c : Contents sha256d get b) (c' : Contents sha256d get' b')
  (hfree : CollisionFree sha256d P) (hb : ∀ s, Hashed sha256d b s → P s)
  (hb' : ∀ s, Hashed sha256d b' s → P s)
  (hroot : b.header.basHdr.merkleRoot = b'.header.basHdr.merkleRoot)

include c c' hfree hb hb' hroot

theorem Contents.depth_le : c'.depth ≤ c.depth := by
  by_contra hlt
  have heq : node (hashMerkleBranches sha256d) c.hashes c.depth 0 =
      node (hashMerkleBranches sha256d) c'.hashes c'.depth 0 := by
    rw [c.merkleRoot_eq, c'.merkleRoot_eq, hroot]
  obtain ⟨l, r, hjoins, hhead⟩ := head_joined c.hashes_ne hfree.apart (Nat.lt_of_not_le hlt)
    (fun l r h => hb _ (c.hashed_pair h)) (fun l r h => hb' _ (c'.hashed_pair h)) heq
  rw [c.head_eq, Option.some.injEq] at hhead
  have hdata := hfree _ _ (hb _ c.hashed_data) (hb' _ (c'.hashed_pair hjoins)) hhead
  have hlong := c.cbTx.data_length c.txIn c.txOuts
  rw [hdata, length_append, hashBytes_length, hashBytes_length] at hlong
  omega

theorem Contents.data_eq :
    c.depth = c'.depth ∧ c.cbTx.data c.txIn c.txOuts = c'.cbTx.data c'.txIn c'.txOuts := by
  have hdepth : c.depth = c'.depth :=
    le_antisymm (c'.depth_le c hfree hb' hb hroot.symm) (c.depth_le c' hfree hb hb' hroot)
  have heq : node (hashMerkleBranches sha256d) c.hashes c.depth 0 =
      node (hashMerkleBranches sha256d) c'.hashes c.depth 0 := by
    rw [c.merkleRoot_eq, hdepth, c'.merkleRoot_eq, hroot]
  have hhead := Merkle.head_eq c.hashes_ne hfree.apart (fun l r h => hb _ (c.hashed_pair h))
    (fun l r h => hb' _ (c'.hashed_pair (hdepth ▸ h))) heq
  rw [c.head_eq, c'.head_eq, Option.some.injEq] at hhead
  exact ⟨hdepth, hfree _ _ (hb _ c.hashed_data) (hb' _ c'.hashed_data) hhead⟩

theorem Contents.hashes_eq (hdepth : c.depth = c'.depth)
    (hlen : c.hashes.length = c'.hashes.length) : c.hashes = c'.hashes := by
  refine root_inj hlen hfree.apart c.length_le (fun l r h => hb _ (c.hashed_pair h))
    (fun l r h => hb' _ (c'.hashed_pair (hdepth ▸ h))) ?_
  rw [c.merkleRoot_eq, hdepth, c'.merkleRoot_eq, hroot]

end

variable (c : Contents sha256d get b)

include c

theorem Contents.extra_lt (h : WireSized b) : c.txIn.extra.length < 2 ^ 64 := by
  have hmem : some c.txIn ∈ c.cbTx.txIns := mem_of_getElem? c.txIn_eq
  have hlt := h.extra _ c.cbTx_eq _ hmem
  omega

theorem Contents.txOuts_lt (h : WireSized b) : c.txOuts.length < 2 ^ 64 := by
  have hlt := h.outputs _ c.cbTx_eq
  rw [c.txOuts_eq, length_map] at hlt
  omega

theorem Contents.length_eq (c' : Contents sha256d get' b') (h : WireSized b) (h' : WireSized b')
    (hnum : c.cbTx.txNum = c'.cbTx.txNum) : c.hashes.length = c'.hashes.length := by
  have hlt := h.txs
  have hlt' := h'.txs
  rw [c.txs_eq, length_map] at hlt
  rw [c'.txs_eq, length_map] at hlt'
  have hnat := congrArg UInt32.toNat (c.txNum_eq.symm.trans (hnum.trans c'.txNum_eq))
  rwa [UInt32.toNat_ofNat', UInt32.toNat_ofNat', Nat.mod_eq_of_lt hlt, Nat.mod_eq_of_lt hlt']
    at hnat

theorem Contents.outputWidths_eq :
    b.outputWidths = some ((c.txOuts.map width).map some) := by
  simp only [outputWidths, outputs, c.cbTx_eq, c.txOuts_eq, Option.map_some,
    map_map]
  rfl

end Commits

/-- Of two accepted blocks with one header hash, possibly at two nodes, that differ in no pair of
strings with one hash: they agree exactly if the values of their outputs have equal widths. -/
theorem headerHash_commits_iff {γ γ' ε ε' : Type} (pv : PovVerifier γ ε) (pv' : PovVerifier γ' ε')
    (b b' : PovBlock) (hsha : pv'.sha256d = pv.sha256d)
    (hchain : ∀ h p p', pv.getHeaderByHash h = some p → pv'.getHeaderByHash h = some p' →
      p.height = p'.height)
    (hfree : CollisionFree pv.sha256d fun s => Hashed pv.sha256d b s ∨ Hashed pv.sha256d b' s)
    (hsize : WireSized b) (hsize' : WireSized b') (hacc : Accepted pv b) (hacc' : Accepted pv' b')
    (hhash : b.header.basHdr.hash = b'.header.basHdr.hash) :
    Agree b b' ↔ b.outputWidths = b'.outputWidths := by
  refine ⟨fun h => by rw [outputWidths, outputWidths, h.outputs], fun hw => ?_⟩
  obtain ⟨c⟩ := hacc.contents
  obtain ⟨c'⟩ := hacc'.contents
  rw [hsha] at c'
  have hb : ∀ s, Hashed pv.sha256d b s → Hashed pv.sha256d b s ∨ Hashed pv.sha256d b' s :=
    fun s => Or.inl
  have hb' : ∀ s, Hashed pv.sha256d b' s → Hashed pv.sha256d b s ∨ Hashed pv.sha256d b' s :=
    fun s => Or.inr
  -- the header fixes the six fields and the previous block the height
  have hheader := hfree _ _ (hb _ (.inl rfl)) (hb' _ (.inl rfl))
    (c.hash_eq.trans (hhash.trans c'.hash_eq.symm))
  obtain ⟨hprevious, hroot, htimestamp, hbits⟩ := PovBaseHeader.buildHashData_inj hheader
  have hheight : b.header.basHdr.height = b'.header.basHdr.height := by
    have hprev' := c'.prevHeader_eq
    rw [← hprevious] at hprev'
    rw [c.height_eq, c'.height_eq, hchain _ _ _ c.prevHeader_eq hprev']
  -- the merkle root fixes the coinbase, and with it the number of transactions
  obtain ⟨hdepth, hdata⟩ := c.data_eq c' hfree hb hb' hroot
  obtain ⟨hstate, hnum, -, hbytes⟩ := data_inj (c.extra_lt hsize)
    (c'.extra_lt hsize') (c.txOuts_lt hsize) (c'.txOuts_lt hsize') hdata
  have hhashes := c.hashes_eq c' hfree hb hb' hroot hdepth (c.length_eq c' hsize hsize' hnum)
  have houts : c.txOuts = c'.txOuts := by
    refine outputs_inj ?_ hbytes
    rw [c.outputWidths_eq, c'.outputWidths_eq, Option.some.injEq] at hw
    exact map_injective_iff.mpr (Option.some_injective _) hw
  exact {
    previous := hprevious
    merkleRoot := hroot
    timestamp := htimestamp
    target := hbits
    height := hheight
    stateHash := by rw [c.cbTx_eq, c'.cbTx_eq, Option.map_some, Option.map_some, hstate]
    outputs := by
      rw [outputs, outputs, c.cbTx_eq, c'.cbTx_eq, Option.map_some,
        Option.map_some, c.txOuts_eq, c'.txOuts_eq, houts]
    txs := by rw [c.txs_eq, c'.txs_eq, hhashes] }

def payBlock (txIns : List (Option PovCoinBaseTxIn)) (txOuts : List (Option PovCoinBaseTxOut)) :
    PovBlock where
  header :=
    { basHdr := nextHeader (BitVec.ofNat 256 (148 * 256 ^ 31))
      auxHdr := none
      cbTx := some { version := 1, txIns, txOuts, stateHash := 9, txNum := 1 } }
  txs := [some (BitVec.ofNat 256 (148 * 256 ^ 31))]

def lateValue : List (Option PovCoinBaseTxOut) :=
  [some { value := some 0, address := 1 },
    some { value := some 5, address := BitVec.ofNat 256 (256 ^ 31 + 2) }]

def earlyValue : List (Option PovCoinBaseTxOut) :=
  [some { value := some 1, address := 1 },
    some { value := some 0, address := BitVec.ofNat 256 (2 * 256 + 5) }]

def payData : Bytes :=
  { version := 1, txIns := [], txOuts := [], stateHash := 9, txNum := 1 : PovCoinBaseTx }.data
    onlyInput [{ value := some 0, address := 1 },
      { value := some 5, address := BitVec.ofNat 256 (256 ^ 31 + 2) }]

variable {txIns : List (Option PovCoinBaseTxIn)} {txOuts : List (Option PovCoinBaseTxOut)}

theorem hashed_payBlock {s : Bytes}
    (hdata : ({ version := 1, txIns, txOuts, stateHash := 9, txNum := 1 } : PovCoinBaseTx).buildHashData = (.ok payData : Except (Halt Unit) Bytes))
    (h : Hashed lengthHash (payBlock txIns txOuts) s) :
    s = (nextHeader (BitVec.ofNat 256 (148 * 256 ^ 31))).buildHashData ∨ s = payData := by
  rcases h with rfl | ⟨cbTx, hcbTx, hs⟩ | ⟨hashes, depth, l, r, htxs, hdepth, hjoins, -⟩
  · exact .inl rfl
  · cases hcbTx
    rw [hdata, Except.ok.injEq] at hs
    exact .inr hs.symm
  · -- a single leaf is joined with nothing
    have hlen : hashes.length = 1 := by simpa [payBlock] using (congrArg List.length htxs).symm
    rw [hlen] at hdepth
    obtain rfl : depth = 0 := by
      have hone : 2 ^ depth = 2 ^ 0 := hdepth.symm
      exact Nat.pow_right_injective le_rfl hone
    exact hjoins.elim

theorem collisionFree_payBlock {P : Bytes → Prop}
    (h : ∀ s, P s → s = (nextHeader (BitVec.ofNat 256 (148 * 256 ^ 31))).buildHashData ∨
      s = payData) : CollisionFree lengthHash P := by
  intro s t hs ht heq
  have hne : lengthHash (nextHeader (BitVec.ofNat 256 (148 * 256 ^ 31))).buildHashData ≠
      lengthHash payData := by decide +kernel
  rcases h s hs with rfl | rfl
  · rcases h t ht with rfl | rfl
    · rfl
    · exact absurd heq hne
  · rcases h t ht with rfl | rfl
    · exact absurd heq.symm hne
    · rfl

theorem wireSized_payBlock (htxOuts : txOuts.length < 2 ^ 32)
    (htxIns : ∀ txIn ∈ txIns, txIn = some onlyInput) :
    WireSized (payBlock txIns txOuts) where
  txs := by simp [payBlock]
  outputs := by
    rintro cbTx ⟨⟩
    exact htxOuts
  extra := by
    rintro cbTx ⟨⟩ txIn hmem
    cases htxIns _ hmem
    simp [onlyInput]

theorem accepted_lateValue :
    Accepted oneHeaderVerifier (payBlock [some onlyInput] lateValue) :=
  accepted_of_result (by decide +kernel)

theorem headerHash_commits_secondInput :
    payBlock [some onlyInput] lateValue ≠ payBlock [some onlyInput, some onlyInput] lateValue ∧
    Agree (payBlock [some onlyInput] lateValue)
      (payBlock [some onlyInput, some onlyInput] lateValue) := by
  have hfree : CollisionFree lengthHash fun s =>
      Hashed lengthHash (payBlock [some onlyInput] lateValue) s ∨
      Hashed lengthHash (payBlock [some onlyInput, some onlyInput] lateValue) s :=
    collisionFree_payBlock fun s hs => hs.elim (hashed_payBlock rfl) (hashed_payBlock rfl)
  have hchain (h : Hash) (p p' : ChainHeader) (hp : oneHeaderVerifier.getHeaderByHash h = some p)
      (hp' : oneHeaderVerifier.getHeaderByHash h = some p') : p.height = p'.height := by
    rw [Option.some.inj (hp.symm.trans hp')]
  have hiff := headerHash_commits_iff oneHeaderVerifier oneHeaderVerifier
    (payBlock [some onlyInput] lateValue) (payBlock [some onlyInput, some onlyInput] lateValue) rfl
    hchain hfree (wireSized_payBlock (by decide) (by decide))
    (wireSized_payBlock (by decide) (by decide)) accepted_lateValue
    (accepted_of_result (by decide +kernel)) rfl
  exact ⟨by decide, hiff.mpr rfl⟩

/-- Two accepted blocks with one hash and different outputs. -/
theorem headerHash_ambiguous_outputs :
    Accepted oneHeaderVerifier (payBlock [some onlyInput] lateValue) ∧
    Accepted oneHeaderVerifier (payBlock [some onlyInput] earlyValue) ∧
    CollisionFree lengthHash (fun s => Hashed lengthHash (payBlock [some onlyInput] lateValue) s ∨
      Hashed lengthHash (payBlock [some onlyInput] earlyValue) s) ∧
    (payBlock [some onlyInput] lateValue).header.basHdr.hash =
      (payBlock [some onlyInput] earlyValue).header.basHdr.hash ∧
    ¬ Agree (payBlock [some onlyInput] lateValue) (payBlock [some onlyInput] earlyValue) := by
  refine ⟨accepted_lateValue, accepted_of_result (by decide +kernel), ?_, rfl, fun h => ?_⟩
  · exact collisionFree_payBlock fun s hs => hs.elim (hashed_payBlock rfl) (hashed_payBlock rfl)
  · exact absurd h.outputs (by decide)

end GoQlc.Pov.Wire
