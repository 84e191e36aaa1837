import GoQlc.Types.Block

/-!
# What a block hash commits to

`buildHashData` writes fields of different widths with no separator, so a
byte string determines the fields only up to where the variable-width ones end.
-/

namespace GoQlc

open Bytes List
namespace StateBlock

structure SameContents (b c : StateBlock) : Prop where
  type : b.type = c.type
  token : b.token = c.token
  address : b.address = c.address
  balance : b.balance = c.balance
  vote : b.getVote = c.getVote
  network : b.getNetwork = c.getNetwork
  storage : b.getStorage = c.getStorage
  oracle : b.getOracle = c.getOracle
  previous : b.previous = c.previous
  link : b.link = c.link
  sender : b.sender = c.sender
  receiver : b.receiver = c.receiver
  message : b.message = c.message
  data : b.data = c.data
  timestamp : b.timestamp = c.timestamp
  povHeight : b.povHeight = c.povHeight
  extra : b.extra = c.extra
  representative : b.representative = c.representative
  privateFrom : b.privateFrom = c.privateFrom
  privateFor : b.privateFor = c.privateFor
  privateGroupID : b.privateGroupID = c.privateGroupID

structure SameLayout (b c : StateBlock) : Prop where
  balance : (natBytes b.balance).length = (natBytes c.balance).length
  vote : (natBytes b.getVote).length = (natBytes c.getVote).length
  network : (natBytes b.getNetwork).length = (natBytes c.getNetwork).length
  storage : (natBytes b.getStorage).length = (natBytes c.getStorage).length
  oracle : (natBytes b.getOracle).length = (natBytes c.getOracle).length
  sender : b.sender.length = c.sender.length
  receiver : b.receiver.length = c.receiver.length
  data : b.data.length = c.data.length
  privateFrom : b.privateFrom.length = c.privateFrom.length
  privateFor : b.privateFor.map List.length = c.privateFor.map List.length
  privateGroupID : b.privateGroupID.length = c.privateGroupID.length

variable {b c : StateBlock}

theorem SameContents.sameLayout (h : SameContents b c) : SameLayout b c where
  balance := by rw [h.balance]
  vote := by rw [h.vote]
  network := by rw [h.network]
  storage := by rw [h.storage]
  oracle := by rw [h.oracle]
  sender := by rw [h.sender]
  receiver := by rw [h.receiver]
  data := by rw [h.data]
  privateFrom := by rw [h.privateFrom]
  privateFor := by rw [h.privateFor]
  privateGroupID := by rw [h.privateGroupID]

def hashSegments (b : StateBlock) : List Bytes :=
  [[b.type.toByte], hashBytes b.token, hashBytes b.address,
    natBytes b.balance, natBytes b.getVote, natBytes b.getNetwork,
    natBytes b.getStorage, natBytes b.getOracle,
    hashBytes b.previous, hashBytes b.link, b.sender, b.receiver,
    hashBytes b.message, b.data,
    Bytes.beBytes 8 b.timestamp.toUInt64.toNat, Bytes.beBytes 8 b.povHeight.toNat,
    hashBytes b.extra, hashBytes b.representative, b.privateFrom] ++
  b.privateFor ++ [b.privateGroupID]

theorem flatten_hashSegments (b : StateBlock) : b.hashSegments.flatten = b.buildHashData := by
  unfold hashSegments buildHashData
  rw [flatten_append, flatten_append]
  simp only [flatten_cons, flatten_nil, append_assoc, append_nil]

theorem SameLayout.map_length (h : SameLayout b c) :
    b.hashSegments.map List.length = c.hashSegments.map List.length := by
  simp only [hashSegments, map_append, map_cons, map_nil, hashBytes_length,
    beBytes_length, length_singleton, h.balance, h.vote, h.network, h.storage,
    h.oracle, h.sender, h.receiver, h.data, h.privateFrom, h.privateFor, h.privateGroupID]

theorem timestamp_inj
    (h : Bytes.beBytes 8 b.timestamp.toUInt64.toNat = Bytes.beBytes 8 c.timestamp.toUInt64.toNat) :
    b.timestamp = c.timestamp := by
  have hnat := beBytes_inj (UInt64.toNat_lt _) (UInt64.toNat_lt _) h
  exact congrArg Int64.ofUInt64 (UInt64.toNat_inj.mp hnat)

theorem povHeight_inj (h : Bytes.beBytes 8 b.povHeight.toNat = Bytes.beBytes 8 c.povHeight.toNat) :
    b.povHeight = c.povHeight :=
  UInt64.toNat_inj.mp (beBytes_inj (UInt64.toNat_lt _) (UInt64.toNat_lt _) h)

theorem sameContents_of_segments (hfor : b.privateFor.length = c.privateFor.length)
    (h : b.hashSegments = c.hashSegments) : SameContents b c := by
  obtain ⟨h, hgroup⟩ := append_inj' h rfl
  obtain ⟨h, hprivateFor⟩ := append_inj' h hfor
  simp only [List.cons.injEq, and_true] at h hgroup
  obtain ⟨htype, htoken, haddress, hbalance, hvote, hnetwork, hstorage, horacle, hprevious, hlink,
    hsender, hreceiver, hmessage, hdata, htimestamp, hpovHeight, hextra, hrep, hfrom⟩ := h
  exact {
    type := BlockType.toByte_injective htype
    token := hashBytes_injective htoken
    address := hashBytes_injective haddress
    balance := natBytes_injective hbalance
    vote := natBytes_injective hvote
    network := natBytes_injective hnetwork
    storage := natBytes_injective hstorage
    oracle := natBytes_injective horacle
    previous := hashBytes_injective hprevious
    link := hashBytes_injective hlink
    sender := hsender
    receiver := hreceiver
    message := hashBytes_injective hmessage
    data := hdata
    timestamp := timestamp_inj htimestamp
    povHeight := povHeight_inj hpovHeight
    extra := hashBytes_injective hextra
    representative := hashBytes_injective hrep
    privateFrom := hfrom
    privateFor := hprivateFor
    privateGroupID := hgroup }

theorem SameLayout.sameContents (hl : SameLayout b c) (h : b.buildHashData = c.buildHashData) :
    SameContents b c := by
  have hfor : b.privateFor.length = c.privateFor.length := by
    simpa using congrArg List.length hl.privateFor
  refine sameContents_of_segments hfor (eq_iff_flatten_eq.mpr ⟨?_, hl.map_length⟩)
  rw [flatten_hashSegments, flatten_hashSegments, h]

/-- Two blocks with the same hashed bytes carry the same contents exactly when their variable-width
fields end at the same places. -/
theorem hash_commits_iff_sameLayout (b c : StateBlock) :
    (b.buildHashData = c.buildHashData → (SameContents b c ↔ SameLayout b c)) ∧
    ∀ hashData : Bytes → Hash,
      (hashData b.buildHashData = hashData c.buildHashData → b.buildHashData = c.buildHashData) →
      b.getHash hashData = c.getHash hashData → (SameContents b c ↔ SameLayout b c) := by
  have main : b.buildHashData = c.buildHashData → (SameContents b c ↔ SameLayout b c) :=
    fun h => ⟨SameContents.sameLayout, fun hl => hl.sameContents h⟩
  exact ⟨main, fun hashData hcollision hhash => main (hcollision hhash)⟩

def coinBlock (balance : ℕ) (vote : Option ℕ) : StateBlock :=
  { type := .send, token := 7, address := 5, balance, vote, previous := 3, link := 9,
    representative := 5 }

theorem coinBlock_shift_balance_into_vote :
    (coinBlock 258 none).buildHashData = (coinBlock 1 (some 2)).buildHashData ∧
    ¬ SameContents (coinBlock 258 none) (coinBlock 1 (some 2)) := by
  refine ⟨by decide +kernel, fun h => ?_⟩
  have hbalance : 258 = 1 := h.balance
  omega

theorem hash_commits_coinBlock :
    SameContents (coinBlock 258 none) (coinBlock 258 (some 0)) ∧
    SameLayout (coinBlock 258 none) (coinBlock 258 (some 0)) := by
  have hbytes : (coinBlock 258 none).buildHashData = (coinBlock 258 (some 0)).buildHashData := by
    decide +kernel
  have hiff := (hash_commits_iff_sameLayout (coinBlock 258 none) (coinBlock 258 (some 0))).1 hbytes
  have hlayout : SameLayout (coinBlock 258 none) (coinBlock 258 (some 0)) := by
    constructor <;> decide +kernel
  exact ⟨hiff.mpr hlayout, hlayout⟩

end StateBlock
end GoQlc
