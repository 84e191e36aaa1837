import GoQlc.Settlement.Uploads
import GoQlc.DoDSettle.Order

/-!
# The keys of settlement records

Records are kept under hashes of their identities.
-/

namespace GoQlc.Settlement

open Result DoDSettle Msgp

/-! ### Contract addresses -/

theorem selfDelimiting_contractor : SelfDelimiting Contractor.toABI := by
  intro x y r r' h
  obtain ⟨address, name⟩ := x
  obtain ⟨address', name'⟩ := y
  simp only [Contractor.toABI, List.append_assoc] at h
  obtain ⟨rfl, h₁⟩ := selfDelimiting_appendAddress (List.append_cancel_left h)
  obtain ⟨rfl, h₂⟩ := selfDelimiting_appendString (List.append_cancel_left h₁)
  exact ⟨rfl, h₂⟩

theorem selfDelimiting_contractService : SelfDelimiting ContractService.toABI := by
  intro x y r r' h
  obtain ⟨serviceId, mcc, mnc, totalAmount, unitPrice, currency⟩ := x
  obtain ⟨serviceId', mcc', mnc', totalAmount', unitPrice', currency'⟩ := y
  simp only [ContractService.toABI, List.append_assoc] at h
  obtain ⟨rfl, h₁⟩ := selfDelimiting_appendString (List.append_cancel_left h)
  obtain ⟨rfl, h₂⟩ := selfDelimiting_appendUint64 (List.append_cancel_left h₁)
  obtain ⟨rfl, h₃⟩ := selfDelimiting_appendUint64 (List.append_cancel_left h₂)
  obtain ⟨rfl, h₄⟩ := selfDelimiting_appendUint64 (List.append_cancel_left h₃)
  obtain ⟨rfl, h₅⟩ := selfDelimiting_appendFloat64 (List.append_cancel_left h₄)
  obtain ⟨rfl, h₆⟩ := selfDelimiting_appendString (List.append_cancel_left h₅)
  exact ⟨rfl, h₆⟩

structure CreateContractParam.SameTerms (z w : CreateContractParam) : Prop where
  partyA : z.partyA = w.partyA
  partyB : z.partyB = w.partyB
  previous : z.previous = w.previous
  services : z.services = w.services
  signDate : z.signDate = w.signDate

variable {z : CreateContractParam}

theorem addressData_eq_iff {w : CreateContractParam} :
    z.addressData = w.addressData ↔ z.SameTerms w := by
  constructor
  · intro h
    simp only [CreateContractParam.addressData, List.append_assoc] at h
    obtain ⟨hA, h⟩ := selfDelimiting_contractor h
    obtain ⟨hB, h⟩ := selfDelimiting_contractor h
    obtain ⟨hprevious, h⟩ := List.append_inj h (by simp)
    -- the sign date ends the text, so the services are read up to its eight bytes
    obtain ⟨hservices, hdate⟩ := selfDelimiting_contractService.flatMap_inj
      (fun service => by simp [ContractService.toABI]) (by simp) h
    have hsign := beBytes_eight_injective hdate
    exact ⟨hA, hB, hashBytes_injective hprevious, hservices, congrArg Int64.ofUInt64 hsign⟩
  · rintro ⟨hA, hB, hprevious, hservices, hdate⟩
    unfold CreateContractParam.addressData
    rw [hA, hB, hprevious, hservices, hdate]

variable {hashData : Bytes → Hash}

theorem address_eq_ok {a : Address} :
    z.address hashData = .ok a ↔ z.verify = .ok () ∧ hashData z.addressData = a := by
  unfold CreateContractParam.address
  rw [map_eq_ok]
  constructor
  · rintro ⟨⟨⟩, hverify, rfl⟩
    exact ⟨hverify, rfl⟩
  · rintro ⟨hverify, rfl⟩
    exact ⟨(), hverify, rfl⟩

theorem address_injective_iff {w : CreateContractParam}
    (hfree : hashData z.addressData = hashData w.addressData → z.addressData = w.addressData) :
    (∀ a, z.address hashData = .ok a → w.address hashData = .ok a → z = w) ↔
      (z.verify = .ok () → w.verify = .ok () → z.SameTerms w →
        z.startDate = w.startDate ∧ z.endDate = w.endDate) := by
  simp only [address_eq_ok]
  constructor
  · intro h hz hw hsame
    have heq := congrArg hashData (addressData_eq_iff.mpr hsame)
    obtain rfl := h _ ⟨hz, rfl⟩ ⟨hw, heq.symm⟩
    exact ⟨rfl, rfl⟩
  · rintro h a ⟨hz, rfl⟩ ⟨hw, heq⟩
    have hsame := addressData_eq_iff.mp (hfree heq.symm)
    obtain ⟨hstart, hend⟩ := h hz hw hsame
    obtain ⟨hA, hB, hprevious, hservices, hdate⟩ := hsame
    cases z
    cases w
    simp_all

/-! ### Two texts next to each other -/

theorem append_eq_imp_iff {a b a' b' : Bytes} :
    (a ++ b = a' ++ b' → a = a' ∧ b = b') ↔ (a ++ b = a' ++ b' → a.length = a'.length) := by
  constructor
  · intro h heq
    rw [(h heq).1]
  · intro h heq
    exact List.append_inj heq (h heq)

/-! ### Call detail records -/

def CDRParam.identity (z : CDRParam) : UInt64 × Bytes × Bytes := (z.index, z.sender, z.destination)

structure CDRParam.Apart (hashData : Bytes → Hash) (x y : CDRParam) : Prop where
  key : x.toHash hashData ≠ y.toHash hashData
  save : ∀ block ca contract st st', saveCDR hashData block ca contract st x = .ok st' →
    st'.cdrs.get (ca, y.toHash hashData) = st.cdrs.get (ca, y.toHash hashData)

variable {x y : CDRParam}

theorem apart_of_toHash_ne (hkey : x.toHash hashData ≠ y.toHash hashData) : x.Apart hashData y where
  key := hkey
  save block ca contract st st' hsave := by
    obtain ⟨status, -, hcdrs⟩ := cdrs_of_saveCDR hsave
    rw [hcdrs, Table.get_put_of_ne]
    intro heq
    exact hkey (Prod.mk.inj heq).2.symm

theorem hashedData_eq_iff :
    x.hashedData = y.hashedData ↔
      x.index = y.index ∧ x.sender ++ x.destination = y.sender ++ y.destination := by
  unfold CDRParam.hashedData
  rw [List.append_assoc, List.append_assoc]
  constructor
  · intro h
    obtain ⟨hindex, htexts⟩ := List.append_inj h (by simp)
    exact ⟨beBytes_eight_injective hindex, htexts⟩
  · rintro ⟨hindex, htexts⟩
    rw [hindex, htexts]

theorem toHash_injective_iff
    (hfree : hashData x.hashedData = hashData y.hashedData → x.hashedData = y.hashedData) :
    (x.identity ≠ y.identity → x.Apart hashData y) ↔
      (x.index = y.index → x.sender ++ x.destination = y.sender ++ y.destination →
        x.sender.length = y.sender.length) := by
  have hapart : x.Apart hashData y ↔ x.toHash hashData ≠ y.toHash hashData :=
    ⟨CDRParam.Apart.key, apart_of_toHash_ne⟩
  have hkey : x.toHash hashData = y.toHash hashData ↔
      x.index = y.index ∧ x.sender ++ x.destination = y.sender ++ y.destination := by
    rw [← hashedData_eq_iff]
    exact ⟨hfree, fun h => congrArg hashData h⟩
  rw [hapart, not_imp_not, hkey, CDRParam.identity, CDRParam.identity, and_imp]
  simp only [Prod.mk.injEq]
  refine forall_congr' fun hindex => ?_
  simp only [hindex, true_and]
  exact append_eq_imp_iff

/-! ### Records of data-on-demand orders -/

/-- The order items have different keys, and writing the connection of one leaves the other. -/
structure ProductsApart (hashData : Bytes → Hash) (p q : OrderToProduct) : Prop where
  key : p.hash hashData ≠ q.hash hashData
  connection : ∀ (st : DoDSettle.Store) conn,
    (st.updateConnection conn (p.hash hashData)).products.get (q.hash hashData) =
      st.products.get (q.hash hashData)
  rawParam : ∀ (st : DoDSettle.Store) param,
    (st.updateConnectionRawParam param (p.hash hashData)).rawParams.get (q.hash hashData) =
      st.rawParams.get (q.hash hashData)

theorem productsApart_of_hash_ne {p q : OrderToProduct} (hkey : p.hash hashData ≠ q.hash hashData) :
    ProductsApart hashData p q where
  key := hkey
  connection _ _ := Table.get_put_of_ne _ hkey.symm _
  rawParam _ _ := Table.get_put_of_ne _ hkey.symm _

theorem orderToProduct_injective_iff {p q : OrderToProduct}
    (hfree : hashData (hashBytes p.seller ++ p.orderId ++ p.orderItemId) =
        hashData (hashBytes q.seller ++ q.orderId ++ q.orderItemId) →
      hashBytes p.seller ++ p.orderId ++ p.orderItemId =
        hashBytes q.seller ++ q.orderId ++ q.orderItemId) :
    (p ≠ q → ProductsApart hashData p q) ↔
      (p.seller = q.seller → p.orderId ++ p.orderItemId = q.orderId ++ q.orderItemId →
        p.orderId.length = q.orderId.length) := by
  have hapart : ProductsApart hashData p q ↔ p.hash hashData ≠ q.hash hashData :=
    ⟨ProductsApart.key, productsApart_of_hash_ne⟩
  have hkey : p.hash hashData = q.hash hashData ↔
      p.seller = q.seller ∧ p.orderId ++ p.orderItemId = q.orderId ++ q.orderItemId := by
    unfold OrderToProduct.hash
    constructor
    · intro h
      have htext := hfree h
      rw [List.append_assoc, List.append_assoc] at htext
      obtain ⟨hseller, htexts⟩ := List.append_inj htext (by simp)
      exact ⟨hashBytes_injective hseller, htexts⟩
    · rintro ⟨hseller, htexts⟩
      rw [List.append_assoc, List.append_assoc, hseller, htexts]
  rw [hapart, not_imp_not, hkey, and_imp]
  obtain ⟨seller, orderId, orderItemId⟩ := p
  obtain ⟨seller', orderId', orderItemId'⟩ := q
  simp only [OrderToProduct.mk.injEq]
  refine forall_congr' fun hseller => ?_
  simp only [hseller, true_and]
  exact append_eq_imp_iff

structure TimeSpanIdentity where
  seller : Address
  key : PAYGTimeSpanKey
deriving DecidableEq

/-- The time spans have different keys, and an update of one leaves the other. -/
structure TimeSpanIdentity.Apart (hashData : Bytes → Hash) (s t : TimeSpanIdentity) : Prop where
  key : s.key.hash hashData ≠ t.key.hash hashData
  update : ∀ (st : DoDSettle.Store) startTime endTime,
    (st.updatePAYGTimeSpan hashData s.key.productId s.key.orderId startTime
        endTime).getPAYGTimeSpan hashData t.key.productId t.key.orderId =
      st.getPAYGTimeSpan hashData t.key.productId t.key.orderId

theorem apart_of_hash_ne {s t : TimeSpanIdentity}
    (hkey : s.key.hash hashData ≠ t.key.hash hashData) : s.Apart hashData t where
  key := hkey
  update _ _ _ := Table.get_put_of_ne _ hkey.symm _

theorem timeSpan_injective_iff {s t : TimeSpanIdentity}
    (hfree : hashData (s.key.productId ++ s.key.orderId) =
        hashData (t.key.productId ++ t.key.orderId) →
      s.key.productId ++ s.key.orderId = t.key.productId ++ t.key.orderId) :
    (s ≠ t → s.Apart hashData t) ↔
      (s.key.productId ++ s.key.orderId = t.key.productId ++ t.key.orderId →
        s.seller = t.seller ∧ s.key.productId.length = t.key.productId.length) := by
  have hapart : s.Apart hashData t ↔ s.key.hash hashData ≠ t.key.hash hashData :=
    ⟨TimeSpanIdentity.Apart.key, apart_of_hash_ne⟩
  have hkey : s.key.hash hashData = t.key.hash hashData ↔
      s.key.productId ++ s.key.orderId = t.key.productId ++ t.key.orderId :=
    ⟨hfree, fun h => congrArg hashData h⟩
  rw [hapart, not_imp_not, hkey]
  obtain ⟨seller, productId, orderId⟩ := s
  obtain ⟨seller', productId', orderId'⟩ := t
  simp only [TimeSpanIdentity.mk.injEq, PAYGTimeSpanKey.mk.injEq, imp_and]
  exact and_congr_right fun _ => by rw [← imp_and, append_eq_imp_iff]

/-! ### All identities -/

def NoCollision (hashData : Bytes → Hash) (a b : Bytes) : Prop := hashData a = hashData b → a = b

def otherCDR : CDRParam := { sampleCDR with sender := Abi.asciiBytes "d" }

def laterSigned : CreateContractParam := { sampleParam with signDate := 11 }

def sampleItem (orderId orderItemId : Bytes) : OrderToProduct := { seller := 1, orderId, orderItemId }

def sampleSpan (seller : Address) (orderId : Bytes) : TimeSpanIdentity where
  seller := seller
  key := { productId := [1], orderId }

def shiftedCDR : CDRParam :=
  { sampleCDR with sender := Abi.asciiBytes "a", destination := Abi.asciiBytes "bc" }

end GoQlc.Settlement
