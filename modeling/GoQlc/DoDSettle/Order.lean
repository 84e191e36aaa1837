import Mathlib.Order.Bounds.Basic
import GoQlc.Lib.Result
import GoQlc.Vm.Contract

/-!
# Data-on-demand settlement: orders

A buyer creates, changes or terminates connections of a seller by orders.
-/

namespace GoQlc.DoDSettle

open Config

structure User where
  address : Address
  name : Bytes
deriving DecidableEq

inductive ContractState where
  | null
  | request
  | confirmed
  | rejected
deriving DecidableEq, Repr

/-- A status comes from the buyer's call as a number; `other` is one outside the enumeration. -/
inductive OrderState where
  | null
  | success
  | complete
  | fail
  | other (code : Int64)
deriving DecidableEq

inductive PaymentType where
  | null
  | invoice
  | stableCoin
deriving DecidableEq, Repr

inductive BillingType where
  | null
  | PAYG
  | DOD
deriving DecidableEq, Repr

inductive BillingUnit where
  | null
  | year
  | month
  | week
  | day
  | hour
  | minute
  | second
deriving DecidableEq, Repr

inductive ServiceClass where
  | null
  | gold
  | silver
  | bronze
deriving DecidableEq, Repr

inductive OrderType where
  | null
  | create
  | change
  | terminate
deriving DecidableEq, Repr

/-! ### Connections -/

structure Ends where
  buyerProductId : Bytes := []
  productOfferingId : Bytes := []
  srcCompanyName : Bytes := []
  srcRegion : Bytes := []
  srcCity : Bytes := []
  srcDataCenter : Bytes := []
  srcPort : Bytes := []
  dstCompanyName : Bytes := []
  dstRegion : Bytes := []
  dstCity : Bytes := []
  dstDataCenter : Bytes := []
  dstPort : Bytes := []
deriving DecidableEq

/-- The terms of a connection; the price is a floating point number, given by its bits. -/
structure Terms where
  connectionName : Bytes := []
  paymentType : PaymentType := .null
  billingType : BillingType := .null
  currency : Bytes := []
  serviceClass : ServiceClass := .null
  bandwidth : Bytes := []
  billingUnit : BillingUnit := .null
  price : UInt64 := 0
  startTime : Int64 := 0
  endTime : Int64 := 0
deriving DecidableEq

structure ConnectionRawParam extends Ends, Terms where
  itemId : Bytes := []
deriving DecidableEq

structure ConnectionStaticParam extends Ends where
  productId : Bytes := []
deriving DecidableEq

structure ConnectionDynamicParam extends Terms where
  orderId : Bytes := []
  itemId : Bytes := []
  orderItemId : Bytes := []
  quoteId : Bytes := []
  quoteItemId : Bytes := []
  addition : UInt64 := 0
deriving DecidableEq

structure ConnectionParam extends ConnectionStaticParam, ConnectionDynamicParam
deriving DecidableEq

structure ConnectionLifeTrack where
  orderType : OrderType
  orderId : Bytes
  time : Int64
  changed : ConnectionDynamicParam
deriving DecidableEq

structure DisconnectInfo where
  orderId : Bytes
  orderItemId : Bytes
  price : UInt64
  currency : Bytes
  disconnectAt : Int64
deriving DecidableEq

structure ConnectionInfo extends ConnectionStaticParam where
  active : Option ConnectionDynamicParam
  done : List ConnectionDynamicParam := []
  disconnect : Option DisconnectInfo := none
  track : List ConnectionLifeTrack := []
deriving DecidableEq

structure PAYGTimeSpan where
  startTime : Int64
  endTime : Int64
deriving DecidableEq

def isPositive (bits : UInt64) : Bool := 0 < bits && bits ≤ 0x7ff0000000000000

/-! ### Keys -/

structure Product where
  seller : Address
  productId : Bytes
deriving DecidableEq

structure OrderToProduct where
  seller : Address
  orderId : Bytes
  orderItemId : Bytes
deriving DecidableEq

structure Order where
  seller : Address
  orderId : Bytes
deriving DecidableEq

structure PAYGTimeSpanKey where
  productId : Bytes
  orderId : Bytes
deriving DecidableEq

section
variable (hashData : Bytes → Hash)

def OrderToProduct.hash (z : OrderToProduct) : Hash :=
  hashData (hashBytes z.seller ++ z.orderId ++ z.orderItemId)

def PAYGTimeSpanKey.hash (z : PAYGTimeSpanKey) : Hash := hashData (z.productId ++ z.orderId)

end

/-! ### Orders -/

structure OrderLifeTrack where
  contractState : ContractState
  orderState : OrderState := .null
  reason : Bytes := []
  time : Int64
  hash : Hash
deriving DecidableEq

structure OrderInfo where
  buyer : User
  seller : User
  orderId : Bytes := []
  orderType : OrderType
  orderState : OrderState := .null
  contractState : ContractState
  connections : List ConnectionParam
  track : List OrderLifeTrack
deriving DecidableEq

structure UserInfos where
  internalIds : List Hash := []
  orderIds : List Order := []
deriving DecidableEq

structure Store where
  orders : Table Hash OrderInfo := ∅
  products : Table Hash ConnectionInfo := ∅
  orderIds : Table Hash Hash := ∅
  users : Table Address UserInfos := ∅
  rawParams : Table Hash ConnectionRawParam := ∅
  timeSpans : Table Hash PAYGTimeSpan := ∅
  productToOrder : Table Hash Hash := ∅
  orderToProduct : Table Hash Product := ∅
deriving DecidableEq

namespace Store

def updateConnection (st : Store) (conn : ConnectionInfo) (psk : Hash) : Store :=
  { st with products := st.products.put psk conn }

/-- `DoDSettleUpdateConnectionRawParam`: what the order leaves open keeps the value it had. -/
def updateConnectionRawParam (st : Store) (param : ConnectionParam) (psk : Hash) : Store :=
  let cp := match st.rawParams.get psk with
    | none =>
      { toEnds := param.toEnds, toTerms := param.toTerms, itemId := param.itemId :
        ConnectionRawParam }
    | some cp =>
      { cp with
        itemId := if param.itemId.isEmpty then cp.itemId else param.itemId
        connectionName :=
          if param.connectionName.isEmpty then cp.connectionName else param.connectionName
        paymentType := if param.paymentType = .null then cp.paymentType else param.paymentType
        billingType := if param.billingType = .null then cp.billingType else param.billingType
        currency := if param.currency.isEmpty then cp.currency else param.currency
        serviceClass := if param.serviceClass = .null then cp.serviceClass else param.serviceClass
        bandwidth := if param.bandwidth.isEmpty then cp.bandwidth else param.bandwidth
        billingUnit := if param.billingUnit = .null then cp.billingUnit else param.billingUnit
        price := if isPositive param.price then param.price else cp.price
        startTime := if 0 < param.startTime then param.startTime else cp.startTime
        endTime := if 0 < param.endTime then param.endTime else cp.endTime }
  { st with rawParams := st.rawParams.put psk cp }

section
variable (hashData : Bytes → Hash)

def getPAYGTimeSpan (st : Store) (productId orderId : Bytes) : Option PAYGTimeSpan :=
  st.timeSpans.get (PAYGTimeSpanKey.hash hashData { productId, orderId })

/-- `DoDSettleUpdatePAYGTimeSpan`: a time that is not above zero leaves the stored one. -/
def updatePAYGTimeSpan (st : Store) (productId orderId : Bytes) (startTime endTime : Int64) :
    Store :=
  let ts := match st.getPAYGTimeSpan hashData productId orderId with
    | some ots =>
      { startTime := if 0 < startTime then startTime else ots.startTime
        endTime := if 0 < endTime then endTime else ots.endTime }
    | none => { startTime, endTime : PAYGTimeSpan }
  { st with
    timeSpans := st.timeSpans.put (PAYGTimeSpanKey.hash hashData { productId, orderId }) ts }

end
end Store

/-! ## The order item ids of an order -/

open Result List

structure OrderItem where
  itemId : Bytes
  orderItemId : Bytes

structure UpdateOrderInfoParam where
  internalId : Hash
  orderId : Bytes
  orderItemId : List OrderItem

inductive VerifyError where
  | invalidInternalId
  | orderNotFound
  | nullOrderId
  | orderExist (orderId : Bytes)
  | noOrderItemId
  | nullItemId
  | nullOrderItemId
  | duplicateOrderItemId
  | itemNotFound (itemId : Bytes)
deriving DecidableEq

def Order.hash (hashData : Bytes → Hash) (z : Order) : Hash :=
  hashData (hashBytes z.seller ++ z.orderId)

def Store.getOrderInfoByOrderId (hashData : Bytes → Hash) (st : Store) (z : Order) :
    Option OrderInfo :=
  (st.orderIds.get (z.hash hashData)).bind st.orders.get

namespace UpdateOrderInfoParam

/-- One item of the answer: the order item ids seen, and whether the connection was found. -/
def checkItem (itemId : Bytes) (acc : List Bytes × Bool) (o : OrderItem) :
    Except VerifyError (List Bytes × Bool) :=
  if o.itemId = [] then .error .nullItemId
  else if o.orderItemId = [] then .error .nullOrderItemId
  else if o.orderItemId ∈ acc.1 then .error .duplicateOrderItemId
  else .ok (o.orderItemId :: acc.1, acc.2 || itemId == o.itemId)

def checkConnection (items : List OrderItem) (seen : List Bytes) (c : ConnectionParam) :
    Except VerifyError (List Bytes) :=
  items.foldlM (checkItem c.itemId) (seen, false) >>= fun (seen, found) =>
    if ¬ found then .error (.itemNotFound c.itemId) else .ok seen

def verify (hashData : Bytes → Hash) (st : Store) (z : UpdateOrderInfoParam) :
    Except VerifyError Unit :=
  if z.internalId = 0 then .error .invalidInternalId
  else
    match st.orders.get z.internalId with
    | none => .error .orderNotFound
    | some order =>
      if z.orderId = [] then .error .nullOrderId
      else if (st.getOrderInfoByOrderId hashData ⟨order.seller.address, z.orderId⟩).isSome then
        .error (.orderExist z.orderId)
      else if z.orderItemId = [] then .error .noOrderItemId
      else (order.connections.foldlM (checkConnection z.orderItemId) []).map fun _ => ()

/-- What an answer to an order with these connections should be. -/
structure Answers (items : List OrderItem) (connections : List ConnectionParam) : Prop where
  ids : ∀ o ∈ items, o.itemId ≠ [] ∧ o.orderItemId ≠ []
  nodup : (items.map OrderItem.orderItemId).Nodup
  covers : ∀ c ∈ connections, c.itemId ∈ items.map OrderItem.itemId

variable {items : List OrderItem} {seen : List Bytes} {c : ConnectionParam}

theorem foldlM_checkItem_eq_ok {itemId : Bytes} {r : List Bytes × Bool} :
    ∀ {seen : List Bytes} {found : Bool},
      items.foldlM (checkItem itemId) (seen, found) = .ok r ↔
        (∀ o ∈ items, (o.itemId ≠ [] ∧ o.orderItemId ≠ []) ∧ o.orderItemId ∉ seen) ∧
        (items.map OrderItem.orderItemId).Nodup ∧
        ((items.map OrderItem.orderItemId).reverse ++ seen,
          found || (items.map OrderItem.itemId).contains itemId) = r := by
  induction items with
  | nil => simp [pure, Except.pure]
  | cons o rest ih =>
    intro seen found
    have hstep : (o :: rest).foldlM (checkItem itemId) (seen, found) = .ok r ↔
        o.itemId ≠ [] ∧ o.orderItemId ≠ [] ∧ o.orderItemId ∉ seen ∧
        rest.foldlM (checkItem itemId) (o.orderItemId :: seen, found || itemId == o.itemId) =
          .ok r := by
      simp only [foldlM_cons, checkItem, bind_eq_ok, ite_error_eq_ok, Except.ok.injEq,
        and_assoc, exists_and_left, exists_eq_left', ne_eq]
    rw [hstep, ih]
    simp only [map_cons, nodup_cons, reverse_cons,
      append_assoc, singleton_append, contains_cons, Bool.or_assoc, mem_cons,
      mem_map]
    grind

theorem checkConnection_eq_ok {r : List Bytes} :
    checkConnection items seen c = .ok r ↔
      Answers items [c] ∧ (∀ o ∈ items, o.orderItemId ∉ seen) ∧
      (items.map OrderItem.orderItemId).reverse ++ seen = r := by
  simp only [checkConnection, bind_eq_ok, foldlM_checkItem_eq_ok]
  constructor
  · rintro ⟨_, ⟨hids, hnodup, rfl⟩, hfound⟩
    rw [ite_error_eq_ok] at hfound
    refine ⟨⟨fun o ho => (hids o ho).1, hnodup, ?_⟩, fun o ho => (hids o ho).2, ?_⟩
    · simpa using hfound.1
    · simpa using hfound.2
  · rintro ⟨h, hseen, rfl⟩
    refine ⟨_, ⟨fun o ho => ⟨h.ids o ho, hseen o ho⟩, h.nodup, rfl⟩, ?_⟩
    have hfound := h.covers c (mem_singleton_self c)
    rw [ite_error_eq_ok]
    simpa using hfound

/-- The second connection meets the order item ids that the first one has noted. -/
theorem foldlM_checkConnection_eq_ok {connections : List ConnectionParam} (hitems : items ≠ []) :
    (∃ r, connections.foldlM (checkConnection items) [] = .ok r) ↔
      connections = [] ∨ ∃ c, connections = [c] ∧ Answers items [c] := by
  rcases connections with _ | ⟨c, _ | ⟨c', rest⟩⟩
  · simp [pure, Except.pure]
  · simp [checkConnection_eq_ok, bind_eq_ok, pure, Except.pure]
  · refine iff_of_false ?_ (by simp)
    rintro ⟨r, h⟩
    simp only [foldlM_cons, bind_eq_ok, checkConnection_eq_ok] at h
    obtain ⟨_, ⟨-, -, rfl⟩, _, ⟨-, hseen, -⟩, -⟩ := h
    obtain ⟨o, ho⟩ := exists_mem_of_ne_nil items hitems
    exact hseen o ho (by simpa using ⟨o, ho, rfl⟩)

variable {hashData : Bytes → Hash} {st : Store} {z : UpdateOrderInfoParam} {order : OrderInfo}

/-- For one connection the check is exact. For several it refuses every answer, and for none it
only asks that the answer is not empty. -/
theorem verify_exact_iff (hid : z.internalId ≠ 0) (horder : st.orders.get z.internalId = some order)
    (hnull : z.orderId ≠ [])
    (hunused : st.getOrderInfoByOrderId hashData ⟨order.seller.address, z.orderId⟩ = none) :
    (z.verify hashData st = .ok () ↔ Answers z.orderItemId order.connections) ↔
      (order.connections = [] → z.orderItemId ≠ [] ∧ Answers z.orderItemId []) ∧
      (1 < order.connections.length → ¬ Answers z.orderItemId order.connections) := by
  have hverify : z.verify hashData st = .ok () ↔ z.orderItemId ≠ [] ∧
      ∃ r, order.connections.foldlM (checkConnection z.orderItemId) [] = .ok r := by
    simp only [verify, hid, horder, hnull, hunused, if_false, Option.isSome_none,
      Bool.false_eq_true, ite_error_eq_ok, map_eq_ok, and_true, ne_eq]
  have hnil : Answers [] [] := ⟨by simp, by simp, by simp⟩
  rw [hverify]
  by_cases hitems : z.orderItemId = []
  · have hone : ∀ c rest, ¬ Answers [] (c :: rest) := fun c rest h => by
      simpa using h.covers c mem_cons_self
    rw [hitems]
    rcases order.connections with _ | ⟨c, _ | ⟨c', rest⟩⟩ <;> simp [hnil, hone]
  · rw [foldlM_checkConnection_eq_ok hitems]
    rcases order.connections with _ | ⟨c, _ | ⟨c', rest⟩⟩ <;> simp [hitems]

def twoItems : OrderInfo where
  buyer := ⟨1, []⟩
  seller := ⟨2, []⟩
  orderType := .create
  contractState := .confirmed
  connections := [{ itemId := [1] }, { itemId := [2] }]
  track := []

theorem verify_exact_of_no_answer :
    verify (fun _ => 0) { orders := (∅ : Table Hash OrderInfo).put 1 twoItems } ⟨1, [7], []⟩ =
      .ok () ↔ Answers [] twoItems.connections :=
  (@verify_exact_iff _ _ ⟨1, [7], []⟩ twoItems (by decide) rfl (by decide) rfl).mpr
    ⟨fun h => (by cases h), fun _ h => by simpa using h.covers { itemId := [1] } (by decide)⟩

theorem verify_refuses_two :
    Answers [⟨[1], [1]⟩, ⟨[2], [2]⟩] twoItems.connections ∧
    verify (fun _ => 0) { orders := (∅ : Table Hash OrderInfo).put 1 twoItems }
      ⟨1, [7], [⟨[1], [1]⟩, ⟨[2], [2]⟩]⟩ = .error .duplicateOrderItemId :=
  ⟨⟨by decide, by decide, by decide⟩, by decide⟩

end UpdateOrderInfoParam

/-! ## Rounding up to billing units -/

open Int

/-- `Time.AddDate` on Unix times, in the time zone of the node. -/
structure Calendar where
  addDate : ℤ → ℕ → ℕ → ℤ
  addDate_zero : ∀ t, addDate t 0 0 = t
  years : ∀ t m n, m < n → addDate t m 0 < addDate t n 0
  months : ∀ t m n, m < n → addDate t 0 m < addDate t 0 n

def wrap (n : ℤ) : ℤ := (n + 2 ^ 63) % 2 ^ 64 - 2 ^ 63

def roundUp (round s t : ℤ) : ℤ :=
  wrap (s + wrap ((wrap (wrap (wrap (t - s) + round) - 1)).tdiv round * round))

/-- The loop for years and months. It always adds to `start`, so `next` is the same each time. -/
def search (next t : ℤ) : ℕ → Option ℤ
  | 0 => none
  | fuel + 1 => if t ≤ next then some next else search next t fuel

section
variable (cal : Calendar) (unit : BillingUnit) (s t : ℤ)

def billingUnitRound (fuel : ℕ) : Option ℤ :=
  if s = t then some s
  else
    match unit with
    | .year => search (cal.addDate s 1 0) t fuel
    | .month => search (cal.addDate s 0 1) t fuel
    | .week => some (roundUp 604800 s t)
    | .day => some (roundUp 86400 s t)
    | .hour => some (roundUp 3600 s t)
    | .minute => some (roundUp 60 s t)
    | .second | .null => some t

def seconds : BillingUnit → ℤ
  | .week => 604800
  | .day => 86400
  | .hour => 3600
  | .minute => 60
  | _ => 1

/-- The time `n` billing units after `s`. -/
def unitsAfter (n : ℕ) : ℤ :=
  match unit with
  | .year => cal.addDate s n 0
  | .month => cal.addDate s 0 n
  | unit => s + n * seconds unit

def Fits (round : ℤ) : Prop :=
  t - s + (round - 1) < 2 ^ 63 ∧ s + (t - s + (round - 1)) / round * round < 2 ^ 63

/-- A calendar unit is enough, and the formula for the others stays within 64 bits. -/
def Rounds : Prop :=
  match unit with
  | .year => t ≤ cal.addDate s 1 0
  | .month => t ≤ cal.addDate s 0 1
  | .second | .null => True
  | unit => Fits s t (seconds unit)

end

variable {cal : Calendar} {s t : ℤ}

theorem search_eq_some {next r : ℤ} :
    (∃ fuel, search next t fuel = some r) ↔ t ≤ next ∧ next = r := by
  constructor
  · rintro ⟨fuel, h⟩
    induction fuel with
    | zero => cases h
    | succ fuel ih =>
      unfold search at h
      split_ifs at h with hle
      · exact ⟨hle, Option.some.inj h⟩
      · exact ih h
  · rintro ⟨hle, rfl⟩
    exact ⟨1, if_pos hle⟩

theorem tdiv_mul (n : ℤ) {round : ℤ} :
    n.tdiv round * round = if 0 ≤ n then n / round * round else -(-n / round * round) := by
  split_ifs with hn
  · rw [tdiv_eq_ediv_of_nonneg hn]
  · obtain ⟨m, rfl⟩ : ∃ m, n = -m := ⟨-n, (Int.neg_neg n).symm⟩
    rw [Int.neg_tdiv, tdiv_eq_ediv_of_nonneg (by omega), Int.neg_neg, Int.neg_mul]

/-- The times reached from `f 0` in whole units, but not before `t`. -/
def Reached (f : ℕ → ℤ) (t : ℤ) : Set ℤ := {r | ∃ n, f n = r ∧ t ≤ r}

theorem isLeast_one {f : ℕ → ℤ} (hf : ∀ m n, m < n → f m < f n) (hzero : f 0 < t)
    (hone : t ≤ f 1) : IsLeast (Reached f t) (f 1) := by
  refine ⟨⟨1, rfl, hone⟩, ?_⟩
  rintro r ⟨n, rfl, hle⟩
  rcases n with _ | _ | n
  · omega
  · rfl
  · exact (hf 1 (n + 2) (by omega)).le

section
variable {round : ℤ} (hround : round = 604800 ∨ round = 86400 ∨ round = 3600 ∨ round = 60)
  (hs : -2 ^ 63 ≤ s) (hst : s < t) (ht : t < 2 ^ 63)

include hround hs hst ht

theorem roundUp_eq : roundUp round s t =
    if t - s + (round - 1) < 2 ^ 63 then wrap (s + (t - s + (round - 1)) / round * round)
    else if t - s + (round - 1) < 2 ^ 64 then
      wrap (s - (2 ^ 64 - (t - s + (round - 1))) / round * round)
    else s := by
  have hsum : wrap (wrap (wrap (t - s) + round) - 1) =
      if t - s + (round - 1) < 2 ^ 63 then t - s + (round - 1)
      else t - s + (round - 1) - 2 ^ 64 := by
    unfold wrap
    omega
  unfold roundUp
  rw [hsum, tdiv_mul]
  unfold wrap
  rcases hround with rfl | rfl | rfl | rfl <;> split_ifs <;> omega

theorem isLeast_roundUp_iff :
    IsLeast (Reached (s + · * round) t) (roundUp round s t) ↔ Fits s t round := by
  rw [roundUp_eq hround hs hst ht, Fits]
  constructor
  · rintro ⟨⟨n, hn, hle⟩, -⟩
    change s + n * round = _ at hn
    split_ifs at hn hle with hsum hsum'
    · refine ⟨hsum, ?_⟩
      have hdown : (t - s + (round - 1)) / round * round ≤ t - s + (round - 1) := by
        rcases hround with rfl | rfl | rfl | rfl <;> omega
      generalize (t - s + (round - 1)) / round * round = v at hdown hle ⊢
      unfold wrap at hle
      omega
    · -- a sum that leaves the range twice is off by a number that is no multiple of the unit
      generalize hk : (2 ^ 64 - (t - s + (round - 1))) / round = k at hn hle
      have hbound : 0 ≤ k * round ∧ k * round ≤ 2 ^ 63 := by
        rcases hround with rfl | rfl | rfl | rfl <;> omega
      have hwrap : wrap (s - k * round) = s - k * round ∨
          wrap (s - k * round) = s - k * round + 2 ^ 64 := by
        unfold wrap
        omega
      rcases hwrap with hwrap | hwrap
      · omega
      · rw [hwrap] at hn
        rcases hround with rfl | rfl | rfl | rfl <;> omega
    · omega
  · rintro ⟨hsum, hfit⟩
    rw [if_pos hsum]
    have hwrap : wrap (s + (t - s + (round - 1)) / round * round) =
        s + (t - s + (round - 1)) / round * round := by
      unfold wrap
      rcases hround with rfl | rfl | rfl | rfl <;> omega
    rw [hwrap]
    refine ⟨⟨((t - s + (round - 1)) / round).toNat, ?_, ?_⟩, ?_⟩
    · dsimp only
      rcases hround with rfl | rfl | rfl | rfl <;> omega
    · rcases hround with rfl | rfl | rfl | rfl <;> omega
    · rintro r ⟨n, rfl, hle⟩
      dsimp only at hle ⊢
      rcases hround with rfl | rfl | rfl | rfl <;> omega

end

def meanCalendar : Calendar where
  addDate t years months := t + 2629800 * (12 * years + months)
  addDate_zero := by simp
  years t m n h := by omega
  months t m n h := by omega

end GoQlc.DoDSettle
