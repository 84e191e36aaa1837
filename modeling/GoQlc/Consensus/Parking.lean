import GoQlc.DoDSettle.Order

/-!
# Parking a block that waits

A block whose contract finds a gap is parked under what it waits for.
-/

namespace GoQlc.Parking

/-- What `DoGap` reads of the ledger. -/
structure View where
  latestPovHeight : Option UInt64 := none
  store : DoDSettle.Store := {}
  hasPublishInfo : Bytes → Bool := fun _ => false

inductive Call where
  | minerReward (endHeight : Option UInt64)
  | repReward (endHeight : Option UInt64)
  | pkdReward (endHeight : Option UInt64)
  | oracle (info : Option Bytes)
  | updateOrderInfo (internalId : Option Hash)
  | updateProductInfo (orderId : Option Bytes)
  | other

structure Block where
  address : Address
  isHidden : Bool := false
  call : Call

inductive GapInfo where
  | height (height : UInt64)
  | order (internalId : Hash)
deriving DecidableEq, Repr

/-- The answer of `DoGap`. -/
structure Gap where
  type : ContractGapType
  info : Option GapInfo := none
  failed : Bool := false

def rewardHeightGap : UInt64 := 1440

/-- `DoGap` of the three reward contracts. -/
def rewardGap (v : View) : Option UInt64 → Gap
  | none => { type := .noGap, failed := true }
  | some endHeight =>
    let needHeight := endHeight + rewardHeightGap
    match v.latestPovHeight with
    | none => { type := .rewardGapPov, info := some (.height needHeight) }
    | some nodeHeight =>
      if nodeHeight < needHeight then { type := .rewardGapPov, info := some (.height needHeight) }
      else { type := .noGap }

def oracleGap (v : View) : Option Bytes → Gap
  | none => { type := .noGap, failed := true }
  | some info => if v.hasPublishInfo info then { type := .noGap } else { type := .dpkiGapPublish }

def updateOrderInfoGap (v : View) : Option Hash → Gap
  | none => { type := .noGap, failed := true }
  | some internalId =>
    if internalId = 0 then { type := .noGap, failed := true }
    else
      match v.store.orders.get internalId with
      | none => { type := .noGap, failed := true }
      | some order =>
        if order.contractState ≠ .confirmed then
          { type := .doDOrderState, info := some (.order internalId) }
        else { type := .noGap }

variable (hashData : Bytes → Hash)

/-- `DoDSettleOrder.Hash`. -/
def orderKey (seller : Address) (orderId : Bytes) : Hash := hashData (hashBytes seller ++ orderId)

def updateProductInfoGap (v : View) (seller : Address) : Option Bytes → Gap
  | none => { type := .noGap, failed := true }
  | some orderId =>
    if orderId = [] then { type := .noGap, failed := true }
    else
      match v.store.orderIds.get (orderKey hashData seller orderId) with
      | none => { type := .noGap, failed := true }
      | some internalId =>
        match v.store.orders.get internalId with
        | none => { type := .noGap, failed := true }
        | some order =>
          if order.orderState = .fail then { type := .noGap, failed := true }
          else if order.orderState = .null then
            { type := .doDOrderState, info := some (.order internalId) }
          else { type := .noGap }

def doGap (v : View) (b : Block) : Gap :=
  match b.call with
  | .minerReward p | .repReward p | .pkdReward p => rewardGap v p
  | .oracle p => oracleGap v p
  | .updateOrderInfo p => updateOrderInfoGap v p
  | .updateProductInfo p => updateProductInfoGap hashData v b.address p
  | .other => { type := .noGap }

inductive GapResult where
  | gapPovHeight
  | gapDoDSettleState
deriving DecidableEq, Repr

/-- `none` stands for all other results. -/
def resultOf (gap : Gap) : Option GapResult :=
  if gap.failed then none
  else
    match gap.type with
    | .rewardGapPov => some .gapPovHeight
    | .doDOrderState => some .gapDoDSettleState
    | _ => none

def check (v : View) (b : Block) : Option GapResult :=
  if b.isHidden then none else resultOf (doGap hashData v b)

inductive Parked where
  | stored (info : GapInfo)
  | dropped
  | panicked
deriving DecidableEq, Repr

def enqueueUncheckedToDb (result : GapResult) (v : View) (b : Block) : Parked :=
  if b.isHidden then .dropped
  else
    match result, (doGap hashData v b).info with
    | .gapPovHeight, some (.height height) =>
      if 0 < height then .stored (.height height) else .dropped
    | .gapDoDSettleState, some (.order internalId) =>
      if internalId ≠ 0 then .stored (.order internalId) else .dropped
    | _, _ => .panicked

variable {hashData} {v v' : View} {b : Block} {r : GapResult} {info : GapInfo}

/-! ## What has not come yet -/

def RewardWaits (v : View) (p : Option UInt64) (info : GapInfo) : Prop :=
  ∃ endHeight ∈ p, info = .height (endHeight + rewardHeightGap) ∧
    endHeight + rewardHeightGap ≠ 0 ∧
      ∀ height ∈ v.latestPovHeight, height < endHeight + rewardHeightGap

def OrderWaits (v : View) (p : Option Hash) (info : GapInfo) : Prop :=
  ∃ internalId ∈ p, info = .order internalId ∧ internalId ≠ 0 ∧
    ∃ order ∈ v.store.orders.get internalId, order.contractState ≠ .confirmed

def ProductWaits (hashData : Bytes → Hash) (v : View) (seller : Address) (p : Option Bytes)
    (info : GapInfo) : Prop :=
  ∃ orderId ∈ p, orderId ≠ [] ∧
    ∃ internalId ∈ v.store.orderIds.get (orderKey hashData seller orderId),
      info = .order internalId ∧ internalId ≠ 0 ∧
        ∃ order ∈ v.store.orders.get internalId, order.orderState = .null

def Waits (hashData : Bytes → Hash) (v : View) (b : Block) (info : GapInfo) : Prop :=
  match b.call with
  | .minerReward p | .repReward p | .pkdReward p => RewardWaits v p info
  | .updateOrderInfo p => OrderWaits v p info
  | .updateProductInfo p => ProductWaits hashData v b.address p info
  | .oracle _ | .other => False

def Fits : GapResult → GapInfo → Prop
  | .gapPovHeight, .height height => height ≠ 0
  | .gapDoDSettleState, .order internalId => internalId ≠ 0
  | _, _ => False

theorem enqueueUncheckedToDb_eq_stored (hhidden : ¬ b.isHidden = true) :
    enqueueUncheckedToDb hashData r v b = .stored info ↔
      (doGap hashData v b).info = some info ∧ Fits r info := by
  unfold enqueueUncheckedToDb
  rw [if_neg hhidden]
  have hpos : ∀ height : UInt64, 0 < height ↔ height ≠ 0 := fun height => UInt64.pos_iff_ne_zero
  rcases (doGap hashData v b).info with _ | ⟨height⟩ | ⟨internalId⟩
  · simp
  · cases r <;> grind [Fits]
  · cases r <;> grind [Fits]

theorem rewardGap_iff {p : Option UInt64} (hcheck : resultOf (rewardGap v p) = some r) :
    (rewardGap v' p).info = some info ∧ Fits r info ↔ RewardWaits v' p info := by
  cases p with
  | none => cases hcheck
  | some endHeight =>
    obtain rfl : r = .gapPovHeight := by grind [rewardGap, resultOf]
    unfold RewardWaits rewardGap
    cases v'.latestPovHeight <;> grind [Fits]

theorem resultOf_oracleGap (v : View) (p : Option Bytes) : resultOf (oracleGap v p) = none := by
  cases p with
  | none => rfl
  | some info =>
    dsimp only [oracleGap]
    split_ifs <;> rfl

theorem updateOrderInfoGap_iff {p : Option Hash}
    (hcheck : resultOf (updateOrderInfoGap v p) = some r) :
    (updateOrderInfoGap v' p).info = some info ∧ Fits r info ↔ OrderWaits v' p info := by
  cases p with
  | none => cases hcheck
  | some internalId =>
    obtain rfl : r = .gapDoDSettleState := by grind [updateOrderInfoGap, resultOf]
    unfold OrderWaits updateOrderInfoGap
    simp only [Option.mem_def, Option.some.injEq, exists_eq_left']
    cases v'.store.orders.get internalId <;> grind [Fits]

theorem updateProductInfoGap_iff {p : Option Bytes} {seller : Address}
    (hcheck : resultOf (updateProductInfoGap hashData v seller p) = some r) :
    (updateProductInfoGap hashData v' seller p).info = some info ∧ Fits r info ↔
      ProductWaits hashData v' seller p info := by
  cases p with
  | none => cases hcheck
  | some orderId =>
    obtain rfl : r = .gapDoDSettleState := by grind [updateProductInfoGap, resultOf]
    unfold ProductWaits updateProductInfoGap
    simp only [Option.mem_def, Option.some.injEq, exists_eq_left']
    cases v'.store.orderIds.get (orderKey hashData seller orderId) with
    | none => simp
    | some internalId =>
      simp only [Option.some.injEq, exists_eq_left']
      cases v'.store.orders.get internalId <;> grind [Fits]

end GoQlc.Parking
