import GoQlc.Properties.VerifierRuns

/-!
# The codes of a publication

A publication lists verifiers and codes, each at most five. The oracle check looks for the verifier
in the one list and takes the code at its place in the other.
-/

namespace GoQlc.PublicKeyDistribution

open Abi Config Result Devnet Option

def errVerifierNum : ContractError := .other "verifier num err"

def publishCost : ℕ := 500000000

def publishInfoCheck (info : PublishInfo) : Bool :=
  match oracleTypeToString info.pType with
  | .invalid => false
  | .email | .weChat =>
    publishCost ≤ info.fee && publicKeyLength info.keyType == some info.pubKey.length

def PublishInfo.stored (info : PublishInfo) (account : Address) : PubKeyInfo :=
  { info with account, valid := true }

section
variable (crypto : Crypto) (sha256 : Bytes → Hash)

def publish.run (ctx : VmContext) (block : StateBlock) :
    Except ContractError (Bytes × VmContext) :=
  if block.token ≠ gasToken then .error errToken
  else
    match unpackPublish crypto.hashData block.data with
    | none => .error errUnpackMethod
    | some info =>
      if info.verifiers.length < 1 ∨ 5 < info.verifiers.length ∨
          info.codes.length < 1 ∨ 5 < info.codes.length then .error errVerifierNum
      else if !publishInfoCheck info then .error errCheckParam
      else
        match ctx.calculateAmount crypto block with
        | none => .error errCalcAmount
        | some amount =>
          if amount ≠ info.fee then .error errNotEnoughFee
          else .ok
            (packMethod crypto.hashData publishMethod
                (info.pType, info.pID, info.keyType, info.pubKey, info.verifiers, info.codes,
                  info.fee, ()),
              ctx.setStorage (hashBytes pubKeyDistributionAddress)
                (info.key sha256 block.previous).storageKey (info.stored block.address).pack)

end

variable {crypto : Crypto} {sha256 : Bytes → Hash} {ctx ctx' later : VmContext}
  {block : StateBlock} {data : Bytes} {info : PublishInfo}

theorem publish.stores (h : publish.run crypto sha256 ctx block = .ok (data, ctx'))
    (hinfo : unpackPublish crypto.hashData block.data = some info) :
    oracleTypeToString info.pType ≠ .invalid ∧
    ctx'.getStorage (hashBytes pubKeyDistributionAddress)
      (info.key sha256 block.previous).storageKey = some (info.stored block.address).pack := by
  simp only [publish.run, hinfo, ite_error_eq_ok] at h
  obtain ⟨-, -, hcheck, h⟩ := h
  split at h
  · cases h
  · obtain ⟨-, h⟩ := ite_error_eq_ok.mp h
    cases h
    refine ⟨fun hinvalid => hcheck ?_, ?_⟩
    · simp [publishInfoCheck, hinvalid]
    · simp [VmContext.getStorage, VmContext.setStorage]

theorem lt_of_toGoType_uint256 {index n : ℕ} (h : toGoType index .uint256 data = some n) :
    n < 2 ^ 256 := by
  have hn : n = Bytes.toNat (readWord index data) := by
    unfold toGoType at h
    by_cases hshort : data.length < index + wordSize
    · simp [hshort] at h
    · rw [if_neg hshort] at h
      exact (Option.some.inj h).symm
  rw [hn]
  refine (Bytes.leValue_lt _).trans_le ?_
  rw [List.length_reverse, readWord, List.length_take]
  exact (Nat.pow_le_pow_right (by decide) (min_le_left _ _)).trans (by decide)

theorem parsePubKeyInfo_stored {account : Address} {published : PubKeyInfo}
    (hinfo : unpackPublish crypto.hashData data = some info)
    (h : parsePubKeyInfo (info.stored account).pack = some published) :
    published = info.stored account := by
  obtain ⟨call, hcall, rfl⟩ := map_eq_some_iff.mp hinfo
  obtain ⟨read, hread, rfl⟩ := map_eq_some_iff.mp h
  have hvalues := unpackValues_of_unpackMethod hcall
  have hfee := lt_of_toGoType_uint256 <| (unpackValues_cons (unpackValues_cons (unpackValues_cons
    (unpackValues_cons (unpackValues_cons (unpackValues_cons (unpackValues_cons
      hvalues).2).2).2).2).2).2).1
  obtain ⟨-, -, -, hkey, hverifiers, hcodes, -⟩ := shortAll_of_unpackValues hvalues
  obtain ⟨pType, pID, keyType, pubKey, verifiers, codes, fee, _⟩ := call
  have hfit : FitAll publishInfoInputs (account, verifiers, codes, fee, true, keyType, pubKey, ()) :=
    ⟨trivial, fun _ _ => trivial, fun _ _ => trivial, hfee, trivial, trivial, fun _ _ => trivial,
      trivial⟩
  have hshort : ShortAll publishInfoInputs
      (account, verifiers, codes, fee, true, keyType, pubKey, ()) :=
    ⟨trivial, hverifiers, hcodes, trivial, trivial, trivial, hkey, trivial⟩
  rw [eq_of_unpackVariable_pack (by decide) (by decide) hfit hshort hread]
  rfl

variable {account : Address} {o : OracleInfo}

/-- The check of an oracle call is safe and exact unless the verifier stands behind the last code
of the publication. -/
theorem oracleInfoCheck_safe_iff (hpublish : publish.run crypto sha256 ctx block = .ok (data, ctx'))
    (hinfo : unpackPublish crypto.hashData block.data = some info)
    (hkey : o.key sha256 = info.key sha256 block.previous)
    (hlater : (getPublishInfoByKey later (o.key sha256)).isSome →
      later.getStorage (hashBytes pubKeyDistributionAddress) (o.key sha256).storageKey =
        ctx'.getStorage (hashBytes pubKeyDistributionAddress) (o.key sha256).storageKey) :
    (oracleInfoCheck sha256 later account o ≠ .error .nilPointer ∧
      (oracleInfoCheck sha256 later account o = .ok () →
        ∃ i ∈ info.verifiers.idxOf? account,
          info.codes[i]? = some (sha256 (Bytes.hexText o.pubKey ++ o.code)))) ↔
    (publicKeyLength o.keyType = some o.pubKey.length →
      (getPublishInfoByKey later (o.key sha256)).isSome →
      ∀ i ∈ info.verifiers.idxOf? account, i < info.codes.length) := by
  obtain ⟨htype, hstored⟩ := publish.stores hpublish hinfo
  have hoType : o.oType = info.pType := congrArg PublishInfoKey.pType hkey
  have hpublished (published : PubKeyInfo)
      (h : getPublishInfoByKey later (o.key sha256) = some published) :
      published = info.stored block.address := by
    have hread := h
    rw [getPublishInfoByKey, hlater (by simp [h]), hkey, hstored] at hread
    exact parsePubKeyInfo_stored hinfo (filter_eq_some_iff.mp hread).1
  unfold oracleInfoCheck
  cases hkind : oracleTypeToString o.oType with
  | invalid => exact absurd (hoType ▸ hkind) htype
  | email | weChat =>
    by_cases hlen : publicKeyLength o.keyType = some o.pubKey.length
    · cases hread : getPublishInfoByKey later (o.key sha256) with
      | none => simp [hlen, errCheckParam]
      | some published =>
        obtain rfl := hpublished published hread
        cases hindex : info.verifiers.idxOf? account with
        | none => simp [hlen, PublishInfo.stored, hindex, errCheckParam]
        | some i =>
          simp only [hlen, PublishInfo.stored, hindex, ne_eq, not_true, if_false, isSome_some,
            mem_some_iff, exists_eq_left', forall_eq', true_implies]
          by_cases hi : i < info.codes.length
          · by_cases hcode : sha256 (Bytes.hexText o.pubKey ++ o.code) = info.codes[i] <;>
              simp [hi, hcode, errCheckParam]
          · simp [hi]
    · simp [hlen, errCheckParam]

/-! ### Two verifiers and one code -/

def publishContext : VmContext where
  ledger := {}
  view :=
    { Devnet.view with
      blockCache := fun _ =>
        some
          { type := .send, token := gasToken, address := stranger, balance := publishCost
            previous := 0, link := 0, representative := stranger } }
  contractAddr := pubKeyDistributionAddress
  povHeight := 0

def publishBlock : StateBlock :=
  verifierBlock gasToken
    (packMethod hashData publishMethod
      ((0 : UInt32), (7 : Hash), (0 : UInt16), List.replicate 32 (0 : UInt8),
        [neighbour, stranger], ([3] : List Hash), publishCost, ()))

def published : Option (Bytes × VmContext) :=
  (publish.run Devnet.env.toCrypto hashData publishContext publishBlock).toOption

def sampleOracle : OracleInfo where
  oType := 0
  oID := 7
  keyType := 0
  pubKey := List.replicate 32 0
  code := []
  hash := 1

theorem oracleInfoCheck_safe_first :
    ∃ r ∈ published,
      oracleInfoCheck hashData r.2 neighbour sampleOracle ≠ .error .nilPointer := by
  have hok : published.isSome := by decide +kernel
  have hinfo : (unpackPublish hashData publishBlock.data).isSome := by decide +kernel
  have hplace : ∀ info ∈ unpackPublish hashData publishBlock.data,
      sampleOracle.key hashData = info.key hashData publishBlock.previous ∧
      ∀ i ∈ info.verifiers.idxOf? neighbour, i < info.codes.length := by decide +kernel
  obtain ⟨r, hr⟩ := isSome_iff_exists.mp hok
  obtain ⟨info, hinfo⟩ := isSome_iff_exists.mp hinfo
  obtain ⟨hkey, hindex⟩ := hplace info hinfo
  exact ⟨r, hr, ((oracleInfoCheck_safe_iff (toOption_eq_some.mp hr) hinfo hkey fun _ => rfl).mpr
    fun _ _ => hindex).1⟩

/-- The second verifier has no code. -/
theorem oracleInfoCheck_reads_past_codes :
    ∃ r ∈ published,
      oracleInfoCheck hashData r.2 stranger sampleOracle = .error .nilPointer := by
  decide +kernel

end GoQlc.PublicKeyDistribution
