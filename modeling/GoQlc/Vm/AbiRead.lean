import GoQlc.Vm.Abi

/-!
# Reading packed arguments back

A record whose arguments each fill one word is read back as it was packed: the head is the
concatenation of the words and there is nothing behind it.
-/

namespace GoQlc.Abi

open List Option Bool Bytes

namespace AbiType

def OneWord : AbiType → Prop
  | string | signature | slice _ => False
  | _ => True

instance : DecidablePred OneWord := fun t => by
  cases t <;> unfold OneWord <;> infer_instance

def Fits : (t : AbiType) → t.Val → Prop
  | uint256, (n : ℕ) => n < 2 ^ 256
  | slice elem, (vs : List elem.Val) => ∀ v ∈ vs, elem.Fits v
  | _, _ => True

theorem OneWord.no_prefix {t : AbiType} (h : t.OneWord) : t.requiresLengthPrefix = false := by
  cases t <;> first | rfl | exact h.elim

end AbiType

theorem toNat_word {n : ℕ} (h : n < 2 ^ 256) : toNat (word n) = n := by
  rw [word, toNat_beBytes, Nat.mod_eq_of_lt (h.trans_le (by norm_num [wordSize]))]

@[simp] theorem length_word (n : ℕ) : (word n).length = wordSize := beBytes_length _ _

variable {t elem : AbiType} {v : t.Val} {ts : List AbiType} {vs : Values ts} {index offset : ℕ}
  {output : Bytes} {r : ℕ × ℕ}

theorem length_packElement (h : t.OneWord) (v : t.Val) : (packElement t v).length = wordSize := by
  cases t <;> first | exact h.elim | exact length_word _

theorem readWord_append (pre w post : Bytes) (h : w.length = wordSize) :
    readWord pre.length (pre ++ (w ++ post)) = w := by
  rw [readWord, drop_left, ← h, take_left]

theorem toNat_word_of_lt {n w : ℕ} (h : n < 2 ^ w) (hw : w ≤ 256) :
    toNat (word n) = n := toNat_word (h.trans_le (Nat.pow_le_pow_right (by decide) hw))

theorem ofNat_word_uint8 (n : UInt8) : UInt8.ofNat (toNat (word n.toNat)) = n := by
  rw [toNat_word_of_lt n.toNat_lt (by decide), UInt8.ofNat_toNat]

theorem ofNat_word_uint16 (n : UInt16) : UInt16.ofNat (toNat (word n.toNat)) = n := by
  rw [toNat_word_of_lt n.toNat_lt (by decide), UInt16.ofNat_toNat]

theorem ofNat_word_uint32 (n : UInt32) : UInt32.ofNat (toNat (word n.toNat)) = n := by
  rw [toNat_word_of_lt n.toNat_lt (by decide), UInt32.ofNat_toNat]

theorem ofNat_word_uint64 (n : UInt64) : UInt64.ofNat (toNat (word n.toNat)) = n := by
  rw [toNat_word_of_lt n.toNat_lt (by decide), UInt64.ofNat_toNat]

theorem ofNat_word_int64 (n : Int64) :
    Int64.ofUInt64 (UInt64.ofNat (toNat (word (n.toInt % 2 ^ 256).toNat))) = n := by
  rw [toNat_word (by omega)]
  apply Int64.toBitVec_inj.mp
  apply BitVec.eq_of_toInt_eq
  change BitVec.toInt (BitVec.ofNat 64 _) = n.toInt
  have hlo := n.le_toInt
  have hhi := n.toInt_lt
  rw [BitVec.toInt_ofNat', Int.bmod_def]
  omega

theorem readBool_word (b : Bool) : readBool (word b.toNat) = some b := by
  rw [readBool, toNat_word_of_lt (toNat_lt b) (by decide : 1 ≤ 256)]
  cases b <;> rfl

theorem toNat_hashBytes (h : Hash) : toNat (hashBytes h) = h.toNat := by
  rw [hashBytes, toNat_beBytes, Nat.mod_eq_of_lt (h.isLt.trans_le (by norm_num))]

theorem ofNat_toNat_hashBytes (h : Hash) :
    BitVec.ofNat 256 (toNat (hashBytes h)) = h := by
  rw [toNat_hashBytes, BitVec.ofNat_toNat, BitVec.setWidth_eq]

theorem toGoType_packElement (ht : t.OneWord) (hv : t.Fits v) (pre post : Bytes) :
    toGoType pre.length t (pre ++ (packElement t v ++ post)) = some v := by
  have hlen := length_packElement ht v
  have hword := readWord_append pre (packElement t v) post hlen
  have hlong : ¬ (pre ++ (packElement t v ++ post)).length < pre.length + wordSize := by
    simp only [length_append, hlen]
    omega
  unfold toGoType
  rw [if_neg hlong, hword]
  cases t with
  | uint256 => exact congrArg some (toNat_word hv)
  | uint8 => exact congrArg some (ofNat_word_uint8 v)
  | uint16 => exact congrArg some (ofNat_word_uint16 v)
  | uint32 => exact congrArg some (ofNat_word_uint32 v)
  | uint64 => exact congrArg some (ofNat_word_uint64 v)
  | int64 => exact congrArg some (ofNat_word_int64 v)
  | bool => exact readBool_word v
  | address | tokenId | hash | bytes32 => exact congrArg some (ofNat_toNat_hashBytes v)
  | string | signature | slice => exact ht.elim

def FitAll : (ts : List AbiType) → Values ts → Prop
  | [], _ => True
  | t :: ts, (v, vs) => t.Fits v ∧ FitAll ts vs

theorem packLoop_of_oneWord (inputOffset : ℕ) (hts : ∀ t ∈ ts, t.OneWord) (vs : Values ts)
    (rest : Bytes) : (packLoop inputOffset ts vs rest).2 = rest := by
  induction ts with
  | nil => rfl
  | cons t ts ih =>
    obtain ⟨v, vs⟩ := vs
    have ht := hts t mem_cons_self
    simp only [packLoop, ht.no_prefix, false_eq_true, if_false]
    exact ih (fun t h => hts t (mem_cons_of_mem _ h)) vs

theorem unpackValues_packLoop (inputOffset : ℕ) (hts : ∀ t ∈ ts, t.OneWord) (hvs : FitAll ts vs)
    (index : ℕ) (pre post : Bytes) (hpre : pre.length = index * wordSize) :
    unpackValues ts index (pre ++ ((packLoop inputOffset ts vs []).1 ++ post)) = some vs := by
  induction ts generalizing index pre with
  | nil => rfl
  | cons t ts ih =>
    obtain ⟨v, vs⟩ := vs
    have ht := hts t mem_cons_self
    have hhead := toGoType_packElement ht hvs.1 pre ((packLoop inputOffset ts vs []).1 ++ post)
    have htail := ih (fun t h => hts t (mem_cons_of_mem _ h)) hvs.2 (index + 1)
      (pre ++ packElement t v)
      (by rw [length_append, length_packElement ht, hpre, Nat.succ_mul])
    rw [append_assoc] at htail
    simp only [packLoop, ht.no_prefix, false_eq_true, if_false, append_assoc,
      unpackValues, ← hpre, hhead, htail]
    rfl

theorem unpackVariable_pack (hne : ts ≠ []) (hts : ∀ t ∈ ts, t.OneWord) (hvs : FitAll ts vs) :
    unpackVariable ts (pack ts vs) = some vs := by
  have hread := unpackValues_packLoop (wordSize * ts.length) hts hvs 0 [] [] (by simp)
  have hpack : pack ts vs = [] ++ ((packLoop (wordSize * ts.length) ts vs []).1 ++ []) := by
    simp [pack, packLoop_of_oneWord _ hts]
  have hlong : (pack ts vs).isEmpty = false := by
    obtain ⟨t, ts, rfl⟩ := exists_cons_of_ne_nil hne
    obtain ⟨v, vs⟩ := vs
    have ht := hts t mem_cons_self
    have hpos : (packElement t v).length ≠ 0 := by rw [length_packElement ht]; decide
    rw [hpack, isEmpty_eq_false_iff]
    intro hnil
    simp [packLoop, ht.no_prefix, length_eq_zero_iff.not.mp hpos] at hnil
  rw [unpackVariable, hlong, hpack]
  exact hread

/-! ### Strings and slices -/

def AbiType.Flat : AbiType → Prop
  | .signature => False
  | .slice elem => elem.OneWord
  | _ => True

instance : DecidablePred AbiType.Flat := fun t => by
  cases t <;> unfold AbiType.Flat <;> infer_instance

theorem AbiType.Flat.cases (h : t.Flat) :
    t.OneWord ∧ t.requiresLengthPrefix = false ∨ t.requiresLengthPrefix = true := by
  cases t with
  | string | slice => exact Or.inr rfl
  | signature => exact h.elim
  | _ => exact Or.inl ⟨trivial, rfl⟩

theorem length_packLoop_fst (inputOffset : ℕ) (hts : ∀ t ∈ ts, t.Flat) (vs : Values ts)
    (rest : Bytes) : (packLoop inputOffset ts vs rest).1.length = wordSize * ts.length := by
  induction ts generalizing rest with
  | nil => rfl
  | cons t ts ih =>
    obtain ⟨v, vs⟩ := vs
    have hrec := ih (fun t h => hts t (mem_cons_of_mem _ h)) vs
    rcases (hts t mem_cons_self).cases with ⟨ht, hpre⟩ | hpre
    · simp only [packLoop, hpre, false_eq_true, if_false, length_append,
        length_packElement ht, hrec, length_cons]
      ring
    · simp only [packLoop, hpre, if_true, length_append, length_word, hrec,
        length_cons]
      ring

theorem exists_packLoop_snd (inputOffset : ℕ) (hts : ∀ t ∈ ts, t.Flat) (vs : Values ts)
    (rest : Bytes) : ∃ more, (packLoop inputOffset ts vs rest).2 = rest ++ more := by
  induction ts generalizing rest with
  | nil => exact ⟨[], (append_nil rest).symm⟩
  | cons t ts ih =>
    obtain ⟨v, vs⟩ := vs
    have hrec := ih (fun t h => hts t (mem_cons_of_mem _ h)) vs
    rcases (hts t mem_cons_self).cases with ⟨-, hpre⟩ | hpre
    · simpa only [packLoop, hpre, false_eq_true, if_false] using hrec rest
    · obtain ⟨more, hmore⟩ := hrec (rest ++ packElement t v)
      exact ⟨packElement t v ++ more, by
        simp only [packLoop, hpre, if_true, hmore, append_assoc]⟩

theorem lengthPrefixPointsTo_eq {size : ℕ} {contents : Bytes}
    (hword : readWord index output = word offset)
    (hdrop : output.drop offset = word size ++ contents) (hcontents : size ≤ contents.length)
    (hsize : output.length < 2 ^ 256) (h : lengthPrefixPointsTo index output = some r) :
    r = (offset + wordSize, size) := by
  have hlen : output.length - offset = wordSize + contents.length := by
    rw [← length_drop, hdrop, length_append, length_word]
  have hoffset : toNat (readWord index output) = offset := by
    rw [hword, toNat_word]
    unfold wordSize at hlen
    omega
  have hlength : toNat (readWord offset output) = size := by
    rw [readWord, hdrop, take_left' (length_word _), toNat_word (by omega)]
  unfold lengthPrefixPointsTo at h
  simp only [hoffset, Nat.add_sub_cancel, hlength] at h
  split_ifs at h
  exact (Option.some.inj h).symm

theorem toGoType_string_eq (index : ℕ) (output : Bytes) : toGoType index .string output =
    if output.length < index + wordSize then none
    else (lengthPrefixPointsTo index output).map fun r => (output.drop r.1).take r.2 := rfl

theorem toGoType_string {post s s' : Bytes} (hword : readWord index output = word offset)
    (hdrop : output.drop offset = packElement .string s ++ post) (hsize : output.length < 2 ^ 256)
    (h : toGoType index .string output = some s') : s' = s := by
  have hpad : s.length ≤ (rightPad s ++ post).length := by
    simp only [rightPad, length_append]
    omega
  simp only [packElement, append_assoc] at hdrop
  rw [toGoType_string_eq] at h
  split_ifs at h
  obtain ⟨r, hr, rfl⟩ := map_eq_some_iff.mp h
  cases lengthPrefixPointsTo_eq hword hdrop hpad hsize hr
  rw [← drop_drop, hdrop, drop_left' (length_word _), rightPad, append_assoc,
    take_left]

theorem length_flatMap_packElement (helem : elem.OneWord) (vs : List elem.Val) :
    (vs.flatMap (packElement elem)).length = wordSize * vs.length := by
  induction vs with
  | nil => rfl
  | cons v vs ih =>
    rw [flatMap_cons, length_append, length_packElement helem, ih, length_cons]
    ring

theorem mapM_toGoType (helem : elem.OneWord) {vs : List elem.Val} (hvs : ∀ v ∈ vs, elem.Fits v)
    (pre post : Bytes) :
    ((List.range vs.length).mapM fun j =>
      toGoType (pre.length + wordSize * j) elem
        (pre ++ (vs.flatMap (packElement elem) ++ post))) = some vs := by
  induction vs generalizing pre with
  | nil => rfl
  | cons v vs ih =>
    have hhead := toGoType_packElement helem (hvs v mem_cons_self) pre
      (vs.flatMap (packElement elem) ++ post)
    have htail := ih (fun w hw => hvs w (mem_cons_of_mem _ hw)) (pre ++ packElement elem v)
    rw [length_append, length_packElement helem] at htail
    rw [length_cons, range_succ_eq_map, mapM_cons, mapM_map]
    simp only [flatMap_cons, append_assoc, Nat.mul_zero, Nat.add_zero,
      Function.comp_def, Nat.mul_succ, Nat.add_assoc, Nat.add_comm (wordSize * _) wordSize]
      at htail ⊢
    rw [hhead, htail]
    rfl

theorem toGoType_slice_eq (index : ℕ) (elem : AbiType) (output : Bytes) :
    toGoType index (.slice elem) output =
      if output.length < index + wordSize then none
      else (lengthPrefixPointsTo index output).bind fun r =>
        if output.length < r.1 + wordSize * r.2 then none
        else (List.range r.2).mapM fun j => toGoType (r.1 + wordSize * j) elem output := by
  rw [toGoType]
  rfl

theorem toGoType_slice (helem : elem.OneWord) {post : Bytes} {vs vs' : List elem.Val}
    (hvs : ∀ v ∈ vs, elem.Fits v) (hword : readWord index output = word offset)
    (hdrop : output.drop offset = packElement (.slice elem) vs ++ post)
    (hsize : output.length < 2 ^ 256) (h : toGoType index (.slice elem) output = some vs') :
    vs' = vs := by
  have hlen := length_flatMap_packElement helem vs
  have hbehind : output.drop offset =
      word vs.length ++ (vs.flatMap (packElement elem) ++ post) := by
    rw [hdrop, packElement, append_assoc]
  rw [toGoType_slice_eq] at h
  split_ifs at h
  obtain ⟨r, hr, h⟩ := bind_eq_some_iff.mp h
  cases lengthPrefixPointsTo_eq hword hbehind
    (by rw [length_append, hlen]; unfold wordSize; omega) hsize hr
  dsimp only at h
  split_ifs at h with hlong
  have hsplit : output = output.take (offset + wordSize) ++
      (vs.flatMap (packElement elem) ++ post) := by
    conv_lhs => rw [← take_append_drop (offset + wordSize) output]
    rw [← drop_drop, hbehind, drop_left' (length_word _)]
  have htake : (output.take (offset + wordSize)).length = offset + wordSize := by
    rw [length_take]
    omega
  have hall := mapM_toGoType helem hvs (output.take (offset + wordSize)) post
  rw [← hsplit, htake] at hall
  exact Option.some.inj (h.symm.trans hall)

theorem toGoType_behind (ht : t.Flat) (hpre : t.requiresLengthPrefix = true) {v' : t.Val}
    (hv : t.Fits v) {post : Bytes} (hword : readWord index output = word offset)
    (hdrop : output.drop offset = packElement t v ++ post) (hsize : output.length < 2 ^ 256)
    (h : toGoType index t output = some v') : v' = v := by
  cases t with
  | string => exact toGoType_string hword hdrop hsize h
  | slice elem => exact toGoType_slice ht hv hword hdrop hsize h
  | _ => cases hpre

theorem unpackValues_cons {vs : Values (t :: ts)}
    (h : unpackValues (t :: ts) index output = some vs) :
    toGoType (index * wordSize) t output = some vs.1 ∧
      unpackValues ts (index + 1) output = some vs.2 := by
  unfold unpackValues at h
  obtain ⟨w, hw, h⟩ := bind_eq_some_iff.mp h
  obtain ⟨ws, hws, h⟩ := bind_eq_some_iff.mp h
  cases h
  exact ⟨hw, hws⟩

theorem eq_of_unpackValues_packLoop {inputOffset : ℕ} (hts : ∀ t ∈ ts, t.Flat) {vs' : Values ts}
    (hvs : FitAll ts vs) {pre rest : Bytes} (hpre : pre.length = index * wordSize)
    (hoffset : inputOffset = pre.length + wordSize * ts.length)
    (hsize : (pre ++ ((packLoop inputOffset ts vs rest).1 ++ (packLoop inputOffset ts vs rest).2)).length < 2 ^ 256)
    (h : unpackValues ts index (pre ++ ((packLoop inputOffset ts vs rest).1 ++ (packLoop inputOffset ts vs rest).2)) = some vs') :
    vs' = vs := by
  induction ts generalizing index pre rest with
  | nil => rfl
  | cons t ts ih =>
    obtain ⟨v, vs⟩ := vs
    have hts' : ∀ t ∈ ts, t.Flat := fun t h => hts t (mem_cons_of_mem _ h)
    obtain ⟨w, ws⟩ := vs'
    obtain ⟨hw, hws⟩ := unpackValues_cons h
    rcases (hts t mem_cons_self).cases with ⟨ht, hstart⟩ | hstart
    · simp only [packLoop, hstart, false_eq_true, if_false, append_assoc]
        at hw hws hsize
      rw [← hpre, toGoType_packElement ht hvs.1] at hw
      have hrest := @ih vs (index + 1) hts' ws hvs.2 (pre ++ packElement t v) rest
        (by rw [length_append, length_packElement ht, hpre, Nat.succ_mul])
        (by
          rw [hoffset, length_append, length_packElement ht, length_cons]
          ring)
        (by rwa [append_assoc]) (by rwa [append_assoc])
      rw [hrest, Option.some.inj hw]
    · simp only [packLoop, hstart, if_true, append_assoc] at hw hws hsize
      set offset := inputOffset + rest.length
      set tail := packLoop inputOffset ts vs (rest ++ packElement t v)
      obtain ⟨more, hmore⟩ := exists_packLoop_snd inputOffset hts' vs (rest ++ packElement t v)
      have hhead : (pre ++ (word offset ++ tail.1)).length = inputOffset := by
        rw [hoffset, length_append, length_append, length_word,
          length_packLoop_fst inputOffset hts', length_cons]
        ring
      have hbehind := @toGoType_behind t v (index * wordSize) offset _
        (hts t mem_cons_self) hstart w hvs.1 more
        (by rw [← hpre, readWord_append _ _ _ (length_word _)])
        (by
          rw [← append_assoc, ← append_assoc, append_assoc pre,
            ← drop_drop, drop_left' hhead]
          rw [show tail.2 = _ from hmore, append_assoc, drop_left])
        hsize hw
      have hrest := @ih vs (index + 1) hts' ws hvs.2 (pre ++ word offset)
        (rest ++ packElement t v)
        (by rw [length_append, length_word, hpre, Nat.succ_mul])
        (by
          rw [hoffset, length_append, length_word, length_cons]
          ring)
        (by rwa [append_assoc]) (by rwa [append_assoc])
      rw [hrest, hbehind]

theorem unpackValues_of_unpackMethod {hashData : Bytes → Hash} {methods : List Method} {m : Method}
    {vs : Values m.inputs} (h : unpackMethod hashData methods m output = some vs) :
    unpackValues m.inputs 0 (output.drop 4) = some vs := by
  unfold unpackMethod at h
  split_ifs at h
  cases hfound : methodById hashData methods (output.take 4) with
  | none => simp [hfound] at h
  | some found =>
    simp only [hfound] at h
    split_ifs at h
    exact h

theorem lt_of_lengthPrefixPointsTo (h : lengthPrefixPointsTo index output = some r) :
    r.2 < 2 ^ 63 := by
  unfold lengthPrefixPointsTo at h
  dsimp only at h
  split_ifs at h
  cases h
  dsimp only
  omega

theorem length_lt_of_toGoType_string {s : Bytes} (h : toGoType index .string output = some s) :
    s.length < 2 ^ 63 := by
  rw [toGoType_string_eq] at h
  split_ifs at h
  obtain ⟨r, hr, rfl⟩ := map_eq_some_iff.mp h
  exact (length_take_le _ _).trans_lt (lt_of_lengthPrefixPointsTo hr)

theorem length_of_mapM {α β : Type} {f : α → Option β} {as : List α} {bs : List β}
    (h : as.mapM f = some bs) : bs.length = as.length := by
  induction as generalizing bs with
  | nil =>
    cases h
    rfl
  | cons a as ih =>
    rw [mapM_cons] at h
    obtain ⟨b, -, h⟩ := bind_eq_some_iff.mp h
    obtain ⟨bs', hbs, h⟩ := bind_eq_some_iff.mp h
    cases h
    rw [length_cons, length_cons, ih hbs]

theorem length_lt_of_toGoType_slice {vs : List elem.Val}
    (h : toGoType index (.slice elem) output = some vs) : vs.length < 2 ^ 63 := by
  rw [toGoType_slice_eq] at h
  split_ifs at h
  obtain ⟨r, hr, h⟩ := bind_eq_some_iff.mp h
  split_ifs at h
  rw [length_of_mapM h, length_range]
  exact lt_of_lengthPrefixPointsTo hr

def AbiType.Short : (t : AbiType) → t.Val → Prop
  | .string, (s : Bytes) => s.length < 2 ^ 63
  | .slice _, (vs : List _) => vs.length < 2 ^ 63
  | _, _ => True

def ShortAll : (ts : List AbiType) → Values ts → Prop
  | [], _ => True
  | t :: ts, (v, vs) => t.Short v ∧ ShortAll ts vs

theorem short_of_toGoType (h : toGoType index t output = some v) : t.Short v := by
  cases t with
  | string => exact length_lt_of_toGoType_string h
  | slice => exact length_lt_of_toGoType_slice h
  | _ => trivial

theorem shortAll_of_unpackValues (h : unpackValues ts index output = some vs) : ShortAll ts vs := by
  induction ts generalizing index with
  | nil => trivial
  | cons t ts ih =>
    obtain ⟨hw, hws⟩ := unpackValues_cons h
    exact ⟨short_of_toGoType hw, ih hws⟩

theorem length_rightPad (s : Bytes) : (rightPad s).length ≤ s.length + wordSize := by
  simp only [rightPad, length_append, length_replicate]
  unfold wordSize
  omega

theorem length_packElement_le (ht : t.Flat) (hpre : t.requiresLengthPrefix = true) (hv : t.Short v) :
    (packElement t v).length ≤ 2 ^ 69 := by
  cases t with
  | string =>
    have hshort : @List.length UInt8 v < 2 ^ 63 := hv
    have hpad := length_rightPad v
    simp only [packElement, length_append, length_word]
    unfold wordSize at hpad ⊢
    omega
  | slice elem =>
    have hshort : @List.length elem.Val v < 2 ^ 63 := hv
    have hlen := length_flatMap_packElement ht v
    simp only [packElement, length_append, length_word, hlen]
    unfold wordSize
    omega
  | _ => cases hpre

theorem length_packLoop_snd (inputOffset : ℕ) (hts : ∀ t ∈ ts, t.Flat) (hvs : ShortAll ts vs)
    (rest : Bytes) :
    (packLoop inputOffset ts vs rest).2.length ≤
      rest.length + 2 ^ 69 * ts.length := by
  induction ts generalizing rest with
  | nil => exact Nat.le_add_right _ _
  | cons t ts ih =>
    obtain ⟨v, vs⟩ := vs
    have hrec := @ih vs (fun t h => hts t (mem_cons_of_mem _ h)) hvs.2
    rw [length_cons, Nat.mul_succ]
    rcases (hts t mem_cons_self).cases with ⟨-, hpre⟩ | hpre
    · simp only [packLoop, hpre, false_eq_true, if_false]
      have := hrec rest
      omega
    · simp only [packLoop, hpre, if_true]
      have := hrec (rest ++ packElement t v)
      have hlen := length_packElement_le (hts t mem_cons_self) hpre hvs.1
      rw [length_append] at this
      omega

theorem eq_of_unpackVariable_pack (hts : ∀ t ∈ ts, t.Flat) (hcount : ts.length < 2 ^ 64)
    {vs' : Values ts} (hfit : FitAll ts vs) (hshort : ShortAll ts vs)
    (h : unpackVariable ts (pack ts vs) = some vs') : vs' = vs := by
  have hsize : (pack ts vs).length < 2 ^ 256 := by
    have htail := length_packLoop_snd (wordSize * ts.length) hts hshort []
    unfold pack
    dsimp only
    rw [length_append, length_packLoop_fst _ hts]
    rw [length_nil] at htail
    unfold wordSize at htail ⊢
    omega
  unfold unpackVariable at h
  split_ifs at h
  exact @eq_of_unpackValues_packLoop ts vs 0 _ hts vs' hfit [] [] rfl (by simp) hsize h

end GoQlc.Abi
