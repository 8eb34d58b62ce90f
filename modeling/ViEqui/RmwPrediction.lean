import ViEqui.Event

/-!
# The value of an rmw, predicted and performed

`compute_modified_value` predicts the value of an rmw write from the recorded
value of the read and the operand, as an `int`; the interpreter computes it in
the width of the access, and `make_write` records the low byte of the result.

* `eq_ofByte_iff`: an `int` is the recorded byte that it agrees with modulo 256
  exactly if it is a byte.
* `setWidth_computeModifiedValue`: the arithmetic operations agree modulo 256.
* `choose_eq_iff`: the operations that choose one of two values.
* `predicts_iff`: when the two values agree.
-/

namespace ViEqui

/-! ## Recorded bytes -/

/-- The bytes of an integer in memory, the least significant one first. -/
def storeBytes {w : Nat} (v : BitVec w) : List UInt8 :=
  (List.range ((w + 7) / 8)).map fun i => .ofBitVec (v.extractLsb' (8 * i) 8)

/-- The value that `make_write` records for an integer that is stored. -/
def recordedValue {w : Nat} (a : SymAddrSize) (v : BitVec w) : Value :=
  (Event.makeWrite a (storeBytes v)).value

/-- A byte as a value. -/
def ofByte (b : BitVec 8) : Value := .ofBitVec (b.setWidth 32)

/-- The value is one of a byte. -/
def IsByte (x : Value) : Prop := 0 ≤ x.toInt ∧ x.toInt ≤ 255

instance (x : Value) : Decidable (IsByte x) :=
  inferInstanceAs (Decidable (0 ≤ x.toInt ∧ x.toInt ≤ 255))

theorem toInt_ofByte (b : BitVec 8) : (ofByte b).toInt = b.toNat := by
  have hlt := b.isLt
  have hnat : (b.setWidth 32).toNat = b.toNat := by
    rw [BitVec.toNat_setWidth]
    omega
  show (b.setWidth 32).toInt = b.toNat
  rw [BitVec.toInt_eq_toNat_of_lt (by omega), hnat]

theorem isByte_ofByte (b : BitVec 8) : IsByte (ofByte b) := by
  have hlt := b.isLt
  rw [IsByte, toInt_ofByte]
  omega

theorem ofByte_inj {b b' : BitVec 8} : ofByte b = ofByte b' ↔ b = b' := by
  rw [← Int32.toInt_inj, toInt_ofByte, toInt_ofByte, Int.ofNat_inj]
  exact BitVec.toNat_inj

theorem recordedValue_eq {w : Nat} (hw : 8 ≤ w) (a : SymAddrSize) (v : BitVec w) :
    recordedValue a v = ofByte (v.setWidth 8) := by
  obtain ⟨n, hn⟩ : ∃ n, (w + 7) / 8 = n + 1 := ⟨(w + 7) / 8 - 1, by omega⟩
  have hhead : (storeBytes v).headD 0 = .ofBitVec (v.extractLsb' 0 8) := by
    rw [storeBytes, hn, List.range_succ_eq_map]
    rfl
  show Int32.ofNat ((storeBytes v).headD 0).toNat = _
  have hnat : (v.extractLsb' 0 8).toNat = (v.setWidth 8).toNat := by
    simp [BitVec.toNat_setWidth]
  have hlt := (v.setWidth 8).isLt
  rw [hhead, UInt8.toNat_ofBitVec, hnat, ← Int32.toInt_inj, toInt_ofByte,
    Int32.toInt_ofNat_of_lt (by omega)]

/-- A value that agrees with a byte modulo 256 is that byte exactly if it is a
byte at all. -/
theorem eq_ofByte_iff {x : Value} {b : BitVec 8} (h : x.toBitVec.setWidth 8 = b) :
    x = ofByte b ↔ IsByte x := by
  constructor
  · intro hx
    rw [hx]
    exact isByte_ofByte b
  · intro ⟨hpos, hle⟩
    have hlt := x.toBitVec.isLt
    have hint : x.toInt = if 2 * x.toBitVec.toNat < 2 ^ 32 then (x.toBitVec.toNat : Int)
        else x.toBitVec.toNat - (2 ^ 32 : Nat) := BitVec.toInt_eq_toNat_cond x.toBitVec
    have hnat : b.toNat = x.toBitVec.toNat % 2 ^ 8 := by
      rw [← h, BitVec.toNat_setWidth]
    rw [← Int32.toInt_inj, toInt_ofByte]
    split at hint <;> omega

/-! ## The operand -/

/-- The `int` that `visitAtomicRMWInst` and `visitAtomicCmpXchgInst` pass to
`set_rmw_operation` for an operand.  It is uninitialised for operands of more
than 32 bits. -/
def passedOperand {w : Nat} (v : BitVec w) (uninit : Value) : Value :=
  if w ≤ 32 then .ofBitVec (v.signExtend 32) else uninit

theorem toInt_passedOperand {w : Nat} (hw : w ≤ 32) (v : BitVec w) (uninit : Value) :
    (passedOperand v uninit).toInt = v.toInt := by
  rw [passedOperand, if_pos hw]
  exact BitVec.toInt_signExtend_of_le hw

theorem setWidth_passedOperand {w : Nat} (hle : 8 ≤ w) (hw : w ≤ 32) (v : BitVec w)
    (uninit : Value) : (passedOperand v uninit).toBitVec.setWidth 8 = v.setWidth 8 := by
  rw [passedOperand, if_pos hw, Int32.toBitVec_ofBitVec]
  ext i hi
  simp only [BitVec.getElem_setWidth, BitVec.getLsbD_signExtend]
  rw [if_pos (by omega)]
  simp only [show i < 32 by omega, decide_true, Bool.true_and]

/-! ## What the interpreter stores -/

/-- The new value that `completeAtomicRMWInst` computes, in the width of the
access.  `completeAtomicCmpXchgInst` stores its operand. -/
def completeAtomicRMWInst {w : Nat} (op : RMWOperation) (old val : BitVec w) : BitVec w :=
  match op with
  | .cmpxchg => val
  | .xchg => val
  | .add => old + val
  | .sub => old - val
  | .and => old &&& val
  | .nand => ~~~(old &&& val)
  | .or => old ||| val
  | .xor => old ^^^ val
  | .max => if val.slt old then old else val
  | .min => if old.slt val then old else val
  | .umax => if val.ult old then old else val
  | .umin => if old.ult val then old else val

/-- The value that `complete_rmw` records for the write, and `compare_exchange`
after it: an exchange that fails gets the value of the read. -/
def performedValue {w : Nat} (a : SymAddrSize) (op : RMWOperation) (old val cmp : BitVec w) :
    Value :=
  if op = .cmpxchg ∧ old ≠ cmp then recordedValue a old
  else recordedValue a (completeAtomicRMWInst op old val)

/-- The prediction from the recorded old value. -/
def predictedValue {w : Nat} (a : SymAddrSize) (op : RMWOperation) (old val cmp : BitVec w)
    (uninit uninit' : Value) : Value :=
  computeModifiedValue op (recordedValue a old) (passedOperand val uninit)
    (passedOperand cmp uninit')

/-- The prediction is right, whatever is in an operand that is not
initialised. -/
def Predicts {w : Nat} (a : SymAddrSize) (op : RMWOperation) (old val cmp : BitVec w) : Prop :=
  ∀ uninit uninit', predictedValue a op old val cmp uninit uninit' = performedValue a op old val cmp

/-! ## Arithmetic operations -/

/-- The operations that compute bit by bit or modulo a power of two. -/
def RMWOperation.isArith : RMWOperation → Bool
  | .add | .sub | .and | .nand | .or | .xor => true
  | _ => false

theorem setWidth_sub {w k : Nat} (h : k ≤ w) (x y : BitVec w) :
    (x - y).setWidth k = x.setWidth k - y.setWidth k := by
  have hneg : (x - y).setWidth k + y.setWidth k = x.setWidth k := by
    rw [← BitVec.setWidth_add _ _ h, BitVec.sub_add_cancel]
  rw [← hneg, BitVec.add_sub_cancel]

/-- The arithmetic of `int` and that of the access agree modulo 256. -/
theorem setWidth_computeModifiedValue {w : Nat} {op : RMWOperation} (hop : op.isArith)
    (hw : 8 ≤ w) {old val : BitVec w} {x y exp : Value}
    (hx : x.toBitVec.setWidth 8 = old.setWidth 8) (hy : y.toBitVec.setWidth 8 = val.setWidth 8) :
    (computeModifiedValue op x y exp).toBitVec.setWidth 8 =
      (completeAtomicRMWInst op old val).setWidth 8 := by
  have h8 : 8 ≤ 32 := by decide
  cases op with
  | add =>
    show (x.toBitVec + y.toBitVec).setWidth 8 = (old + val).setWidth 8
    rw [BitVec.setWidth_add _ _ h8, BitVec.setWidth_add _ _ hw, hx, hy]
  | sub =>
    show (x.toBitVec - y.toBitVec).setWidth 8 = (old - val).setWidth 8
    rw [setWidth_sub h8, setWidth_sub hw, hx, hy]
  | and =>
    show (x.toBitVec &&& y.toBitVec).setWidth 8 = (old &&& val).setWidth 8
    rw [BitVec.setWidth_and, BitVec.setWidth_and, hx, hy]
  | nand =>
    show (~~~(x.toBitVec &&& y.toBitVec)).setWidth 8 = (~~~(old &&& val)).setWidth 8
    rw [BitVec.setWidth_not h8, BitVec.setWidth_not hw, BitVec.setWidth_and, BitVec.setWidth_and,
      hx, hy]
  | or =>
    show (x.toBitVec ||| y.toBitVec).setWidth 8 = (old ||| val).setWidth 8
    rw [BitVec.setWidth_or, BitVec.setWidth_or, hx, hy]
  | xor =>
    show (x.toBitVec ^^^ y.toBitVec).setWidth 8 = (old ^^^ val).setWidth 8
    rw [BitVec.setWidth_xor, BitVec.setWidth_xor, hx, hy]
  | _ => cases hop

theorem isByte_iff_shift {x : Value} : IsByte x ↔ x.toBitVec >>> 8 = 0#32 := by
  have hlt := x.toBitVec.isLt
  have hint : x.toInt = if 2 * x.toBitVec.toNat < 2 ^ 32 then (x.toBitVec.toNat : Int)
      else x.toBitVec.toNat - (2 ^ 32 : Nat) := BitVec.toInt_eq_toNat_cond x.toBitVec
  have hshift : (x.toBitVec >>> 8).toNat = x.toBitVec.toNat / 2 ^ 8 := by
    rw [BitVec.toNat_ushiftRight, Nat.shiftRight_eq_div_pow]
  rw [← BitVec.toNat_inj, hshift, BitVec.toNat_ofNat, IsByte]
  split at hint <;> omega

theorem shift_ofByte (b : BitVec 8) : (ofByte b).toBitVec >>> 8 = 0#32 :=
  isByte_iff_shift.mp (isByte_ofByte b)

theorem isByte_or {b : BitVec 8} {y : Value} : IsByte (ofByte b ||| y) ↔ IsByte y := by
  rw [isByte_iff_shift, isByte_iff_shift]
  show ((ofByte b).toBitVec ||| y.toBitVec) >>> 8 = 0#32 ↔ _
  rw [BitVec.ushiftRight_or_distrib, shift_ofByte, BitVec.zero_or]

theorem isByte_xor {b : BitVec 8} {y : Value} : IsByte (ofByte b ^^^ y) ↔ IsByte y := by
  rw [isByte_iff_shift, isByte_iff_shift]
  show ((ofByte b).toBitVec ^^^ y.toBitVec) >>> 8 = 0#32 ↔ _
  rw [BitVec.ushiftRight_xor_distrib, shift_ofByte, BitVec.zero_xor]

theorem isByte_and (b : BitVec 8) (y : Value) : IsByte (ofByte b &&& y) := by
  rw [isByte_iff_shift]
  show ((ofByte b).toBitVec &&& y.toBitVec) >>> 8 = 0#32
  rw [BitVec.ushiftRight_and_distrib, shift_ofByte, BitVec.zero_and]

/-- The complement of a byte is negative. -/
theorem not_isByte_nand (b : BitVec 8) (y : Value) : ¬IsByte (~~~(ofByte b &&& y)) := by
  have hand := isByte_and b y
  have hnot : (~~~(ofByte b &&& y)).toInt = -(ofByte b &&& y).toInt - 1 := by
    rw [Int32.toInt_not]
    exact Int.bmod_eq_of_le (by have := hand.2; omega) (by have := hand.1; omega)
  intro h
  have := h.1
  have := hand.1
  omega

theorem isByte_add {b : BitVec 8} {y : Value} :
    IsByte (ofByte b + y) ↔ 0 ≤ b.toNat + y.toInt ∧ b.toNat + y.toInt ≤ 255 := by
  have hb := b.isLt
  have hlt := y.toInt_lt
  have hle := y.le_toInt
  rw [IsByte, Int32.toInt_add, toInt_ofByte]
  rw [Int.bmod_def]
  split <;> omega

theorem isByte_sub {b : BitVec 8} {y : Value} :
    IsByte (ofByte b - y) ↔ 0 ≤ b.toNat - y.toInt ∧ b.toNat - y.toInt ≤ 255 := by
  have hb := b.isLt
  have hlt := y.toInt_lt
  have hle := y.le_toInt
  rw [IsByte, Int32.toInt_sub, toInt_ofByte]
  rw [Int.bmod_def]
  split <;> omega

/-! ## Operations that choose -/

/-- The prediction keeps the old byte `o` if `keep` and the performed operation
if `keep'`; otherwise they take the operand, which is `v` and has the low byte
`b`.  The results are the same. -/
def ChoiceAgrees (keep keep' : Prop) (o b : BitVec 8) (v : Int) : Prop :=
  (keep ∧ keep') ∨ (keep ∧ ¬keep' ∧ b = o) ∨ (¬keep ∧ keep' ∧ v = o.toNat) ∨
    (¬keep ∧ ¬keep' ∧ 0 ≤ v ∧ v ≤ 255)

theorem choose_eq_iff {keep keep' : Prop} [Decidable keep] [Decidable keep'] {o b : BitVec 8}
    {y : Value} (hy : y.toBitVec.setWidth 8 = b) :
    (if keep then ofByte o else y) = (if keep' then ofByte o else ofByte b) ↔
      ChoiceAgrees keep keep' o b y.toInt := by
  unfold ChoiceAgrees
  by_cases hk : keep <;> by_cases hk' : keep'
  · simp [hk, hk']
  · simp only [hk, hk', if_true, if_false, ofByte_inj]
    simp [eq_comm]
  · simp only [hk, hk', if_true, if_false]
    rw [← Int32.toInt_inj, toInt_ofByte]
    simp
  · simp only [hk, hk', if_false]
    rw [eq_ofByte_iff hy]
    simp [IsByte]

/-! ## When the prediction is right -/

/-- The condition on an operand of at most 32 bits. -/
def PredictsWhen {w : Nat} (op : RMWOperation) (old val cmp : BitVec w) : Prop :=
  let o : BitVec 8 := old.setWidth 8
  let b : BitVec 8 := val.setWidth 8
  match op with
  | .and => True
  | .nand => False
  | .add => 0 ≤ o.toNat + val.toInt ∧ o.toNat + val.toInt ≤ 255
  | .sub => 0 ≤ o.toNat - val.toInt ∧ o.toNat - val.toInt ≤ 255
  | .xchg | .or | .xor => 0 ≤ val.toInt ∧ val.toInt ≤ 255
  | .cmpxchg => ChoiceAgrees (cmp.toInt ≠ o.toNat) (old ≠ cmp) o b val.toInt
  | .max => ChoiceAgrees (val.toInt < o.toNat) (val.toInt < old.toInt) o b val.toInt
  | .umax => ChoiceAgrees (val.toInt < o.toNat) (val.toNat < old.toNat) o b val.toInt
  | .min => ChoiceAgrees (o.toNat < val.toInt) (old.toInt < val.toInt) o b val.toInt
  | .umin => ChoiceAgrees (o.toNat < val.toInt) (old.toNat < val.toNat) o b val.toInt

section Narrow

variable {w : Nat} {a : SymAddrSize} {op : RMWOperation} {old val cmp : BitVec w}
  {uninit uninit' : Value}

theorem predicted_eq_iff_of_isArith (hop : op.isArith) (hle : 8 ≤ w) (hw : w ≤ 32) :
    predictedValue a op old val cmp uninit uninit' = performedValue a op old val cmp ↔
      IsByte (computeModifiedValue op (ofByte (old.setWidth 8)) (passedOperand val uninit)
        (passedOperand cmp uninit')) := by
  have hne : op ≠ .cmpxchg := by
    intro h
    rw [h] at hop
    cases hop
  have hold : (ofByte (old.setWidth 8)).toBitVec.setWidth 8 = old.setWidth 8 := by
    show ((old.setWidth 8).setWidth 32).setWidth 8 = old.setWidth 8
    rw [BitVec.setWidth_setWidth_of_le _ (by decide), BitVec.setWidth_eq]
  rw [predictedValue, performedValue, if_neg (fun h => hne h.1), recordedValue_eq hle,
    recordedValue_eq hle]
  exact eq_ofByte_iff (setWidth_computeModifiedValue hop hle hold
    (setWidth_passedOperand hle hw val uninit))

/-- An operation that keeps the old value under one condition, and takes the
operand otherwise. -/
theorem predicted_eq_iff_of_choose {keep keep' : Prop} [Decidable keep] [Decidable keep']
    (hle : 8 ≤ w) (hw : w ≤ 32)
    (hpredicted : predictedValue a op old val cmp uninit uninit' =
      if keep then ofByte (old.setWidth 8) else passedOperand val uninit)
    (hperformed : performedValue a op old val cmp =
      if keep' then ofByte (old.setWidth 8) else ofByte (val.setWidth 8)) :
    predictedValue a op old val cmp uninit uninit' = performedValue a op old val cmp ↔
      ChoiceAgrees keep keep' (old.setWidth 8) (val.setWidth 8) val.toInt := by
  rw [hpredicted, hperformed, choose_eq_iff (setWidth_passedOperand hle hw val uninit),
    toInt_passedOperand hw]

theorem recordedValue_ite (hle : 8 ≤ w) (p : Prop) [Decidable p] :
    recordedValue a (if p then old else val) =
      if p then ofByte (old.setWidth 8) else ofByte (val.setWidth 8) := by
  rw [recordedValue_eq hle]
  split <;> rfl

theorem performedValue_of_ne (hop : op ≠ .cmpxchg) :
    performedValue a op old val cmp = recordedValue a (completeAtomicRMWInst op old val) :=
  if_neg fun h => hop h.1

theorem predicted_eq_iff (hle : 8 ≤ w) (hw : w ≤ 32) :
    predictedValue a op old val cmp uninit uninit' = performedValue a op old val cmp ↔
      PredictsWhen op old val cmp := by
  have hval := toInt_passedOperand hw val uninit
  have hcmp := toInt_passedOperand hw cmp uninit'
  have hold := toInt_ofByte (old.setWidth 8)
  have hgt : passedOperand val uninit < ofByte (old.setWidth 8) ↔
      val.toInt < (old.setWidth 8).toNat := by
    rw [Int32.lt_iff_toInt_lt, hval, hold]
  have hlt : ofByte (old.setWidth 8) < passedOperand val uninit ↔
      (old.setWidth 8).toNat < val.toInt := by
    rw [Int32.lt_iff_toInt_lt, hval, hold]
  have hbyte : IsByte (passedOperand val uninit) ↔ 0 ≤ val.toInt ∧ val.toInt ≤ 255 := by
    rw [IsByte, hval]
  cases op with
  | add =>
    rw [predicted_eq_iff_of_isArith rfl hle hw]
    refine isByte_add.trans ?_
    rw [hval]
    rfl
  | sub =>
    rw [predicted_eq_iff_of_isArith rfl hle hw]
    refine isByte_sub.trans ?_
    rw [hval]
    rfl
  | and =>
    rw [predicted_eq_iff_of_isArith rfl hle hw]
    exact iff_of_true (isByte_and _ _) trivial
  | nand =>
    rw [predicted_eq_iff_of_isArith rfl hle hw]
    exact iff_of_false (not_isByte_nand _ _) id
  | or =>
    rw [predicted_eq_iff_of_isArith rfl hle hw]
    exact isByte_or.trans hbyte
  | xor =>
    rw [predicted_eq_iff_of_isArith rfl hle hw]
    exact isByte_xor.trans hbyte
  | xchg =>
    rw [predictedValue, performedValue_of_ne (by decide)]
    show passedOperand val uninit = recordedValue a val ↔ _
    rw [recordedValue_eq hle]
    exact (eq_ofByte_iff (setWidth_passedOperand hle hw val uninit)).trans hbyte
  | cmpxchg =>
    refine predicted_eq_iff_of_choose hle hw ?_ ?_
    · have hexp : ofByte (old.setWidth 8) = passedOperand cmp uninit' ↔
          ¬cmp.toInt ≠ (old.setWidth 8).toNat := by
        rw [← Int32.toInt_inj, hcmp, hold, not_not, eq_comm]
      rw [predictedValue, recordedValue_eq hle]
      exact (if_congr hexp rfl rfl).trans (ite_not _ _ _)
    · rw [performedValue, recordedValue_eq hle, recordedValue_eq hle]
      exact if_congr (by simp) rfl rfl
  | max =>
    refine predicted_eq_iff_of_choose hle hw ?_ ?_
    · rw [predictedValue, recordedValue_eq hle]
      exact if_congr hgt rfl rfl
    · rw [performedValue_of_ne (by decide)]
      exact (recordedValue_ite hle _).trans (if_congr BitVec.slt_iff_toInt_lt rfl rfl)
  | umax =>
    refine predicted_eq_iff_of_choose hle hw ?_ ?_
    · rw [predictedValue, recordedValue_eq hle]
      exact if_congr hgt rfl rfl
    · rw [performedValue_of_ne (by decide)]
      exact (recordedValue_ite hle _).trans (if_congr (by simp [BitVec.ult]) rfl rfl)
  | min =>
    refine predicted_eq_iff_of_choose hle hw ?_ ?_
    · rw [predictedValue, recordedValue_eq hle]
      exact if_congr hlt rfl rfl
    · rw [performedValue_of_ne (by decide)]
      exact (recordedValue_ite hle _).trans (if_congr BitVec.slt_iff_toInt_lt rfl rfl)
  | umin =>
    refine predicted_eq_iff_of_choose hle hw ?_ ?_
    · rw [predictedValue, recordedValue_eq hle]
      exact if_congr hlt rfl rfl
    · rw [performedValue_of_ne (by decide)]
      exact (recordedValue_ite hle _).trans (if_congr (by simp [BitVec.ult]) rfl rfl)

end Narrow

/-! ### Operands of more than 32 bits -/

theorem isByte_performedValue {w : Nat} (hle : 8 ≤ w) (a : SymAddrSize) (op : RMWOperation)
    (old val cmp : BitVec w) : IsByte (performedValue a op old val cmp) := by
  unfold performedValue
  split
  · exact recordedValue_eq hle a old ▸ isByte_ofByte _
  · exact recordedValue_eq hle a _ ▸ isByte_ofByte _

/-- No value makes the prediction of another operation than `and` a byte
throughout. -/
theorem exists_not_isByte {op : RMWOperation} (hop : op ≠ .and) (o : BitVec 8) :
    ∃ y exp : Value, ¬IsByte (computeModifiedValue op (ofByte o) y exp) := by
  have hneg : ¬IsByte (-256) := by decide
  have hlarge : ¬IsByte 256 := by decide
  have ho := o.isLt
  cases op with
  | and => exact absurd rfl hop
  | xchg => exact ⟨-256, 0, hneg⟩
  | cmpxchg =>
    refine ⟨-256, ofByte o, ?_⟩
    rw [computeModifiedValue, if_pos rfl]
    exact hneg
  | add =>
    refine ⟨-256, 0, fun h => ?_⟩
    have hsum := (isByte_add.mp h).1
    have : (-256 : Value).toInt = -256 := by decide
    omega
  | sub =>
    refine ⟨256, 0, fun h => ?_⟩
    have hdiff := (isByte_sub.mp h).1
    have : (256 : Value).toInt = 256 := by decide
    omega
  | nand => exact ⟨0, 0, not_isByte_nand o 0⟩
  | or => exact ⟨-256, 0, fun h => hneg (isByte_or.mp h)⟩
  | xor => exact ⟨-256, 0, fun h => hneg (isByte_xor.mp h)⟩
  | max | umax =>
    refine ⟨256, 0, ?_⟩
    have hlt : ¬(256 : Value) < ofByte o := by
      have : (256 : Value).toInt = 256 := by decide
      rw [Int32.lt_iff_toInt_lt, toInt_ofByte]
      omega
    rw [computeModifiedValue, if_neg hlt]
    exact hlarge
  | min | umin =>
    refine ⟨-256, 0, ?_⟩
    have hlt : ¬ofByte o < (-256 : Value) := by
      have : (-256 : Value).toInt = -256 := by decide
      rw [Int32.lt_iff_toInt_lt, toInt_ofByte]
      omega
    rw [computeModifiedValue, if_neg hlt]
    exact hneg

theorem predicts_iff_of_wide {w : Nat} {a : SymAddrSize} {op : RMWOperation}
    {old val cmp : BitVec w} (hw : 32 < w) :
    Predicts a op old val cmp ↔ op = .and ∧ old.setWidth 8 = 0#8 := by
  have hle : 8 ≤ w := by omega
  have hpassed (v : BitVec w) (u : Value) : passedOperand v u = u := if_neg (by omega)
  unfold Predicts predictedValue
  simp only [hpassed, recordedValue_eq hle]
  constructor
  · intro h
    have hop : op = .and := by
      by_contra hop
      obtain ⟨y, exp, hy⟩ := exists_not_isByte hop (old.setWidth 8)
      exact hy (h y exp ▸ isByte_performedValue hle a op old val cmp)
    subst hop
    refine ⟨rfl, ?_⟩
    -- an operand of `0` and one with all bits predict the same
    have hsame := (h 0 0).trans (h (-1) 0).symm
    have hzero : computeModifiedValue .and (ofByte (old.setWidth 8)) 0 0 = ofByte 0#8 := by
      show ofByte (old.setWidth 8) &&& 0 = 0
      exact Int32.and_zero
    have hall : computeModifiedValue .and (ofByte (old.setWidth 8)) (-1) 0 =
        ofByte (old.setWidth 8) := by
      show ofByte (old.setWidth 8) &&& -1 = _
      exact Int32.and_neg_one
    rw [hzero, hall, ofByte_inj] at hsame
    exact hsame.symm
  · intro ⟨hop, hold⟩ y exp
    subst hop
    rw [performedValue_of_ne (by decide), recordedValue_eq hle]
    show ofByte (old.setWidth 8) &&& y = ofByte ((old &&& val).setWidth 8)
    rw [BitVec.setWidth_and, hold, BitVec.zero_and]
    exact Int32.zero_and

/-- When the prediction is right, for every operation and every width of at
least eight bits. -/
theorem predicts_iff {w : Nat} (hle : 8 ≤ w) (a : SymAddrSize) (op : RMWOperation)
    (old val cmp : BitVec w) :
    Predicts a op old val cmp ↔
      if w ≤ 32 then PredictsWhen op old val cmp else op = .and ∧ old.setWidth 8 = 0#8 := by
  by_cases hw : w ≤ 32
  · rw [if_pos hw]
    exact ⟨fun h => (predicted_eq_iff hle hw).mp (h 0 0),
      fun h _ _ => (predicted_eq_iff hle hw).mpr h⟩
  · rw [if_neg hw]
    exact predicts_iff_of_wide (by omega)

theorem predicts_iff_add :
    Predicts ⟨.global 1, 0, 4⟩ .add (200 : BitVec 32) 100 0 ↔
      if 32 ≤ 32 then PredictsWhen .add (200 : BitVec 32) 100 0
      else RMWOperation.add = .and ∧ (200 : BitVec 32).setWidth 8 = 0#8 :=
  predicts_iff (by decide) _ _ _ _ _

/-- Adding `100` to `200` is predicted to give `300`, and recorded as `44`. -/
theorem not_predicts :
    ¬∀ (w : Nat) (a : SymAddrSize) (op : RMWOperation) (old val cmp : BitVec w), 8 ≤ w →
      Predicts a op old val cmp := by
  intro h
  have hadd := h 32 ⟨.global 1, 0, 4⟩ .add 200 100 0 (by decide) 0 0
  exact absurd hadd (by decide +kernel)

end ViEqui
