/-
What the operators compute, told by the integers that words stand for.

Every operation wraps around: its value is an integer of any size, reduced once to a word. Whether the operands of a
sum, a difference or a product or the base of a power were reduced before makes no difference (`apply_ofInt`,
`apply_power`). A shift goes as far as its amount says modulo 64, which is never backwards
(`shiftDistance`): to the left it multiplies, to the right it divides what the bits stand for without a sign. A quotient
is a fraction without what stands behind its point, and the remainder is what is missing then.

`Operator.fault?` says which operands an operation refuses, and `Operator.Yields` what its value is for all others.

Result:
- `apply_exact`: every operator does as these two say, on all words.
-/
import LineCalc.Proofs.Powers

namespace LineCalc

namespace Operator

/-- how far a shift goes -/
def shiftDistance (amount : Int64) : Nat :=
  (amount.toInt % 64).toNat

/-- a fraction without what stands behind its point -/
def quotient (x y : ℤ) : ℤ :=
  integerPart ((x : ℚ) / y)

/-- why an operation has no value, if it has none -/
def fault? (op : Operator) (left right : Int64) : Option Fault :=
  match op with
  | divide => if right = 0 then some .divisionByZero else none
  | modulo => if right = 0 then some .modulusByZero else none
  | power => if left = 0 ∧ right < 0 then some .divisionByZero else none
  | _ => none

/-- what the value `v` of an operation is -/
def Yields (op : Operator) (left right v : Int64) : Prop :=
  match op with
  | bitOr => ∀ i, v.toBitVec.getLsbD i = (left.toBitVec.getLsbD i || right.toBitVec.getLsbD i)
  | bitXor => ∀ i, v.toBitVec.getLsbD i = (left.toBitVec.getLsbD i ^^ right.toBitVec.getLsbD i)
  | bitAnd => ∀ i, v.toBitVec.getLsbD i = (left.toBitVec.getLsbD i && right.toBitVec.getLsbD i)
  | shiftLeft => v = .ofInt (left.toInt * 2 ^ shiftDistance right)
  | shiftRight => v = .ofNat (left.toBitVec.toNat / 2 ^ shiftDistance right)
  | add => v = .ofInt (left.toInt + right.toInt)
  | subtract => v = .ofInt (left.toInt - right.toInt)
  | multiply => v = .ofInt (left.toInt * right.toInt)
  | divide => v = .ofInt (quotient left.toInt right.toInt)
  | modulo =>
    |v.toInt| < |right.toInt| ∧ (v = 0 ∨ v.toInt.sign = left.toInt.sign) ∧
      .ofInt (quotient left.toInt right.toInt) * right + v = left
  | power =>
    (0 ≤ right → v = .ofInt (left.toInt ^ right.toInt.toNat)) ∧
      (right < 0 → v.toInt = integerPart ((left.toInt : ℚ) ^ right.toInt))

/-! ## Sums, products and powers -/

/-- the operations of integers that an operation on words stands for, whatever is left out of the operands -/
def onIntegers? : Operator → Option (ℤ → ℤ → ℤ)
  | add => some fun x y => x + y
  | subtract => some fun x y => x - y
  | multiply => some fun x y => x * y
  | _ => none

/-- sums, differences and products may be reduced before as well as after -/
theorem apply_ofInt {op : Operator} {f : ℤ → ℤ → ℤ} (h : op.onIntegers? = some f) (x y : ℤ) (column : Nat) :
    op.apply (.ofInt x) (.ofInt y) column = .ok (.ofInt (f x y)) := by
  cases op with
  | add => cases h; rw [apply, Int64.ofInt_add]
  | subtract => cases h; rw [apply, Int64.ofInt_sub]
  | multiply => cases h; rw [apply, Int64.ofInt_mul]
  | _ => cases h

/-- a sum, a difference or a product of two words is the exact one, reduced -/
theorem apply_of_onIntegers? {op : Operator} {f : ℤ → ℤ → ℤ} (h : op.onIntegers? = some f) (left right : Int64)
    (column : Nat) : op.apply left right column = .ok (.ofInt (f left.toInt right.toInt)) := by
  rw [← apply_ofInt h, Int64.ofInt_toInt, Int64.ofInt_toInt]

/-- a power may be reduced before as well as after -/
theorem ofInt_toInt_pow (x : ℤ) (n : Nat) : Int64.ofInt ((Int64.ofInt x).toInt ^ n) = .ofInt (x ^ n) := by
  induction n with
  | zero => rw [pow_zero, pow_zero]
  | succ n ih => rw [pow_succ, pow_succ, Int64.ofInt_mul, ih, Int64.ofInt_toInt, Int64.ofInt_mul]

theorem apply_power (x : ℤ) {exponent : Int64} (h : 0 ≤ exponent) (column : Nat) :
    apply power (.ofInt x) exponent column = .ok (.ofInt (x ^ exponent.toInt.toNat)) := by
  have hn : exponent.toInt.toNat < 2 ^ 63 := by
    have hbound := exponent.toInt_lt
    omega
  have hloop := (squaring_ends (.ofInt x) hn).2.2
  rw [ofInt_toInt_pow] at hloop
  rw [apply, raise, if_pos h]
  exact congrArg Except.ok hloop

/-! ## Shifts -/

theorem toNat_smod_eq (amount : Int64) : (amount.toBitVec.smod 64).toNat = shiftDistance amount := by
  have hsmod : (amount.toBitVec.smod 64).toInt = amount.toInt % 64 := by
    rw [BitVec.toInt_smod, Int64.toInt_toBitVec]
    exact Int.fmod_eq_emod_of_nonneg _ (by decide)
  rw [BitVec.toInt_eq_toNat_cond] at hsmod
  unfold shiftDistance
  split at hsmod <;> omega

theorem toNat_toUInt64_mod (amount : Int64) : amount.toUInt64.toNat % 64 = shiftDistance amount := by
  have hsigned : amount.toBitVec.toInt = amount.toInt := amount.toInt_toBitVec
  rw [BitVec.toInt_eq_toNat_cond] at hsigned
  show amount.toBitVec.toNat % 64 = _
  unfold shiftDistance
  split at hsigned <;> omega

theorem shiftLeft_eq (left right : Int64) : left <<< right = .ofInt (left.toInt * 2 ^ shiftDistance right) := by
  have hpower : BitVec.ofInt 64 (2 ^ shiftDistance right) = BitVec.twoPow 64 (shiftDistance right) := by
    apply BitVec.eq_of_toNat_eq
    rw [BitVec.toNat_ofInt, BitVec.toNat_twoPow]
    norm_cast
  rw [← Int64.toBitVec_inj, Int64.toBitVec_shiftLeft, BitVec.shiftLeft_eq', toNat_smod_eq,
    BitVec.shiftLeft_eq_mul_twoPow, Int64.toBitVec_ofInt, BitVec.ofInt_mul, hpower, BitVec.ofInt_int64ToInt]

theorem shiftDown_eq (left right : Int64) :
    shiftDown left right = .ofNat (left.toBitVec.toNat / 2 ^ shiftDistance right) := by
  have hbits : (shiftDown left right).toBitVec.toNat = left.toBitVec.toNat / 2 ^ shiftDistance right := by
    show (left.toUInt64 >>> right.toUInt64).toNat = _
    rw [UInt64.toNat_shiftRight, toNat_toUInt64_mod, Nat.shiftRight_eq_div_pow]
    rfl
  rw [← hbits, ← Int64.toBitVec_inj]
  simp

/-! ## Quotients and remainders -/

/-- what is behind the point is smaller than one and does not go against the sign -/
theorem integerPart_add {q : ℤ} {r : ℚ} (hr : |r| < 1) (hpos : 0 ≤ q + r → 0 ≤ r) (hneg : q + r < 0 → r ≤ 0) :
    integerPart (q + r) = q := by
  obtain ⟨hlow, hhigh⟩ := abs_lt.1 hr
  unfold integerPart
  split_ifs with hsign
  · have hfloor : ⌊r⌋ = 0 := Int.floor_eq_zero_iff.2 ⟨hpos hsign, hhigh⟩
    rw [Int.floor_intCast_add, hfloor, add_zero]
  · have hceil : ⌈r⌉ = 0 := Int.ceil_eq_zero_iff.2 ⟨hlow, hneg (not_le.1 hsign)⟩
    rw [Int.ceil_intCast_add, hceil, add_zero]

theorem mul_tmod_nonneg (x y : ℤ) : 0 ≤ x * x.tmod y := by
  rcases le_total 0 x with hx | hx
  · exact mul_nonneg hx (Int.tmod_nonneg y hx)
  · have hneg := Int.tmod_nonneg y (neg_nonneg.2 hx)
    rw [Int.neg_tmod, neg_nonneg] at hneg
    exact mul_nonneg_of_nonpos_of_nonpos hx hneg

theorem abs_tmod_lt (x : ℤ) {y : ℤ} (hy : y ≠ 0) : |x.tmod y| < |y| := by
  rw [Int.abs_eq_natAbs, Int.abs_eq_natAbs, Int.natAbs_tmod]
  exact_mod_cast Nat.mod_lt _ (Int.natAbs_pos.2 hy)

theorem quotient_eq_tdiv (x : ℤ) {y : ℤ} (hy : y ≠ 0) : quotient x y = x.tdiv y := by
  have hy' : (y : ℚ) ≠ 0 := by exact_mod_cast hy
  have hfraction : (x : ℚ) / y = x.tdiv y + (x.tmod y : ℚ) / y := by
    have hparts : (y : ℚ) * x.tdiv y + x.tmod y = x := by exact_mod_cast Int.mul_tdiv_add_tmod x y
    field_simp
    linarith
  have hsmall : |(x.tmod y : ℚ) / y| < 1 := by
    rw [abs_div, div_lt_one (abs_pos.2 hy')]
    exact_mod_cast abs_tmod_lt x hy
  -- what is behind the point has the sign of the fraction, since the remainder has the sign of `x`
  have hsame : 0 ≤ (x : ℚ) / y * ((x.tmod y : ℚ) / y) := by
    rw [div_mul_div_comm]
    exact div_nonneg (by exact_mod_cast mul_tmod_nonneg x y) (mul_self_nonneg _)
  rw [quotient, hfraction]
  refine integerPart_add hsmall (fun hpos => ?_) fun hneg => ?_
  · rw [← hfraction] at hpos
    rcases hpos.eq_or_lt with hzero | hpos
    · have hx : x = 0 := by exact_mod_cast (div_eq_zero_iff.1 hzero.symm).resolve_right hy'
      simp [hx]
    · exact nonneg_of_mul_nonneg_right hsame hpos
  · rw [← hfraction] at hneg
    exact nonpos_of_mul_nonneg_right hsame hneg

theorem toInt_ne_zero {w : Int64} (h : w ≠ 0) : w.toInt ≠ 0 :=
  fun hzero => h (Int64.toInt_inj.1 hzero)

/-- the quotient is reduced, which matters for the smallest word divided by -1 alone -/
theorem div_eq_tdiv (left right : Int64) : left / right = .ofInt (left.toInt.tdiv right.toInt) := by
  rw [eq_comm, Int64.ofInt_eq_iff_bmod_eq_toInt, Int64.toInt_div]

theorem div_eq (left : Int64) {right : Int64} (h : right ≠ 0) :
    left / right = .ofInt (quotient left.toInt right.toInt) := by
  rw [div_eq_tdiv, quotient_eq_tdiv _ (toInt_ne_zero h)]

theorem abs_mod_lt (left : Int64) {right : Int64} (h : right ≠ 0) : |(left % right).toInt| < |right.toInt| := by
  rw [Int64.toInt_mod]
  exact abs_tmod_lt _ (toInt_ne_zero h)

theorem mod_eq_zero_or_sign (left right : Int64) :
    left % right = 0 ∨ (left % right).toInt.sign = left.toInt.sign := by
  rw [← Int64.toInt_inj, Int64.toInt_mod, Int.sign_tmod]
  split_ifs with hdvd
  · exact Or.inl (Int.dvd_iff_tmod_eq_zero.1 hdvd)
  · exact Or.inr rfl

/-- quotient and remainder make up the dividend, also where the quotient had to be reduced -/
theorem div_mul_add_mod (left right : Int64) : left / right * right + left % right = left := by
  have hmod : left % right = .ofInt (left.toInt.tmod right.toInt) := by
    rw [← Int64.toInt_mod, Int64.ofInt_toInt]
  calc left / right * right + left % right
      = .ofInt (left.toInt.tdiv right.toInt * right.toInt + left.toInt.tmod right.toInt) := by
        rw [div_eq_tdiv, hmod, Int64.ofInt_add, Int64.ofInt_mul, Int64.ofInt_toInt]
    _ = left := by rw [Int.tdiv_mul_add_tmod, Int64.ofInt_toInt]

/-! ## Main result -/

/-- a power with a negative exponent divides by zero, or yields the integer part of a fraction -/
theorem raise_settled (left right : Int64) (column : Nat) :
    match fault? power left right with
    | some f => ∃ help, raise left right column = .error ⟨f, column, help⟩
    | none => ∃ v, raise left right column = .ok v ∧ Yields power left right v := by
  by_cases hright : right < 0
  · have hneg : ¬ 0 ≤ right := Int64.not_le.2 hright
    by_cases hleft : left = 0
    · simp only [fault?, hleft, hright, and_self, if_true]
      exact ⟨_, by rw [raise, if_neg hneg, if_pos rfl]; rfl⟩
    · simp only [fault?, hleft, false_and, if_false]
      obtain ⟨v, hv, hpart⟩ := raise_of_neg hleft hright column
      exact ⟨v, hv, fun hpos => absurd hpos hneg, fun _ => hpart⟩
  · have hpos : 0 ≤ right := Int64.not_lt.1 hright
    simp only [fault?, hright, and_false, if_false]
    have hpower := apply_power left.toInt hpos column
    rw [Int64.ofInt_toInt] at hpower
    exact ⟨_, hpower, fun _ => rfl, fun hneg => absurd hneg hright⟩

/-- **Every operator computes what the integers say**, for any two words. Division and remainder by 0 and a negative
power of 0 fail, at the operator's column, and nothing else does. All other operations have the value that `Yields`
describes:
- a sum, a difference and a product are the exact ones, reduced once, and the operations on bits act on each bit;
- a shift to the left multiplies by a power of two, and one to the right divides the bits as a number without a sign;
- a quotient goes toward zero, and a remainder is smaller than the divisor, has the sign of the dividend unless it is 0,
  and makes up the dividend with the quotient;
- a power is exact, or the integer part of a fraction. -/
theorem apply_exact (op : Operator) (left right : Int64) (column : Nat) :
    match op.fault? left right with
    | some f => ∃ help, op.apply left right column = .error ⟨f, column, help⟩
    | none => ∃ v, op.apply left right column = .ok v ∧ op.Yields left right v := by
  cases op with
  | bitOr => exact ⟨_, rfl, fun i => by rw [Int64.toBitVec_or, BitVec.getLsbD_or]⟩
  | bitXor => exact ⟨_, rfl, fun i => by rw [Int64.toBitVec_xor, BitVec.getLsbD_xor]⟩
  | bitAnd => exact ⟨_, rfl, fun i => by rw [Int64.toBitVec_and, BitVec.getLsbD_and]⟩
  | shiftLeft => exact ⟨_, rfl, shiftLeft_eq left right⟩
  | shiftRight => exact ⟨_, rfl, shiftDown_eq left right⟩
  | add => exact ⟨_, apply_of_onIntegers? rfl left right column, rfl⟩
  | subtract => exact ⟨_, apply_of_onIntegers? rfl left right column, rfl⟩
  | multiply => exact ⟨_, apply_of_onIntegers? rfl left right column, rfl⟩
  | divide =>
    by_cases hright : right = 0
    · simp only [fault?, hright, if_true]
      exact ⟨_, rfl⟩
    · simp only [fault?, hright, if_false]
      exact ⟨left / right, if_neg hright, div_eq left hright⟩
  | modulo =>
    by_cases hright : right = 0
    · simp only [fault?, hright, if_true]
      exact ⟨_, rfl⟩
    · simp only [fault?, hright, if_false]
      refine ⟨left % right, if_neg hright, abs_mod_lt left hright, mod_eq_zero_or_sign left right, ?_⟩
      rw [← div_eq left hright, div_mul_add_mod]
  | power => exact raise_settled left right column

/-- an amount of -4 shifts by 60 -/
example : apply shiftRight (-1) (-4) 1 = .ok 15 := by decide

end Operator

end LineCalc
