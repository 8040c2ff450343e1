/-
Powers are true powers: what raising by squaring yields is the exact power, reduced once.

The loop keeps a word that it collects in, a word that it squares in every round, and what is left of the exponent
(`Squaring`). Both words wrap around in every round, the second also when it no longer matters. A state is worth an
integer of any size, of which its words keep the low bits (`Squaring.Worth`):
- `Worth.next`: a round changes nothing about that, and so no number of rounds does (`Worth.rounds`);
- `left_rounds`: each round halves what is left, so that the rounds come to their end;
- `powerFrom_rounds`: the loop yields what its rounds lead to.
A negative power is a fraction, of which `integerPart` is what stands in front of the point.

Result:
- `raise_exact`: the power of any two words, for exponents of both signs.
-/
import Mathlib
import LineCalc.Operator

namespace LineCalc

namespace Operator

/-! ## The loop -/

/-- where raising by squaring stands between two rounds -/
structure Squaring where
  collected : Int64
  square : Int64
  left : Nat
deriving DecidableEq, Repr

namespace Squaring

/-- one round, unless nothing is left -/
def next (s : Squaring) : Squaring :=
  if s.left = 0 then s
  else ⟨if s.left % 2 = 1 then s.collected * s.square else s.collected, s.square * s.square, s.left / 2⟩

/-- before the first round -/
def start (base : Int64) (n : Nat) : Squaring := ⟨1, base, n⟩

/-- the words of a state are the low bits of integers that come to `x` -/
def Worth (s : Squaring) (x : ℤ) : Prop :=
  ∃ a b : ℤ, s.collected = .ofInt a ∧ s.square = .ofInt b ∧ a * b ^ s.left = x

variable {s : Squaring} {x : ℤ}

theorem Worth.next (h : s.Worth x) : s.next.Worth x := by
  obtain ⟨a, b, ha, hb, hx⟩ := h
  unfold Squaring.next
  split_ifs with hzero hodd
  · exact ⟨a, b, ha, hb, hx⟩
  · refine ⟨a * b, b * b, by rw [ha, hb, Int64.ofInt_mul], by rw [hb, Int64.ofInt_mul], ?_⟩
    have hleft : s.left = 2 * (s.left / 2) + 1 := by omega
    calc a * b * (b * b) ^ (s.left / 2) = a * b ^ (2 * (s.left / 2) + 1) := by rw [pow_succ, pow_mul, sq]; ring
      _ = x := by rw [← hleft, hx]
  · refine ⟨a, b * b, ha, by rw [hb, Int64.ofInt_mul], ?_⟩
    have hleft : s.left = 2 * (s.left / 2) := by omega
    calc a * (b * b) ^ (s.left / 2) = a * b ^ (2 * (s.left / 2)) := by rw [pow_mul, sq]
      _ = x := by rw [← hleft, hx]

theorem Worth.rounds (h : s.Worth x) (k : Nat) : (Squaring.next^[k] s).Worth x := by
  induction k with
  | zero => exact h
  | succ k ih =>
    rw [Function.iterate_succ_apply']
    exact ih.next

theorem Worth.collected_eq (h : s.Worth x) (hleft : s.left = 0) : s.collected = .ofInt x := by
  obtain ⟨a, b, ha, -, rfl⟩ := h
  rw [ha, hleft, pow_zero, mul_one]

theorem worth_start (base : Int64) (n : Nat) : (start base n).Worth (base.toInt ^ n) :=
  ⟨1, base.toInt, rfl, (Int64.ofInt_toInt base).symm, one_mul _⟩

theorem left_next (s : Squaring) : s.next.left = s.left / 2 := by
  unfold next
  by_cases hzero : s.left = 0
  · rw [if_pos hzero, hzero]
  · rw [if_neg hzero]

theorem left_rounds (s : Squaring) (k : Nat) : (next^[k] s).left = s.left / 2 ^ k := by
  induction k with
  | zero => rw [Function.iterate_zero_apply, pow_zero, Nat.div_one]
  | succ k ih => rw [Function.iterate_succ_apply', left_next, ih, Nat.div_div_eq_div_mul, pow_succ]

theorem powerFrom_next (s : Squaring) :
    powerFrom s.next.collected s.next.square s.next.left = powerFrom s.collected s.square s.left := by
  unfold next
  split_ifs with hzero hodd
  · rfl
  · conv_rhs => rw [powerFrom, if_neg hzero, if_pos hodd]
  · conv_rhs => rw [powerFrom, if_neg hzero, if_neg hodd]

/-- the loop yields what has been collected when nothing is left -/
theorem powerFrom_rounds (s : Squaring) {k : Nat} (hleft : (next^[k] s).left = 0) :
    powerFrom s.collected s.square s.left = (next^[k] s).collected := by
  have hrounds : ∀ m, powerFrom (next^[m] s).collected (next^[m] s).square (next^[m] s).left =
      powerFrom s.collected s.square s.left := by
    intro m
    induction m with
    | zero => rfl
    | succ m ih => rw [Function.iterate_succ_apply', powerFrom_next, ih]
  rw [← hrounds k, hleft, powerFrom, if_pos rfl]

end Squaring

/-- **The loop ends within 63 rounds**, and has then collected the exact power, reduced once. -/
theorem squaring_ends (base : Int64) {n : Nat} (hn : n < 2 ^ 63) :
    (Squaring.next^[63] (.start base n)).left = 0 ∧
      (Squaring.next^[63] (.start base n)).collected = .ofInt (base.toInt ^ n) ∧
      powerFrom 1 base n = .ofInt (base.toInt ^ n) := by
  have hleft : (Squaring.next^[63] (.start base n)).left = 0 := by
    rw [Squaring.left_rounds]
    exact Nat.div_eq_of_lt hn
  have hcollected := ((Squaring.worth_start base n).rounds 63).collected_eq hleft
  have hloop : powerFrom 1 base n = _ := Squaring.powerFrom_rounds (.start base n) hleft
  exact ⟨hleft, hcollected, hloop.trans hcollected⟩

/-! ## Negative exponents -/

/-- a fraction without what stands behind its point -/
def integerPart (q : ℚ) : ℤ :=
  if 0 ≤ q then ⌊q⌋ else ⌈q⌉

theorem integerPart_intCast (m : ℤ) : integerPart m = m := by
  unfold integerPart
  split_ifs
  · exact Int.floor_intCast m
  · exact Int.ceil_intCast m

theorem integerPart_of_abs_lt_one {q : ℚ} (h : |q| < 1) : integerPart q = 0 := by
  obtain ⟨hlow, hhigh⟩ := abs_lt.1 h
  unfold integerPart
  split_ifs with hsign
  · exact Int.floor_eq_zero_iff.2 ⟨hsign, hhigh⟩
  · exact Int.ceil_eq_zero_iff.2 ⟨hlow, (not_le.1 hsign).le⟩

/-- a negative power of a number beyond 1 and -1 lies between them -/
theorem abs_zpow_lt_one {base exponent : ℤ} (hbase : 1 < |base|) (hexponent : exponent < 0) :
    |(base : ℚ) ^ exponent| < 1 := by
  have hcast : (1 : ℚ) < |(base : ℚ)| := by exact_mod_cast hbase
  rw [abs_zpow]
  exact zpow_lt_one_of_neg₀ hcast hexponent

theorem one_lt_abs_toInt {base : Int64} (h0 : base ≠ 0) (h1 : base ≠ 1) (hneg : base ≠ -1) : 1 < |base.toInt| := by
  have h0' : base.toInt ≠ 0 := fun h => h0 (Int64.toInt_inj.1 h)
  have h1' : base.toInt ≠ 1 := fun h => h1 (Int64.toInt_inj.1 h)
  have hneg' : base.toInt ≠ -1 := fun h => hneg (Int64.toInt_inj.1 h)
  rw [lt_abs]
  omega

theorem even_toInt_iff (exponent : Int64) : Even exponent.toInt ↔ exponent % 2 = 0 := by
  rw [even_iff_two_dvd, ← Int64.toInt_inj, Int64.toInt_mod]
  exact Int.dvd_iff_tmod_eq_zero

/-- a negative power of a base other than 0 -/
theorem raise_of_neg {base exponent : Int64} (hbase : base ≠ 0) (hexponent : exponent < 0) (column : Nat) :
    ∃ v, raise base exponent column = .ok v ∧ v.toInt = integerPart ((base.toInt : ℚ) ^ exponent.toInt) := by
  have hneg : exponent.toInt < 0 := Int64.lt_iff_toInt_lt.1 hexponent
  unfold raise
  rw [if_neg (by rw [Int64.le_iff_toInt_le]; exact not_le.2 hneg), if_neg hbase]
  split_ifs with h1 hminus hparity
  · refine ⟨1, rfl, ?_⟩
    rw [h1, Int64.toInt_one, Int.cast_one, one_zpow]
    exact (integerPart_intCast 1).symm
  · refine ⟨1, rfl, ?_⟩
    have heven := (even_toInt_iff exponent).2 hparity
    rw [hminus, show (-1 : Int64).toInt = -1 from rfl, Int.cast_neg, Int.cast_one, heven.neg_one_zpow]
    exact (integerPart_intCast 1).symm
  · refine ⟨-1, rfl, ?_⟩
    have hodd : Odd exponent.toInt := by
      rw [← Int.not_even_iff_odd, even_toInt_iff]
      exact hparity
    rw [hminus, show (-1 : Int64).toInt = -1 from rfl, Int.cast_neg, Int.cast_one, hodd.neg_one_zpow]
    exact (integerPart_intCast (-1)).symm
  · refine ⟨0, rfl, ?_⟩
    rw [integerPart_of_abs_lt_one (abs_zpow_lt_one (one_lt_abs_toInt hbase h1 hminus) hneg)]
    rfl

/-! ## Main result -/

/-- **A power is the power of integers.** For any base and exponent:
- an exponent from 0 on yields the exact power, reduced once to a word, so 1 for 0 to the 0. Squaring has nothing left
  after 63 rounds at the latest, and has then collected this word;
- a negative power of 0 divides by zero, at the operator;
- a negative power of any other base yields the exact fraction without what stands behind its point. -/
theorem raise_exact (base exponent : Int64) (column : Nat) :
    (0 ≤ exponent →
      let n := exponent.toInt.toNat
      let last := Squaring.next^[63] (.start base n)
      raise base exponent column = .ok (.ofInt (base.toInt ^ n)) ∧
        last.left = 0 ∧ last.collected = .ofInt (base.toInt ^ n)) ∧
    (exponent < 0 → base = 0 → raise base exponent column = .error (.powerOfZero column)) ∧
    (exponent < 0 → base ≠ 0 →
      ∃ v, raise base exponent column = .ok v ∧ v.toInt = integerPart ((base.toInt : ℚ) ^ exponent.toInt)) := by
  refine ⟨fun hexponent => ?_, fun hexponent hbase => ?_, fun hexponent hbase => ?_⟩
  · intro n last
    have hn : n < 2 ^ 63 := by
      have hbound := exponent.toInt_lt
      simp only [n]
      omega
    obtain ⟨hleft, hcollected, hloop⟩ := squaring_ends base hn
    refine ⟨?_, hleft, hcollected⟩
    rw [raise, if_pos hexponent]
    exact congrArg Except.ok hloop
  · have hneg : ¬ 0 ≤ exponent := by
      rw [Int64.le_iff_toInt_le]
      exact not_le.2 (Int64.lt_iff_toInt_lt.1 hexponent)
    rw [raise, if_neg hneg, if_pos hbase]
  · exact raise_of_neg hbase hexponent column

/-- a power that wraps around, a negative power of 0, and the smallest word to the power of itself -/
theorem raise_exact_extremes :
    (0 : Int64) ≤ 41 ∧ raise 3 41 7 = .ok (.ofInt (3 ^ 41)) ∧
      Int64.minValue < 0 ∧ raise 0 Int64.minValue 7 = .error (.powerOfZero 7) ∧
      Int64.minValue ≠ 0 ∧ ∃ v, raise Int64.minValue Int64.minValue 7 = .ok v ∧
        v.toInt = integerPart ((Int64.minValue.toInt : ℚ) ^ Int64.minValue.toInt) := by
  have hexponent : (0 : Int64) ≤ 41 := by decide
  have hneg : Int64.minValue < 0 := by decide
  have hbase : Int64.minValue ≠ 0 := by decide
  exact ⟨hexponent, ((raise_exact 3 41 7).1 hexponent).1, hneg, (raise_exact 0 Int64.minValue 7).2.1 hneg rfl, hbase,
    (raise_exact Int64.minValue Int64.minValue 7).2.2 hneg hbase⟩

end Operator

end LineCalc
