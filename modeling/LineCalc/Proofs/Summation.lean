/-
What a summation yields and what it leaves in the store, for all bounds that 64-bit words can hold.

The loop stores each number in the target before it evaluates the body, so what the target held before never shows:
`accumulate_step` is one iteration, `accumulate_of_ok` a run of iterations that all succeed. From these:
- `run_of_large`: a range of two to the 24th numbers and more is refused, and the store is left alone;
- `run_of_empty`: with the bounds the wrong way round the total is 0, and the target holds the lower bound;
- `run_of_ok`: if every iteration has a value, the total is their exact sum, reduced once, and the target holds the
  upper bound;
- `run_of_error`: the first iteration that fails decides, and the target holds its number.

So a summation is an abbreviation. Written out, it is a sum with one term for each number between the bounds, the body
with this number in the place of the target (`Summation.unrolled`). The target does not occur in it, and it is evaluated
once, on the store as it was before.

Results:
- `run_unrolled`: a summation comes to what the sum comes to that it abbreviates;
- `run_summation_exact`: what a whole line yields and leaves, after the bounds were computed.
-/
import Mathlib
import LineCalc.Proofs.Substitution

namespace LineCalc

namespace Summation

variable {name : String} {body : Expr}

/-! ## The loop -/

/-- one iteration that succeeds; the target forgets what it held -/
theorem accumulate_step {store : Store} {k : Int} {v : Int64} (count : Nat) (total w : Int64)
    (h : body.evaluate (store.assign name (.ofInt k)) = .ok v) :
    accumulate name body (count + 1) (.ofInt k) total (store.assign name w) =
      accumulate name body count (.ofInt (k + 1)) (total + v) (store.assign name (.ofInt k)) := by
  rw [accumulate, Store.assign_assign, h, Int64.ofInt_add]
  rfl

/-- `m` iterations that succeed -/
theorem accumulate_of_ok {store : Store} (v : Int → Int64) (m count : Nat) (k : Int) (total w : Int64)
    (h : ∀ j, k ≤ j → j < k + m → body.evaluate (store.assign name (.ofInt j)) = .ok (v j)) :
    accumulate name body (m + count) (.ofInt k) total (store.assign name w) =
      accumulate name body count (.ofInt (k + m)) (total + .ofInt (∑ j ∈ Finset.Ico k (k + m), (v j).toInt))
        (store.assign name (if m = 0 then w else .ofInt (k + m - 1))) := by
  induction m generalizing k total w with
  | zero => simp
  | succ m ih =>
    have hk := h k le_rfl (by omega)
    have hend : k + (m + 1 : Nat) = k + 1 + m := by omega
    have htotal : Int64.ofInt (∑ j ∈ Finset.Ico k (k + 1 + m), (v j).toInt) =
        v k + .ofInt (∑ j ∈ Finset.Ico (k + 1) (k + 1 + m), (v j).toInt) := by
      rw [← Finset.insert_Ico_add_one_left_eq_Ico (show k < k + 1 + m by omega), Finset.sum_insert (by simp),
        Int64.ofInt_add, Int64.ofInt_toInt]
    -- what the target holds last: `k` itself if no iteration follows
    have hlast : (if m = 0 then .ofInt k else Int64.ofInt (k + 1 + m - 1)) = .ofInt (k + 1 + m - 1) := by
      split
      next hm => rw [hm]; congr 1; omega
      next => rfl
    rw [show m + 1 + count = m + count + 1 by omega, accumulate_step _ _ _ hk,
      ih (k + 1) (total + v k) (.ofInt k) fun j hj hj' => h j (by omega) (by omega), hlast, hend, htotal,
      if_neg (Nat.succ_ne_zero m), Int64.add_assoc]

/-! ## A whole summation -/

theorem maxIterations_eq : (maxIterations : Int) = 2 ^ 24 := by decide

variable {s : Summation} {store : Store}

theorem run_of_large (name : String) (store : Store) (h : 2 ^ 24 ≤ s.upper.toInt - s.lower.toInt) :
    s.run name store = (.error (.rangeTooLarge maxIterations s.column), store) := by
  have hmax := maxIterations_eq
  rw [run, if_pos (by unfold count; omega)]

/-- the widest range there is -/
example : run ⟨Int64.minValue, Int64.maxValue, 9, .number 1⟩ "i" Store.empty =
    (.error (.rangeTooLarge maxIterations 9), Store.empty) := by rfl

theorem run_of_empty (name : String) (store : Store) (h : s.upper < s.lower) :
    s.run name store = (.ok 0, store.assign name s.lower) := by
  have hlt := Int64.lt_iff_toInt_lt.1 h
  have hcount : s.count = 0 := by unfold count; omega
  rw [run, hcount, if_neg (Nat.not_lt_zero _)]
  rfl

theorem run_eq_accumulate (name : String) (store : Store) (h : s.upper.toInt - s.lower.toInt < 2 ^ 24) :
    s.run name store = accumulate name s.body s.count (.ofInt s.lower.toInt) 0 (store.assign name s.lower) := by
  have hmax := maxIterations_eq
  rw [run, if_neg (by unfold count; omega), Int64.ofInt_toInt]

theorem run_of_ok (v : Int → Int64) (h : s.upper.toInt - s.lower.toInt < 2 ^ 24) (hle : s.lower ≤ s.upper)
    (hv : ∀ k, s.lower.toInt ≤ k → k ≤ s.upper.toInt →
      s.body.evaluate (store.assign name (.ofInt k)) = .ok (v k)) :
    s.run name store =
      (.ok (.ofInt (∑ k ∈ Finset.Icc s.lower.toInt s.upper.toInt, (v k).toInt)), store.assign name s.upper) := by
  have hle' := Int64.le_iff_toInt_le.1 hle
  have hcount : s.lower.toInt + s.count = s.upper.toInt + 1 := by unfold count; omega
  have hrun := accumulate_of_ok v s.count 0 s.lower.toInt 0 s.lower fun j hj hj' => hv j hj (by omega)
  rw [Nat.add_zero, hcount, Finset.Ico_add_one_right_eq_Icc, if_neg (by omega), Int64.zero_add, Int.add_sub_cancel,
    s.upper.ofInt_toInt] at hrun
  rw [run_eq_accumulate name store h, hrun]
  rfl

theorem run_of_error {k : Int} {d : Diagnostic} (h : s.upper.toInt - s.lower.toInt < 2 ^ 24)
    (hlo : s.lower.toInt ≤ k) (hhi : k ≤ s.upper.toInt)
    (hv : ∀ j, s.lower.toInt ≤ j → j < k → ∃ v, s.body.evaluate (store.assign name (.ofInt j)) = .ok v)
    (hd : s.body.evaluate (store.assign name (.ofInt k)) = .error d) :
    s.run name store = (.error d, store.assign name (.ofInt k)) := by
  obtain ⟨m, hm⟩ := Int.eq_ofNat_of_zero_le (Int.sub_nonneg_of_le hlo)
  obtain ⟨count, hcount⟩ : ∃ count, s.count = m + (count + 1) := ⟨s.count - m - 1, by unfold Summation.count; omega⟩
  -- the values that the successful iterations have
  choose! v hv using hv
  have hrun := accumulate_of_ok v m (count + 1) s.lower.toInt 0 s.lower fun j hj hj' => hv j hj (by omega)
  rw [run_eq_accumulate name store h, hcount, hrun, show s.lower.toInt + m = k by omega, accumulate,
    Store.assign_assign, hd]

/-! ## Summations written out -/

/-- the terms of a summation that runs over `count` numbers from `index` on -/
def terms (name : String) (body : Expr) (count : Nat) (index : Int64) : List Expr :=
  (List.range count).map fun k => body.substitute name (index + .ofNat k)

/-- adds terms to a sum -/
def addTerms (column : Nat) (sum : Expr) (es : List Expr) : Expr :=
  es.foldl (fun sum e => .binary .add sum e column) sum

/-- the sum that a summation abbreviates; its signs stand where the `...` does, but they never fail -/
def unrolled (s : Summation) (name : String) : Expr :=
  addTerms s.column (.number 0) (terms name s.body s.count s.lower)

theorem terms_succ (name : String) (body : Expr) (count : Nat) (index : Int64) :
    terms name body (count + 1) index = body.substitute name index :: terms name body count (index + 1) := by
  have hnext : ∀ k : Nat, index + Int64.ofNat (k + 1) = index + 1 + Int64.ofNat k := by
    intro k
    rw [Int64.ofNat_add, Int64.add_assoc, Int64.add_comm 1]
    rfl
  rw [terms, List.range_succ_eq_map, List.map_cons, List.map_map, terms]
  congr 1
  · rw [show Int64.ofNat 0 = 0 from rfl, Int64.add_zero]
  · exact List.map_congr_left fun k _ => congrArg (body.substitute name) (hnext k)

/-- a term that fails decides, whatever is added after it -/
theorem evaluate_addTerms_of_error {sum : Expr} {d : Diagnostic} (h : sum.evaluate store = .error d) (column : Nat)
    (es : List Expr) : (addTerms column sum es).evaluate store = .error d := by
  induction es generalizing sum with
  | nil => exact h
  | cons e es ih =>
    apply ih
    rw [Expr.evaluate, h]
    rfl

/-- the loop adds the terms to the total it starts with, and the target need not be there to evaluate them -/
theorem accumulate_terms {sum : Expr} {total : Int64} (hsum : sum.evaluate store = .ok total) (column count : Nat)
    (index w : Int64) :
    (accumulate name body count index total (store.assign name w)).1 =
      (addTerms column sum (terms name body count index)).evaluate store := by
  -- `w` is what the target holds when an iteration begins, and is overwritten before the body reads it
  induction count generalizing sum total index w with
  | zero => exact hsum.symm
  | succ count ih =>
    have hadd : (Expr.binary .add sum (body.substitute name index) column).evaluate store =
        ((body.substitute name index).evaluate store).map (total + ·) := by
      rw [Expr.evaluate, hsum]
      cases (body.substitute name index).evaluate store <;> rfl
    rw [accumulate, Store.assign_assign, Expr.evaluate_assign, terms_succ, addTerms, List.foldl_cons]
    cases hterm : (body.substitute name index).evaluate store with
    | ok v =>
      rw [hterm] at hadd
      exact ih hadd (index + 1) index
    | error d =>
      rw [hterm] at hadd
      exact (evaluate_addTerms_of_error hadd column _).symm

/-- **A summation is an abbreviation.** It comes to what the sum written out comes to, on the store as it was before the
loop, unless it is refused for its length. -/
theorem run_unrolled (s : Summation) (name : String) (store : Store) :
    (s.run name store).1 =
      if s.count > maxIterations then .error (.rangeTooLarge maxIterations s.column)
      else (s.unrolled name).evaluate store := by
  unfold run
  split
  · rfl
  · exact accumulate_terms rfl s.column s.count s.lower s.lower

/-- `sum i over 2...4 in i * y` -/
example : unrolled ⟨2, 4, 13, .binary .multiply (.identifier "i" 21) (.identifier "y" 25) 23⟩ "i" =
    addTerms 13 (.number 0) [.binary .multiply (.number 2) (.identifier "y" 25) 23,
      .binary .multiply (.number 3) (.identifier "y" 25) 23, .binary .multiply (.number 4) (.identifier "y" 25) 23] := by
  decide

end Summation

/-! ## Main result -/

namespace Statement

/-- **What a summation yields.** Exposing the target binds it to the value it had before, which is 0 for a new one, and
setting it after that binds it to what it is set to. Both bounds are computed on the store with the target exposed, and
the first that fails is reported on that store. With bounds `lo` and `hi`:
- a range of more than two to the 24th numbers is refused at the `...`;
- if `lo` is above `hi`, the total is 0 whatever the body, and the target is set to `lo`;
- if every number between them gives the body a value, the total is the sum of these values as integers, reduced once,
  and the target is set to `hi`;
- otherwise the first number that gives none decides what is reported, and the target is set to it. -/
theorem run_summation_exact {ls us bs : List Token} {lower upper body : Expr}
    (hl : Derives maxNesting .exp ls lower) (hu : Derives maxNesting .exp us upper)
    (hb : Derives maxNesting .exp bs body) (name : String) (c₁ c₂ c₃ c₄ c₅ column : Nat) (store : Store) :
    let line := ⟨.keyword .sum, c₁⟩ :: ⟨.identifier name, c₂⟩ :: ⟨.keyword .bounds, c₃⟩ ::
      (ls ++ ⟨.symbol .ellipsis, c₄⟩ :: (us ++ ⟨.keyword .body, c₅⟩ :: (bs ++ [⟨.eof, column⟩])))
    let exposed := store.expose name
    store.Binds name (store.content name).1 exposed ∧
    (name ∉ store.names → (store.content name).1 = 0) ∧
    (∀ v, store.Binds name v (exposed.assign name v)) ∧
    (∀ d, lower.evaluate exposed = .error d → run line store = (.error d, exposed)) ∧
    (∀ lo d, lower.evaluate exposed = .ok lo → upper.evaluate exposed = .error d →
      run line store = (.error d, exposed)) ∧
    ∀ lo hi, lower.evaluate exposed = .ok lo → upper.evaluate exposed = .ok hi →
      (2 ^ 24 ≤ hi.toInt - lo.toInt →
        run line store = (.error (.rangeTooLarge maxIterations c₄), exposed)) ∧
      (hi.toInt - lo.toInt < 2 ^ 24 →
        (hi < lo → run line store = (.ok 0, exposed.assign name lo)) ∧
        (∀ v : Int → Int64, lo ≤ hi →
          (∀ k, lo.toInt ≤ k → k ≤ hi.toInt → body.evaluate (exposed.assign name (.ofInt k)) = .ok (v k)) →
          run line store =
            (.ok (.ofInt (∑ k ∈ Finset.Icc lo.toInt hi.toInt, (v k).toInt)), exposed.assign name hi)) ∧
        ∀ k d, lo.toInt ≤ k → k ≤ hi.toInt →
          (∀ j, lo.toInt ≤ j → j < k → ∃ v, body.evaluate (exposed.assign name (.ofInt j)) = .ok v) →
          body.evaluate (exposed.assign name (.ofInt k)) = .error d →
          run line store = (.error d, exposed.assign name (.ofInt k))) := by
  intro line exposed
  have hrun := run_summation hl hu hb name c₁ c₂ c₃ c₄ c₅ column store
  refine ⟨store.binds_expose name, Store.stored_of_notMem, store.binds_assign_expose name, fun d hlo => ?_,
    fun lo d hlo hhi => ?_, fun lo hi hlo hhi => ?_⟩
  · rw [hlo] at hrun
    exact hrun
  · rw [hlo, hhi] at hrun
    exact hrun
  · rw [hlo, hhi] at hrun
    have hsum : run line store = Summation.run ⟨lo, hi, c₄, body⟩ name exposed := hrun
    rw [hsum]
    refine ⟨fun h => ?_, fun h => ⟨fun hlt => ?_, fun v hle hv => ?_, fun k d hk hk' hv hd => ?_⟩⟩
    · exact Summation.run_of_large name exposed h
    · exact Summation.run_of_empty name exposed hlt
    · exact Summation.run_of_ok v h hle hv
    · exact Summation.run_of_error h hk hk' hv hd

/-- `sum i over 1...3 in i` -/
theorem run_summation_one_to_three :
    run [⟨.keyword .sum, 1⟩, ⟨.identifier "i", 5⟩, ⟨.keyword .bounds, 7⟩, ⟨.number 1, 12⟩, ⟨.symbol .ellipsis, 13⟩,
        ⟨.number 3, 16⟩, ⟨.keyword .body, 18⟩, ⟨.identifier "i", 21⟩, ⟨.eof, 22⟩] Store.empty =
      (.ok 6, (Store.empty.expose "i").assign "i" 3) := by
  obtain ⟨-, -, -, -, -, h⟩ := run_summation_exact (.ofNumber maxNesting 1 12) (.ofNumber maxNesting 3 16)
    (.ofIdentifier maxNesting "i" 21) "i" 1 5 7 13 18 22 Store.empty
  obtain ⟨-, hrun⟩ := h 1 3 rfl rfl
  obtain ⟨-, hsum, -⟩ := hrun (by decide)
  refine hsum Int64.ofInt (by decide) fun k _ _ => ?_
  rw [Expr.evaluate, Store.read_assign_self]

end Statement

end LineCalc
