/-
What is printed can be read again: a value, written as it is printed or as its bits, is a line worth that value.

A number has the same figures whoever writes them: `Radix.ofFigures` takes back what `Nat.toDigits` writes, in either
case and behind any zeros (`ofFigures_written`). A line of a literal, or of a literal behind a minus, is therefore worth
the number that is written (`evaluate_literal`, `evaluate_minus`), and like every expression without names it leaves the
session as it was (`evaluate_nameless`). A negative word is printed with its sign in front, so that its absolute value
is read first; for the smallest word this wraps around, and so does the negation.

Result:
- `evaluate_written`: words that are printed in base ten, or written in base two or sixteen with a mark, are read back.
-/
import Mathlib.Data.List.TakeWhile
import LineCalc.Batch
import LineCalc.Proofs.Computing
import LineCalc.Proofs.Numerals
import LineCalc.Proofs.Scanning

namespace LineCalc

/-! ## Numbers as they are written -/

theorem figure_digitChar : ∀ n < 16, figure n.digitChar = n := by
  decide

theorem figure_toLower (c : Char) : figure c.toLower = figure c := by
  rcases Nat.lt_or_ge c.toNat 128 with hc | hc
  · exact forall_ascii (P := fun c => figure c.toLower = figure c) (by decide +kernel) hc
  · have hlower : c.toLower = c := dif_neg fun hletter => not_le_of_ascii hc (by decide) hletter.2
    rw [hlower]

namespace Radix

variable (r : Radix)

theorem one_lt_base : 1 < r.base := by
  cases r <;> decide

theorem base_le_reach : r.base ≤ r.reach := by
  cases r <;> decide

/-- the figures that a number is written with are those of its base, and make the number -/
theorem ofFigures_toDigits (n : Nat) :
    (∀ c ∈ Nat.toDigits r.base n, figure c < r.base) ∧ r.ofFigures (Nat.toDigits r.base n) = n := by
  have hbase := r.base_le
  induction n using Nat.base_induction r.base r.one_lt_base with
  | single m hm =>
    have hfigure := figure_digitChar m (by omega)
    rw [Nat.toDigits_of_lt_base hm]
    exact ⟨by simpa [hfigure] using hm, by simp [ofFigures, hfigure]⟩
  | digit m k hk hm ih =>
    have hfigure := figure_digitChar k (by omega)
    obtain ⟨hlt, hmake⟩ := ih
    rw [← Nat.toDigits_append_toDigits r.one_lt_base hm hk, Nat.toDigits_of_lt_base hk]
    constructor
    · simpa [or_imp, forall_and, hfigure, hk] using hlt
    · rw [ofFigures] at hmake ⊢
      rw [List.map_append, List.reverse_append, List.map_singleton, List.reverse_singleton, List.singleton_append,
        Nat.ofDigits_cons, hmake, hfigure]
      simp [Nat.add_comm]

/-- a number is taken back from its figures in either case, behind any zeros -/
theorem ofFigures_written (zeros : Nat) {n : Nat} {ds : List Char}
    (h : ds.map figure = (Nat.toDigits r.base n).map figure) :
    (∀ c ∈ List.replicate zeros '0' ++ ds, figure c < r.base) ∧
      r.ofFigures (List.replicate zeros '0' ++ ds) = n := by
  obtain ⟨hlt, hmake⟩ := r.ofFigures_toDigits n
  have hzero : figure '0' = 0 := by decide
  constructor
  · intro c hc
    rcases List.mem_append.1 hc with hc | hc
    · rw [(List.mem_replicate.1 hc).2, hzero]
      have := r.one_lt_base
      omega
    · have hmem : figure c ∈ (Nat.toDigits r.base n).map figure := by
        rw [← h]
        exact List.mem_map_of_mem hc
      obtain ⟨d, hd, hfigure⟩ := List.mem_map.1 hmem
      rw [← hfigure]
      exact hlt d hd
  · rw [ofFigures, List.map_append, h, List.map_replicate, hzero, List.reverse_append, List.reverse_replicate,
      Nat.ofDigits_append_replicate_zero]
    exact hmake

end Radix

theorem Literal.number_written {l : Literal} {zeros n : Nat} {ds : List Char}
    (hdigits : l.digits = List.replicate zeros '0' ++ ds)
    (h : ds.map figure = (Nat.toDigits l.radix.base n).map figure) : l.number = n := by
  obtain ⟨hlt, hmake⟩ := l.radix.ofFigures_written zeros h
  have hall : ∀ c ∈ l.digits, decide (figure c < l.radix.base) = true := by
    rw [hdigits]
    exact fun c hc => decide_eq_true (hlt c hc)
  rw [number_eq, List.takeWhile_eq_self_iff.2 hall, hdigits, hmake]

/-! ## Lines of numbers -/

/-- tokens that are no names leave nothing in the store -/
theorem Store.noteAll_nameless (s : Store) {ts : List Token}
    (h : ∀ t ∈ ts, ∀ name, t.terminal ≠ .identifier name) : s.noteAll ts = s := by
  induction ts with
  | nil => rfl
  | cons t ts ih =>
    have hnote : s.note t = s := by
      unfold note
      split
      next name hname => exact absurd hname (h t List.mem_cons_self name)
      next => rfl
    rw [noteAll, List.foldl_cons, hnote]
    exact ih fun u hu => h u (List.mem_cons_of_mem t hu)

namespace Session

/-- an expression has no illegal tokens -/
theorem legality_of_derives {ts : List Token} {e : Expr} (h : Derives maxNesting .exp ts e) (column : Nat) :
    legality (ts ++ [⟨.eof, column⟩]) = .ok () := by
  rw [legality_eq_ok_iff]
  intro t ht c hc
  rcases List.mem_append.1 ht with ht | ht
  · have hin := h.inExpression t ht
    rw [hc] at hin
    exact hin
  · rw [List.mem_singleton.1 ht] at hc
    cases hc

/-- an expression is run as a statement, and is worth what its tree evaluates to -/
theorem dispatch_of_derives {ts : List Token} {e : Expr} (h : Derives maxNesting .exp ts e) (column : Nat)
    (store : Store) :
    dispatch (ts ++ [⟨.eof, column⟩]) store = ((e.evaluate store).map .value, store) := by
  have hopen := h.opensOperand
  rw [← current_append hopen.ne_eof [⟨.eof, column⟩]] at hopen
  unfold dispatch
  dsimp only
  split
  next heof => exact absurd heof hopen.ne_eof
  next hhelp =>
    rw [hhelp] at hopen
    exact absurd hopen id
  next => rw [Statement.run_expression h column store]

/-- an expression without names is worth the same in every session, and leaves it as it was -/
theorem evaluate_nameless (s : Session) {line : String} {ts : List Token} {e : Expr} {column : Nat}
    (htokens : tokensOf line = ts ++ [⟨.eof, column⟩]) (h : Derives maxNesting .exp ts e)
    (hnames : ∀ t ∈ ts, ∀ name, t.terminal ≠ .identifier name) (hshort : line.utf8ByteSize < s.limit) :
    s.evaluate line = ((e.evaluate s.store).map .value, s) := by
  have hlegal : legality (tokensOf line) = .ok () := by rw [htokens, legality_of_derives h]
  have hnote : s.store.noteAll (tokensOf line) = s.store := by
    rw [htokens, Store.noteAll_eof, s.store.noteAll_nameless hnames]
  have hdispatch : dispatch (tokensOf line) s.store = ((e.evaluate s.store).map .value, s.store) := by
    rw [htokens, dispatch_of_derives h]
  rw [evaluate_of_short hshort, read_eq, hlegal]
  simp only [noteAll_scanned hlegal, hnote, hdispatch]

end Session

/-! ## Lines of one number -/

theorem tokensFrom_literal {l : Literal} (h : l.IsLegal) (column : Nat) :
    tokensFrom column l.text = [⟨.number (.ofNat l.number), column⟩, ⟨.eof, column + l.text.length⟩] := by
  have hlegal : (Spelling.literal l).IsLegal := h
  have hends : (Spelling.literal l).EndsBefore [] := Spelling.endsBefore_of_space _ (by simp)
  have htokens := tokensFrom_spelling hlegal hends column
  rw [List.append_nil, tokensFrom] at htokens
  exact htokens

theorem tokensFrom_minus {l : Literal} (h : l.IsLegal) (column : Nat) :
    tokensFrom column ('-' :: l.text) = [⟨.symbol .minus, column⟩, ⟨.number (.ofNat l.number), column + 1⟩,
      ⟨.eof, column + 1 + l.text.length⟩] := by
  have hlegal : (Spelling.symbol .minus).IsLegal := trivial
  have hends : (Spelling.symbol .minus).EndsBefore l.text := nofun
  have htokens := tokensFrom_spelling hlegal hends column
  rw [tokensFrom_literal h] at htokens
  exact htokens

namespace Session

variable (s : Session) {l : Literal}

theorem evaluate_literal (h : l.IsLegal) (hshort : (String.ofList l.text).utf8ByteSize < s.limit) :
    s.evaluate (String.ofList l.text) = (.ok (.value (.ofNat l.number)), s) := by
  have htokens : tokensOf (String.ofList l.text) = [⟨.number (.ofNat l.number), 1⟩] ++ [⟨.eof, 1 + l.text.length⟩] := by
    rw [tokensOf, String.toList_ofList, tokensFrom_literal h]
    rfl
  exact s.evaluate_nameless htokens (.ofNumber maxNesting _ 1) (by simp) hshort

theorem evaluate_minus (h : l.IsLegal) (hshort : (String.ofList ('-' :: l.text)).utf8ByteSize < s.limit) :
    s.evaluate (String.ofList ('-' :: l.text)) = (.ok (.value (-.ofNat l.number)), s) := by
  have htokens : tokensOf (String.ofList ('-' :: l.text)) =
      [⟨.symbol .minus, 1⟩, ⟨.number (.ofNat l.number), 2⟩] ++ [⟨.eof, 2 + l.text.length⟩] := by
    rw [tokensOf, String.toList_ofList, tokensFrom_minus h]
    rfl
  have hfactor : Derives maxNesting .factor ([] ++ [⟨.number (.ofNat l.number), 2⟩]) (.number (.ofNat l.number)) :=
    .number (by simp)
  have hsum : Derives maxNesting (.level .additive) [⟨.symbol .minus, 1⟩, ⟨.number (.ofNat l.number), 2⟩]
      (.negate (.number (.ofNat l.number))) := .minus (.single (by decide) (.base hfactor))
  exact s.evaluate_nameless htokens (.ofSum hsum) (by simp) hshort

end Session

/-! ## Words as they are printed -/

/-- a number in decimal digits -/
def Literal.decimal (n : Nat) : Literal := ⟨.decimal, [], Nat.toDigits 10 n⟩

theorem Literal.isLegal_decimal {n : Nat} (h : n ≤ 2 ^ 63) : (decimal n).IsLegal := by
  refine ⟨?_, fun c hc => Nat.isDigit_of_mem_toDigits (by decide) (Nat.le_refl 10) hc,
    Or.inl ⟨rfl, rfl, Nat.toDigits_ne_nil⟩⟩
  have hlength : (Nat.toDigits 10 n).length ≤ 20 := (Nat.length_toDigits_le_iff (by decide) (by decide)).2 (by omega)
  exact hlength.trans (by decide)

theorem Literal.number_decimal (n : Nat) : (decimal n).number = n := by
  have hdigits : (decimal n).digits = List.replicate 0 '0' ++ Nat.toDigits 10 n := rfl
  exact number_written hdigits rfl

theorem toString_of_nonneg {x : ℤ} (h : 0 ≤ x) : toString x = String.ofList (Literal.decimal x.toNat).text := by
  rw [Int.toString_eq_repr, Int.repr_eq_if, if_pos h, Nat.repr_eq_ofList_toDigits]
  rfl

theorem toString_of_neg {x : ℤ} (h : x < 0) :
    toString x = String.ofList ('-' :: (Literal.decimal (-x).toNat).text) := by
  rw [Int.toString_eq_repr, Int.repr_eq_if, if_neg (not_le.2 h), Nat.repr_eq_ofList_toDigits,
    show "-" = String.ofList ['-'] from rfl, ← String.ofList_append]
  rfl

namespace Session

/-- the decimal digits of a word, behind its sign, are worth the word -/
theorem evaluate_toString (s : Session) (v : Int64) (hshort : (toString v.toInt).utf8ByteSize < s.limit) :
    s.evaluate (toString v.toInt) = (.ok (.value v), s) := by
  have hlow := v.le_toInt
  have hhigh := v.toInt_lt
  rcases lt_or_ge v.toInt 0 with hneg | hpos
  -- the absolute value of the smallest word is no word, but its negation is reduced to the right one
  · rw [toString_of_neg hneg] at hshort ⊢
    rw [evaluate_minus s (Literal.isLegal_decimal (by omega)) hshort, Literal.number_decimal, Int64.neg_ofNat]
    have hvalue : -(((-v.toInt).toNat : ℕ) : ℤ) = v.toInt := by omega
    rw [hvalue, Int64.ofInt_toInt]
  · rw [toString_of_nonneg hpos] at hshort ⊢
    rw [evaluate_literal s (Literal.isLegal_decimal (by omega)) hshort, Literal.number_decimal,
      ← Int64.ofInt_eq_ofNat]
    have hvalue : ((v.toInt.toNat : ℕ) : ℤ) = v.toInt := by omega
    rw [hvalue, Int64.ofInt_toInt]

/-- the bits of a word as a number without a sign, behind the mark of a base and any zeros, are worth the word -/
theorem evaluate_marked (s : Session) (w : BitVec 64) {m : Char} {r : Radix} {zeros : Nat} {ds : List Char}
    (hm : Radix.ofMark? m = some r) (hds : ds.map figure = (Nat.toDigits r.base w.toNat).map figure)
    (hlength : zeros + ds.length ≤ Literal.maxDigits)
    (hshort : (String.ofList ('0' :: m :: (List.replicate zeros '0' ++ ds))).utf8ByteSize < s.limit) :
    s.evaluate (String.ofList ('0' :: m :: (List.replicate zeros '0' ++ ds))) = (.ok (.value (.ofBitVec w)), s) := by
  let l : Literal := ⟨r, ['0', m], List.replicate zeros '0' ++ ds⟩
  have hlegal : l.IsLegal := by
    refine ⟨by simpa [l] using hlength, fun c hc => ?_, Or.inr ⟨m, rfl, hm⟩⟩
    have hfigure := (r.ofFigures_written zeros hds).1 c hc
    rw [Radix.runsOver_eq]
    exact decide_eq_true (Nat.lt_of_lt_of_le hfigure r.base_le_reach)
  have hnumber : l.number = w.toNat := Literal.number_written rfl hds
  have hvalue : Int64.ofNat w.toNat = .ofBitVec w := by
    rw [← Int64.toBitVec_inj]
    simp
  rw [← hvalue, ← hnumber]
  exact s.evaluate_literal hlegal hshort

/-- **What is printed is read back.** In any session, as long as a line may be as long as the text that is meant:
- the text that is printed for a value is worth this value again, for all words;
- the bits of a word, written in base two or sixteen as a number without a sign, behind a mark and any zeros that leave
  the literal within its limit, and with letters of either case, are worth the word.
No such line changes the session. -/
theorem evaluate_written (s : Session) :
    (∀ v : Int64,
      let text := toString v.toInt
      (∀ (b : Batch) (style : Style) (source : Option String) (line : String),
        (b.session.evaluate line).1 = .ok (.value v) →
          (b.line style source line).out = b.out ++ (text ++ "\n")) ∧
      (text.utf8ByteSize < s.limit → s.evaluate text = (.ok (.value v), s))) ∧
    (∀ (w : BitVec 64) (m : Char) (r : Radix) (zeros : Nat) (ds : List Char),
      (m, r) ∈ [('b', .binary), ('x', .hexadecimal), ('X', .hexadecimal)] →
      ds.map Char.toLower = Nat.toDigits r.base w.toNat →
      zeros + ds.length ≤ Literal.maxDigits →
      let text := String.ofList ('0' :: m :: (List.replicate zeros '0' ++ ds))
      text.utf8ByteSize < s.limit → s.evaluate text = (.ok (.value (.ofBitVec w)), s)) := by
  refine ⟨fun v => ⟨fun b style source line hvalue => ?_, s.evaluate_toString v⟩, ?_⟩
  · unfold Batch.line
    generalize b.session.evaluate line = result at hvalue
    obtain ⟨outcome, session⟩ := result
    cases hvalue
    rfl
  · intro w m r zeros ds hm hds hlength text hshort
    have hmark : Radix.ofMark? m = some r := by
      simp only [List.mem_cons, Prod.mk.injEq, List.not_mem_nil, or_false] at hm
      rcases hm with ⟨rfl, rfl⟩ | ⟨rfl, rfl⟩ | ⟨rfl, rfl⟩ <;> rfl
    have hfigures : ds.map figure = (Nat.toDigits r.base w.toNat).map figure := by
      rw [← hds, List.map_map]
      exact List.map_congr_left fun c _ => (figure_toLower c).symm
    exact s.evaluate_marked w hmark hfigures hlength hshort

/-- the smallest word is printed and read again in a line of 20 characters, as is a word in hexadecimal digits of either
case behind two zeros -/
theorem evaluate_written_smallest_word :
    let s := start 21
    let b := Batch.start s
    let text := toString Int64.minValue.toInt
    let ds := ['f', 'F', 'f', 'F', 'f', 'F', 'f', 'F', 'f', 'F', 'f', 'F', 'f', 'F', 'f', 'E']
    let bits := String.ofList ('0' :: 'X' :: (List.replicate 2 '0' ++ ds))
    (b.session.evaluate "1 << 63").1 = .ok (.value Int64.minValue) ∧
      (b.line .plain none "1 << 63").out = "" ++ (text ++ "\n") ∧
      text.utf8ByteSize < s.limit ∧ s.evaluate text = (.ok (.value Int64.minValue), s) ∧
      ds.map Char.toLower = Nat.toDigits 16 (-2 : BitVec 64).toNat ∧ 2 + ds.length ≤ Literal.maxDigits ∧
      bits.utf8ByteSize < s.limit ∧ s.evaluate bits = (.ok (.value (.ofBitVec (-2))), s) := by
  intro s b text ds bits
  have hvalue : (b.session.evaluate "1 << 63").1 = .ok (.value Int64.minValue) := by decide +kernel
  have htext : text.utf8ByteSize < s.limit := by decide +kernel
  have hds : ds.map Char.toLower = Nat.toDigits 16 (-2 : BitVec 64).toNat := by decide +kernel
  have hlength : 2 + ds.length ≤ Literal.maxDigits := by decide
  have hbits : bits.utf8ByteSize < s.limit := by decide +kernel
  obtain ⟨hprinted, hread⟩ := (evaluate_written s).1 Int64.minValue
  exact ⟨hvalue, hprinted b .plain none "1 << 63" hvalue, htext, hread htext, hds, hlength, hbits,
    (evaluate_written s).2 (-2) 'X' .hexadecimal 2 ds (by decide) hds hlength hbits⟩

end Session

end LineCalc
