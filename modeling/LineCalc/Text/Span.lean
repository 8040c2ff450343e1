/-
Bounded spans: the longest head of a text whose characters all satisfy a test, cut at a limit.

Nothing is lost (`splitSpan_append`), the span holds only characters that satisfy the test (`splitSpan_all`) and no more
than the limit (`length_splitSpan_le`), and it stops only at the limit or before a character that fails the test
(`splitSpan_maximal`). No other span does so (`splitSpan_append_of_stop`).
-/
namespace LineCalc.Text

/-- the first characters that satisfy `p`, at most `limit` of them, and the text after them -/
def splitSpan (p : Char → Bool) : Nat → List Char → List Char × List Char
  | limit + 1, c :: cs =>
    if p c then (c :: (splitSpan p limit cs).1, (splitSpan p limit cs).2) else ([], c :: cs)
  | _, cs => ([], cs)

theorem splitSpan_append (p : Char → Bool) (limit : Nat) (cs : List Char) :
    (splitSpan p limit cs).1 ++ (splitSpan p limit cs).2 = cs := by
  induction cs generalizing limit with
  | nil => cases limit <;> rfl
  | cons c cs ih =>
    cases limit with
    | zero => rfl
    | succ limit =>
      by_cases h : p c
      · simp [splitSpan, h, ih]
      · simp [splitSpan, h]

theorem splitSpan_all (p : Char → Bool) (limit : Nat) (cs : List Char) :
    ∀ c ∈ (splitSpan p limit cs).1, p c := by
  induction cs generalizing limit with
  | nil => cases limit <;> simp [splitSpan]
  | cons c cs ih =>
    cases limit with
    | zero => simp [splitSpan]
    | succ limit =>
      by_cases h : p c
      · simpa [splitSpan, h] using ih limit
      · simp [splitSpan, h]

theorem length_splitSpan_le (p : Char → Bool) (limit : Nat) (cs : List Char) :
    (splitSpan p limit cs).1.length ≤ limit := by
  induction cs generalizing limit with
  | nil => cases limit <;> simp [splitSpan]
  | cons c cs ih =>
    cases limit with
    | zero => simp [splitSpan]
    | succ limit =>
      by_cases h : p c
      · simpa [splitSpan, h] using ih limit
      · simp [splitSpan, h]

/-- a span below the limit is followed by no character that satisfies the test -/
theorem splitSpan_maximal {p : Char → Bool} {limit : Nat} {cs : List Char}
    (h : (splitSpan p limit cs).1.length < limit) : ∀ c ∈ (splitSpan p limit cs).2.head?, p c = false := by
  induction cs generalizing limit with
  | nil => cases limit <;> simp [splitSpan]
  | cons c cs ih =>
    cases limit with
    | zero => simp at h
    | succ limit =>
      by_cases hc : p c
      · simp only [splitSpan, hc, if_true, List.length_cons] at h ⊢
        exact ih (by omega)
      · simp [splitSpan, hc]

/-- a row of characters that satisfy the test is the span, if it may not or cannot be longer -/
theorem splitSpan_append_of_stop {p : Char → Bool} {limit : Nat} {span rest : List Char} (hspan : ∀ c ∈ span, p c)
    (hlimit : span.length ≤ limit) (hstop : span.length < limit → ∀ c ∈ rest.head?, p c = false) :
    splitSpan p limit (span ++ rest) = (span, rest) := by
  induction span generalizing limit with
  | nil =>
    cases limit with
    | zero => rfl
    | succ limit =>
      cases rest with
      | nil => rfl
      | cons c rest => simp [splitSpan, hstop (Nat.succ_pos limit) c rfl]
  | cons c span ih =>
    cases limit with
    | zero => simp at hlimit
    | succ limit =>
      have hc := hspan c List.mem_cons_self
      have hrest := ih (fun d hd => hspan d (List.mem_cons_of_mem c hd)) (Nat.le_of_succ_le_succ hlimit)
        fun hlt => hstop (Nat.succ_lt_succ hlt)
      simp [splitSpan, hc, hrest]

end LineCalc.Text
