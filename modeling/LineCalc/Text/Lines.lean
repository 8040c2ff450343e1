/-
Lines of a text.

A terminator ends a line and belongs to it; what stands after the last terminator is a line only if something does.
The same rule reads characters and bytes. Carriage returns before a terminator, however many, are no part of a line
(`chomp`).
-/
import LineCalc.Text.Blank

namespace LineCalc.Text

/-- the records of a list, each without the terminator that ends it -/
def records [DecidableEq α] (terminator : α) : List α → List (List α)
  | [] => []
  | a :: as =>
    (a :: as).takeWhile (· ≠ terminator) ::
      records terminator (((a :: as).dropWhile (· ≠ terminator)).drop 1)
termination_by as => as.length
decreasing_by
  have h := (List.dropWhile_suffix (fun x => decide (x ≠ terminator)) (l := as)).length_le
  simp only [List.dropWhile_cons]
  split <;> rw [List.length_drop, List.length_cons] <;> omega

theorem records_cons_ne_nil [DecidableEq α] (terminator a : α) (as : List α) :
    records terminator (a :: as) ≠ [] := by
  simp [records]

theorem records_cons_terminator [DecidableEq α] (terminator : α) (as : List α) :
    records terminator (terminator :: as) = [] :: records terminator as := by
  simp [records]

/-- puts a head in front of the first of some records -/
def prepend (head : List α) : List (List α) → List (List α)
  | [] => [head]
  | r :: rs => (head ++ r) :: rs

theorem prepend_append (head : List α) {rs : List (List α)} (h : rs ≠ []) (rs' : List (List α)) :
    prepend head (rs ++ rs') = prepend head rs ++ rs' := by
  obtain ⟨r, rs, rfl⟩ := List.exists_cons_of_ne_nil h
  rfl

theorem flatten_prepend (head : List α) (rs : List (List α)) : (prepend head rs).flatten = head ++ rs.flatten := by
  cases rs <;> simp [prepend]

/-- a character that two trims treat alike does not tell them apart -/
theorem map_trimEnd_prepend {p q : Char → Bool} {rs rs' : List (List Char)}
    (h : rs'.map (trimEnd q) = rs.map (trimEnd p)) {c : Char} (hc : q c = p c) :
    (prepend [c] rs').map (trimEnd q) = (prepend [c] rs).map (trimEnd p) := by
  cases rs with
  | nil =>
    rw [List.map_eq_nil_iff.1 h]
    simp [prepend, trimEnd, List.dropWhile_cons, hc]
  | cons r rs =>
    obtain ⟨r', rs', rfl, hr, hrs⟩ := List.map_eq_cons_iff.1 h
    simp [prepend, trimEnd_cons, hr, hrs, hc]

/-- a head without a terminator belongs to the first record -/
theorem records_append [DecidableEq α] {terminator : α} {head : List α} (h : terminator ∉ head) (hne : head ≠ [])
    (as : List α) : records terminator (head ++ as) = prepend head (records terminator as) := by
  obtain ⟨b, bs, rfl⟩ := List.exists_cons_of_ne_nil hne
  have hhead : ∀ a ∈ b :: bs, decide (a ≠ terminator) = true := by
    rintro a ha
    exact decide_eq_true (by rintro rfl; exact h ha)
  rw [List.cons_append, records, ← List.cons_append, List.takeWhile_append_of_pos hhead,
    List.dropWhile_append_of_pos hhead]
  cases as with
  | nil => simp [records, prepend]
  | cons a as => simp only [records, prepend]

theorem records_cons_of_ne [DecidableEq α] {terminator a : α} (h : a ≠ terminator) (as : List α) :
    records terminator (a :: as) = prepend [a] (records terminator as) := by
  have hhead : terminator ∉ [a] := by simpa using h.symm
  exact records_append hhead (by simp) as

/-- the lines of a text, each without the newline that ends it -/
def lines (text : String) : List String :=
  (records '\n' text.toList).map String.ofList

/-- a line without the carriage returns at its end -/
def chomp (line : String) : String :=
  String.ofList (trimEnd (· = '\r') line.toList)

/-- whether a line holds nothing but blank characters -/
def isBlankLine (line : String) : Bool :=
  line.toList.all isBlank

end LineCalc.Text
