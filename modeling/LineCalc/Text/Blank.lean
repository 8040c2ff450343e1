/-
Blank characters: those with the Unicode property White_Space, and the ends of lines that are made of them.
-/
namespace LineCalc.Text

/-- the code points with the property White_Space, as ranges with both ends included -/
def blankRanges : List (Nat × Nat) :=
  [(0x09, 0x0d), (0x20, 0x20), (0x85, 0x85), (0xa0, 0xa0), (0x1680, 0x1680), (0x2000, 0x200a), (0x2028, 0x2029),
    (0x202f, 0x202f), (0x205f, 0x205f), (0x3000, 0x3000)]

def isBlank (c : Char) : Bool :=
  blankRanges.any fun r => r.1 ≤ c.toNat && c.toNat ≤ r.2

/-- a text without the characters at its end that satisfy `p` -/
def trimEnd (p : Char → Bool) (cs : List Char) : List Char :=
  (cs.reverse.dropWhile p).reverse

theorem trimEnd_cons (p : Char → Bool) (c : Char) (cs : List Char) :
    trimEnd p (c :: cs) = if trimEnd p cs = [] then (if p c then [] else [c]) else c :: trimEnd p cs := by
  simp only [trimEnd, List.reverse_cons, List.dropWhile_append, List.isEmpty_iff, List.reverse_eq_nil_iff]
  by_cases hcs : cs.reverse.dropWhile p = []
  · by_cases hc : p c <;> simp [hcs, hc]
  · simp [hcs]

end LineCalc.Text
