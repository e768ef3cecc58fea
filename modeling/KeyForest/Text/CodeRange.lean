/-!
# Tables of code points

Properties of characters are stated as lists of inclusive ranges of code points, in ascending
order. A table is read by `mem`; the tables themselves live beside the functions that use them.
-/
namespace KeyForest.Text

/-- An inclusive range of code points, first and last. -/
abbrev CodeRange := Nat × Nat

/-- Whether the code point `n` lies in one of the ranges. -/
def CodeRange.mem (ranges : List CodeRange) (n : Nat) : Bool :=
  ranges.any fun r => r.1 ≤ n && n ≤ r.2

theorem CodeRange.mem_iff (ranges : List CodeRange) (n : Nat) :
    mem ranges n = true ↔ ∃ r ∈ ranges, r.1 ≤ n ∧ n ≤ r.2 := by
  simp [mem]

end KeyForest.Text
