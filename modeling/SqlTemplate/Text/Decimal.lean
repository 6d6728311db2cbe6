/-!
# Decimal numerals

The decimal text of natural numbers and integers: placeholders are numbered with it, and integers
that name an entry of a map are written with it. No two numbers share a text (`natural_injective`,
`integer_injective`).
-/

namespace SqlTemplate.Text

/-- The decimal digits of a natural number, without leading zeros. -/
def natural (n : Nat) : String := String.ofList (Nat.toDigits 10 n)

@[simp] theorem toList_natural (n : Nat) : (natural n).toList = Nat.toDigits 10 n :=
  String.toList_ofList

/-- Every character of a numeral is a digit. -/
theorem isDigit_of_mem_natural {n : Nat} {c : Char} (h : c ∈ (natural n).toList) :
    c.isDigit = true := by
  rw [toList_natural] at h
  exact Nat.isDigit_of_mem_toDigits (by omega) (by omega) h

/-- A numeral can be read back, so different numbers have different numerals. -/
theorem natural_injective {m n : Nat} (h : natural m = natural n) : m = n := by
  have digits : Nat.toDigits 10 m = Nat.toDigits 10 n := by
    simpa using congrArg String.toList h
  have := congrArg (fun ds => Nat.ofDigitChars 10 ds 0) digits
  simpa [Nat.ofDigitChars_toDigits] using this

/-- The decimal text of an integer: a minus sign stands before the digits of a negative one. -/
def integer (n : Int) : String :=
  if n < 0 then "-" ++ natural n.natAbs else natural n.natAbs

/-- No digit is a minus sign, so different integers have different texts. -/
theorem integer_injective {m n : Int} (h : integer m = integer n) : m = n := by
  have unsigned (a b : Nat) : "-" ++ natural a ≠ natural b := by
    intro same
    have sign : '-' ∈ (natural b).toList := by
      rw [← same, String.toList_append]
      exact List.mem_cons_self ..
    exact absurd (isDigit_of_mem_natural sign) (by decide)
  rw [integer, integer] at h
  by_cases hm : m < 0
  · by_cases hn : n < 0
    · rw [if_pos hm, if_pos hn] at h
      have := natural_injective (String.append_right_inj _ |>.mp h)
      omega
    · rw [if_pos hm, if_neg hn] at h
      exact absurd h (unsigned _ _)
  · by_cases hn : n < 0
    · rw [if_neg hm, if_pos hn] at h
      exact absurd h.symm (unsigned _ _)
    · rw [if_neg hm, if_neg hn] at h
      have := natural_injective h
      omega

end SqlTemplate.Text
