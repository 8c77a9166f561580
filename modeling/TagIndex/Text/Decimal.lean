/-!
# Decimal numbers

`decimal?` reads a number that is written in decimal digits only.
-/

namespace TagIndex.Text

/-- The number that decimal digits write, with `high` for the digits before them. -/
def decimalFrom? (high : Nat) : List Char → Option Nat
  | [] => some high
  | c :: cs => if c.isDigit then decimalFrom? (10 * high + (c.toNat - '0'.toNat)) cs else none

/-- The number that a text of decimal digits writes. At least one digit is needed. -/
def decimal? : List Char → Option Nat
  | [] => none
  | cs => decimalFrom? 0 cs

theorem decimalFrom?_eq_ofDigitChars {ds : List Char} (h : ∀ d ∈ ds, d.isDigit = true) (high : Nat) :
    decimalFrom? high ds = some (Nat.ofDigitChars 10 ds high) := by
  induction ds generalizing high with
  | nil => rfl
  | cons d ds ih =>
    rw [decimalFrom?, if_pos (h d List.mem_cons_self),
      ih fun e he => h e (List.mem_cons_of_mem d he)]
    rfl

/-- A number is read back from its digits. -/
theorem decimal?_toDigits (n : Nat) : decimal? (Nat.toDigits 10 n) = some n := by
  have hdigits : ∀ d ∈ Nat.toDigits 10 n, d.isDigit = true := fun d hd =>
    Nat.isDigit_of_mem_toDigits (by decide) (by decide) hd
  rw [decimal?, decimalFrom?_eq_ofDigitChars hdigits, Nat.ofDigitChars_ten_toDigits]
  exact Nat.toDigits_ne_nil

end TagIndex.Text
