import Mathlib.Data.List.TakeWhile
import Mathlib.Data.Nat.Digits.Lemmas

/-!
# Byte strings of the C library

A string is the list of its bytes without the terminating zero. `atoi` is the conversion that
`strtol` makes, clamped to `long` and then cut to `int`.
-/

namespace CString

abbrev Byte := UInt8

/-- `isspace` in the C locale. -/
def isspace (c : Byte) : Bool := c = 32 ∨ 9 ≤ c ∧ c ≤ 13

def isdigit (c : Byte) : Bool := 48 ≤ c ∧ c ≤ 57

/-- The value of a sequence of digits, the first one most significant. -/
def digitsValue (digits : List Byte) : Nat :=
  digits.foldl (fun value c => 10 * value + (c.toNat - 48)) 0

/-- `strtol` with base 10: blanks, a sign, digits. -/
def strtol (s : List Byte) : Int :=
  let rest := s.dropWhile isspace
  let unsigned := if rest.head? = some 45 ∨ rest.head? = some 43 then rest.tail else rest
  let magnitude : Int := digitsValue (unsigned.takeWhile isdigit)
  let value := if rest.head? = some 45 then -magnitude else magnitude
  max (-2 ^ 63) (min value (2 ^ 63 - 1))

/-- `atoi`. -/
def atoi (s : List Byte) : Int := (BitVec.ofInt 32 (strtol s)).toInt

/-- `%d` for a number that is not negative. -/
def decimal (n : Nat) : List Byte :=
  if n = 0 then [48] else (Nat.digits 10 n).reverse.map fun d => UInt8.ofNat (48 + d)

/-- The digits up to 15, in upper case. -/
def digitChar (d : Nat) : Byte := UInt8.ofNat (if d < 10 then 48 + d else 55 + d)

/-- A number in a base, the first digit most significant. -/
def numeral (base n : Nat) : List Byte :=
  if n = 0 then [digitChar 0] else (Nat.digits base n).reverse.map digitChar

/-- `snprintf` keeps what fits before the terminating zero. -/
def snprintf (size : Nat) (text : List Byte) : List Byte := text.take (size - 1)

theorem toNat_digit {d : Nat} (hd : d < 10) : (UInt8.ofNat (48 + d)).toNat = 48 + d := by
  rw [UInt8.toNat_ofNat']
  omega

theorem isdigit_digit {d : Nat} (hd : d < 10) : isdigit (UInt8.ofNat (48 + d)) = true := by
  have hvalue := toNat_digit hd
  simp only [isdigit, UInt8.le_iff_toNat_le, hvalue]
  simp
  omega

theorem digitsValue_map (digits : List Nat) (hdigits : ∀ d ∈ digits, d < 10) :
    digitsValue (digits.reverse.map fun d => UInt8.ofNat (48 + d)) = Nat.ofDigits 10 digits := by
  induction digits with
  | nil => rfl
  | cons d digits ih =>
      have hd : d < 10 := hdigits d List.mem_cons_self
      have htail := ih fun e he => hdigits e (List.mem_cons_of_mem d he)
      rw [digitsValue] at htail ⊢
      rw [List.reverse_cons, List.map_append, List.foldl_append, htail, Nat.ofDigits_cons]
      simp only [List.map_cons, List.map_nil, List.foldl_cons, List.foldl_nil, toNat_digit hd]
      omega

theorem digitsValue_decimal (n : Nat) : digitsValue (decimal n) = n := by
  unfold decimal
  split_ifs with hzero
  · rw [hzero]
    rfl
  · rw [digitsValue_map _ fun d hd => Nat.digits_lt_base (by decide) hd, Nat.ofDigits_digits]

theorem decimal_injective : Function.Injective decimal :=
  Function.LeftInverse.injective digitsValue_decimal

theorem isdigit_of_mem_decimal {n : Nat} {c : Byte} (hc : c ∈ decimal n) : isdigit c = true := by
  unfold decimal at hc
  split_ifs at hc
  · obtain rfl := List.mem_singleton.mp hc
    decide
  · obtain ⟨d, hd, rfl⟩ := List.mem_map.mp hc
    exact isdigit_digit (Nat.digits_lt_base (by decide) (List.mem_reverse.mp hd))

theorem decimal_ne_nil (n : Nat) : decimal n ≠ [] := by
  unfold decimal
  split_ifs with hzero
  · exact List.cons_ne_nil _ _
  · simpa [Nat.digits_eq_nil_iff_eq_zero] using hzero

theorem length_decimal_le {n k : Nat} (hk : 0 < k) (hn : n < 10 ^ k) :
    (decimal n).length ≤ k := by
  unfold decimal
  split_ifs
  · exact hk
  · rw [List.length_map, List.length_reverse]
    exact (Nat.digits_length_le_iff (by decide) n).mpr hn

/-- The last digit comes off the end. -/
theorem numeral_eq {base : Nat} (hbase : 1 < base) (n : Nat) :
    numeral base n
      = (if n / base = 0 then [] else numeral base (n / base)) ++ [digitChar (n % base)] := by
  rcases Nat.eq_zero_or_pos n with rfl | hn
  · rw [if_pos (Nat.zero_div base), Nat.zero_mod]
    rfl
  · rw [numeral, if_neg (by omega), Nat.digits_def' hbase hn, List.reverse_cons, List.map_append]
    split_ifs with hquotient
    · rw [hquotient, Nat.digits_zero]
      rfl
    · rw [numeral, if_neg hquotient]
      rfl

theorem length_numeral_le {base n k : Nat} (hbase : 1 < base) (hk : 0 < k) (hn : n < base ^ k) :
    (numeral base n).length ≤ k := by
  unfold numeral
  split_ifs
  · exact hk
  · rw [List.length_map, List.length_reverse]
    exact (Nat.digits_length_le_iff hbase n).mpr hn

/-- A number that fits an `int` is read back as it was printed. -/
theorem atoi_decimal {n : Nat} (hn : n < 2 ^ 31) : atoi (decimal n) = n := by
  obtain ⟨c, rest, hdecimal⟩ := List.exists_cons_of_ne_nil (decimal_ne_nil n)
  have hdigit : isdigit c = true := isdigit_of_mem_decimal (hdecimal ▸ List.mem_cons_self)
  have hlow : 48 ≤ c.toNat := by
    simp only [isdigit, UInt8.le_iff_toNat_le, decide_eq_true_eq] at hdigit
    exact hdigit.1
  have hspace : isspace c = false := by
    simp only [isspace, UInt8.le_iff_toNat_le, ← UInt8.toNat_inj, decide_eq_false_iff_not]
    simp
    omega
  have hsign : c ≠ 45 ∧ c ≠ 43 := by
    constructor <;> rintro rfl <;> exact absurd hlow (by decide)
  have hrest : (decimal n).dropWhile isspace = decimal n := by
    rw [hdecimal, List.dropWhile_cons_of_neg (by simp [hspace])]
  have hhead : (decimal n).head? = some c := by rw [hdecimal, List.head?_cons]
  have hall : (decimal n).takeWhile isdigit = decimal n :=
    List.takeWhile_eq_self_iff.mpr fun c hc => isdigit_of_mem_decimal hc
  have hvalue : strtol (decimal n) = n := by
    simp only [strtol, hrest, hhead, Option.some.injEq, hsign, or_self, if_false, hall,
      digitsValue_decimal]
    omega
  rw [atoi, hvalue, BitVec.toInt_ofInt, Int.bmod_eq_of_le (by omega) (by omega)]

end CString
