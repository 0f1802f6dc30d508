import Mathlib.Data.Nat.Digits.Defs
import Mathlib.Data.List.Infix

/-!
# Files as bytes

Little-endian fields and strings at offsets of a file. A read that is not wholly inside of the file
has no result.
-/

namespace ByteImage

abbrev Image := List (BitVec 8)

/-- The number in the `n` bytes from `offset` on. -/
def field (image : Image) (offset n : Nat) : Nat :=
  Nat.ofDigits 256 (((image.drop offset).take n).map BitVec.toNat)

def read (image : Image) (offset n : Nat) : Option Nat :=
  if offset + n ≤ image.length then some (field image offset n) else none

theorem read_of_le {image : Image} {offset n : Nat} (hinside : offset + n ≤ image.length) :
    read image offset n = some (field image offset n) := if_pos hinside

/-- The bytes before the first zero. -/
def cString (image : Image) (offset : Nat) : Option (List (BitVec 8)) :=
  if 0 ∈ image.drop offset then some ((image.drop offset).takeWhile (· ≠ 0)) else none

theorem cString_of_mem {image : Image} {offset : Nat} (hzero : 0 ∈ image.drop offset) :
    ∃ text, cString image offset = some text ∧ 0 ∉ text
      ∧ text ++ [0] <+: image.drop offset := by
  obtain ⟨text, rest, hsplit, hbefore⟩ := List.eq_append_cons_of_mem hzero
  have hnonzero : ∀ b ∈ text, decide (b ≠ 0) = true := fun b hb =>
    decide_eq_true (ne_of_mem_of_not_mem hb hbefore)
  have htext : (text ++ 0 :: rest).takeWhile (· ≠ 0) = text := by
    rw [List.takeWhile_append_of_pos hnonzero, List.takeWhile_cons_of_neg (by decide),
      List.append_nil]
  refine ⟨text, ?_, hbefore, rest, ?_⟩
  · rw [cString, if_pos hzero, hsplit, htext]
  · rw [hsplit, List.append_assoc, List.singleton_append]

end ByteImage
