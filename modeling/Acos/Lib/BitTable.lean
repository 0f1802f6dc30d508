import Acos.Lib.ByteMemory
import Mathlib.Logic.Function.Basic

/-!
# Tables of bits

A byte-addressed memory read as a table of bits, eight to a byte with the lowest bit first. A bit is
tested and changed through the mask of its position in its byte.
-/

namespace BitTable

open ByteMemory

variable {w : Nat}

/-- The address of the byte that holds a bit. -/
def byteOf (i : Nat) : BitVec w := BitVec.ofNat w (i / 8)

def mask (i : Nat) : BitVec 8 := 1#8 <<< (i % 8)

def test (m : Memory w) (i : Nat) : Bool := m (byteOf i) &&& mask i != 0

def mark (m : Memory w) (i : Nat) : Memory w :=
  Function.update m (byteOf i) (m (byteOf i) ||| mask i)

def clear (m : Memory w) (i : Nat) : Memory w :=
  Function.update m (byteOf i) (m (byteOf i) &&& ~~~mask i)

theorem getLsbD_mask (i k : Nat) (hk : k < 8) : (mask i).getLsbD k = decide (k = i % 8) := by
  have hi : i % 8 < 8 := Nat.mod_lt i (by decide)
  simp only [mask, BitVec.getLsbD_shiftLeft, BitVec.getLsbD_one]
  grind

/-- Both functions of the byte meet the same bit. -/
theorem test_eq_getLsbD (m : Memory w) (i : Nat) :
    test m i = (m (byteOf i)).getLsbD (i % 8) := by
  have hi : i % 8 < 8 := Nat.mod_lt i (by decide)
  cases hbit : (m (byteOf i)).getLsbD (i % 8) with
  | true =>
      have hne : m (byteOf i) &&& mask i ≠ 0 := by
        intro hzero
        have hget := congrArg (BitVec.getLsbD · (i % 8)) hzero
        simp only [BitVec.getLsbD_and, hbit, getLsbD_mask i _ hi] at hget
        simp at hget
      simpa [test] using hne
  | false =>
      have hzero : m (byteOf i) &&& mask i = 0 := by
        apply BitVec.eq_of_getLsbD_eq
        intro k hk
        rw [BitVec.getLsbD_and, getLsbD_mask i k hk]
        by_cases hki : k = i % 8
        · rw [hki, hbit]
          simp
        · simp [hki]
      simp [test, hzero]

theorem byteOf_inj {i j : Nat} (hi : i < 8 * 2 ^ w) (hj : j < 8 * 2 ^ w)
    (hbyte : (byteOf i : BitVec w) = byteOf j) : i / 8 = j / 8 := by
  have hnat := congrArg BitVec.toNat hbyte
  simp only [byteOf, BitVec.toNat_ofNat] at hnat
  rwa [Nat.mod_eq_of_lt (by omega), Nat.mod_eq_of_lt (by omega)] at hnat

theorem test_mark {m : Memory w} {i j : Nat} (hi : i < 8 * 2 ^ w) (hj : j < 8 * 2 ^ w) :
    test (mark m i) j = (decide (j = i) || test m j) := by
  have hj8 : j % 8 < 8 := Nat.mod_lt j (by decide)
  rw [test_eq_getLsbD, test_eq_getLsbD, mark]
  by_cases hbyte : (byteOf j : BitVec w) = byteOf i
  · have hdiv := byteOf_inj hj hi hbyte
    rw [hbyte, Function.update_self, BitVec.getLsbD_or, getLsbD_mask i _ hj8, Bool.or_comm]
    congr 2
    exact propext ⟨by omega, by rintro rfl; rfl⟩
  · have hne : j ≠ i := fun heq => hbyte (heq ▸ rfl)
    rw [Function.update_of_ne hbyte, decide_eq_false hne, Bool.false_or]

theorem test_clear {m : Memory w} {i j : Nat} (hi : i < 8 * 2 ^ w) (hj : j < 8 * 2 ^ w) :
    test (clear m i) j = (!decide (j = i) && test m j) := by
  have hj8 : j % 8 < 8 := Nat.mod_lt j (by decide)
  rw [test_eq_getLsbD, test_eq_getLsbD, clear]
  by_cases hbyte : (byteOf j : BitVec w) = byteOf i
  · have hdiv := byteOf_inj hj hi hbyte
    rw [hbyte, Function.update_self, BitVec.getLsbD_and, BitVec.getLsbD_not, getLsbD_mask i _ hj8,
      Bool.and_comm, decide_eq_true hj8, Bool.true_and]
    congr 3
    exact propext ⟨by omega, by rintro rfl; rfl⟩
  · have hne : j ≠ i := fun heq => hbyte (heq ▸ rfl)
    rw [Function.update_of_ne hbyte, decide_eq_false hne, Bool.not_false, Bool.true_and]

end BitTable
