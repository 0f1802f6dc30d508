import Mathlib.Algebra.Ring.Nat
import Mathlib.Order.Basic

/-!
# Byte-addressed memory

A memory gives a byte to every address of a `w`-bit address space. A region is given by its first
address and its length and may wrap around the end of the space, so that membership is a condition
on the distance from the first address. Words are stored with their lowest byte first.
-/

namespace ByteMemory

variable {w : Nat}

abbrev Memory (w : Nat) := BitVec w → BitVec 8

/-- The distance from `a` up to `x`. -/
def offset (a x : BitVec w) : Nat := (x - a).toNat

/-- The address `x` is one of the `n` addresses from `a` on. -/
def Within (a : BitVec w) (n : Nat) (x : BitVec w) : Prop := offset a x < n

instance (a : BitVec w) (n : Nat) (x : BitVec w) : Decidable (Within a n x) :=
  inferInstanceAs (Decidable (_ < _))

/-- Two regions have no address in common. -/
def Apart (a : BitVec w) (n : Nat) (b : BitVec w) (k : Nat) : Prop :=
  ∀ x, Within a n x → ¬Within b k x

theorem Apart.symm {a b : BitVec w} {n k : Nat} (hapart : Apart a n b k) : Apart b k a n :=
  fun x hb ha => hapart x ha hb

theorem offset_add_ofNat (a : BitVec w) {i : Nat} (hi : i < 2 ^ w) :
    offset a (a + BitVec.ofNat w i) = i := by
  rw [offset, BitVec.add_comm, BitVec.add_sub_cancel, BitVec.toNat_ofNat, Nat.mod_eq_of_lt hi]

theorem within_iff_of_le {a : BitVec w} {n : Nat} (hn : a.toNat + n ≤ 2 ^ w) (x : BitVec w) :
    Within a n x ↔ a.toNat ≤ x.toNat ∧ x.toNat < a.toNat + n := by
  have ha := a.isLt
  have hx := x.isLt
  rw [Within, offset, BitVec.toNat_sub]
  by_cases hle : a.toNat ≤ x.toNat
  · rw [show 2 ^ w - a.toNat + x.toNat = 2 ^ w + (x.toNat - a.toNat) by omega,
      Nat.add_mod_left, Nat.mod_eq_of_lt (by omega)]
    omega
  · rw [Nat.mod_eq_of_lt (by omega)]
    omega

theorem Within.of_add {a x : BitVec w} {i k n : Nat} (hin : i + k ≤ n)
    (hx : Within (a + BitVec.ofNat w i) k x) : Within a n x := by
  have hsplit : x - a = (x - (a + BitVec.ofNat w i)) + BitVec.ofNat w i := by
    rw [← BitVec.sub_sub, BitVec.sub_add_cancel]
  have hi : i % 2 ^ w ≤ i := Nat.mod_le i (2 ^ w)
  unfold Within offset at hx ⊢
  calc (x - a).toNat
      = ((x - (a + BitVec.ofNat w i)).toNat + i % 2 ^ w) % 2 ^ w := by
        rw [hsplit, BitVec.toNat_add, BitVec.toNat_ofNat]
    _ ≤ (x - (a + BitVec.ofNat w i)).toNat + i % 2 ^ w := Nat.mod_le _ _
    _ < n := by omega

theorem Within.mono {a x : BitVec w} {k n : Nat} (hkn : k ≤ n) (hx : Within a k x) :
    Within a n x := Nat.lt_of_lt_of_le hx hkn

/-- Two parts of one region, one after the other. -/
theorem Apart.of_add {a : BitVec w} {i k j l : Nat} (hij : i + k ≤ j) (hjl : j + l ≤ 2 ^ w) :
    Apart (a + BitVec.ofNat w i) k (a + BitVec.ofNat w j) l := by
  intro x hi hj
  have hsplit : x - (a + BitVec.ofNat w i)
      = (x - (a + BitVec.ofNat w j)) + BitVec.ofNat w (j - i) := by
    have hji : BitVec.ofNat w j = BitVec.ofNat w i + BitVec.ofNat w (j - i) := by
      rw [← BitVec.ofNat_add, show i + (j - i) = j by omega]
    rw [hji, ← BitVec.add_assoc, ← BitVec.sub_sub x (a + _), BitVec.sub_add_cancel]
  unfold Within offset at hi hj
  rw [hsplit, BitVec.toNat_add, BitVec.toNat_ofNat, Nat.mod_eq_of_lt (show j - i < 2 ^ w by omega),
    Nat.mod_eq_of_lt (by omega)] at hi
  omega

theorem Apart.of_le {a b : BitVec w} {n k : Nat} (hab : a.toNat + n ≤ b.toNat)
    (hb : b.toNat + k ≤ 2 ^ w) : Apart a n b k := by
  intro x hax hbx
  rw [within_iff_of_le (by omega)] at hax hbx
  omega

/-! ### Reading and writing -/

/-- `n` bytes are written from `a` on. -/
def Memory.write (m : Memory w) (a : BitVec w) (n : Nat) (bytes : Nat → BitVec 8) : Memory w :=
  fun x => if Within a n x then bytes (offset a x) else m x

def Memory.load32 (m : Memory w) (a : BitVec w) : BitVec 32 :=
  m (a + BitVec.ofNat w 3) ++ m (a + BitVec.ofNat w 2) ++ m (a + BitVec.ofNat w 1)
    ++ m (a + BitVec.ofNat w 0)

/-- The byte of a word at distance `i` from its first. -/
def byteOf (v : BitVec 32) (i : Nat) : BitVec 8 := v.extractLsb' (8 * i) 8

def Memory.store32 (m : Memory w) (a : BitVec w) (v : BitVec 32) : Memory w :=
  m.write a 4 (byteOf v)

/-- `memmove`: the bytes are those before the call, also where the two regions overlap. -/
def Memory.move (m : Memory w) (dst src : BitVec w) (n : Nat) : Memory w :=
  m.write dst n fun i => m (src + BitVec.ofNat w i)

theorem Memory.write_of_not_within {m : Memory w} {a x : BitVec w} {n : Nat}
    {bytes : Nat → BitVec 8} (hx : ¬Within a n x) : m.write a n bytes x = m x := if_neg hx

theorem Memory.write_add {m : Memory w} {a : BitVec w} {i n : Nat} {bytes : Nat → BitVec 8}
    (hi : i < n) (hn : n ≤ 2 ^ w) : m.write a n bytes (a + BitVec.ofNat w i) = bytes i := by
  have hoffset : offset a (a + BitVec.ofNat w i) = i := offset_add_ofNat a (by omega)
  have hwithin : Within a n (a + BitVec.ofNat w i) := hoffset.trans_lt hi
  rw [Memory.write, if_pos hwithin, hoffset]

theorem Memory.load32_congr {m m' : Memory w} {a : BitVec w} (hw : 4 ≤ 2 ^ w)
    (hsame : ∀ x, Within a 4 x → m' x = m x) : m'.load32 a = m.load32 a := by
  have hbyte : ∀ i, i < 4 → m' (a + BitVec.ofNat w i) = m (a + BitVec.ofNat w i) := fun i hi =>
    hsame _ (show offset _ _ < 4 by rwa [offset_add_ofNat a (by omega)])
  simp only [Memory.load32, hbyte 0 (by omega), hbyte 1 (by omega), hbyte 2 (by omega),
    hbyte 3 (by omega)]

theorem Memory.load32_write_of_apart {m : Memory w} {a b : BitVec w} {n : Nat}
    {bytes : Nat → BitVec 8} (hw : 4 ≤ 2 ^ w) (hapart : Apart a n b 4) :
    (m.write a n bytes).load32 b = m.load32 b :=
  load32_congr hw fun x hx => write_of_not_within (hapart.symm x hx)

theorem Memory.load32_write_add {m : Memory w} {a : BitVec w} {i n : Nat}
    {bytes : Nat → BitVec 8} (hi : i + 4 ≤ n) (hn : n ≤ 2 ^ w) :
    (m.write a n bytes).load32 (a + BitVec.ofNat w i)
      = bytes (i + 3) ++ bytes (i + 2) ++ bytes (i + 1) ++ bytes i := by
  simp only [Memory.load32, BitVec.add_assoc, ← BitVec.ofNat_add]
  rw [write_add (by omega) hn, write_add (by omega) hn, write_add (by omega) hn,
    write_add (by omega) hn]
  rfl

theorem byteOf_append (v : BitVec 32) :
    byteOf v 3 ++ byteOf v 2 ++ byteOf v 1 ++ byteOf v 0 = v := by
  apply BitVec.eq_of_getLsbD_eq
  intro i hi
  simp only [byteOf, BitVec.getLsbD_append, BitVec.getLsbD_extractLsb']
  grind

theorem Memory.load32_store32 (m : Memory w) (a : BitVec w) (v : BitVec 32) (hw : 4 ≤ 2 ^ w) :
    (m.store32 a v).load32 a = v := by
  have hload : (m.write a 4 (byteOf v)).load32 (a + BitVec.ofNat w 0) =
      byteOf v 3 ++ byteOf v 2 ++ byteOf v 1 ++ byteOf v 0 :=
    load32_write_add (Nat.le_refl 4) hw
  rw [BitVec.add_zero] at hload
  rw [Memory.store32, hload]
  exact byteOf_append v

theorem Memory.load32_move {m : Memory w} {dst src : BitVec w} {i n : Nat} (hi : i + 4 ≤ n)
    (hn : n ≤ 2 ^ w) : (m.move dst src n).load32 (dst + BitVec.ofNat w i)
      = m.load32 (src + BitVec.ofNat w i) := by
  rw [Memory.move, load32_write_add hi hn]
  simp only [Memory.load32, BitVec.add_assoc, ← BitVec.ofNat_add, Nat.add_zero]

/-! ### Double words -/

def Memory.load64 (m : Memory w) (a : BitVec w) : BitVec 64 :=
  m.load32 (a + BitVec.ofNat w 4) ++ m.load32 a

def Memory.store64 (m : Memory w) (a : BitVec w) (v : BitVec 64) : Memory w :=
  (m.store32 a (v.extractLsb' 0 32)).store32 (a + BitVec.ofNat w 4) (v.extractLsb' 32 32)

theorem Memory.load64_congr {m m' : Memory w} {a : BitVec w} (hw : 8 ≤ 2 ^ w)
    (hsame : ∀ x, Within a 8 x → m' x = m x) : m'.load64 a = m.load64 a := by
  unfold load64
  congr 1
  · exact load32_congr (by omega) fun x hx => hsame x (hx.of_add le_rfl)
  · exact load32_congr (by omega) fun x hx => hsame x (hx.mono (by omega))

theorem Memory.store64_of_not_within {m : Memory w} {a x : BitVec w} {v : BitVec 64}
    (hx : ¬Within a 8 x) : m.store64 a v x = m x := by
  rw [store64, store32, write_of_not_within fun h => hx (h.of_add le_rfl), store32,
    write_of_not_within fun h => hx (h.mono (by omega))]

theorem Memory.load64_store64_of_apart {m : Memory w} {a b : BitVec w} {v : BitVec 64}
    (hw : 8 ≤ 2 ^ w) (hapart : Apart a 8 b 8) : (m.store64 b v).load64 a = m.load64 a :=
  load64_congr hw fun x hx => store64_of_not_within (hapart x hx)

theorem Memory.load64_store64 (m : Memory w) (a : BitVec w) (v : BitVec 64) (hw : 8 ≤ 2 ^ w) :
    (m.store64 a v).load64 a = v := by
  have hapart : Apart (a + BitVec.ofNat w 4) 4 a 4 := by
    have h : Apart (a + BitVec.ofNat w 0) 4 (a + BitVec.ofNat w 4) 4 := .of_add le_rfl hw
    rw [BitVec.add_zero] at h
    exact h.symm
  have hlow : (m.store64 a v).load32 a = v.extractLsb' 0 32 := by
    rw [store64, store32, load32_write_of_apart (by omega) hapart]
    exact load32_store32 m a _ (by omega)
  rw [load64, hlow, store64, load32_store32 _ _ _ (by omega)]
  apply BitVec.eq_of_getLsbD_eq
  intro i hi
  simp only [BitVec.getLsbD_append, BitVec.getLsbD_extractLsb']
  grind

end ByteMemory
