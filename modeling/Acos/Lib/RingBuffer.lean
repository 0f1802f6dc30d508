import Mathlib.Data.BitVec
import Mathlib.Data.List.Range

/-!
# Ring buffers with free-running counters

Two counters of a fixed width tell how many elements have been put in and taken out. They run on
beyond the size of the buffer and wrap around at the end of their width; a position in the buffer is
a counter modulo the size. The size must divide the number of values of a counter.
-/

namespace RingBuffer

/-- The elements and the counters `nread` and `nwrite`. -/
structure Ring (α : Type) (w size : Nat) where
  data : Fin size → α
  nread : BitVec w
  nwrite : BitVec w

namespace Ring

section Counters

variable {α : Type} {w size : Nat} {r : Ring α w size}

def used (r : Ring α w size) : Nat := (r.nwrite - r.nread).toNat

def pop (r : Ring α w size) : Ring α w size := { r with nread := r.nread + 1 }

theorem nwrite_eq (r : Ring α w size) : r.nwrite = r.nread + BitVec.ofNat w r.used := by
  rw [used, BitVec.ofNat_toNat, BitVec.setWidth_eq, BitVec.add_comm, BitVec.sub_add_cancel]

theorem used_eq_of_nwrite {k : Nat} (hk : k < 2 ^ w) (heq : r.nwrite = r.nread + BitVec.ofNat w k) :
    r.used = k := by
  rw [used, heq, BitVec.add_comm, BitVec.add_sub_cancel, BitVec.toNat_ofNat, Nat.mod_eq_of_lt hk]

theorem nwrite_eq_add_iff {k : Nat} (hk : k < 2 ^ w) :
    r.nwrite = r.nread + BitVec.ofNat w k ↔ r.used = k :=
  ⟨used_eq_of_nwrite hk, fun heq => heq ▸ r.nwrite_eq⟩

theorem nread_eq_nwrite_iff : r.nread = r.nwrite ↔ r.used = 0 := by
  rw [← nwrite_eq_add_iff (Nat.two_pow_pos w), BitVec.add_zero, eq_comm]

theorem used_pop (hused : r.used ≠ 0) : r.pop.used + 1 = r.used := by
  have hlt : r.used < 2 ^ w := (r.nwrite - r.nread).isLt
  have hpop : r.pop.used = r.used - 1 := by
    refine used_eq_of_nwrite (by omega) ?_
    change r.nwrite = r.nread + 1 + _
    rw [BitVec.add_assoc, BitVec.add_comm 1, show (1 : BitVec w) = BitVec.ofNat w 1 from rfl,
      ← BitVec.ofNat_add, Nat.sub_add_cancel (Nat.pos_of_ne_zero hused)]
    exact r.nwrite_eq
  omega

end Counters

section Contents

variable {α : Type} {w size : Nat} [NeZero size] {r : Ring α w size}

/-- The position of a counter. -/
def slot (n : BitVec w) : Fin size := Fin.ofNat size n.toNat

/-- What has been put in and not been taken out, the oldest element first. -/
def contents (r : Ring α w size) : List α :=
  (List.range r.used).map fun i => r.data (slot (r.nread + BitVec.ofNat w i))

def push (r : Ring α w size) (a : α) : Ring α w size :=
  { r with data := Function.update r.data (slot r.nwrite) a, nwrite := r.nwrite + 1 }

@[simp]
theorem length_contents (r : Ring α w size) : r.contents.length = r.used := by
  rw [contents, List.length_map, List.length_range]

theorem slot_add (hdvd : size ∣ 2 ^ w) (n : BitVec w) (i : Nat) :
    (slot (n + BitVec.ofNat w i) : Fin size).val = (n.toNat + i) % size := by
  rw [slot, Fin.val_ofNat, BitVec.toNat_add, BitVec.toNat_ofNat, Nat.add_mod_mod,
    Nat.mod_mod_of_dvd _ hdvd]

theorem slot_add_ne (hdvd : size ∣ 2 ^ w) (n : BitVec w) {i j : Nat} (hij : i < j)
    (hj : j < i + size) :
    (slot (n + BitVec.ofNat w i) : Fin size) ≠ slot (n + BitVec.ofNat w j) := by
  intro heq
  have hval := congrArg Fin.val heq
  rw [slot_add hdvd, slot_add hdvd] at hval
  have hmod : (n.toNat + j - (n.toNat + i)) % size = 0 :=
    Nat.sub_mod_eq_zero_of_mod_eq hval.symm
  rw [Nat.mod_eq_of_lt (by omega)] at hmod
  omega

theorem used_push (hused : r.used + 1 < 2 ^ w) (a : α) : (r.push a).used = r.used + 1 := by
  refine used_eq_of_nwrite hused ?_
  change r.nwrite + 1 = r.nread + _
  rw [r.nwrite_eq, BitVec.ofNat_add, BitVec.add_assoc]
  rfl

theorem contents_push (hdvd : size ∣ 2 ^ w) (hsize : size < 2 ^ w) (hused : r.used < size) (a : α) :
    (r.push a).contents = r.contents ++ [a] := by
  rw [contents, used_push (by omega), List.range_succ, List.map_append, List.map_singleton, contents]
  congr 1
  · refine List.map_congr_left fun i hi => ?_
    rw [List.mem_range] at hi
    refine Function.update_of_ne ?_ ..
    change slot (r.nread + BitVec.ofNat w i) ≠ slot r.nwrite
    rw [r.nwrite_eq]
    exact slot_add_ne hdvd r.nread hi (by omega)
  · change [Function.update r.data (slot r.nwrite) a (slot (r.nread + BitVec.ofNat w r.used))] = [a]
    rw [← r.nwrite_eq, Function.update_self]

theorem contents_pop (hused : r.used ≠ 0) :
    r.contents = r.data (slot r.nread) :: r.pop.contents := by
  rw [contents, ← used_pop hused, List.range_succ_eq_map, List.map_cons, List.map_map,
    BitVec.add_zero, contents]
  congr 1
  refine List.map_congr_left fun i _ => ?_
  change r.data (slot (r.nread + BitVec.ofNat w (i + 1))) = r.data (slot (r.nread + 1 + _))
  rw [BitVec.add_assoc, BitVec.add_comm 1, show (1 : BitVec w) = BitVec.ofNat w 1 from rfl,
    ← BitVec.ofNat_add]

end Contents

end Ring

end RingBuffer
