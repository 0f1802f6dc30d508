import Mathlib.Data.BitVec

/-!
# Atomic instructions and the spinlock

`atomic.h` wraps single instructions, so each is modelled by its effect on the memory word it names.
The spinlock is built from two of them: the loop of `SpinLock_Lock` retries an exchange, and
`SpinLock_Unlock` is one compare-and-swap whose outcome is not looked at.
-/

namespace Acos.Atomic

/-- An `int64_t` memory cell. -/
abbrev Word := BitVec 64

/-- `lock add`. -/
def atomicAdd (cell value : Word) : Word := cell + value

/-- `lock sub`. -/
def atomicSub (cell value : Word) : Word := cell - value

/-- `xchg`: the new content of the cell and the returned old one. -/
def atomicXchg (cell value : Word) : Word × Word := (value, cell)

/-- `lock cmpxchg; setz`: the new content of the cell, the new content of `*expected` and the
returned flag. -/
def atomicCas (cell expected value : Word) : Word × Word × Bool :=
  if cell = expected then (value, expected, true) else (cell, cell, false)

/-- `mov` from the cell. -/
def atomicLoad (cell : Word) : Word := cell

structure SpinLock where
  lock : Word
  deriving DecidableEq

def spinLockInit (l : SpinLock) : SpinLock :=
  { l with lock := (atomicXchg l.lock 0).1 }

/-- One turn of the loop in `SpinLock_Lock`: the exchange, and whether the loop is left. -/
def spinLockLock (l : SpinLock) : SpinLock × Bool :=
  let (cell, old) := atomicXchg l.lock 1
  ({ l with lock := cell }, old == 0)

def spinLockUnlock (l : SpinLock) : SpinLock :=
  let expected : Word := 1
  { l with lock := (atomicCas l.lock expected 0).1 }

@[simp]
theorem spinLockInit_lock (l : SpinLock) : (spinLockInit l).lock = 0 := rfl

@[simp]
theorem spinLockLock_fst_lock (l : SpinLock) : (spinLockLock l).1.lock = 1 := rfl

theorem spinLockLock_snd_iff {l : SpinLock} : (spinLockLock l).2 = true ↔ l.lock = 0 := by
  simp [spinLockLock, atomicXchg]

theorem spinLockUnlock_lock_of_held {l : SpinLock} (hheld : l.lock = 1) :
    (spinLockUnlock l).lock = 0 := by
  simp [spinLockUnlock, atomicCas, hheld]

/-- What one instruction of a thread can do to a spinlock and to the thread's place, inside or
outside the region the lock guards. -/
inductive SpinLock.Move : SpinLock → Bool → SpinLock → Bool → Prop where
  | stay (l : SpinLock) (inside : Bool) : Move l inside l inside
  | spin (l : SpinLock) (htaken : (spinLockLock l).2 = false) :
      Move l false (spinLockLock l).1 false
  | acquire (l : SpinLock) (hfree : (spinLockLock l).2 = true) :
      Move l false (spinLockLock l).1 true
  | release (l : SpinLock) : Move l true (spinLockUnlock l) false

/-- One turn of the loop of `SpinLock_Lock` either spins or acquires. -/
theorem SpinLock.Move.ofLock (l : SpinLock) :
    Move l false (spinLockLock l).1 (spinLockLock l).2 := by
  cases hfree : (spinLockLock l).2 with
  | false => exact .spin l hfree
  | true => exact .acquire l hfree

/-- The word of a spinlock counts the threads inside its region, and that count is at most one. -/
def SpinLock.Counts (l : SpinLock) (inside : Nat) : Prop :=
  l.lock.toNat = inside ∧ inside ≤ 1

namespace SpinLock.Counts

variable {l l' : SpinLock} {inside after : Nat} {old new : Bool}

theorem init (l : SpinLock) : (spinLockInit l).Counts 0 := by
  simp [SpinLock.Counts]

theorem lock_eq_one (hcounts : l.Counts inside) (hpos : 0 < inside) : l.lock = 1 := by
  obtain ⟨hword, hle⟩ := hcounts
  apply BitVec.eq_of_toNat_eq
  rw [hword, show (1 : Word).toNat = 1 from rfl]
  omega

theorem lock_eq_zero_iff (hcounts : l.Counts inside) : l.lock = 0 ↔ inside = 0 := by
  rw [← hcounts.1]
  constructor
  · intro hzero
    rw [hzero]
    rfl
  · exact fun hzero => BitVec.eq_of_toNat_eq hzero

/-- The word keeps counting when one thread moves and the count changes by its place. -/
theorem move (hcounts : l.Counts inside) (hmove : Move l old l' new)
    (hafter : after + old.toNat = inside + new.toNat) (hpos : old = true → 0 < inside) :
    l'.Counts after := by
  cases hmove with
  | stay =>
      rwa [Nat.add_right_cancel hafter]
  | spin htaken =>
      have hne : l.lock ≠ 0 := by
        intro hzero
        rw [spinLockLock_snd_iff.mpr hzero] at htaken
        exact Bool.noConfusion htaken
      have hinside : 0 < inside :=
        Nat.pos_of_ne_zero fun hzero => hne (hcounts.lock_eq_zero_iff.mpr hzero)
      rw [Nat.add_right_cancel hafter]
      refine ⟨?_, hcounts.2⟩
      rw [spinLockLock_fst_lock, ← hcounts.lock_eq_one hinside, hcounts.1]
  | acquire hfree =>
      have hempty : inside = 0 :=
        hcounts.lock_eq_zero_iff.mp (spinLockLock_snd_iff.mp hfree)
      simp only [hempty, Bool.toNat_false, Bool.toNat_true, Nat.add_zero] at hafter
      rw [hafter]
      exact ⟨rfl, le_rfl⟩
  | release =>
      have hinside : 0 < inside := hpos rfl
      have hle := hcounts.2
      simp only [Bool.toNat_true, Bool.toNat_false, Nat.add_zero] at hafter
      rw [show after = 0 by omega]
      refine ⟨?_, Nat.zero_le 1⟩
      rw [spinLockUnlock_lock_of_held (hcounts.lock_eq_one hinside)]
      rfl

end SpinLock.Counts

end Acos.Atomic
