import Mathlib.Data.List.Basic
import Mathlib.Algebra.Ring.Int.Defs

/-!
# Descriptor tables

A table maps the descriptors of a process to the objects they refer to. Descriptors are integers, as
the calls return and take them, and no negative number is open. A new descriptor is the lowest one
that is free.
-/

namespace Descriptors

variable {Object : Type}

structure Table (Object : Type) where
  entries : List (Option Object)
  deriving DecidableEq

namespace Table

/-- What a descriptor refers to, if it is open. -/
def get (t : Table Object) : Int → Option Object
  | .ofNat n => t.entries[n]?.join
  | .negSucc _ => none

def putEntry : List (Option Object) → Nat → Option Object → List (Option Object)
  | [], 0, object => [object]
  | [], n + 1, object => none :: putEntry [] n object
  | _ :: entries, 0, object => object :: entries
  | entry :: entries, n + 1, object => entry :: putEntry entries n object

/-- The descriptor refers to the object from now on, or is closed. -/
def put (t : Table Object) : Int → Option Object → Table Object
  | .ofNat n, object => ⟨putEntry t.entries n object⟩
  | .negSucc _, _ => t

def lowestEntry : List (Option Object) → Nat
  | [] => 0
  | none :: _ => 0
  | some _ :: entries => lowestEntry entries + 1

/-- The lowest descriptor that is not open. -/
def lowest (t : Table Object) : Int := lowestEntry t.entries

def close (t : Table Object) (fd : Int) : Table Object := t.put fd none

/-- A new descriptor for an object, with the table that has it. -/
def alloc (t : Table Object) (object : Object) : Int × Table Object :=
  (t.lowest, t.put t.lowest (some object))

/-- Some descriptor refers to the object. -/
def holds [DecidableEq Object] (t : Table Object) (object : Object) : Bool :=
  t.entries.contains (some object)

variable {t : Table Object} {fd fd' : Int} {object : Object} {entry : Option Object}

theorem getElem?_putEntry (entries : List (Option Object)) (n m : Nat) (entry : Option Object) :
    (putEntry entries n entry)[m]?.join = if m = n then entry else entries[m]?.join := by
  induction entries, n, entry using putEntry.induct generalizing m with
  | case1 entry => cases m <;> simp [putEntry]
  | case2 n entry ih =>
      cases m with
      | zero => simp [putEntry]
      | succ m => simp [putEntry, ih]
  | case3 first entries entry => cases m <;> simp [putEntry]
  | case4 entry first entries n ih =>
      cases m with
      | zero => simp [putEntry]
      | succ m => simp [putEntry, ih]

theorem getElem?_lowestEntry (entries : List (Option Object)) :
    entries[lowestEntry entries]?.join = none := by
  induction entries using lowestEntry.induct with
  | case1 => rfl
  | case2 => rfl
  | case3 object entries ih => exact ih

theorem nonneg_of_get (hget : t.get fd = some object) : 0 ≤ fd := by
  cases fd with
  | ofNat n => exact Int.natCast_nonneg n
  | negSucc n => exact nomatch hget

theorem get_put (hfd : 0 ≤ fd) (entry : Option Object) (fd' : Int) :
    (t.put fd entry).get fd' = if fd' = fd then entry else t.get fd' := by
  cases fd with
  | negSucc n => exact absurd hfd (by simp)
  | ofNat n =>
      cases fd' with
      | negSucc m => rfl
      | ofNat m =>
          simp only [Int.ofNat.injEq]
          exact getElem?_putEntry t.entries n m entry

theorem get_put_self (hfd : 0 ≤ fd) : (t.put fd entry).get fd = entry := by
  rw [get_put hfd, if_pos rfl]

theorem get_put_of_ne (hne : fd' ≠ fd) : (t.put fd entry).get fd' = t.get fd' := by
  cases fd with
  | negSucc n => rfl
  | ofNat n =>
      have hfd : 0 ≤ Int.ofNat n := Int.natCast_nonneg n
      rw [get_put hfd, if_neg hne]

theorem lowest_nonneg (t : Table Object) : 0 ≤ t.lowest := Int.natCast_nonneg _

@[simp] theorem get_lowest (t : Table Object) : t.get t.lowest = none :=
  getElem?_lowestEntry t.entries

theorem ne_lowest (hget : t.get fd = some object) : fd ≠ t.lowest := by
  rintro rfl
  rw [get_lowest] at hget
  exact nomatch hget

/-- An entry of a changed table is the new one or one that was there before. -/
theorem get_put_eq_some (hget : (t.put fd entry).get fd' = some object) :
    fd' = fd ∧ entry = some object ∨ fd' ≠ fd ∧ t.get fd' = some object := by
  by_cases heq : fd' = fd
  · subst heq
    rw [get_put_self (nonneg_of_get hget)] at hget
    exact .inl ⟨rfl, hget⟩
  · rw [get_put_of_ne heq] at hget
    exact .inr ⟨heq, hget⟩

theorem holds_iff [DecidableEq Object] : t.holds object = true ↔ ∃ fd, t.get fd = some object := by
  rw [holds, List.contains_iff_mem, List.mem_iff_getElem?]
  constructor
  · rintro ⟨n, hn⟩
    refine ⟨.ofNat n, ?_⟩
    rw [get, hn]
    rfl
  · rintro ⟨fd, hfd⟩
    cases fd with
    | negSucc n => exact nomatch hfd
    | ofNat n => exact ⟨n, Option.join_eq_some_iff.mp hfd⟩

/-- What is open refers to the same object in the other table. -/
def Extends (t t' : Table Object) : Prop := ∀ fd object, t.get fd = some object →
  t'.get fd = some object

namespace Extends

variable {t' : Table Object}

theorem refl (t : Table Object) : t.Extends t := fun _ _ hget => hget

theorem get_eq_none (hextends : t.Extends t') (hfd : t'.get fd = none) : t.get fd = none := by
  rw [Option.eq_none_iff_forall_ne_some]
  intro object hget
  rw [hextends fd object hget] at hfd
  exact nomatch hfd

/-- A descriptor that was not open is closed again. -/
theorem close (hextends : t.Extends t') (hfd : t.get fd = none) : t.Extends (t'.close fd) := by
  intro other object hget
  have hne : other ≠ fd := by
    rintro rfl
    rw [hfd] at hget
    exact nomatch hget
  exact (get_put_of_ne hne).trans (hextends other object hget)

end Extends

end Table

end Descriptors
