import Mathlib.Algebra.BigOperators.Group.Finset.Piecewise
import Mathlib.Algebra.Order.BigOperators.Group.Finset
import Mathlib.Algebra.BigOperators.Ring.Finset
import Acos.Lib.Transition

/-!
# Threads over one shared state

An interleaving advances one thread at a time. The counting rule says how the number of threads
with a property, or a sum over the threads, changes when one of them moves, which is what every
counter invariant needs.
-/

namespace Interleaving

variable {Thread Local : Type} [DecidableEq Thread]

section Count

variable [Fintype Thread]

/-- The number of threads whose local state has the property `p`. -/
def count (p : Local → Bool) (threads : Thread → Local) : Nat :=
  (Finset.univ.filter fun t => p (threads t) = true).card

theorem count_update (p : Local → Bool) (threads : Thread → Local) (t : Thread) (next : Local) :
    count p (Function.update threads t next) + (p (threads t)).toNat
      = count p threads + (p next).toNat := by
  have hsplit : ∀ f : Thread → Local,
      count p f = ((Finset.univ.erase t).filter fun u => p (f u) = true).card
        + (p (f t)).toNat := by
    intro f
    rw [count, ← Finset.insert_erase (Finset.mem_univ t), Finset.filter_insert]
    cases hp : p (f t) with
    | false => simp
    | true =>
        simp only [if_true, Finset.insert_erase (Finset.mem_univ t)]
        rw [Finset.card_insert_of_notMem (by simp), Bool.toNat_true]
  have hrest : ((Finset.univ.erase t).filter fun u =>
        p (Function.update threads t next u) = true)
      = (Finset.univ.erase t).filter fun u => p (threads u) = true := by
    refine Finset.filter_congr fun u hu => ?_
    rw [Function.update_of_ne (Finset.ne_of_mem_erase hu)]
  rw [hsplit (Function.update threads t next), hsplit threads, hrest, Function.update_self]
  omega

omit [DecidableEq Thread] in
theorem count_le_card (p : Local → Bool) (threads : Thread → Local) :
    count p threads ≤ Fintype.card Thread :=
  Finset.card_le_univ _

omit [DecidableEq Thread] in
theorem count_eq_zero_iff {p : Local → Bool} {threads : Thread → Local} :
    count p threads = 0 ↔ ∀ t, p (threads t) = false := by
  simp [count, Finset.filter_eq_empty_iff]

omit [DecidableEq Thread] in
theorem count_pos_of_mem {p : Local → Bool} {threads : Thread → Local} {t : Thread}
    (ht : p (threads t) = true) : 0 < count p threads := by
  rw [Nat.pos_iff_ne_zero]
  intro hzero
  rw [count_eq_zero_iff.mp hzero t] at ht
  exact Bool.noConfusion ht

omit [DecidableEq Thread] in
theorem exists_of_count_ne_zero {p : Local → Bool} {threads : Thread → Local}
    (hcount : count p threads ≠ 0) : ∃ t, p (threads t) = true := by
  by_contra hnone
  apply hcount
  rw [count_eq_zero_iff]
  exact fun t => Bool.eq_false_iff.mpr fun ht => hnone ⟨t, ht⟩

omit [DecidableEq Thread] in
/-- A region that holds at most one thread is exclusive. -/
theorem eq_of_count_le_one {p : Local → Bool} {threads : Thread → Local}
    (hle : count p threads ≤ 1) {t u : Thread} (ht : p (threads t) = true)
    (hu : p (threads u) = true) : t = u :=
  Finset.card_le_one.mp hle t (by simpa using ht) u (by simpa using hu)

/-- The sum of a quantity over the threads. -/
def total (f : Local → Nat) (threads : Thread → Local) : Nat := ∑ t, f (threads t)

theorem total_update (f : Local → Nat) (threads : Thread → Local) (t : Thread) (next : Local) :
    total f (Function.update threads t next) + f (threads t) = total f threads + f next := by
  have hupdate : (fun u => f (Function.update threads t next u))
      = Function.update (fun u => f (threads u)) t (f next) := by
    funext u
    by_cases hu : u = t <;> simp [hu]
  have hsum := Finset.sum_erase_add Finset.univ (fun u => f (threads u)) (Finset.mem_univ t)
  rw [total, total, hupdate, Finset.sum_update_of_mem (Finset.mem_univ t),
    Finset.sdiff_singleton_eq_erase]
  omega

omit [DecidableEq Thread] in
theorem total_const {f : Local → Nat} {threads : Thread → Local} {n : Nat}
    (hconst : ∀ t, f (threads t) = n) : total f threads = Fintype.card Thread * n := by
  exact Finset.sum_const_nat fun t _ => hconst t

omit [DecidableEq Thread] in
theorem total_congr {f g : Local → Nat} {threads : Thread → Local}
    (heq : ∀ t, f (threads t) = g (threads t)) : total f threads = total g threads :=
  Finset.sum_congr rfl fun t _ => heq t

omit [DecidableEq Thread] in
theorem le_total (f : Local → Nat) (threads : Thread → Local) (t : Thread) :
    f (threads t) ≤ total f threads :=
  Finset.single_le_sum (f := fun u => f (threads u)) (fun _ _ => Nat.zero_le _) (Finset.mem_univ t)

omit [DecidableEq Thread] in
theorem total_eq_single {f : Local → Nat} {threads : Thread → Local} (t : Thread)
    (hzero : ∀ u, u ≠ t → f (threads u) = 0) : total f threads = f (threads t) :=
  Finset.sum_eq_single t (fun u _ hu => hzero u hu) fun ht => absurd (Finset.mem_univ t) ht

omit [DecidableEq Thread] in
/-- Only the threads with the property have something, and no thread has more than `n`. -/
theorem total_le_count_mul {p : Local → Bool} {f : Local → Nat} {n : Nat}
    (hle : ∀ x, f x ≤ (p x).toNat * n) (threads : Thread → Local) :
    total f threads ≤ count p threads * n := by
  have hcount : count p threads = ∑ t, (p (threads t)).toNat := by
    rw [count, Finset.card_filter]
    refine Finset.sum_congr rfl fun t _ => ?_
    cases p (threads t) <;> rfl
  calc total f threads ≤ ∑ t, (p (threads t)).toNat * n :=
        Finset.sum_le_sum fun t _ => hle (threads t)
    _ = count p threads * n := by rw [hcount, Finset.sum_mul]

end Count

/-- The counting rule for a list of processes, one of which moves. -/
theorem countP_set (p : Local → Bool) {processes : List Local} {i : Nat} {old : Local}
    (hold : processes[i]? = some old) (next : Local) :
    (processes.set i next).countP p + (p old).toNat = processes.countP p + (p next).toNat := by
  induction processes generalizing i with
  | nil => exact nomatch hold
  | cons first processes ih =>
      cases i with
      | zero =>
          cases Option.some.inj hold
          rw [List.set_cons_zero, List.countP_cons, List.countP_cons]
          cases p old <;> cases p next <;> simp
      | succ i =>
          rw [List.set_cons_succ, List.countP_cons, List.countP_cons]
          have hrest := ih (i := i) (by simpa using hold)
          omega

end Interleaving
