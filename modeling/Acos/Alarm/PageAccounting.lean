import Acos.Alarm.ProcTable
import Mathlib.Algebra.BigOperators.Group.Finset.Piecewise
import Mathlib.Algebra.Order.Group.Multiset
import Mathlib.Tactic.Abel

/-!
# Where the pages of a process go

`allocproc` takes two pages, the kernel stack and the alarm frame, and every path that gives a slot
back frees the first. The second is freed only on the path where it could not be allocated. The
accounting below follows the pages themselves, not only their number: each operation either moves
pages between the free list and the slots or drops exactly one alarm frame.
-/

namespace Acos.Alarm

open Transition
open scoped BigOperators

/-- The pages of a slot, none if it is unused. -/
def Proc.owned (proc : Proc) : Multiset Page :=
  if proc.state = .unused then 0
  else proc.kstack.toList ++ proc.alarmTf.toList ++ proc.pgdir.getD []

/-- All pages that are on the free list or owned by a slot. -/
def pages (k : Kernel) : Multiset Page := k.freelist + ∑ p, (k.proc p).owned

/-- A slot in use has all three kinds of pages. -/
def Proc.Filled (proc : Proc) : Prop :=
  proc.state ≠ .unused → proc.kstack.isSome ∧ proc.alarmTf.isSome ∧ proc.pgdir.isSome

def Filled (k : Kernel) : Prop := ∀ p, (k.proc p).Filled

theorem Booted.filled {k : Kernel} (hboot : Booted k) : Filled k := by
  intro p hused
  obtain ⟨_, hkstack, halarm, hpgdir, hrest⟩ := hboot
  by_cases hp : p = k.initproc
  · subst hp
    exact ⟨hkstack, halarm, hpgdir⟩
  · exact absurd (hrest p hp) hused

@[simp]
theorem Kernel.put_freelist (k : Kernel) (freelist : List Page) (p : Slot) (proc : Proc) :
    (k.put freelist p proc).freelist = freelist := rfl

@[simp]
theorem Kernel.put_proc_self (k : Kernel) (freelist : List Page) (p : Slot) (proc : Proc) :
    (k.put freelist p proc).proc p = proc := Function.update_self ..

theorem Kernel.put_proc_of_ne (k : Kernel) {freelist : List Page} {p q : Slot} {proc : Proc}
    (hq : q ≠ p) : (k.put freelist p proc).proc q = k.proc q := Function.update_of_ne hq ..

@[simp]
theorem Kernel.put_put (k : Kernel) (p : Slot) (first second : Proc)
    (freelist freelist' : List Page) :
    (k.put freelist p first).put freelist' p second = k.put freelist' p second := by
  simp [Kernel.put]

theorem Filled.put {k : Kernel} (hfilled : Filled k) {freelist : List Page} {p : Slot}
    {proc : Proc} (hproc : proc.Filled) : Filled (k.put freelist p proc) := by
  intro q
  by_cases hq : q = p
  · subst hq
    rwa [Kernel.put_proc_self]
  · rw [Kernel.put_proc_of_ne k hq]
    exact hfilled q

theorem pages_eq_add_erase (k : Kernel) (p : Slot) :
    pages k = k.freelist + ((k.proc p).owned + ∑ q ∈ Finset.univ.erase p, (k.proc q).owned) := by
  rw [pages, Finset.add_sum_erase Finset.univ (fun q => (k.proc q).owned) (Finset.mem_univ p)]

/-- An operation on one entry keeps all pages but those it drops. -/
theorem pages_put {k : Kernel} {p : Slot} {proc : Proc} {freelist : List Page}
    (dropped : Multiset Page)
    (hpages : (freelist : Multiset Page) + proc.owned + dropped = k.freelist + (k.proc p).owned) :
    pages (k.put freelist p proc) + dropped = pages k := by
  have hrest : ∑ q ∈ Finset.univ.erase p, ((k.put freelist p proc).proc q).owned
      = ∑ q ∈ Finset.univ.erase p, (k.proc q).owned := by
    refine Finset.sum_congr rfl fun q hq => ?_
    rw [Kernel.put_proc_of_ne _ (Finset.ne_of_mem_erase hq)]
  rw [pages_eq_add_erase _ p, pages_eq_add_erase k p, hrest, Kernel.put_proc_self,
    Kernel.put_freelist, ← add_assoc, ← add_assoc, ← hpages]
  abel

theorem pages_put_eq {k : Kernel} {p : Slot} {proc : Proc} {freelist : List Page}
    (hpages : (freelist : Multiset Page) + proc.owned = k.freelist + (k.proc p).owned) :
    pages (k.put freelist p proc) = pages k := by
  have hdropped : pages (k.put freelist p proc) + 0 = pages k := pages_put 0 (by rwa [add_zero])
  rwa [add_zero] at hdropped

/-! ### The operations -/

theorem kalloc_eq_none {fails : Bool} {freelist rest : List Page}
    (halloc : kalloc fails freelist = (none, rest)) : rest = freelist := by
  unfold kalloc at halloc
  split_ifs at halloc
  · exact (congrArg Prod.snd halloc).symm
  · cases freelist with
    | nil => exact (congrArg Prod.snd halloc).symm
    | cons page freelist => cases halloc

theorem kalloc_eq_some {fails : Bool} {freelist rest : List Page} {page : Page}
    (halloc : kalloc fails freelist = (some page, rest)) : freelist = page :: rest := by
  unfold kalloc at halloc
  split_ifs at halloc
  · cases halloc
  · cases freelist with
    | nil => cases halloc
    | cons page freelist =>
        cases halloc
        rfl

theorem Proc.owned_of_unused {proc : Proc} (hunused : proc.state = .unused) : proc.owned = 0 :=
  if_pos hunused

theorem Proc.filled_of_unused {proc : Proc} (hunused : proc.state = .unused) : proc.Filled :=
  fun hused => absurd hunused hused

/-- `allocproc` fails with every page in its place, or fills an unused slot with the two pages at
the head of the free list. -/
theorem allocproc_cases {failsStack failsAlarm : Bool} {k k' : Kernel} {result : Option Slot}
    (hfilled : Filled k) (halloc : allocproc failsStack failsAlarm k = (result, k')) :
    (result = none ∧ pages k' = pages k ∧ Filled k') ∨
    ∃ p kstack alarmTf rest, result = some p ∧ (k.proc p).state = .unused
      ∧ k.freelist = kstack :: alarmTf :: rest
      ∧ k' = { k with nextpid := k.nextpid + 1 }.put rest p
          { k.proc p with
            state := .embryo, pid := k.nextpid, kstack := some kstack,
            alarmTf := some alarmTf } := by
  rw [allocproc] at halloc
  cases hfind : (List.finRange nproc).find? fun p => (k.proc p).state = .unused with
  | none =>
      rw [hfind] at halloc
      cases halloc
      exact Or.inl ⟨rfl, rfl, hfilled⟩
  | some p =>
      have hunused : (k.proc p).state = .unused := by simpa using List.find?_some hfind
      have hfilled' : Filled { k with nextpid := k.nextpid + 1 } := hfilled
      simp only [hfind] at halloc
      rcases hstack : kalloc failsStack k.freelist with ⟨_ | kstack, afterStack⟩
      · -- no kernel stack: the slot is given back at once
        simp only [hstack, Prod.mk.injEq] at halloc
        obtain ⟨rfl, rfl⟩ := halloc
        obtain rfl := kalloc_eq_none hstack
        refine Or.inl ⟨rfl, ?_, hfilled'.put (Proc.filled_of_unused rfl)⟩
        refine pages_put_eq (k := { k with nextpid := k.nextpid + 1 }) ?_
        rw [Proc.owned_of_unused rfl, Proc.owned_of_unused hunused]
      · have hfreelist := kalloc_eq_some hstack
        simp only [hstack] at halloc
        rcases halarm : kalloc failsAlarm afterStack with ⟨_ | alarmTf, rest⟩
        · -- no alarm frame: the kernel stack goes back to the free list
          simp only [halarm, Prod.mk.injEq] at halloc
          obtain ⟨rfl, rfl⟩ := halloc
          obtain rfl := kalloc_eq_none halarm
          refine Or.inl ⟨rfl, ?_, hfilled'.put (Proc.filled_of_unused rfl)⟩
          refine pages_put_eq (k := { k with nextpid := k.nextpid + 1 }) ?_
          rw [Proc.owned_of_unused rfl, Proc.owned_of_unused hunused, kfree, ← hfreelist]
        · simp only [halarm, Prod.mk.injEq] at halloc
          obtain ⟨rfl, rfl⟩ := halloc
          refine Or.inr ⟨p, kstack, alarmTf, rest, rfl, hunused, ?_, rfl⟩
          rw [hfreelist, kalloc_eq_some halarm]

/-- This `fork` gets past `allocproc` and then fails in `copyuvm`. -/
def ForkFailsLate (vm : PageTables) (fails : ForkFailures) (curproc : Slot) (k : Kernel) : Prop :=
  let allocated := allocproc fails.stack fails.alarm k
  allocated.1.isSome ∧
    (vm.copyuvm fails.copy ((allocated.2.proc curproc).pgdir.getD []) allocated.2.freelist).1 = none

/-- What `fork` and `wait` do to the pages: all of them are kept, or one is dropped. -/
def Accounts (leak : Prop) (k k' : Kernel) : Prop :=
  Filled k' ∧ ((¬leak ∧ pages k' = pages k) ∨ (leak ∧ ∃ page, pages k' + {page} = pages k))

theorem fork_accounts {vm : PageTables} {fails : ForkFailures} {curproc : Slot} {k : Kernel}
    (hfilled : Filled k) :
    Accounts (ForkFailsLate vm fails curproc k) k (fork vm fails curproc k).2 := by
  rcases halloc : allocproc fails.stack fails.alarm k with ⟨result, k'⟩
  simp only [fork, ForkFailsLate, halloc]
  rcases allocproc_cases hfilled halloc with ⟨rfl, hpages, hfilled'⟩ |
    ⟨p, kstack, alarmTf, rest, rfl, hunused, hfreelist, rfl⟩
  · exact ⟨hfilled', Or.inl ⟨by simp, hpages⟩⟩
  · have hfilled' : Filled { k with nextpid := k.nextpid + 1 } := hfilled
    simp only [Kernel.put_freelist, Option.isSome_some, true_and, Kernel.put_proc_self,
      Kernel.put_put]
    generalize ((Kernel.put _ rest p _).proc curproc).pgdir.getD [] = parentPgdir
    have hperm := vm.copyuvm_perm fails.copy parentPgdir rest
    rcases hcopy : vm.copyuvm fails.copy parentPgdir rest with ⟨_ | pgdir, freelist⟩
    · -- the kernel stack is freed, the alarm frame is not
      simp only [hcopy, Option.getD_none, List.nil_append] at hperm ⊢
      refine ⟨hfilled'.put (Proc.filled_of_unused rfl), Or.inr ⟨trivial, alarmTf, ?_⟩⟩
      refine pages_put (k := { k with nextpid := k.nextpid + 1 }) {alarmTf} ?_
      have hrest : (freelist : Multiset Page) = rest := Multiset.coe_eq_coe.mpr hperm
      rw [Proc.owned_of_unused rfl, Proc.owned_of_unused hunused, hfreelist]
      simp only [freeStack, Option.elim_some, kfree, ← Multiset.cons_coe, hrest,
        ← Multiset.singleton_add]
      abel
    · simp only [hcopy, Option.getD_some] at hperm ⊢
      refine ⟨hfilled'.put fun _ => ⟨rfl, rfl, rfl⟩, Or.inl ⟨by simp, ?_⟩⟩
      refine pages_put_eq (k := { k with nextpid := k.nextpid + 1 }) ?_
      have hrest : (pgdir : Multiset Page) + freelist = rest := Multiset.coe_eq_coe.mpr hperm
      rw [Proc.owned_of_unused hunused, hfreelist]
      simp only [Proc.owned, reduceCtorEq, if_false, Option.toList_some, Option.getD_some,
        List.cons_append, List.nil_append, ← Multiset.cons_coe, ← hrest, ← Multiset.singleton_add]
      abel

/-- The entry `after` has the pages of the entry `before` and is unused if that one is. -/
def Proc.SamePages (before after : Proc) : Prop :=
  after.kstack = before.kstack ∧ after.alarmTf = before.alarmTf ∧ after.pgdir = before.pgdir
    ∧ (after.state = .unused ↔ before.state = .unused)

theorem Proc.SamePages.trans {first second third : Proc} (hfirst : first.SamePages second)
    (hsecond : second.SamePages third) : first.SamePages third :=
  ⟨hsecond.1.trans hfirst.1, hsecond.2.1.trans hfirst.2.1, hsecond.2.2.1.trans hfirst.2.2.1,
    hsecond.2.2.2.trans hfirst.2.2.2⟩

theorem Proc.SamePages.owned {before after : Proc} (hsame : before.SamePages after) :
    after.owned = before.owned := by
  obtain ⟨hkstack, halarm, hpgdir, hunused⟩ := hsame
  simp only [Proc.owned, hkstack, halarm, hpgdir, hunused]

theorem Proc.SamePages.filled {before after : Proc} (hsame : before.SamePages after)
    (hfilled : before.Filled) : after.Filled := by
  obtain ⟨hkstack, halarm, hpgdir, hunused⟩ := hsame
  intro hused
  rw [hkstack, halarm, hpgdir]
  exact hfilled fun hbefore => hused (hunused.mpr hbefore)

theorem wakeup1_samePages (chan : Option Slot) (proc : Proc) :
    proc.SamePages (wakeup1 chan proc) := by
  rw [wakeup1]
  split_ifs with hsleeping
  · exact ⟨rfl, rfl, rfl, by simp [hsleeping.1]⟩
  · exact ⟨rfl, rfl, rfl, Iff.rfl⟩

theorem exitEntry_samePages (k : Kernel) (curproc p : Slot) :
    (k.proc p).SamePages (exitEntry k curproc p) := by
  have hwoken := wakeup1_samePages (k.proc curproc).parent (k.proc p)
  have hpassed : (k.proc p).SamePages
      (if (wakeup1 (k.proc curproc).parent (k.proc p)).parent = some curproc then
        { wakeup1 (k.proc curproc).parent (k.proc p) with parent := some k.initproc }
      else wakeup1 (k.proc curproc).parent (k.proc p)) := by
    split_ifs <;> exact hwoken
  unfold exitEntry
  dsimp only
  split_ifs at hpassed ⊢
  all_goals first | exact hpassed | exact hpassed.trans (wakeup1_samePages _ _)

theorem exit_accounts {curproc : Slot} {k k' : Kernel} (hfilled : Filled k)
    (hused : (k.proc curproc).state ≠ .unused) (hexit : exit curproc k = some k') :
    Accounts False k k' := by
  unfold exit at hexit
  split_ifs at hexit with hinit
  cases hexit
  have hsame : ∀ p, (k.proc p).SamePages (if p = curproc then
      { exitEntry k curproc p with state := .zombie } else exitEntry k curproc p) := by
    intro p
    split_ifs with hp
    · subst hp
      obtain ⟨hkstack, halarm, hpgdir, -⟩ := exitEntry_samePages k p p
      exact ⟨hkstack, halarm, hpgdir, by simp [hused]⟩
    · exact exitEntry_samePages k curproc p
  refine ⟨fun p => (hsame p).filled (hfilled p), Or.inl ⟨not_false, ?_⟩⟩
  exact congrArg (_ + ·) (Finset.sum_congr rfl fun p _ => (hsame p).owned)

/-- `wait` keeps every page unless it reaps, and then it drops the alarm frame of the zombie. -/
theorem wait_accounts {vm : PageTables} {curproc : Slot} {k : Kernel} (hfilled : Filled k)
    (hused : (k.proc curproc).state ≠ .unused) :
    Accounts ((findZombie curproc k).isSome) k (wait vm curproc k).2 := by
  rw [wait]
  cases hfind : findZombie curproc k with
  | none =>
      refine ⟨?_, Or.inl ⟨by simp, ?_⟩⟩
      · dsimp only
        split_ifs
        · exact hfilled.put fun _ => hfilled curproc hused
        · exact hfilled
      · dsimp only
        split_ifs
        · refine pages_put_eq ?_
          simp [Proc.owned, hused]
        · rfl
  | some p =>
      have hzombie : (k.proc p).state = .zombie := by
        have hfound := List.find?_some hfind
        simp only [decide_eq_true_eq] at hfound
        exact hfound.2
      obtain ⟨hkstack, halarm, hpgdir⟩ := hfilled p (by simp [hzombie])
      obtain ⟨kstack, hkstack⟩ := Option.isSome_iff_exists.mp hkstack
      obtain ⟨alarmTf, halarm⟩ := Option.isSome_iff_exists.mp halarm
      obtain ⟨pgdir, hpgdir⟩ := Option.isSome_iff_exists.mp hpgdir
      refine ⟨hfilled.put (Proc.filled_of_unused rfl), Or.inr ⟨rfl, alarmTf, ?_⟩⟩
      refine pages_put {alarmTf} ?_
      have hfreed := Multiset.coe_eq_coe.mpr
        (vm.freevm_perm pgdir (freeStack (k.proc p) k.freelist))
      rw [Proc.owned_of_unused rfl, hpgdir, Option.getD_some, hfreed]
      simp only [freeStack, hkstack, Option.elim_some, kfree, Proc.owned, hzombie, reduceCtorEq,
        if_false, halarm, hpgdir, Option.toList_some, Option.getD_some, List.cons_append,
        List.nil_append, ← Multiset.coe_add, ← Multiset.cons_coe, ← Multiset.singleton_add]
      abel

/-! ### Whole runs -/

/-- The operation drops an alarm frame: a `fork` that fails in `copyuvm`, or a `wait` that reaps. -/
def Leaks (vm : PageTables) (k : Kernel) (label : Slot × Operation) : Prop :=
  match label.2 with
  | .fork fails => ForkFailsLate vm fails label.1 k
  | .exit => False
  | .wait => (findZombie label.1 k).isSome

theorem perform_accounts {vm : PageTables} {label : Slot × Operation} {k k' : Kernel}
    (hfilled : Filled k) (hperform : perform vm label k = some k') :
    Accounts (Leaks vm k label) k k' := by
  obtain ⟨curproc, operation⟩ := label
  unfold perform at hperform
  split_ifs at hperform with hactive
  have hused : (k.proc curproc).state ≠ .unused := by
    rcases hactive with hstate | hstate <;> simp [hstate]
  cases operation with
  | fork fails =>
      cases hperform
      exact fork_accounts hfilled
  | exit => exact exit_accounts hfilled hused hperform
  | wait =>
      cases hperform
      exact wait_accounts hfilled hused

/-- If the step from `k` to `k'` concerns the pages of the slot `p` only and leaves it unused, the
free list has gained exactly the pages of `p`; none if `p` was taken and given back in this step. -/
def FreedOnce (k k' : Kernel) : Prop :=
  ∀ p, (k'.proc p).state = .unused → (∀ q, q ≠ p → (k'.proc q).owned = (k.proc q).owned) →
    (k'.freelist : Multiset Page) = k.freelist + (k.proc p).owned

theorem FreedOnce.of_pages_eq {k k' : Kernel} (hpages : pages k' = pages k) : FreedOnce k k' := by
  intro p hunused hothers
  have hrest : ∑ q ∈ Finset.univ.erase p, (k'.proc q).owned
      = ∑ q ∈ Finset.univ.erase p, (k.proc q).owned :=
    Finset.sum_congr rfl fun q hq => hothers q (Finset.ne_of_mem_erase hq)
  rw [pages_eq_add_erase k' p, pages_eq_add_erase k p, hrest, Proc.owned_of_unused hunused,
    zero_add, ← add_assoc] at hpages
  exact add_right_cancel hpages

theorem Run.filled {vm : PageTables} (run : Run (processSystem vm)) :
    ∀ i, i ≤ run.length → Filled (run.state i) := by
  refine run.invariant (fun _ hboot => Booted.filled hboot) ?_
  intro label k k' hfilled hperform
  exact (perform_accounts hfilled hperform).1

/-- **Pages are conserved exactly when nothing is reaped.** Over every run of `fork`, `exit` and
`wait` the number of pages stays the same and every slot that is given back has each of its pages
freed once, if and only if no `fork` of the run fails after `allocproc` and no `wait` finds a
zombie. -/
theorem pages_conserved_iff {vm : PageTables} (run : Run (processSystem vm)) :
    ((∀ i, i ≤ run.length → (pages (run.state i)).card = (pages (run.state 0)).card)
        ∧ ∀ i, i < run.length → FreedOnce (run.state i) (run.state (i + 1)))
      ↔ ∀ i, i < run.length → ¬Leaks vm (run.state i) (run.label i) := by
  have haccounts : ∀ i, i < run.length →
      Accounts (Leaks vm (run.state i) (run.label i)) (run.state i) (run.state (i + 1)) :=
    fun i hi => perform_accounts (Run.filled run i hi.le) (run.steps i hi)
  constructor
  · rintro ⟨hcard, -⟩ i hi hleaks
    obtain ⟨-, ⟨hkeeps, -⟩ | ⟨-, page, hdropped⟩⟩ := haccounts i hi
    · exact hkeeps hleaks
    · have hless := congrArg Multiset.card hdropped
      rw [Multiset.card_add, Multiset.card_singleton, hcard i hi.le, hcard (i + 1) hi] at hless
      omega
  · intro hkeeps
    have hpages : ∀ i, i < run.length → pages (run.state (i + 1)) = pages (run.state i) := by
      intro i hi
      obtain ⟨-, ⟨-, hsame⟩ | ⟨hleaks, -⟩⟩ := haccounts i hi
      · exact hsame
      · exact absurd hleaks (hkeeps i hi)
    refine ⟨?_, fun i hi => .of_pages_eq (hpages i hi)⟩
    refine run.induction rfl ?_
    intro i hi hcard
    rw [hpages i hi, hcard]

/-- Page tables that take a fresh page for every page they copy. -/
def plainTables : PageTables where
  copyuvm fails pgdir freelist :=
    if fails 0 ∨ freelist.length < pgdir.length then (none, freelist)
    else (some (freelist.take pgdir.length), freelist.drop pgdir.length)
  freevm pgdir freelist := pgdir ++ freelist
  copyuvm_perm fails pgdir freelist := by
    split_ifs
    · exact .refl _
    · rw [Option.getD_some, List.take_append_drop]
  freevm_perm _ _ := .refl _

/-- The table at boot, with five free pages. -/
def bootedKernel : Kernel where
  freelist := [4, 5, 6, 7, 8]
  proc p :=
    { state := if p = 0 then .runnable else .unused, pid := 1, parent := none, chan := none,
      killed := false, kstack := some 1, alarmTf := some 2, pgdir := some [3] }
  nextpid := 2
  initproc := 0

theorem bootedKernel_booted : Booted bootedKernel :=
  ⟨rfl, rfl, rfl, rfl, fun _ hp => if_neg hp⟩

/-- Init forks a child, the child exits and init waits for it: one page of eight is gone. -/
theorem pages_card_after_wait :
    ∃ run : Run (processSystem plainTables), run.length = 3
      ∧ (pages (run.state 0)).card = 8 ∧ (pages (run.state 3)).card = 7 := by
  let run : Run (processSystem plainTables) :=
    .ofExecute bootedKernel bootedKernel_booted
      [(0, .fork ⟨false, false, fun _ => false⟩), (1, .exit), (0, .wait)] (0, .exit)
      (by decide +kernel)
  exact ⟨run, rfl, by decide +kernel, by decide +kernel⟩

end Acos.Alarm
