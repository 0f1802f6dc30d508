import Mathlib.Logic.Hydra

/-!
# Processes that wait for their children

Processes are numbered in the order of their creation. A process runs some code with a state of its
own, has exited, or has been waited for. If every process has at most one child at a time, those
that have not been waited for are nested: each one is the child of the one below it. If the code of
a process is smaller after a step of it, and that of a new process as well, then the steps come to an
end.
-/

namespace Processes

variable {Own Code : Type}

inductive Life (Code : Type) where
  | running (code : Code)
  | exited
  | reaped

/-- The first process has no parent here. -/
structure Process (Own Code : Type) where
  parent : Option Nat
  own : Own
  life : Life Code

def Process.isReaped (process : Process Own Code) : Bool :=
  match process.life with
  | .reaped => true
  | _ => false

def parentOf (ps : List (Process Own Code)) (pid : Nat) : Option Nat :=
  ps[pid]?.bind Process.parent

/-- Each process of the list is the child of the next one. -/
def Linked (parent : Nat → Option Nat) : List Nat → Prop
  | [] => True
  | [pid] => parent pid = none
  | pid :: next :: rest => parent pid = some next ∧ Linked parent (next :: rest)

theorem Linked.exists_of_parent {parent : Nat → Option Nat} {stack : List Nat}
    (hlinked : Linked parent stack) {pid next : Nat} (hpid : pid ∈ stack)
    (hparent : parent pid = some next) :
    ∃ before behind, stack = before ++ pid :: next :: behind := by
  induction stack using Linked.induct with
  | case1 => exact absurd hpid List.not_mem_nil
  | case2 bottom =>
      cases List.mem_singleton.mp hpid
      rw [Linked, hparent] at hlinked
      exact nomatch hlinked
  | case3 top second rest ih =>
      rcases List.mem_cons.mp hpid with rfl | hpid
      · cases hparent.symm.trans hlinked.1
        exact ⟨[], rest, rfl⟩
      · obtain ⟨before, behind, heq⟩ := ih hlinked.2 hpid
        exact ⟨top :: before, behind, by rw [heq, List.cons_append]⟩

theorem Linked.exists_child {parent : Nat → Option Nat} {stack : List Nat}
    (hlinked : Linked parent stack) {pid : Nat} (hpid : pid ∈ stack.tail) :
    ∃ child ∈ stack, parent child = some pid := by
  induction stack using Linked.induct with
  | case1 => exact absurd hpid List.not_mem_nil
  | case2 bottom => exact absurd hpid List.not_mem_nil
  | case3 top second rest ih =>
      rcases List.mem_cons.mp hpid with rfl | hpid
      · exact ⟨top, List.mem_cons_self, hlinked.1⟩
      · obtain ⟨child, hchild, hparent⟩ := ih hlinked.2 hpid
        exact ⟨child, List.mem_cons_of_mem top hchild, hparent⟩

theorem Linked.congr {parent parent' : Nat → Option Nat} {stack : List Nat}
    (hlinked : Linked parent stack) (hsame : ∀ pid ∈ stack, parent' pid = parent pid) :
    Linked parent' stack := by
  induction stack using Linked.induct with
  | case1 => trivial
  | case2 bottom =>
      rw [Linked, hsame bottom (List.mem_singleton_self _)]
      exact hlinked
  | case3 top second rest ih =>
      refine ⟨?_, ih hlinked.2 fun pid hpid => hsame pid (List.mem_cons_of_mem top hpid)⟩
      rw [hsame top List.mem_cons_self]
      exact hlinked.1

theorem getElem?_set_of_some {ps : List (Process Own Code)} {pid : Nat}
    {process : Process Own Code} (hprocess : ps[pid]? = some process)
    (process' : Process Own Code) : (ps.set pid process')[pid]? = some process' :=
  List.getElem?_set_self (List.getElem?_eq_some_iff.mp hprocess).1

theorem getElem?_set_append_self {ps : List (Process Own Code)} {pid : Nat}
    {process : Process Own Code} (hprocess : ps[pid]? = some process)
    (process' child : Process Own Code) :
    (ps.set pid process' ++ [child])[pid]? = some process' := by
  have hset := getElem?_set_of_some hprocess process'
  rw [List.getElem?_append_left (List.getElem?_eq_some_iff.mp hset).1, hset]

theorem getElem?_set_append_length (ps : List (Process Own Code)) (pid : Nat)
    (process' child : Process Own Code) :
    (ps.set pid process' ++ [child])[ps.length]? = some child := by
  have hlength : (ps.set pid process').length = ps.length := List.length_set
  rw [← hlength, List.getElem?_concat_length]

/-! ### What is left to run -/

def Life.codes : Life Code → Multiset Code
  | .running code => {code}
  | _ => 0

/-- The code that the processes have left. -/
def running (ps : List (Process Own Code)) : Multiset Code :=
  (ps.map fun process => process.life.codes).sum

theorem running_set {ps : List (Process Own Code)} {pid : Nat} {process : Process Own Code}
    (hprocess : ps[pid]? = some process) (process' : Process Own Code) :
    running (ps.set pid process') + process.life.codes = running ps + process'.life.codes := by
  induction ps generalizing pid with
  | nil => exact nomatch hprocess
  | cons first ps ih =>
      cases pid with
      | zero =>
          cases hprocess
          simp only [running, List.set_cons_zero, List.map_cons, List.sum_cons]
          rw [add_assoc, add_comm, add_comm (List.sum _) process.life.codes]
      | succ pid =>
          have htail : ps[pid]? = some process := by simpa using hprocess
          have hrest := ih htail
          simp only [running, List.set_cons_succ, List.map_cons, List.sum_cons] at hrest ⊢
          rw [add_assoc, hrest, add_assoc]

theorem running_concat (ps : List (Process Own Code)) (process : Process Own Code) :
    running (ps ++ [process]) = running ps + process.life.codes := by
  rw [running, List.map_append, List.sum_append]
  simp [running]

section Smaller

open Relation

variable {ps : List (Process Own Code)} {pid : Nat} {parent : Option Nat} {own : Own} {code : Code}
  {less : Code → Code → Prop}

theorem cutExpand_running_set (hprocess : ps[pid]? = some ⟨parent, own, .running code⟩)
    (process' : Process Own Code) (hless : ∀ code' ∈ process'.life.codes, less code' code) :
    CutExpand less (running (ps.set pid process')) (running ps) :=
  ⟨process'.life.codes, code, hless, running_set hprocess process'⟩

theorem cutExpand_running_fork (hprocess : ps[pid]? = some ⟨parent, own, .running code⟩)
    (process' child : Process Own Code) (hless : ∀ code' ∈ process'.life.codes, less code' code)
    (hchild : ∀ code' ∈ child.life.codes, less code' code) :
    CutExpand less (running (ps.set pid process' ++ [child])) (running ps) := by
  refine ⟨process'.life.codes + child.life.codes, code, fun code' hcode => ?_, ?_⟩
  · exact (Multiset.mem_add.mp hcode).elim (hless code') (hchild code')
  · have hset := running_set hprocess process'
    rw [running_concat, add_right_comm, ← add_assoc, ← hset]
    rfl

end Smaller

/-! ### Nested processes -/

/-- The processes that have not been waited for, from the youngest one to the first one. -/
structure Nested (ps : List (Process Own Code)) (stack : List Nat) : Prop where
  nodup : stack.Nodup
  mem_iff : ∀ pid, pid ∈ stack ↔ ∃ process, ps[pid]? = some process ∧ process.isReaped = false
  linked : Linked (parentOf ps) stack

namespace Nested

variable {ps : List (Process Own Code)} {stack : List Nat} {pid : Nat}
  {process process' child : Process Own Code}

theorem mem (hnested : Nested ps stack) (hprocess : ps[pid]? = some process)
    (hlife : process.isReaped = false) : pid ∈ stack :=
  (hnested.mem_iff pid).mpr ⟨process, hprocess, hlife⟩

theorem lt_length (hnested : Nested ps stack) (hpid : pid ∈ stack) : pid < ps.length := by
  obtain ⟨process, hprocess, -⟩ := (hnested.mem_iff pid).mp hpid
  exact (List.getElem?_eq_some_iff.mp hprocess).1

/-- The first process. -/
theorem single (hparent : process.parent = none) (hlife : process.isReaped = false) :
    Nested [process] [0] where
  nodup := List.pairwise_singleton _ 0
  mem_iff pid := by
    cases pid with
    | zero => exact iff_of_true (List.mem_singleton_self 0) ⟨process, rfl, hlife⟩
    | succ pid => exact iff_of_false (by simp) (by simp)
  linked := hparent

/-- A process goes on. -/
theorem set (hnested : Nested ps stack) (hprocess : ps[pid]? = some process)
    (hlife : process.isReaped = false) (hparent : process'.parent = process.parent)
    (hlife' : process'.isReaped = false) : Nested (ps.set pid process') stack where
  nodup := hnested.nodup
  mem_iff other := by
    rw [hnested.mem_iff]
    by_cases heq : pid = other
    · subst heq
      simp only [getElem?_set_of_some hprocess, hprocess]
      exact iff_of_true ⟨process, rfl, hlife⟩ ⟨process', rfl, hlife'⟩
    · rw [List.getElem?_set_ne heq]
  linked := by
    refine hnested.linked.congr fun other _ => ?_
    by_cases heq : pid = other
    · subst heq
      simp only [parentOf, getElem?_set_of_some hprocess, hprocess, Option.bind_some, hparent]
    · simp only [parentOf, List.getElem?_set_ne heq]

/-- The youngest process gets a child. -/
theorem fork (hnested : Nested ps (pid :: stack)) (hparent : child.parent = some pid)
    (hlife : child.isReaped = false) : Nested (ps ++ [child]) (ps.length :: pid :: stack) where
  nodup := by
    refine List.nodup_cons.mpr ⟨fun hmem => ?_, hnested.nodup⟩
    exact Nat.lt_irrefl _ (hnested.lt_length hmem)
  mem_iff other := by
    rw [List.mem_cons, hnested.mem_iff]
    rcases Nat.lt_trichotomy other ps.length with hlt | rfl | hgt
    · rw [List.getElem?_append_left hlt]
      simp only [Nat.ne_of_lt hlt, false_or]
    · simp only [true_or, List.getElem?_concat_length, true_iff]
      exact ⟨child, rfl, hlife⟩
    · have hlength : (ps ++ [child]).length ≤ other := by
        rw [List.length_append]
        exact hgt
      rw [List.getElem?_eq_none hlength, List.getElem?_eq_none (Nat.le_of_lt hgt)]
      simp [Nat.ne_of_gt hgt]
  linked := by
    refine ⟨?_, hnested.linked.congr fun other hother => ?_⟩
    · simp only [parentOf, List.getElem?_concat_length, Option.bind_some, hparent]
    · simp only [parentOf, List.getElem?_append_left (hnested.lt_length hother)]

/-- The youngest process goes on besides its new child. -/
theorem set_fork (hnested : Nested ps (pid :: stack)) (hprocess : ps[pid]? = some process)
    (hlife : process.isReaped = false) (hparent : process'.parent = process.parent)
    (hlife' : process'.isReaped = false) (hchild : child.parent = some pid)
    (hchildLife : child.isReaped = false) :
    Nested (ps.set pid process' ++ [child]) (ps.length :: pid :: stack) := by
  have hfork := (hnested.set hprocess hlife hparent hlife').fork hchild hchildLife
  rwa [List.length_set] at hfork

/-- The youngest process has been waited for. -/
theorem reap (hnested : Nested ps (pid :: stack)) (hprocess' : process'.isReaped = true) :
    Nested (ps.set pid process') stack where
  nodup := hnested.nodup.of_cons
  mem_iff other := by
    have hmem := hnested.mem_iff other
    by_cases heq : pid = other
    · subst heq
      have hlt := hnested.lt_length List.mem_cons_self
      rw [List.getElem?_set_self hlt]
      refine iff_of_false (List.nodup_cons.mp hnested.nodup).1 ?_
      rintro ⟨process, hprocess, hlife⟩
      cases hprocess
      rw [hprocess'] at hlife
      exact nomatch hlife
    · rw [List.getElem?_set_ne heq, ← hmem, List.mem_cons]
      simp only [Ne.symm heq, false_or]
  linked := by
    have hnot := (List.nodup_cons.mp hnested.nodup).1
    have htail : Linked (parentOf ps) stack := by
      cases stack with
      | nil => trivial
      | cons next rest => exact hnested.linked.2
    refine htail.congr fun other hother => ?_
    have heq : pid ≠ other := fun heq => hnot (heq ▸ hother)
    simp only [parentOf, List.getElem?_set_ne heq]

/-- A child that has not been waited for stands right above its parent. -/
theorem exists_of_parent (hnested : Nested ps stack) (hprocess : ps[pid]? = some process)
    (hlife : process.isReaped = false) {parent : Nat} (hparent : process.parent = some parent) :
    ∃ before behind, stack = before ++ pid :: parent :: behind := by
  apply hnested.linked.exists_of_parent (hnested.mem hprocess hlife)
  rw [parentOf, hprocess]
  exact hparent

/-- Every process but the youngest one has a child that has not been waited for. -/
theorem exists_child (hnested : Nested ps stack) (hpid : pid ∈ stack.tail) :
    ∃ (child : Nat) (process : Process Own Code), ps[child]? = some process ∧
      process.isReaped = false ∧ process.parent = some pid := by
  obtain ⟨child, hmem, hparent⟩ := hnested.linked.exists_child hpid
  obtain ⟨process, hprocess, hlife⟩ := (hnested.mem_iff child).mp hmem
  rw [parentOf, hprocess] at hparent
  exact ⟨child, process, hprocess, hlife, hparent⟩

end Nested

end Processes
