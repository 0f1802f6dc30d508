import Acos.Alarm.Restore

/-!
# What becomes of a process that faults

A trap that is neither a system call nor a device interrupt is the fault of the process. The page
fault at `0xFFFFFFFF` is how a handler returns; any other fault should end the process, or stop the
kernel if it is the kernel's. The switch of `trap` has an arm of its own for page faults, and what
that arm does not recognise as the return from a handler it leaves alone: the tail of `trap` finds
nothing to do, and the instruction that has faulted is tried again.
-/

namespace Acos.Alarm

open ByteMemory

/-- The numbers of the device interrupts that `trap` handles. -/
def deviceTraps : List Nat := [32, 33, 36, 39, 46, 47, 63]

section Faults

variable (l : Layout) (env : TrapEnv) (syscall : Machine → Machine) (tf : Addr) (m : Machine)

/-- The trap is neither a system call nor one of the handled device interrupts. -/
def IsFault : Prop :=
  (m.reg tf TrapFrame.trapno).toNat ≠ 64 ∧ (m.reg tf TrapFrame.trapno).toNat ∉ deviceTraps

def IsPageFault : Prop := m.reg tf TrapFrame.trapno = 14

/-- The fault is the return from a handler. -/
def EndsAlarm : Prop :=
  IsPageFault tf m ∧ fieldOf l m.mem .handlingAlarm ≠ 0 ∧ env.cr2 = 0xFFFFFFFF

/-- The saved frame is put back and the handling of the alarm is over. -/
def Restored : Prop :=
  ∃ m', trap l env syscall tf m = .returns m' ∧ readFrame m'.mem tf = (view l m.mem).saved
    ∧ view l m'.mem = (view l m.mem).finish

/-- The process is marked as killed and exits. -/
def Killed : Prop :=
  ∃ m', trap l env syscall tf m = .exits m' ∧ fieldOf l m'.mem .killed ≠ 0

def Panics : Prop := ∃ m', trap l env syscall tf m = .panics m'

/-- What `trap` should do about a fault. -/
structure FaultHandled : Prop where
  restored : EndsAlarm l env tf m → Restored l env syscall tf m
  killed : ¬EndsAlarm l env tf m → fromUser m tf = true → Killed l env syscall tf m
  panics : ¬EndsAlarm l env tf m → fromUser m tf = false → Panics l env syscall tf m
  /-- User mode is not entered again with everything as it was at the fault. -/
  not_looping : fromUser m tf = true → ∀ m', trap l env syscall tf m = .returns m' →
    m'.mem ≠ m.mem

instance : Decidable (IsFault tf m) := inferInstanceAs (Decidable (_ ∧ _))

instance : Decidable (IsPageFault tf m) := inferInstanceAs (Decidable (_ = _))

instance : Decidable (EndsAlarm l env tf m) := inferInstanceAs (Decidable (_ ∧ _))

end Faults

section Handled

variable {l : Layout} {env : TrapEnv} {syscall : Machine → Machine} {tf : Addr} {m : Machine}

/-- A fault that is not a page fault reaches the default arm. -/
theorem trap_default (hfault : IsFault tf m) (hpage : ¬IsPageFault tf m) :
    trap l env syscall tf m = if m.myproc l = 0 ∨ m.reg tf TrapFrame.cs &&& 3 = 0 then .panics m
      else finish l tf (m.setField l .killed 1) := by
  obtain ⟨hcall, hdevice⟩ := hfault
  have hpage : (m.reg tf TrapFrame.trapno).toNat ≠ 14 := fun heq =>
    hpage (BitVec.eq_of_toNat_eq heq)
  unfold trap
  split
  · exact absurd ‹_› hcall
  · exact absurd (by rw [‹(m.reg tf TrapFrame.trapno).toNat = _›]; decide) hdevice
  · exact absurd ‹_› hpage
  all_goals first
    | rfl
    | exact absurd (by rw [‹(m.reg tf TrapFrame.trapno).toNat = _›]; decide) hdevice

variable (hholds : Holds l m.mem) (hstack : InStack l tf)

include hholds

theorem finish_of_user (hfrom : fromUser m tf = true) :
    finish l tf m = if fieldOf l m.mem .killed ≠ 0 then .exits m else .returns m := by
  simp only [finish, ne_eq, Machine.myproc_ne_zero hholds, not_false_eq_true, true_and, hfrom,
    and_true, Machine.field_eq hholds]

omit hholds in
theorem finish_of_kernel (hfrom : fromUser m tf = false) : finish l tf m = .returns m := by
  simp [finish, hfrom]

include hstack

theorem trap_of_endsAlarm (hends : EndsAlarm l env tf m) : Restored l env syscall tf m := by
  obtain ⟨hpage, hhandling, hcr2⟩ := hends
  have htest : m.myproc l ≠ 0 ∧ m.field l .handlingAlarm ≠ 0 ∧ env.cr2 = 0xFFFFFFFF :=
    ⟨Machine.myproc_ne_zero hholds, by rwa [Machine.field_eq hholds], hcr2⟩
  have hreturns : pageFault l env tf m = .returns _ := if_pos htest
  obtain ⟨-, heffect⟩ := pageFault_view hholds hstack hreturns
  rw [if_pos ⟨hhandling, hcr2⟩] at heffect
  exact ⟨_, (trap_pageFault hpage).trans hreturns, heffect.2, heffect.1⟩

omit hstack in
/-- A page fault that is not the return from a handler is left alone. -/
theorem trap_of_other_pageFault (hpage : IsPageFault tf m) (hends : ¬EndsAlarm l env tf m) :
    trap l env syscall tf m = finish l tf m := by
  rw [trap_pageFault hpage, pageFault, if_neg]
  rintro ⟨-, hhandling, hcr2⟩
  rw [Machine.field_eq hholds] at hhandling
  exact hends ⟨hpage, hhandling, hcr2⟩

/-- Any other fault from user mode kills the process. -/
theorem trap_of_user_fault (hfault : IsFault tf m) (hpage : ¬IsPageFault tf m)
    (hfrom : fromUser m tf = true) : Killed l env syscall tf m := by
  have hset := Machine.setField_holds hholds (f := .killed) (by decide) 1
  have hkilled : fieldOf l (m.setField l .killed 1).mem .killed ≠ 0 := by
    rw [Machine.fieldOf_setField hholds, if_pos rfl]
    decide
  have hcs : m.reg tf TrapFrame.cs &&& 3 = 3 := fromUser_iff.mp hfrom
  have hfrom' : fromUser (m.setField l .killed 1) tf = true := by
    rwa [fromUser_iff, Machine.frame_setField hholds hstack, ← fromUser_iff]
  refine ⟨_, ?_, hkilled⟩
  rw [trap_default hfault hpage, if_neg, finish_of_user hset hfrom', if_pos hkilled]
  rintro (hproc | hkernel)
  · exact Machine.myproc_ne_zero hholds hproc
  · rw [hcs] at hkernel
    exact absurd hkernel (by decide)

theorem FaultHandled.of_endsAlarm (hends : EndsAlarm l env tf m) :
    FaultHandled l env syscall tf m := by
  have hrestored : Restored l env syscall tf m := trap_of_endsAlarm hholds hstack hends
  refine ⟨fun _ => hrestored, fun hnot => absurd hends hnot, fun hnot => absurd hends hnot, ?_⟩
  rintro - m' hreturns hsame
  obtain ⟨restored, htrap, -, hview⟩ := hrestored
  obtain rfl : restored = m' := Outcome.returns.inj (htrap.symm.trans hreturns)
  have hover : fieldOf l m.mem .handlingAlarm = 0 := by
    rw [← hsame]
    exact congrArg AlarmState.handling hview
  exact hends.2.1 hover

omit hholds hstack in
theorem FaultHandled.of_killed (hends : ¬EndsAlarm l env tf m) (hfrom : fromUser m tf = true)
    (hkilled : Killed l env syscall tf m) : FaultHandled l env syscall tf m := by
  refine ⟨fun hyes => absurd hyes hends, fun _ _ => hkilled, fun _ hkernel => ?_, ?_⟩
  · rw [hfrom] at hkernel
    cases hkernel
  · rintro - m' hreturns
    obtain ⟨exited, htrap, -⟩ := hkilled
    cases htrap.symm.trans hreturns

omit hholds hstack in
theorem FaultHandled.of_panics (hends : ¬EndsAlarm l env tf m) (hfrom : fromUser m tf = false)
    (hpanics : Panics l env syscall tf m) : FaultHandled l env syscall tf m := by
  refine ⟨fun hyes => absurd hyes hends, fun _ huser => ?_, fun _ _ => hpanics, fun huser => ?_⟩
  · rw [hfrom] at huser
    cases huser
  · rw [hfrom] at huser
    cases huser

/-- A fault of the process other than a page fault is handled in either mode. -/
theorem FaultHandled.of_not_pageFault (hmode : m.reg tf TrapFrame.cs &&& 3 = 3
      ∨ m.reg tf TrapFrame.cs &&& 3 = 0) (hfault : IsFault tf m) (hpage : ¬IsPageFault tf m) :
    FaultHandled l env syscall tf m := by
  have hends : ¬EndsAlarm l env tf m := fun hends => hpage hends.1
  rcases hmode with huser | hkernel
  · have hfrom : fromUser m tf = true := fromUser_iff.mpr huser
    exact .of_killed hends hfrom (trap_of_user_fault hholds hstack hfault hpage hfrom)
  · refine .of_panics hends ?_ ⟨m, ?_⟩
    · rw [fromUser, hkernel]
      rfl
    · rw [trap_default hfault hpage, if_pos (Or.inr hkernel)]

/-- **Which faults are handled.** `trap` restores the saved frame, kills the process or panics as it
should, and never goes back to a fault with nothing changed, if and only if the fault is not a page
fault, or it is the return from a handler, or the process is in user mode and was killed already. -/
theorem fault_handled_iff (hmode : m.reg tf TrapFrame.cs &&& 3 = 3
      ∨ m.reg tf TrapFrame.cs &&& 3 = 0) (hfault : IsFault tf m) :
    FaultHandled l env syscall tf m ↔ ¬IsPageFault tf m ∨ EndsAlarm l env tf m
      ∨ fromUser m tf = true ∧ fieldOf l m.mem .killed ≠ 0 := by
  constructor
  · intro hhandled
    by_contra hnone
    obtain ⟨hpage, hends, halive⟩ := by simpa only [not_or, not_not] using hnone
    have htrap : trap l env syscall tf m = finish l tf m :=
      trap_of_other_pageFault hholds hpage hends
    cases hfrom : fromUser m tf with
    | false =>
        obtain ⟨m', hpanics⟩ := hhandled.panics hends hfrom
        rw [htrap, finish_of_kernel hfrom] at hpanics
        cases hpanics
    | true =>
        have halive : ¬fieldOf l m.mem .killed ≠ 0 := fun hkilled => halive ⟨hfrom, hkilled⟩
        refine hhandled.not_looping hfrom m ?_ rfl
        rw [htrap, finish_of_user hholds hfrom, if_neg halive]
  · intro hcases
    by_cases hpage : IsPageFault tf m
    · by_cases hends : EndsAlarm l env tf m
      · exact .of_endsAlarm hholds hstack hends
      · obtain ⟨hfrom, hkilled⟩ := (hcases.resolve_left (not_not.mpr hpage)).resolve_left hends
        refine .of_killed hends hfrom ⟨m, ?_, hkilled⟩
        rw [trap_of_other_pageFault hholds hpage hends, finish_of_user hholds hfrom,
          if_pos hkilled]
    · exact .of_not_pageFault hholds hstack hmode hfault hpage

end Handled

/-- The memory of a process that has been interrupted by this trap. -/
def faultMemory (trapno cs : Word) : Memory 32 :=
  let l := sampleLayout
  let words : List (Addr × Word) := [(l.cpu, l.proc), (l.proc, 0x4000), (l.proc + 140, l.alarmTf)]
  let frame : TrapFrame := fun r => if r = TrapFrame.trapno then trapno
    else if r = TrapFrame.cs then cs else 0
  pushFrame (words.foldl (fun mem w => mem.store32 w.1 w.2) fun _ => 0) l.tf frame

/-- A process that reads address 0, which is not mapped, is sent back to do it again. -/
theorem fault_retried_forever :
    let m : Machine := ⟨faultMemory 14 0x1B, []⟩
    let env : TrapEnv := ⟨0, fun _ => true⟩
    Holds sampleLayout m.mem ∧ IsFault sampleLayout.tf m ∧ fromUser m sampleLayout.tf = true
      ∧ trap sampleLayout env id sampleLayout.tf m = .returns m
      ∧ ¬FaultHandled sampleLayout env id sampleLayout.tf m := by
  intro m env
  have hholds : Holds sampleLayout m.mem := by decide +kernel
  have hfault : IsFault sampleLayout.tf m := by decide +kernel
  have hfrom : fromUser m sampleLayout.tf = true := by decide +kernel
  have hreturns : trap sampleLayout env id sampleLayout.tf m = .returns m := by
    rw [trap_of_other_pageFault hholds (by decide +kernel) (by decide +kernel),
      finish_of_user hholds hfrom, if_neg (by decide +kernel)]
  exact ⟨hholds, hfault, hfrom, hreturns, fun hhandled => hhandled.not_looping hfrom m hreturns rfl⟩

/-- A division by zero ends the process. -/
theorem fault_handled_divide :
    let m : Machine := ⟨faultMemory 0 0x1B, []⟩
    let env : TrapEnv := ⟨0, fun _ => true⟩
    Holds sampleLayout m.mem ∧ IsFault sampleLayout.tf m
      ∧ FaultHandled sampleLayout env id sampleLayout.tf m := by
  intro m env
  have hholds : Holds sampleLayout m.mem := by decide +kernel
  have hfault : IsFault sampleLayout.tf m := by decide +kernel
  exact ⟨hholds, hfault, (fault_handled_iff hholds sampleLayout.tf_inStack (by decide +kernel)
    hfault).mpr (Or.inl (by decide +kernel))⟩

end Acos.Alarm
