import Acos.Alarm.Delivery
import Mathlib.Tactic.IntervalCases

/-!
# The interrupted program is resumed where it was

An alarm is delivered by a timer interrupt and ends with the page fault at `0xFFFFFFFF`. In between
the handler runs as any user code does. Over whole runs, deliveries and endings alternate, and an
ending puts back the frame of the delivery before it, provided that no delivery is made with a stack
pointer in the kernel's half, where the store of the return address may hit the saved frame itself.
-/

namespace Acos.Alarm

open ByteMemory Transition

/-- The event starts the handler. -/
def Event.Delivers (l : Layout) (event : Event) (s : State) : Prop :=
  (∃ writable, event = .timer writable) ∧ s.regs TrapFrame.cs &&& 3 = 3 ∧ (view l s.mem).due

/-- The event ends the handling of an alarm. -/
def Event.Restores (l : Layout) (event : Event) (s : State) : Prop :=
  (∃ err, event = .pageFault err 0xFFFFFFFF) ∧ fieldOf l s.mem .handlingAlarm ≠ 0

/-- The word below the stack pointer lies in the user's half of the address space. -/
def StackInUser (s : State) : Prop := (s.regs TrapFrame.esp - 4).toNat + 4 ≤ kernbase

instance (s : State) : Decidable (StackInUser s) := inferInstanceAs (Decidable (_ ≤ _))

/-- The trap frame that is current at a timer interrupt. -/
def State.interrupted (s : State) : TrapFrame := s.regs.entering 32 0

/-- The machine on entry to a system call. -/
def State.called (l : Layout) (s : State) : Machine := (s.enter l 64 0).setField l .tf l.tf

/-- A call of `alarm` is accepted with these arguments. -/
def State.AlarmArgs (l : Layout) (s : State) (ticks handler : Word) : Prop :=
  argint l (s.called l) 0 = some ticks ∧ argptr l (s.called l) 1 4 = some handler

theorem Event.Delivers.not_restores {l : Layout} {event : Event} {s : State}
    (hdelivers : event.Delivers l s) : ¬event.Restores l s := by
  rintro ⟨⟨err, rfl⟩, -⟩
  obtain ⟨⟨writable, htimer⟩, -⟩ := hdelivers
  cases htimer

/-! ### Entering and leaving a trap -/

theorem TrapFrame.entering_of_ne {regs : TrapFrame} {trapno err : Word} {r : Fin 19}
    (htrapno : r ≠ TrapFrame.trapno) (herr : r ≠ TrapFrame.err) :
    regs.entering trapno err r = regs r := by
  rw [TrapFrame.entering, Function.update_of_ne herr, Function.update_of_ne htrapno]

theorem TrapFrame.entering_trapno {regs : TrapFrame} {trapno err : Word} :
    regs.entering trapno err TrapFrame.trapno = trapno := by
  rw [TrapFrame.entering, Function.update_of_ne (by decide), Function.update_self]

section Enter

variable {l : Layout} {s : State} {trapno err : Word}

theorem State.enter_frame :
    readFrame (s.enter l trapno err).mem l.tf = s.regs.entering trapno err :=
  readFrame_pushFrame _ _ _

theorem State.enter_agree : Agree l s.mem (s.enter l trapno err).mem :=
  Agree.pushFrame l.tf_inStack _ _

theorem State.enter_trapno :
    readFrame (s.enter l trapno err).mem l.tf TrapFrame.trapno = trapno := by
  rw [State.enter_frame, TrapFrame.entering_trapno]

theorem resume_eq_some {o : Outcome} {s' : State} (hresume : resume l o = some s') :
    ∃ m, o = .returns m ∧ s' = ⟨m.mem, readFrame m.mem l.tf⟩ := by
  cases o with
  | returns m => exact ⟨m, rfl, (Option.some.inj hresume).symm⟩
  | exits => cases hresume
  | panics => cases hresume
  | spins => cases hresume

end Enter

section Dispatch

variable {l : Layout} {env : TrapEnv} {syscall : Machine → Machine} {tf : Addr} {m m' : Machine}

theorem trap_timer (htrapno : readFrame m.mem tf TrapFrame.trapno = 32) :
    trap l env syscall tf m = timer l env tf m := by
  rw [trap, Machine.reg_eq, htrapno]
  rfl

theorem trap_pageFault (htrapno : readFrame m.mem tf TrapFrame.trapno = 14) :
    trap l env syscall tf m = pageFault l env tf m := by
  rw [trap, Machine.reg_eq, htrapno]
  rfl

theorem trap_syscall (htrapno : readFrame m.mem tf TrapFrame.trapno = 64)
    (htrap : trap l env syscall tf m = .returns m') : m' = syscall (m.setField l .tf tf) := by
  rw [trap, Machine.reg_eq, htrapno] at htrap
  change (if _ then _ else if _ then _ else _) = _ at htrap
  split_ifs at htrap
  exact (Outcome.returns.inj htrap).symm

end Dispatch

/-! ### One event -/

section Occur

variable {l : Layout} {s s' : State} (hholds : Holds l s.mem)

include hholds

theorem occur_user {regs : TrapFrame} {writes : List (Addr × BitVec 8)}
    (hoccur : occur l (.user regs writes) s = some s') :
    Holds l s'.mem ∧ view l s'.mem = view l s.mem := by
  unfold occur at hoccur
  dsimp only at hoccur
  split_ifs at hoccur with huser
  cases hoccur
  have hagree : Agree l s.mem (writeAll writes s.mem) :=
    Agree.writeAll (fun w hw hprotected => absurd hprotected.le (Nat.not_le.mpr (huser.2 w hw))) _
  exact ⟨hholds.congr hagree, view_congr hagree⟩

theorem occur_timer {writable : Addr → Bool}
    (huser : (Event.timer writable).Delivers l s → StackInUser s)
    (hoccur : occur l (.timer writable) s = some s') :
    Holds l s'.mem ∧ view l s'.mem = if s.regs TrapFrame.cs &&& 3 = 3 then
      (view l s.mem).tick s.interrupted else view l s.mem := by
  obtain ⟨m, htrap, rfl⟩ := resume_eq_some hoccur
  rw [trap_timer State.enter_trapno] at htrap
  have hframe : ∀ r, r ≠ TrapFrame.trapno → r ≠ TrapFrame.err →
      (s.enter l 32 0).reg l.tf r = s.regs r := by
    intro r htrapno herr
    rw [Machine.reg_eq, State.enter_frame, TrapFrame.entering_of_ne htrapno herr]
  have hfrom : fromUser (s.enter l 32 0) l.tf = true ↔ s.regs TrapFrame.cs &&& 3 = 3 := by
    rw [fromUser_iff, ← Machine.reg_eq, hframe _ (by decide) (by decide)]
  have hview : view l (s.enter l 32 0).mem = view l s.mem := view_congr State.enter_agree
  obtain ⟨hholds', heffect⟩ := timer_view (hholds.congr State.enter_agree) l.tf_inStack
    (by
      intro hcs hdue
      rw [hframe _ (by decide) (by decide)]
      exact huser ⟨⟨writable, rfl⟩, hfrom.mp hcs, hview ▸ hdue⟩) htrap
  refine ⟨hholds', ?_⟩
  rw [heffect, hview, State.enter_frame]
  exact if_congr hfrom rfl rfl

/-- What a tick in user mode comes to, by the alarm as memory has it. -/
theorem trap_enter_timer (writable : Addr → Bool) :
    trap l ⟨0, writable⟩ id l.tf (s.enter l 32 0)
      = if s.regs TrapFrame.cs &&& 3 = 3 ∧ (view l s.mem).counts then
          if (view l s.mem).due then deliver l ⟨0, writable⟩ l.tf ((s.enter l 32 0).counted l)
          else finish l l.tf ((s.enter l 32 0).counted l)
        else finish l l.tf (s.enter l 32 0) := by
  have hfrom : fromUser (s.enter l 32 0) l.tf = true ↔ s.regs TrapFrame.cs &&& 3 = 3 := by
    rw [fromUser_iff, State.enter_frame, TrapFrame.entering_of_ne (by decide) (by decide)]
  rw [trap_timer State.enter_trapno, timer_eq (hholds.congr State.enter_agree),
    view_congr State.enter_agree]
  exact if_congr (and_congr_left' hfrom) rfl rfl

theorem State.counted_esp :
    ((s.enter l 32 0).counted l).reg l.tf TrapFrame.esp = s.regs TrapFrame.esp := by
  rw [Machine.reg_eq, Machine.frame_counted (hholds.congr State.enter_agree) l.tf_inStack,
    State.enter_frame, TrapFrame.entering_of_ne (by decide) (by decide)]

/-- A tick is over, the handler started or not, if the process has not been killed and the word that
a delivery stores can be stored. -/
theorem occur_timer_returns {writable : Addr → Bool} (halive : fieldOf l s.mem .killed = 0)
    (hready : (Event.timer writable).Delivers l s →
      StackInUser s ∧ WritableWord ⟨0, writable⟩ (s.regs TrapFrame.esp - 4)) :
    ∃ s', occur l (.timer writable) s = some s' := by
  have hentered : Holds l (s.enter l 32 0).mem := hholds.congr State.enter_agree
  have hcounted := Machine.counted_holds hentered
  have henter : fieldOf l (s.enter l 32 0).mem .killed = 0 :=
    (fieldOf_write_of_apart l.tf_inStack.apart_proc .killed).trans halive
  have hcount : fieldOf l ((s.enter l 32 0).counted l).mem .killed = 0 := by
    rw [Machine.counted, Machine.fieldOf_setField hentered, if_neg (by decide), henter]
  unfold occur
  dsimp only
  rw [trap_enter_timer hholds]
  split_ifs with hcounts hdue
  · obtain ⟨huser, hwritable⟩ := hready ⟨⟨writable, rfl⟩, hcounts.1, hdue⟩
    rw [deliver_returns hcounted l.tf_inStack (by rwa [State.counted_esp hholds])
      (by rwa [State.counted_esp hholds]) hcount]
    exact ⟨_, rfl⟩
  · rw [finish_of_alive hcounted l.tf hcount]
    exact ⟨_, rfl⟩
  · rw [finish_of_alive hentered l.tf henter]
    exact ⟨_, rfl⟩

/-- A delivery enters the handler that is set. -/
theorem occur_delivers_eip {event : Event} (hdelivers : event.Delivers l s) (huser : StackInUser s)
    (hoccur : occur l event s = some s') :
    s'.regs TrapFrame.eip = (view l s.mem).handler := by
  obtain ⟨⟨writable, rfl⟩, hcs, hdue⟩ := hdelivers
  obtain ⟨m, htrap, rfl⟩ := resume_eq_some hoccur
  have hentered : Holds l (s.enter l 32 0).mem := hholds.congr State.enter_agree
  rw [trap_enter_timer hholds, if_pos ⟨hcs, hdue.1⟩, if_pos hdue] at htrap
  refine (deliver_eip (Machine.counted_holds hentered) l.tf_inStack
    (by rwa [State.counted_esp hholds]) htrap).trans ?_
  rw [Machine.view_counted hentered, view_congr State.enter_agree]

theorem occur_kernelTimer {tf : Addr} {frame : TrapFrame}
    (hoccur : occur l (.kernelTimer tf frame) s = some s') :
    Holds l s'.mem ∧ view l s'.mem = view l s.mem := by
  unfold occur at hoccur
  dsimp only at hoccur
  split_ifs at hoccur with hkernel
  have hstack : InStack l tf := by
    refine ⟨offset l.kstack tf, hkernel.1.trans (by decide), ?_⟩
    rw [offset, BitVec.ofNat_toNat, BitVec.setWidth_eq, BitVec.add_comm, BitVec.sub_add_cancel]
  let m : Machine := ⟨pushFrame s.mem tf (frame.entering 32 0), []⟩
  have hagree : Agree l s.mem m.mem := Agree.pushFrame hstack _ _
  have hframe : readFrame m.mem tf = frame.entering 32 0 := readFrame_pushFrame _ _ _
  have htrapno : readFrame m.mem tf TrapFrame.trapno = 32 := by
    rw [hframe, TrapFrame.entering_trapno]
  have hfrom : ¬fromUser m tf = true := by
    rw [fromUser_iff, hframe, TrapFrame.entering_of_ne (by decide) (by decide), hkernel.2]
    decide
  split at hoccur
  · rename_i m' htrap
    cases hoccur
    rw [trap_timer htrapno] at htrap
    obtain ⟨hholds', heffect⟩ := timer_view (hholds.congr hagree) hstack
      (fun huser => absurd huser hfrom) htrap
    rw [if_neg hfrom, view_congr hagree] at heffect
    exact ⟨hholds', heffect⟩
  · cases hoccur

/-- On entry to a system call `myproc()->tf` is set, which is not the alarm's. -/
theorem enter_syscall : Holds l (s.called l).mem ∧ view l (s.called l).mem = view l s.mem
    ∧ (s.called l).field l .tf = l.tf := by
  have hentered : Holds l (s.enter l 64 0).mem := hholds.congr State.enter_agree
  have hset := Machine.setField_holds hentered (f := .tf) (by decide) l.tf
  rw [State.called]
  refine ⟨hset, ?_, ?_⟩
  · rw [Machine.view_setField hentered, view_congr State.enter_agree]
    rfl
  · rw [Machine.field_eq hset, Machine.fieldOf_setField hentered, if_pos rfl]

omit hholds in
/-- The process goes on with what the system call has left in memory. -/
theorem resume_syscall {env : TrapEnv} {syscall : Machine → Machine}
    (hresume : resume l (trap l env syscall l.tf (s.enter l 64 0)) = some s') :
    s'.mem = (syscall (s.called l)).mem := by
  obtain ⟨m, htrap, rfl⟩ := resume_eq_some hresume
  rw [State.called, ← trap_syscall State.enter_trapno htrap]

/-- Apart from the result in `eax`, a call of `alarm` does what `sys_alarm` does. -/
theorem occur_alarm_view (hoccur : occur l .alarm s = some s') :
    Holds l s'.mem ∧ view l s'.mem = view l (sysAlarm l (s.called l)).1.mem := by
  have hmem : s'.mem = (syscallAlarm l (s.called l)).mem := resume_syscall hoccur
  obtain ⟨hcalled, -, htf⟩ := enter_syscall hholds
  have hagree := Agree.setReg l.tf_inStack (sysAlarm l (s.called l)).1 TrapFrame.eax
    (sysAlarm l (s.called l)).2
  rw [hmem, syscallAlarm, htf]
  exact ⟨(sysAlarm_view hcalled).1.congr hagree, view_congr hagree⟩

theorem occur_alarm (hoccur : occur l .alarm s = some s') :
    Holds l s'.mem ∧ (view l s'.mem = view l s.mem
      ∨ ∃ ticks handler, s.AlarmArgs l ticks handler
        ∧ view l s'.mem = (view l s.mem).set ticks handler) := by
  obtain ⟨hholds', hsys⟩ := occur_alarm_view hholds hoccur
  obtain ⟨hcalled, hview, -⟩ := enter_syscall hholds
  refine ⟨hholds', ?_⟩
  rw [hsys, (sysAlarm_view hcalled).2, hview]
  split
  · exact Or.inr ⟨_, _, ⟨‹_›, ‹_›⟩, rfl⟩
  · exact Or.inl rfl

theorem occur_alarm_args {ticks handler : Word} (hargs : s.AlarmArgs l ticks handler)
    (hoccur : occur l .alarm s = some s') :
    view l s'.mem = (view l s.mem).set ticks handler := by
  obtain ⟨hcalled, hview, -⟩ := enter_syscall hholds
  rw [(occur_alarm_view hholds hoccur).2, (sysAlarm_view hcalled).2, hargs.1, hargs.2, hview]

theorem occur_syscall {writes : List (Addr × BitVec 8)}
    (hoccur : occur l (.syscall writes) s = some s') :
    Holds l s'.mem ∧ view l s'.mem = view l s.mem := by
  unfold occur at hoccur
  dsimp only at hoccur
  split_ifs at hoccur with houtside
  have hmem : s'.mem = writeAll writes (s.called l).mem := resume_syscall hoccur
  obtain ⟨hcalled, hview, -⟩ := enter_syscall hholds
  have hagree : Agree l (s.called l).mem (writeAll writes (s.called l).mem) :=
    Agree.writeAll houtside _
  rw [hmem]
  exact ⟨hcalled.congr hagree, (view_congr hagree).trans hview⟩

theorem occur_pageFault {err cr2 : Word} (hoccur : occur l (.pageFault err cr2) s = some s') :
    Holds l s'.mem ∧
      if (view l s.mem).handling ≠ 0 ∧ cr2 = 0xFFFFFFFF then
        view l s'.mem = (view l s.mem).finish ∧ readFrame s'.mem l.tf = (view l s.mem).saved
          ∧ s'.regs = (view l s.mem).saved
      else view l s'.mem = view l s.mem := by
  obtain ⟨m, htrap, rfl⟩ := resume_eq_some hoccur
  rw [trap_pageFault State.enter_trapno] at htrap
  have hview : view l (s.enter l 14 err).mem = view l s.mem := view_congr State.enter_agree
  obtain ⟨hholds', heffect⟩ := pageFault_view (hholds.congr State.enter_agree) l.tf_inStack htrap
  rw [hview] at heffect
  dsimp only at heffect
  refine ⟨hholds', ?_⟩
  split_ifs at heffect ⊢
  · exact ⟨heffect.1, heffect.2, heffect.2⟩
  · rw [heffect, hview]

/-- The period and the handler are those of before, or those of an accepted call of `alarm`. -/
theorem occur_settings {event : Event} (huser : event.Delivers l s → StackInUser s)
    (hoccur : occur l event s = some s') :
    ((view l s'.mem).alarmtime = (view l s.mem).alarmtime
        ∧ (view l s'.mem).handler = (view l s.mem).handler)
      ∨ event = .alarm ∧ ∃ ticks, s.AlarmArgs l ticks (view l s'.mem).handler := by
  cases event with
  | user regs writes =>
      rw [(occur_user hholds hoccur).2]
      exact Or.inl ⟨rfl, rfl⟩
  | timer writable =>
      rw [(occur_timer hholds huser hoccur).2]
      refine Or.inl ?_
      unfold AlarmState.tick
      split_ifs <;> exact ⟨rfl, rfl⟩
  | kernelTimer tf frame =>
      rw [(occur_kernelTimer hholds hoccur).2]
      exact Or.inl ⟨rfl, rfl⟩
  | alarm =>
      obtain ⟨-, hview | ⟨ticks, handler, hargs, hview⟩⟩ := occur_alarm hholds hoccur
      · rw [hview]
        exact Or.inl ⟨rfl, rfl⟩
      · rw [hview]
        exact Or.inr ⟨rfl, ticks, hargs⟩
  | syscall writes =>
      rw [(occur_syscall hholds hoccur).2]
      exact Or.inl ⟨rfl, rfl⟩
  | pageFault err cr2 =>
      have heffect := (occur_pageFault hholds hoccur).2
      refine Or.inl ?_
      split_ifs at heffect
      · rw [heffect.1]
        exact ⟨rfl, rfl⟩
      · rw [heffect]
        exact ⟨rfl, rfl⟩

end Occur

/-- What an event does to the flag and to the saved frame. -/
inductive Effect (l : Layout) (event : Event) (s s' : State) : Prop where
  | delivers (hdelivers : event.Delivers l s) (hhandling : (view l s'.mem).handling ≠ 0)
      (hsaved : (view l s'.mem).saved = s.interrupted)
  | restores (hrestores : event.Restores l s) (hhandling : (view l s'.mem).handling = 0)
      (hframe : readFrame s'.mem l.tf = (view l s.mem).saved)
      (hregs : s'.regs = (view l s.mem).saved)
  | keeps (hdelivers : ¬event.Delivers l s) (hrestores : ¬event.Restores l s)
      (hhandling : (view l s'.mem).handling = (view l s.mem).handling)
      (hsaved : (view l s'.mem).saved = (view l s.mem).saved)

theorem Effect.of_view_eq {l : Layout} {event : Event} {s s' : State}
    (hview : view l s'.mem = view l s.mem) (hdelivers : ¬event.Delivers l s)
    (hrestores : ¬event.Restores l s) : Effect l event s s' :=
  .keeps hdelivers hrestores (by rw [hview]) (by rw [hview])

theorem occur_effect {l : Layout} {event : Event} {s s' : State} (hholds : Holds l s.mem)
    (huser : event.Delivers l s → StackInUser s) (hoccur : occur l event s = some s') :
    Holds l s'.mem ∧ Effect l event s s' := by
  cases event with
  | user regs writes =>
      obtain ⟨hholds', hview⟩ := occur_user hholds hoccur
      exact ⟨hholds', .of_view_eq hview nofun nofun⟩
  | timer writable =>
      obtain ⟨hholds', hview⟩ := occur_timer hholds huser hoccur
      refine ⟨hholds', ?_⟩
      by_cases hcs : s.regs TrapFrame.cs &&& 3 = 3
      · rw [if_pos hcs, AlarmState.tick] at hview
        by_cases hdue : (view l s.mem).due
        · rw [if_pos hdue] at hview
          refine .delivers ⟨⟨writable, rfl⟩, hcs, hdue⟩ ?_ ?_
          · rw [hview]
            exact (by decide : (1 : Word) ≠ 0)
          · rw [hview]
        · rw [if_neg hdue] at hview
          refine .keeps (fun hdelivers => hdue hdelivers.2.2) nofun ?_ ?_
          · rw [hview]
            split_ifs <;> rfl
          · rw [hview]
            split_ifs <;> rfl
      · rw [if_neg hcs] at hview
        exact .of_view_eq hview (fun hdelivers => hcs hdelivers.2.1) nofun
  | kernelTimer tf frame =>
      obtain ⟨hholds', hview⟩ := occur_kernelTimer hholds hoccur
      exact ⟨hholds', .of_view_eq hview nofun nofun⟩
  | alarm =>
      obtain ⟨hholds', hview | ⟨ticks, handler, -, hview⟩⟩ := occur_alarm hholds hoccur
      · exact ⟨hholds', .of_view_eq hview nofun nofun⟩
      · refine ⟨hholds', .keeps nofun nofun ?_ ?_⟩
        · rw [hview, AlarmState.set]
        · rw [hview, AlarmState.set]
  | syscall writes =>
      obtain ⟨hholds', hview⟩ := occur_syscall hholds hoccur
      exact ⟨hholds', .of_view_eq hview nofun nofun⟩
  | pageFault err cr2 =>
      obtain ⟨hholds', heffect⟩ := occur_pageFault hholds hoccur
      refine ⟨hholds', ?_⟩
      split_ifs at heffect with hends
      · obtain ⟨hhandling, rfl⟩ := hends
        refine .restores ⟨⟨err, rfl⟩, hhandling⟩ ?_ heffect.2.1 heffect.2.2
        rw [heffect.1, AlarmState.finish]
      · refine .of_view_eq heffect nofun ?_
        rintro ⟨⟨_, hevent⟩, hhandling⟩
        exact hends ⟨hhandling, (Event.pageFault.inj hevent).2⟩

/-! ### Whole runs -/

section Runs

variable {l : Layout} (run : Run (alarmSystem l))

/-- At step `i` a handler is started. -/
def DeliversAt (i : Nat) : Prop := (run.label i).Delivers l (run.state i)

/-- At step `i` the handling of an alarm ends. -/
def RestoresAt (i : Nat) : Prop := (run.label i).Restores l (run.state i)

/-- Step `j` is the delivery that is still being handled before step `i`. -/
def OpenSince (i j : Nat) : Prop :=
  j < i ∧ DeliversAt run j ∧ ∀ k, j < k → k < i → ¬DeliversAt run k ∧ ¬RestoresAt run k

/-- The flag tells whether a delivery is open, and its frame is the saved one. -/
def Tracks (i : Nat) : Prop :=
  Holds l (run.state i).mem ∧
    (((view l (run.state i).mem).handling = 0
        ∧ ∀ j, j < i → DeliversAt run j → ∃ k, j < k ∧ k < i ∧ RestoresAt run k)
      ∨ ((view l (run.state i).mem).handling ≠ 0
        ∧ ∃ j, OpenSince run i j ∧ (view l (run.state i).mem).saved = (run.state j).interrupted))

theorem tracks_zero : Tracks run 0 := by
  obtain ⟨hholds, hfields⟩ := run.starts
  exact ⟨hholds,
    Or.inl ⟨hfields .handlingAlarm (by simp), fun j hj => absurd hj (Nat.not_lt_zero j)⟩⟩

theorem tracks_succ {i : Nat} (hi : i < run.length)
    (huser : DeliversAt run i → StackInUser (run.state i)) (htracks : Tracks run i) :
    Tracks run (i + 1) := by
  obtain ⟨hholds, hopen⟩ := htracks
  obtain ⟨hholds', heffect⟩ := occur_effect hholds huser (run.steps i hi)
  refine ⟨hholds', ?_⟩
  cases heffect with
  | delivers hdelivers hhandling hsaved =>
      refine Or.inr ⟨hhandling, i, ⟨Nat.lt_succ_self i, hdelivers, fun k hik hki => ?_⟩, hsaved⟩
      omega
  | restores hrestores hhandling hframe hregs =>
      refine Or.inl ⟨hhandling, fun j hj hdelivers => ?_⟩
      have hji : j ≠ i := fun heq => (heq ▸ hdelivers).not_restores hrestores
      exact ⟨i, by omega, Nat.lt_succ_self i, hrestores⟩
  | keeps hdelivers hrestores hhandling hsaved =>
      rw [hhandling, hsaved]
      rcases hopen with ⟨hzero, hclosed⟩ | ⟨hone, j, ⟨hj, hdelivered, hbetween⟩, hframe⟩
      · refine Or.inl ⟨hzero, fun j hj hdelivered => ?_⟩
        have hji : j ≠ i := fun heq => hdelivers (heq ▸ hdelivered)
        obtain ⟨k, hjk, hki, hrestored⟩ := hclosed j (by omega) hdelivered
        exact ⟨k, hjk, by omega, hrestored⟩
      · refine Or.inr ⟨hone, j, ⟨by omega, hdelivered, fun k hjk hki => ?_⟩, hframe⟩
        by_cases hk : k = i
        · subst hk
          exact ⟨hdelivers, hrestores⟩
        · exact hbetween k hjk (by omega)

/-- **An alarm return resumes what the alarm interrupted.** In every run whose deliveries are all
made with the stack pointer in the user's half, no handler is started before the previous one has
ended, and the frame that an ending puts in place, and the registers the process goes on with, are
exactly those of the interrupt that delivered the alarm. -/
theorem alarm_return_restores
    (huser : ∀ i, i < run.length → DeliversAt run i → StackInUser (run.state i)) :
    (∀ i j, i < j → j < run.length → DeliversAt run i → DeliversAt run j →
        ∃ k, i < k ∧ k < j ∧ RestoresAt run k)
      ∧ ∀ k, k < run.length → RestoresAt run k → ∃ j, OpenSince run k j
        ∧ readFrame (run.state (k + 1)).mem l.tf = (run.state j).interrupted
        ∧ (run.state (k + 1)).regs = (run.state j).interrupted := by
  have htracks : ∀ i, i ≤ run.length → Tracks run i :=
    run.induction (tracks_zero run) fun i hi => tracks_succ run hi (huser i hi)
  constructor
  · intro i j hij hj hfirst hsecond
    obtain ⟨-, ⟨-, hclosed⟩ | ⟨hhandling, -⟩⟩ := htracks j hj.le
    · exact hclosed i hij hfirst
    · exact absurd hsecond.2.2.1.2 hhandling
  · intro k hk hrestores
    obtain ⟨hholds, ⟨hzero, -⟩ | ⟨-, j, hopen, hsaved⟩⟩ := htracks k hk.le
    · exact absurd hzero hrestores.2
    · obtain ⟨-, heffect⟩ := occur_effect hholds (huser k hk) (run.steps k hk)
      cases heffect with
      | delivers hdelivers => exact absurd hrestores hdelivers.not_restores
      | restores _ _ hframe hregs => exact ⟨j, hopen, hframe.trans hsaved, hregs.trans hsaved⟩
      | keeps _ hnot => exact absurd hrestores hnot

end Runs

/-- A process that is about to call `alarm(1, 0x80)`. -/
def sampleStart : State where
  mem :=
    let l := sampleLayout
    let words : List (Addr × Word) :=
      [(l.cpu, l.proc), (l.proc, 0x4000), (l.proc + 140, l.alarmTf), (0x2004, 1), (0x2008, 0x80)]
    words.foldl (fun mem w => mem.store32 w.1 w.2) fun _ => 0
  regs := fun r => if r = TrapFrame.cs then 0x1B else if r = TrapFrame.esp then 0x2000
    else if r = TrapFrame.eax then 22 else 0

/-- It calls `alarm`, moves its stack pointer, is interrupted by the timer and returns from the
handler. -/
def sampleEvents (esp : Word) : List Event :=
  [.alarm, .user (Function.update sampleStart.regs TrapFrame.esp esp) [], .timer fun _ => true,
    .pageFault 0 0xFFFFFFFF]

theorem sampleStart_started : Started sampleLayout sampleStart := by
  refine ⟨by decide +kernel, ?_⟩
  decide +kernel

/-- With the stack pointer in the saved frame, the return address overwrites the saved `eip`. -/
theorem alarm_return_corrupted :
    ∃ run : Run (alarmSystem sampleLayout), run.length = 4 ∧ DeliversAt run 2 ∧ RestoresAt run 3
      ∧ readFrame (run.state 4).mem sampleLayout.tf TrapFrame.eip = 0xFFFFFFFF
      ∧ (run.state 2).interrupted TrapFrame.eip = 0 := by
  let run : Run (alarmSystem sampleLayout) :=
    .ofExecute sampleStart sampleStart_started (sampleEvents (sampleLayout.alarmTf + 60)) .alarm
      (by decide +kernel)
  exact ⟨run, rfl, ⟨⟨_, rfl⟩, by decide +kernel, by decide +kernel⟩,
    ⟨⟨_, rfl⟩, by decide +kernel⟩, by decide +kernel, by decide +kernel⟩

theorem alarm_return_restores_after_tick :
    ∃ run : Run (alarmSystem sampleLayout), run.length = 4
      ∧ (∀ i, i < run.length → DeliversAt run i → StackInUser (run.state i))
      ∧ DeliversAt run 2 ∧ RestoresAt run 3
      ∧ ∃ j, OpenSince run 3 j
        ∧ readFrame (run.state 4).mem sampleLayout.tf = (run.state j).interrupted
        ∧ (run.state 4).regs = (run.state j).interrupted := by
  let run : Run (alarmSystem sampleLayout) :=
    .ofExecute sampleStart sampleStart_started (sampleEvents 0x3000) .alarm (by decide +kernel)
  have huser : ∀ i, i < run.length → DeliversAt run i → StackInUser (run.state i) := by
    rintro i hi ⟨⟨writable, htimer⟩, -⟩
    have hi : i < 4 := hi
    interval_cases i
    · cases htimer
    · cases htimer
    · decide +kernel
    · cases htimer
  have hrestores : RestoresAt run 3 := ⟨⟨_, rfl⟩, by decide +kernel⟩
  exact ⟨run, rfl, huser, ⟨⟨_, rfl⟩, by decide +kernel, by decide +kernel⟩, hrestores,
    (alarm_return_restores run huser).2 3 (by decide) hrestores⟩

end Acos.Alarm
