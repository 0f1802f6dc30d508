import Acos.Alarm.Exec

/-!
# The alarm and the program image

A process calls `alarm` and `exec` in any order, with the timer and the handler in between. An
alarm belongs to the image that has set it: the handler's address means nothing in another one, and
neither do the saved registers. Since `exec` keeps both, a run respects this only as long as every
`exec` finds no alarm set and none being handled.
-/

namespace Acos.Alarm

open ByteMemory Transition

inductive ImageEvent where
  | trap (event : Event)
  | exec (env : ExecEnv) (argv : List (List (BitVec 8)))

def imageOccur (l : Layout) (event : ImageEvent) (s : State) : Option State :=
  match event with
  | .trap event => occur l event s
  | .exec env argv =>
      resume l (trap l ⟨0, fun _ => true⟩ (syscallExec l env argv) l.tf (s.enter l 64 0))

def imageSystem (l : Layout) : System State ImageEvent := .ofFunction (Started l) (imageOccur l)

/-! ### One event -/

section Occur

variable {l : Layout} {s s' : State} (hholds : Holds l s.mem)

include hholds

theorem imageOccur_exec {env : ExecEnv} {argv : List (List (BitVec 8))}
    (hoccur : imageOccur l (.exec env argv) s = some s') :
    Holds l s'.mem ∧ view l s'.mem = view l s.mem := by
  have hmem : s'.mem = (syscallExec l env argv (s.called l)).mem := resume_syscall hoccur
  obtain ⟨hcalled, hview, htf⟩ := enter_syscall hholds
  obtain ⟨hexec, hview'⟩ := exec_view hcalled htf env argv
  rw [hmem, syscallExec, htf]
  have hagree := Agree.setReg l.tf_inStack (exec l env argv (s.called l)).1 TrapFrame.eax
    (exec l env argv (s.called l)).2
  exact ⟨hexec.congr hagree, (view_congr hagree).trans (hview'.trans hview)⟩

end Occur

/-! ### Whole runs -/

namespace Image

section Runs

variable {l : Layout} (run : Run (imageSystem l))

/-- At step `i` a handler is started. -/
def DeliversAt (i : Nat) : Prop :=
  ∃ event, run.label i = .trap event ∧ event.Delivers l (run.state i)

/-- At step `i` the handling of an alarm ends. -/
def RestoresAt (i : Nat) : Prop :=
  ∃ event, run.label i = .trap event ∧ event.Restores l (run.state i)

/-- At step `i` an `exec` succeeds. -/
def ExecsAt (i : Nat) : Prop :=
  ∃ env argv, run.label i = .exec env argv ∧ (buildImage env argv).isSome

/-- At step `i` a call of `alarm` registers this handler. -/
def RegistersAt (i : Nat) (handler : Word) : Prop :=
  run.label i = .trap .alarm ∧ ∃ ticks, (run.state i).AlarmArgs l ticks handler

/-- Step `j` comes before step `i`, with no successful `exec` in between. -/
def SameImage (i j : Nat) : Prop := j < i ∧ ∀ k, j < k → k < i → ¬ExecsAt run k

/-- The alarm belongs to the image: the handler that a tick enters was registered by the running
image, and the registers that the end of a handler puts back are its own. -/
structure Owned : Prop where
  handler : ∀ i, i < run.length → DeliversAt run i →
    ∃ j, SameImage run i j ∧ RegistersAt run j ((run.state (i + 1)).regs TrapFrame.eip)
  frame : ∀ i, i < run.length → RestoresAt run i →
    ∃ j, SameImage run i j ∧ DeliversAt run j
      ∧ (run.state (i + 1)).regs = (run.state j).interrupted

/-- No alarm is set and none is being handled. -/
def Quiet (a : AlarmState) : Prop := ¬(0 : Word).slt a.alarmtime ∧ a.handling = 0

instance (a : AlarmState) : Decidable (Quiet a) := inferInstanceAs (Decidable (_ ∧ _))

variable {run}

theorem SameImage.self (i : Nat) : SameImage run (i + 1) i :=
  ⟨Nat.lt_succ_self i, fun k hik hki => by omega⟩

theorem SameImage.succ {i j : Nat} (hsame : SameImage run i j) (hexec : ¬ExecsAt run i) :
    SameImage run (i + 1) j := by
  refine ⟨hsame.1.trans (Nat.lt_succ_self i), fun k hjk hki => ?_⟩
  by_cases hk : k = i
  · rwa [hk]
  · exact hsame.2 k hjk (by omega)

variable (run)

/-- What is set has been registered by the running image, and what is being handled has
interrupted it. -/
structure Tracks (i : Nat) : Prop where
  holds : Holds l (run.state i).mem
  registered : (0 : Word).slt (view l (run.state i).mem).alarmtime →
    ∃ j, SameImage run i j ∧ RegistersAt run j (view l (run.state i).mem).handler
  delivered : (view l (run.state i).mem).handling ≠ 0 →
    ∃ j, SameImage run i j ∧ DeliversAt run j
      ∧ (view l (run.state i).mem).saved = (run.state j).interrupted

theorem tracks_zero : Tracks run 0 := by
  obtain ⟨hholds, hfields⟩ := run.starts
  refine ⟨hholds, fun harmed => ?_, fun hhandling => ?_⟩
  · have hzero : (view l (run.state 0).mem).alarmtime = 0 := hfields .alarmtime (by simp)
    rw [hzero] at harmed
    exact absurd harmed (by decide)
  · exact absurd (hfields .handlingAlarm (by simp)) hhandling

variable {run} {i : Nat}

/-- A step that leaves the alarm alone keeps what is known about it, unless it is an `exec`. -/
theorem Tracks.of_view_eq (htracks : Tracks run i) (hholds : Holds l (run.state (i + 1)).mem)
    (hview : view l (run.state (i + 1)).mem = view l (run.state i).mem)
    (hquiet : ExecsAt run i → Quiet (view l (run.state i).mem)) : Tracks run (i + 1) := by
  by_cases hexec : ExecsAt run i
  · obtain ⟨harmed, hhandling⟩ := hquiet hexec
    refine ⟨hholds, fun h => absurd (hview ▸ h) harmed, fun h => absurd (hview ▸ hhandling) h⟩
  · rw [← hview] at hquiet
    refine ⟨hholds, ?_, ?_⟩
    · rw [hview]
      intro harmed
      obtain ⟨j, hsame, hregisters⟩ := htracks.registered harmed
      exact ⟨j, hsame.succ hexec, hregisters⟩
    · rw [hview]
      intro hhandling
      obtain ⟨j, hsame, hdelivers⟩ := htracks.delivered hhandling
      exact ⟨j, hsame.succ hexec, hdelivers⟩

theorem Tracks.trap (htracks : Tracks run i) {event : Event} (hlabel : run.label i = .trap event)
    (huser : event.Delivers l (run.state i) → StackInUser (run.state i))
    (hoccur : occur l event (run.state i) = some (run.state (i + 1))) : Tracks run (i + 1) := by
  have hexec : ¬ExecsAt run i := by
    rintro ⟨env, argv, hexec, -⟩
    cases hlabel.symm.trans hexec
  obtain ⟨hholds', heffect⟩ := occur_effect htracks.holds huser hoccur
  refine ⟨hholds', fun harmed => ?_, fun hhandling => ?_⟩
  · rcases occur_settings htracks.holds huser hoccur with ⟨htime, hhandler⟩ | ⟨rfl, hargs⟩
    · rw [htime] at harmed
      rw [hhandler]
      obtain ⟨j, hsame, hregisters⟩ := htracks.registered harmed
      exact ⟨j, hsame.succ hexec, hregisters⟩
    · exact ⟨i, .self i, hlabel, hargs⟩
  · cases heffect with
    | delivers hdelivers _ hsaved => exact ⟨i, .self i, ⟨event, hlabel, hdelivers⟩, hsaved⟩
    | restores _ hzero => exact absurd hzero hhandling
    | keeps _ _ hsame hsaved =>
        rw [hsame] at hhandling
        rw [hsaved]
        obtain ⟨j, himage, hdelivers⟩ := htracks.delivered hhandling
        exact ⟨j, himage.succ hexec, hdelivers⟩

theorem tracks_succ (hi : i < run.length)
    (hquiet : ExecsAt run i → Quiet (view l (run.state i).mem))
    (huser : DeliversAt run i → StackInUser (run.state i)) (htracks : Tracks run i) :
    Tracks run (i + 1) := by
  have hstep : imageOccur l (run.label i) (run.state i) = some (run.state (i + 1)) :=
    run.steps i hi
  cases hlabel : run.label i with
  | trap event =>
      rw [hlabel] at hstep
      exact htracks.trap hlabel (fun hdelivers => huser ⟨event, hlabel, hdelivers⟩) hstep
  | exec env argv =>
      rw [hlabel] at hstep
      obtain ⟨hholds, hview⟩ := imageOccur_exec htracks.holds hstep
      exact htracks.of_view_eq hholds hview hquiet

/-- **The alarm belongs to the running image**, in every run in which each successful `exec` finds
no alarm set and none being handled, and each delivery is made with the stack pointer in the user's
half. -/
theorem alarm_owned_by_image (run : Run (imageSystem l))
    (hquiet : ∀ i, i < run.length → ExecsAt run i → Quiet (view l (run.state i).mem))
    (huser : ∀ i, i < run.length → DeliversAt run i → StackInUser (run.state i)) :
    Owned run := by
  have htracks : ∀ i, i ≤ run.length → Tracks run i :=
    run.induction (tracks_zero run) fun i hi =>
      tracks_succ hi (hquiet i hi) (huser i hi)
  have hoccur : ∀ i, i < run.length → ∀ event, run.label i = .trap event →
      occur l event (run.state i) = some (run.state (i + 1)) := by
    intro i hi event hlabel
    have hstep : imageOccur l (run.label i) (run.state i) = some (run.state (i + 1)) :=
      run.steps i hi
    rwa [hlabel] at hstep
  constructor
  · intro i hi hdelivers
    have hstack := huser i hi hdelivers
    obtain ⟨event, hlabel, hdelivers⟩ := hdelivers
    have hnow := htracks i hi.le
    rw [occur_delivers_eip hnow.holds hdelivers hstack (hoccur i hi event hlabel)]
    exact hnow.registered hdelivers.2.2.1.1
  · rintro i hi ⟨event, hlabel, hrestores⟩
    have hnow := htracks i hi.le
    obtain ⟨j, hsame, hdelivered, hsaved⟩ := hnow.delivered hrestores.2
    obtain ⟨-, heffect⟩ := occur_effect hnow.holds
      (fun hdelivers => huser i hi ⟨event, hlabel, hdelivers⟩) (hoccur i hi event hlabel)
    cases heffect with
    | delivers hdelivers => exact absurd hrestores hdelivers.not_restores
    | restores _ _ _ hregs => exact ⟨j, hsame, hdelivered, hregs.trans hsaved⟩
    | keeps _ hnot => exact absurd hrestores hnot

end Runs

/-- A file without segments, for which there is memory. -/
def emptyProgram : ImageEvent := .exec ⟨some ⟨0, []⟩, fun _ => true⟩ []

/-- The process sets an alarm and is in its handler when it calls `exec`. The new image returns from
`main`, and a tick comes. -/
def execInHandler : List ImageEvent :=
  [.trap .alarm, .trap (.timer fun _ => true), emptyProgram, .trap (.pageFault 0 0xFFFFFFFF),
    .trap (.timer fun _ => true)]

/-- The new image goes on with the registers of the old one, and is then entered at the address of
the old one's handler. -/
theorem alarm_outlives_image :
    ∃ run : Run (imageSystem sampleLayout), run.length = 5 ∧ ExecsAt run 2
      ∧ RestoresAt run 3 ∧ (run.state 4).regs = (run.state 1).interrupted
      ∧ DeliversAt run 4 ∧ (run.state 5).regs TrapFrame.eip = 0x80
      ∧ ¬Owned run := by
  let run : Run (imageSystem sampleLayout) :=
    .ofExecute sampleStart sampleStart_started execInHandler emptyProgram (by decide +kernel)
  have hexecs : ExecsAt run 2 := ⟨_, _, rfl, by decide +kernel⟩
  have hdelivers : DeliversAt run 4 :=
    ⟨_, rfl, ⟨_, rfl⟩, by decide +kernel, by decide +kernel⟩
  refine ⟨run, rfl, hexecs, ⟨_, rfl, ⟨_, rfl⟩, by decide +kernel⟩, ?_, hdelivers,
    by decide +kernel, fun howned => ?_⟩
  · decide +kernel
  · obtain ⟨j, ⟨hj, hsame⟩, hregisters, -⟩ := howned.handler 4 (by decide) hdelivers
    have hlate : ¬j < 2 := fun hlt => hsame 2 hlt (by decide) hexecs
    obtain rfl | rfl : j = 2 ∨ j = 3 := by omega
    · cases hregisters
    · cases hregisters

/-- The process calls `exec` first; the new image sets the alarm `alarm(1, 0x80)`. -/
def execFirst : List ImageEvent :=
  [emptyProgram,
    .trap (.user (Function.update sampleStart.regs TrapFrame.esp 0x1100)
      [(0x1104, 1), (0x1108, 0x80)]),
    .trap .alarm, .trap (.timer fun _ => true), .trap (.pageFault 0 0xFFFFFFFF)]

theorem alarm_owned_by_image_execFirst :
    ∃ run : Run (imageSystem sampleLayout), run.length = 5 ∧ ExecsAt run 0 ∧ DeliversAt run 3
      ∧ RestoresAt run 4 ∧ Owned run := by
  let run : Run (imageSystem sampleLayout) :=
    .ofExecute sampleStart sampleStart_started execFirst emptyProgram (by decide +kernel)
  have hquiet : ∀ i, i < run.length → ExecsAt run i →
      Quiet (view sampleLayout (run.state i).mem) := by
    rintro i hi ⟨env, argv, hlabel, -⟩
    have hi : i < 5 := hi
    interval_cases i
    · decide +kernel
    all_goals cases hlabel
  have huser : ∀ i, i < run.length → DeliversAt run i → StackInUser (run.state i) := by
    rintro i hi ⟨event, hlabel, ⟨writable, rfl⟩, -⟩
    have hi : i < 5 := hi
    interval_cases i
    · cases hlabel
    · cases hlabel
    · cases hlabel
    · decide +kernel
    · cases hlabel
  exact ⟨run, rfl, ⟨_, _, rfl, by decide +kernel⟩,
    ⟨_, rfl, ⟨_, rfl⟩, by decide +kernel, by decide +kernel⟩, ⟨_, rfl, ⟨_, rfl⟩, by decide +kernel⟩,
    alarm_owned_by_image run hquiet huser⟩

end Image

end Acos.Alarm
