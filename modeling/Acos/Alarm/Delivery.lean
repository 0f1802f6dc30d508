import Acos.Alarm.AlarmState

/-!
# What a delivery writes

Delivery stores the return address `0xFFFFFFFF` through the user's stack pointer. Nothing compares
the pointer with the size of the process, and the store is made in kernel mode, where the kernel's
half of the address space is writable too.
-/

namespace Acos.Alarm

open ByteMemory

/-- The path stores to the address `x`. -/
def Outcome.Writes (o : Outcome) (x : Addr) : Prop := ∃ r ∈ o.machine.written, Within r.1 r.2 x

/-- The path has stored a word at `a`, and it has not stopped at a store that faults. -/
def Outcome.Stored (o : Outcome) (a : Addr) : Prop :=
  (∀ m, o ≠ .spins m) ∧ (a, 4) ∈ o.machine.written

/-- The trap frame, the alarm fields of the process and its saved frame. -/
def OwnMemory (l : Layout) (x : Addr) : Prop :=
  Within l.tf TrapFrame.size x ∨ Within (l.proc + BitVec.ofNat 32 124) 20 x
    ∨ Within l.alarmTf TrapFrame.size x

/-- The four bytes at `esp - 4`. -/
def StackWord (l : Layout) (mem : Memory 32) (x : Addr) : Prop :=
  Within (readFrame mem l.tf TrapFrame.esp - 4) 4 x

/-- The address space of the process, `[0, sz)`. -/
def InUserSpace (l : Layout) (mem : Memory 32) (x : Addr) : Prop :=
  x.toNat < (fieldOf l mem .sz).toNat

/-- A timer interrupt from user mode finds the alarm due. -/
structure Delivering (l : Layout) (mem : Memory 32) : Prop where
  holds : Holds l mem
  size_le : (fieldOf l mem .sz).toNat ≤ kernbase
  timer : readFrame mem l.tf TrapFrame.trapno = 32
  user : readFrame mem l.tf TrapFrame.cs &&& 3 = 3
  due : (view l mem).due

@[simp]
theorem finish_machine (l : Layout) (tf : Addr) (m : Machine) : (finish l tf m).machine = m := by
  unfold finish
  split_ifs <;> rfl

theorem finish_ne_spins (l : Layout) (tf : Addr) (m m' : Machine) : finish l tf m ≠ .spins m' := by
  unfold finish
  split_ifs <;> exact nofun

theorem OwnMemory.not_cpu {l : Layout} {x : Addr} (hx : OwnMemory l x) : ¬Within l.cpu 4 x := by
  intro hcpu
  rcases hx with hframe | hfields | hsaved
  · exact l.cpu_kstack x hcpu (l.tf_inStack.within hframe)
  · exact l.cpu_proc x hcpu (hfields.of_add (by decide))
  · exact l.cpu_alarmTf x hcpu hsaved

theorem OwnMemory.of_reg {l : Layout} {x : Addr} {r : Fin 19}
    (hx : Within (l.tf + BitVec.ofNat 32 (TrapFrame.offset r)) 4 x) : OwnMemory l x :=
  Or.inl (within_reg hx)

theorem OwnMemory.of_field {l : Layout} {x : Addr} {f : ProcField} (hf : 124 ≤ f.offset)
    (hx : Within (l.proc + BitVec.ofNat 32 f.offset) 4 x) : OwnMemory l x :=
  Or.inr (Or.inl (within_alarmFields hf hx))

theorem Machine.myproc_store {l : Layout} {m : Machine} {a : Addr} {v : Word}
    (hapart : Apart a 4 l.cpu 4) : (m.store a v).myproc l = m.myproc l :=
  Memory.load32_write_of_apart (by decide) hapart

theorem Machine.myproc_setReg {l : Layout} {m : Machine} {r : Fin 19} {v : Word} :
    (m.setReg l.tf r v).myproc l = m.myproc l :=
  Machine.myproc_store fun _ hx hcpu => (OwnMemory.of_reg hx).not_cpu hcpu

section Written

variable {l : Layout} {m : Machine}

theorem Machine.myproc_setField (hproc : m.myproc l = l.proc) (f : ProcField) (v : Word) :
    (m.setField l f v).myproc l = l.proc := by
  rw [Machine.setField, Machine.fieldAddr, hproc, Machine.myproc_store, hproc]
  exact fun x hx hcpu => l.cpu_proc x hcpu (hx.of_add f.offset_add_le)

theorem Machine.setField_written (hproc : m.myproc l = l.proc) (f : ProcField) (v : Word) :
    (m.setField l f v).written = m.written ++ [(l.proc + BitVec.ofNat 32 f.offset, 4)] := by
  rw [Machine.setField, Machine.fieldAddr, hproc, Machine.store]

theorem counted_writes (hholds : Holds l m.mem) (hempty : m.written = []) :
    ∀ r ∈ (m.counted l).written, ∀ x, Within r.1 r.2 x → OwnMemory l x := by
  intro r hr x hx
  have hproc : m.myproc l = l.proc := hholds.1
  rw [Machine.counted, Machine.setField_written hproc, hempty, List.nil_append,
    List.mem_singleton] at hr
  subst hr
  exact OwnMemory.of_field (f := .alarmpassed) (by decide) hx

theorem saveFrame_written (hholds : Holds l m.mem) :
    (saveFrame l l.tf m).written = m.written ++ [(l.alarmTf, TrapFrame.size),
      (l.tf + BitVec.ofNat 32 (TrapFrame.offset TrapFrame.esp), 4)] := by
  rw [saveFrame_eq hholds l.tf_inStack]
  simp [Machine.setReg, Machine.store, Machine.memmove]

theorem enterHandler_stackWord :
    (m.reg l.tf TrapFrame.esp, 4) ∈ (enterHandler l l.tf m).written := by
  simp [enterHandler, Machine.setField, Machine.setReg, Machine.store]

/-- The regions stored to on entry to the handler, unless the stack word hides the process. -/
theorem enterHandler_written (hholds : Holds l m.mem)
    (hapart : Apart (m.reg l.tf TrapFrame.esp) 4 l.cpu 4) :
    (enterHandler l l.tf m).written = m.written ++ [(m.reg l.tf TrapFrame.esp, 4),
      (l.tf + BitVec.ofNat 32 (TrapFrame.offset TrapFrame.eip), 4),
      (l.proc + BitVec.ofNat 32 ProcField.alarmpassed.offset, 4),
      (l.proc + BitVec.ofNat 32 ProcField.handlingAlarm.offset, 4)] := by
  have hpushed : (m.store (m.reg l.tf TrapFrame.esp) 0xFFFFFFFF).myproc l = l.proc :=
    (Machine.myproc_store hapart).trans hholds.1
  have hentered := (Machine.myproc_setReg (r := TrapFrame.eip)
    (v := (m.store (m.reg l.tf TrapFrame.esp) 0xFFFFFFFF).field l .handler)).trans hpushed
  rw [enterHandler, Machine.setField_written (Machine.myproc_setField hentered _ _),
    Machine.setField_written hentered]
  simp [Machine.setReg, Machine.store]

variable {env : TrapEnv} (hholds : Holds l m.mem)
  (hown : ∀ r ∈ m.written, ∀ x, Within r.1 r.2 x → OwnMemory l x)

include hholds hown

theorem saveFrame_writes {x : Addr} {r : Addr × Nat} (hr : r ∈ (saveFrame l l.tf m).written)
    (hx : Within r.1 r.2 x) : OwnMemory l x := by
  rw [saveFrame_written hholds] at hr
  simp only [List.mem_append, List.mem_cons, List.not_mem_nil, or_false] at hr
  rcases hr with hr | rfl | rfl
  · exact hown r hr x hx
  · exact Or.inr (Or.inr hx)
  · exact OwnMemory.of_reg (r := TrapFrame.esp) hx

theorem deliver_writes_of_not_writable
    (hwritable : ¬WritableWord env (m.reg l.tf TrapFrame.esp - 4)) {x : Addr}
    (hwrites : (deliver l env l.tf m).Writes x) : OwnMemory l x := by
  rw [← saveFrame_esp hholds l.tf_inStack] at hwritable
  rw [deliver, if_neg hwritable] at hwrites
  obtain ⟨r, hr, hx⟩ := hwrites
  exact saveFrame_writes hholds hown hr hx

omit hown in
/-- Nothing but a fault keeps the delivery from storing to the stack. -/
theorem deliver_stored_iff :
    (deliver l env l.tf m).Stored (m.reg l.tf TrapFrame.esp - 4)
      ↔ WritableWord env (m.reg l.tf TrapFrame.esp - 4) := by
  rw [← saveFrame_esp hholds l.tf_inStack, deliver]
  split_ifs with hwritable
  · refine iff_of_true ⟨finish_ne_spins _ _ _, ?_⟩ hwritable
    rw [finish_machine]
    exact enterHandler_stackWord
  · exact iff_of_false (fun hstored => hstored.1 _ rfl) hwritable

theorem deliver_writes_of_apart (hapart : Apart (m.reg l.tf TrapFrame.esp - 4) 4 l.cpu 4) {x : Addr}
    (hwrites : (deliver l env l.tf m).Writes x) :
    OwnMemory l x ∨ Within (m.reg l.tf TrapFrame.esp - 4) 4 x := by
  by_cases hwritable : WritableWord env (m.reg l.tf TrapFrame.esp - 4)
  · obtain ⟨hsaved, -⟩ := saveFrame_view hholds l.tf_inStack
    have hsp := saveFrame_esp hholds l.tf_inStack
    rw [← hsp] at hwritable hapart ⊢
    rw [deliver, if_pos hwritable, Outcome.Writes, finish_machine,
      enterHandler_written hsaved hapart] at hwrites
    obtain ⟨r, hr, hx⟩ := hwrites
    simp only [List.mem_append, List.mem_cons, List.not_mem_nil, or_false] at hr
    rcases hr with hr | rfl | rfl | rfl | rfl
    · exact Or.inl (saveFrame_writes hholds hown hr hx)
    · exact Or.inr hx
    · exact Or.inl (OwnMemory.of_reg (r := TrapFrame.eip) hx)
    · exact Or.inl (OwnMemory.of_field (f := .alarmpassed) (by decide) hx)
    · exact Or.inl (OwnMemory.of_field (f := .handlingAlarm) (by decide) hx)
  · exact Or.inl (deliver_writes_of_not_writable hholds hown hwritable hwrites)

end Written

theorem trap_of_delivering {l : Layout} (env : TrapEnv) (syscall : Machine → Machine) {m : Machine}
    (hdelivering : Delivering l m.mem) :
    trap l env syscall l.tf m = deliver l env l.tf (m.counted l) := by
  obtain ⟨hholds, -, htimer, huser, hdue⟩ := hdelivering
  rw [trap, Machine.reg_eq, htimer]
  change timer l env l.tf m = _
  rw [timer_eq hholds, if_pos ⟨fromUser_iff.mpr huser, hdue.1⟩, if_pos hdue]

/-- **Delivery writes where the stack pointer says.** Besides the trap frame, the alarm fields and
the saved frame, a delivery stores to nothing but the four bytes below the stack pointer, and it
stores to these only if they lie in the address space of the process: this holds if and only if they
do lie there, or the store to them faults. -/
theorem delivery_confined_iff (l : Layout) (env : TrapEnv) (syscall : Machine → Machine)
    (mem : Memory 32) (hdelivering : Delivering l mem) :
    let delivered := trap l env syscall l.tf ⟨mem, []⟩
    let sp := readFrame mem l.tf TrapFrame.esp - 4
    ((∀ x, delivered.Writes x → OwnMemory l x ∨ delivered.Stored sp ∧ StackWord l mem x)
        ∧ (delivered.Stored sp → ∀ y, StackWord l mem y → InUserSpace l mem y))
      ↔ (∀ y, StackWord l mem y → InUserSpace l mem y) ∨ ¬WritableWord env sp := by
  let m : Machine := ⟨mem, []⟩
  have hholds : Holds l m.mem := hdelivering.holds
  have hcounted : Holds l (m.counted l).mem := Machine.counted_holds hholds
  have hesp : (m.counted l).reg l.tf TrapFrame.esp = readFrame mem l.tf TrapFrame.esp :=
    congrFun (Machine.frame_counted hholds l.tf_inStack) TrapFrame.esp
  have hown := counted_writes hholds rfl
  have htrap := trap_of_delivering env syscall (m := m) hdelivering
  dsimp only
  unfold StackWord
  rw [htrap, ← hesp, deliver_stored_iff hcounted]
  constructor
  · rintro ⟨-, honly⟩
    by_cases hwritable : WritableWord env ((m.counted l).reg l.tf TrapFrame.esp - 4)
    · exact Or.inl (honly hwritable)
    · exact Or.inr hwritable
  · intro hcondition
    by_cases hwritable : WritableWord env ((m.counted l).reg l.tf TrapFrame.esp - 4)
    · have hinside := hcondition.resolve_right (not_not.mpr hwritable)
      have hapart : Apart ((m.counted l).reg l.tf TrapFrame.esp - 4) 4 l.cpu 4 := by
        intro y hy hcpu
        have hkernel := l.cpu_kernel.le hcpu
        have hlt := hinside y hy
        have hsize := hdelivering.size_le
        unfold InUserSpace at hlt
        omega
      exact ⟨fun x hwrites => (deliver_writes_of_apart hcounted hown hapart hwrites).imp_right
        fun hx => ⟨hwritable, hx⟩, fun _ => hinside⟩
    · exact ⟨fun x hwrites => Or.inl (deliver_writes_of_not_writable hcounted hown hwritable hwrites),
        fun hstored => absurd hstored hwritable⟩

instance (o : Outcome) (x : Addr) : Decidable (o.Writes x) :=
  inferInstanceAs (Decidable (∃ r ∈ o.machine.written, _))

instance (l : Layout) (x : Addr) : Decidable (OwnMemory l x) := inferInstanceAs (Decidable (_ ∨ _))

instance (l : Layout) (mem : Memory 32) (x : Addr) : Decidable (InUserSpace l mem x) :=
  inferInstanceAs (Decidable (_ < _))

instance (l : Layout) (mem : Memory 32) : Decidable (Holds l mem) :=
  inferInstanceAs (Decidable (_ ∧ _))

instance (l : Layout) (mem : Memory 32) : Decidable (Delivering l mem) :=
  decidable_of_iff (Holds l mem ∧ (fieldOf l mem .sz).toNat ≤ kernbase
      ∧ readFrame mem l.tf TrapFrame.trapno = 32 ∧ readFrame mem l.tf TrapFrame.cs &&& 3 = 3
      ∧ (view l mem).due)
    ⟨fun ⟨hholds, hsize, htimer, huser, hdue⟩ => ⟨hholds, hsize, htimer, huser, hdue⟩,
      fun ⟨hholds, hsize, htimer, huser, hdue⟩ => ⟨hholds, hsize, htimer, huser, hdue⟩⟩

/-- A process whose entry is in the kernel's data and whose stack and saved frame are two pages. -/
def sampleLayout : Layout where
  cpu := 0x80112784
  proc := 0x80112D54
  kstack := 0x8DFFE000
  alarmTf := 0x8DFBD000
  cpu_kernel := ⟨by decide, by decide⟩
  proc_kernel := ⟨by decide, by decide⟩
  kstack_kernel := ⟨by decide, by decide⟩
  alarmTf_kernel := ⟨by decide, by decide⟩
  cpu_proc := .of_le (by decide) (by decide)
  cpu_kstack := .of_le (by decide) (by decide)
  cpu_alarmTf := .of_le (by decide) (by decide)
  proc_kstack := .of_le (by decide) (by decide)
  proc_alarmTf := .of_le (by decide) (by decide)
  kstack_alarmTf := (Apart.of_le (by decide) (by decide)).symm

/-- Its memory with an alarm at every tick and the timer interrupting it at this stack pointer. -/
def sampleMemory (esp : Word) : Memory 32 :=
  let l := sampleLayout
  let frame : TrapFrame := fun r => if r = TrapFrame.trapno then 32
    else if r = TrapFrame.cs then 0x1B else if r = TrapFrame.esp then esp else 0
  let fields : List (ProcField × Word) :=
    [(.sz, 0x4000), (.handler, 0x80), (.alarmtime, 1), (.alarmTf, l.alarmTf)]
  let mem := fields.foldl (fun mem f => mem.store32 (l.proc + BitVec.ofNat 32 f.1.offset) f.2)
    (Memory.store32 (fun _ => 0) l.cpu l.proc)
  pushFrame mem l.tf frame

/-- A process that has put its stack pointer into the kernel's half overwrites the kernel. -/
theorem delivery_writes_kernel_word :
    Delivering sampleLayout (sampleMemory 0x80200004)
      ∧ (trap sampleLayout ⟨0, fun _ => true⟩ id sampleLayout.tf
          ⟨sampleMemory 0x80200004, []⟩).Writes 0x80200000
      ∧ ¬OwnMemory sampleLayout 0x80200000
      ∧ ¬InUserSpace sampleLayout (sampleMemory 0x80200004) 0x80200000 := by
  refine ⟨by decide +kernel, by decide +kernel, by decide +kernel, by decide +kernel⟩

theorem delivery_confined_in_stack :
    let delivered := trap sampleLayout ⟨0, fun _ => true⟩ id sampleLayout.tf ⟨sampleMemory 0x3000, []⟩
    Delivering sampleLayout (sampleMemory 0x3000)
      ∧ delivered.Writes 0x2FFC
      ∧ ∀ x, delivered.Writes x → OwnMemory sampleLayout x
        ∨ StackWord sampleLayout (sampleMemory 0x3000) x
          ∧ InUserSpace sampleLayout (sampleMemory 0x3000) x := by
  intro delivered
  have hdelivering : Delivering sampleLayout (sampleMemory 0x3000) := by decide +kernel
  have hinside : ∀ y, StackWord sampleLayout (sampleMemory 0x3000) y →
      InUserSpace sampleLayout (sampleMemory 0x3000) y := by
    intro y hy
    have hesp : readFrame (sampleMemory 0x3000) sampleLayout.tf TrapFrame.esp - 4 = 0x2FFC := by
      decide +kernel
    have hsize : (fieldOf sampleLayout (sampleMemory 0x3000) .sz).toNat = 0x4000 := by
      decide +kernel
    rw [StackWord, hesp, within_iff_of_le (by decide)] at hy
    rw [InUserSpace, hsize]
    exact hy.2.trans (by decide)
  obtain ⟨hwrites, honly⟩ := (delivery_confined_iff sampleLayout ⟨0, fun _ => true⟩ id _
    hdelivering).mpr (Or.inl hinside)
  refine ⟨hdelivering, by decide +kernel, fun x hx => ?_⟩
  rcases hwrites x hx with hmine | ⟨hstored, hstack⟩
  · exact Or.inl hmine
  · exact Or.inr ⟨hstack, honly hstored x hstack⟩

end Acos.Alarm
