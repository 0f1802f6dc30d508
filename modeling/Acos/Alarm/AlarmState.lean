import Acos.Alarm.Trap
import Mathlib.Tactic.Cases

/-!
# The alarm of a process

What the alarm is, without memory: a period, a counter, a handler, a flag and a saved frame, with
the three things that happen to it. The kernel keeps these five in memory. The results here say that
the code of the previous module performs the three operations on what is read back from memory, as
long as no delivery stores into the kernel's half of the address space.
-/

namespace Acos.Alarm

open ByteMemory

structure AlarmState where
  handler : Word
  alarmtime : Word
  alarmpassed : Word
  handling : Word
  saved : TrapFrame

namespace AlarmState

def counts (a : AlarmState) : Prop := (0 : Word).slt a.alarmtime ∧ a.handling = 0

/-- The next counted tick delivers. -/
def due (a : AlarmState) : Prop := a.counts ∧ a.alarmtime.sle (a.alarmpassed + 1)

instance (a : AlarmState) : Decidable a.counts := inferInstanceAs (Decidable (_ ∧ _))

instance (a : AlarmState) : Decidable a.due := inferInstanceAs (Decidable (_ ∧ _))

/-- A tick of the timer in user mode, with the frame it interrupts. -/
def tick (a : AlarmState) (frame : TrapFrame) : AlarmState :=
  if a.due then { a with alarmpassed := 0, handling := 1, saved := frame }
  else if a.counts then { a with alarmpassed := a.alarmpassed + 1 }
  else a

def set (a : AlarmState) (ticks handler : Word) : AlarmState :=
  { a with alarmtime := ticks, alarmpassed := 0, handler := handler }

/-- A store to one of the fields of the process. -/
def update (a : AlarmState) : ProcField → Word → AlarmState
  | .handler, v => { a with handler := v }
  | .alarmtime, v => { a with alarmtime := v }
  | .alarmpassed, v => { a with alarmpassed := v }
  | .handlingAlarm, v => { a with handling := v }
  | _, _ => a

/-- The handler has returned. -/
def finish (a : AlarmState) : AlarmState := { a with handling := 0 }

end AlarmState

/-- The alarm as memory has it. -/
def view (l : Layout) (mem : Memory 32) : AlarmState where
  handler := fieldOf l mem .handler
  alarmtime := fieldOf l mem .alarmtime
  alarmpassed := fieldOf l mem .alarmpassed
  handling := fieldOf l mem .handlingAlarm
  saved := readFrame mem l.alarmTf

@[simp]
theorem Machine.memmove_mem (m : Machine) (dst src : Addr) (n : Nat) :
    (m.memmove dst src n).mem = m.mem.move dst src n := rfl

theorem Machine.reg_eq (m : Machine) (tf : Addr) (r : Fin 19) :
    m.reg tf r = readFrame m.mem tf r := rfl

theorem fromUser_iff {m : Machine} {tf : Addr} :
    fromUser m tf = true ↔ readFrame m.mem tf TrapFrame.cs &&& 3 = 3 := by
  rw [fromUser, decide_eq_true_iff, Machine.reg_eq]

/-! ### Memory that the alarm does not depend on -/

theorem readFrame_congr {mem mem' : Memory 32} {tf : Addr}
    (hsame : ∀ x, Within tf TrapFrame.size x → mem' x = mem x) :
    readFrame mem' tf = readFrame mem tf := by
  funext r
  refine Memory.load32_congr (by decide) fun x hx => hsame x ?_
  exact hx.of_add (by have := r.isLt; simp only [TrapFrame.offset, TrapFrame.size]; omega)

theorem readFrame_move (mem : Memory 32) (dst src : Addr) :
    readFrame (mem.move dst src TrapFrame.size) dst = readFrame mem src := by
  funext r
  exact Memory.load32_move (by have := r.isLt; simp only [TrapFrame.offset, TrapFrame.size]; omega)
    (by decide)

theorem readFrame_pushFrame (mem : Memory 32) (tf : Addr) (frame : TrapFrame) :
    readFrame (pushFrame mem tf frame) tf = frame := by
  funext r
  have hr : TrapFrame.offset r + 4 ≤ TrapFrame.size := by
    have := r.isLt
    simp only [TrapFrame.offset, TrapFrame.size]
    omega
  have hword : ∀ j, j < 4 → Fin.ofNat 19 ((TrapFrame.offset r + j) / 4) = r
      ∧ (TrapFrame.offset r + j) % 4 = j := by
    intro j hj
    refine ⟨Fin.ext ?_, by simp only [TrapFrame.offset]; omega⟩
    have := r.isLt
    simp only [Fin.ofNat, TrapFrame.offset]
    omega
  rw [readFrame, pushFrame, Memory.load32_write_add hr (by decide)]
  have h0 := hword 0 (by decide)
  rw [Nat.add_zero] at h0
  simp only [hword 3 (by decide), hword 2 (by decide), hword 1 (by decide), h0]
  exact byteOf_append (frame r)

/-- No address that is protected has been stored to. -/
def Agree (l : Layout) (mem mem' : Memory 32) : Prop := ∀ x, Protected l x → mem' x = mem x

theorem Agree.refl (l : Layout) (mem : Memory 32) : Agree l mem mem := fun _ _ => rfl

theorem Agree.trans {l : Layout} {first second third : Memory 32} (hfirst : Agree l first second)
    (hsecond : Agree l second third) : Agree l first third :=
  fun x hx => (hsecond x hx).trans (hfirst x hx)

/-- The fields from `handler` on are the alarm's. -/
theorem within_alarmFields {l : Layout} {f : ProcField} {x : Addr} (hf : 124 ≤ f.offset)
    (hx : Within (l.proc + BitVec.ofNat 32 f.offset) 4 x) :
    Within (l.proc + BitVec.ofNat 32 124) 20 x := by
  have hoffset : 124 + (f.offset - 124) = f.offset := by omega
  have hend : f.offset - 124 + 4 ≤ 20 := by cases f <;> simp [ProcField.offset]
  rw [← hoffset, BitVec.ofNat_add, ← BitVec.add_assoc] at hx
  exact hx.of_add hend

theorem fieldOf_congr {l : Layout} {mem mem' : Memory 32} (hagree : Agree l mem mem')
    {f : ProcField} (hf : 124 ≤ f.offset) : fieldOf l mem' f = fieldOf l mem f :=
  Memory.load32_congr (by decide) fun x hx => hagree x (Or.inr (Or.inl (within_alarmFields hf hx)))

theorem view_congr {l : Layout} {mem mem' : Memory 32} (hagree : Agree l mem mem') :
    view l mem' = view l mem := by
  have hsaved : readFrame mem' l.alarmTf = readFrame mem l.alarmTf :=
    readFrame_congr fun x hx => hagree x (Or.inr (Or.inr hx))
  simp only [view, fieldOf_congr hagree (f := .handler) (by decide),
    fieldOf_congr hagree (f := .alarmtime) (by decide),
    fieldOf_congr hagree (f := .alarmpassed) (by decide),
    fieldOf_congr hagree (f := .handlingAlarm) (by decide), hsaved]

theorem Holds.congr {l : Layout} {mem mem' : Memory 32} (hholds : Holds l mem)
    (hagree : Agree l mem mem') : Holds l mem' := by
  refine ⟨?_, ?_⟩
  · rw [Memory.load32_congr (by decide) fun x hx => hagree x (Or.inl hx), hholds.1]
  · exact (fieldOf_congr hagree (f := .alarmTf) (by decide)).trans hholds.2

theorem Agree.write {l : Layout} {mem : Memory 32} {a : Addr} {n : Nat} {bytes : Nat → BitVec 8}
    (houtside : ∀ x, Within a n x → ¬Protected l x) : Agree l mem (mem.write a n bytes) :=
  fun x hx => Memory.write_of_not_within fun hwithin => houtside x hwithin hx

theorem InKernel.le {a x : Addr} {n : Nat} (hkernel : InKernel a n) (hx : Within a n x) :
    kernbase ≤ x.toNat :=
  hkernel.1.trans ((within_iff_of_le hkernel.2 x).mp hx).1

/-- Nothing that is protected lies in the user's half. -/
theorem Protected.le {l : Layout} {x : Addr} (hx : Protected l x) : kernbase ≤ x.toNat := by
  rcases hx with hcpu | hfields | hframe
  · exact l.cpu_kernel.le hcpu
  · exact l.proc_kernel.le (hfields.of_add (by decide))
  · exact l.alarmTf_kernel.le hframe

theorem not_protected_of_kstack {l : Layout} {x : Addr} (hx : Within l.kstack 4096 x) :
    ¬Protected l x := by
  rintro (hcpu | hfields | hframe)
  · exact l.cpu_kstack x hcpu hx
  · exact l.proc_kstack x (hfields.of_add (by decide)) hx
  · exact l.kstack_alarmTf x hx hframe

/-- A frame that lies in the kernel stack. -/
def InStack (l : Layout) (tf : Addr) : Prop :=
  ∃ i, i + TrapFrame.size ≤ 4096 ∧ tf = l.kstack + BitVec.ofNat 32 i

theorem Layout.tf_inStack (l : Layout) : InStack l l.tf := ⟨_, by decide, rfl⟩

theorem InStack.within {l : Layout} {tf x : Addr} (hstack : InStack l tf)
    (hx : Within tf TrapFrame.size x) : Within l.kstack 4096 x := by
  obtain ⟨i, hi, rfl⟩ := hstack
  exact hx.of_add hi

theorem within_reg {tf x : Addr} {r : Fin 19}
    (hx : Within (tf + BitVec.ofNat 32 (TrapFrame.offset r)) 4 x) : Within tf TrapFrame.size x :=
  hx.of_add (by have := r.isLt; simp only [TrapFrame.offset, TrapFrame.size]; omega)

theorem Agree.store {l : Layout} {a : Addr} (houtside : ∀ x, Within a 4 x → ¬Protected l x)
    (m : Machine) (v : Word) : Agree l m.mem (m.store a v).mem := Agree.write houtside

theorem Agree.setReg {l : Layout} {tf : Addr} (hstack : InStack l tf) (m : Machine) (r : Fin 19)
    (v : Word) : Agree l m.mem (m.setReg tf r v).mem :=
  .store (fun _ hx => not_protected_of_kstack (hstack.within (within_reg hx))) m v

theorem Agree.pushFrame {l : Layout} {tf : Addr} (hstack : InStack l tf) (mem : Memory 32)
    (frame : TrapFrame) : Agree l mem (pushFrame mem tf frame) :=
  .write fun _ hx => not_protected_of_kstack (hstack.within hx)

theorem Agree.restore {l : Layout} {tf : Addr} (hstack : InStack l tf) (m : Machine) (src : Addr) :
    Agree l m.mem (m.memmove tf src TrapFrame.size).mem := by
  intro x hx
  rw [Machine.memmove_mem, Memory.move]
  exact Memory.write_of_not_within fun hin => not_protected_of_kstack (hstack.within hin) hx

theorem Agree.writeAll {l : Layout} {writes : List (Addr × BitVec 8)}
    (houtside : ∀ w ∈ writes, ¬Protected l w.1) (mem : Memory 32) :
    Agree l mem (writeAll writes mem) := by
  induction writes generalizing mem with
  | nil => exact .refl l mem
  | cons w writes ih =>
      refine Agree.trans ?_ (ih (fun w hw => houtside w (List.mem_cons_of_mem _ hw)) _)
      intro x hx
      have hne : x ≠ w.1 := fun heq => houtside w List.mem_cons_self (heq ▸ hx)
      exact Function.update_of_ne hne _ _

/-! ### The fields of the process -/

theorem ProcField.offset_add_le (f : ProcField) : f.offset + 4 ≤ procSize := by
  cases f <;> decide

theorem ProcField.offset_apart {f g : ProcField} (hfg : f ≠ g) :
    f.offset + 4 ≤ g.offset ∨ g.offset + 4 ≤ f.offset := by
  cases f <;> cases g <;> first | exact absurd rfl hfg | decide

theorem fieldOf_store (l : Layout) (mem : Memory 32) (f g : ProcField) (v : Word) :
    fieldOf l (mem.store32 (l.proc + BitVec.ofNat 32 f.offset) v) g
      = if g = f then v else fieldOf l mem g := by
  split_ifs with hgf
  · subst hgf
    exact Memory.load32_store32 _ _ _ (by decide)
  · have hf : f.offset + 4 ≤ 2 ^ 32 := f.offset_add_le.trans (by decide)
    have hg : g.offset + 4 ≤ 2 ^ 32 := g.offset_add_le.trans (by decide)
    refine Memory.load32_write_of_apart (by decide) ?_
    rcases ProcField.offset_apart (Ne.symm hgf) with hle | hle
    · exact .of_add hle hg
    · exact (Apart.of_add hle hf).symm

/-- A store outside the entry of the process leaves its fields alone. -/
theorem fieldOf_write_of_apart {l : Layout} {mem : Memory 32} {a : Addr} {n : Nat}
    {bytes : Nat → BitVec 8} (hapart : Apart l.proc procSize a n) (f : ProcField) :
    fieldOf l (mem.write a n bytes) f = fieldOf l mem f :=
  Memory.load32_write_of_apart (by decide)
    fun x hx hfield => hapart x (hfield.of_add f.offset_add_le) hx

theorem Holds.store_field {l : Layout} {mem : Memory 32} (hholds : Holds l mem) {f : ProcField}
    (hf : f ≠ .alarmTf) (v : Word) :
    Holds l (mem.store32 (l.proc + BitVec.ofNat 32 f.offset) v) := by
  refine ⟨?_, ?_⟩
  · rw [Memory.store32, Memory.load32_write_of_apart (by decide), hholds.1]
    exact fun x hfield hcpu => l.cpu_proc x hcpu (hfield.of_add f.offset_add_le)
  · have hsame := fieldOf_store l mem f .alarmTf v
    rw [if_neg (Ne.symm hf)] at hsame
    exact hsame.trans hholds.2

theorem readFrame_store_field {l : Layout} {tf : Addr}
    (hapart : Apart l.proc procSize tf TrapFrame.size) (mem : Memory 32) (f : ProcField)
    (v : Word) : readFrame (mem.store32 (l.proc + BitVec.ofNat 32 f.offset) v) tf
      = readFrame mem tf :=
  readFrame_congr fun x hx => Memory.write_of_not_within fun hfield =>
    hapart x (hfield.of_add f.offset_add_le) hx

theorem InStack.apart_proc {l : Layout} {tf : Addr} (hstack : InStack l tf) :
    Apart l.proc procSize tf TrapFrame.size :=
  fun x hproc htf => l.proc_kstack x hproc (hstack.within htf)

theorem Machine.fieldOf_setReg {l : Layout} {tf : Addr} (hstack : InStack l tf) (m : Machine)
    (r : Fin 19) (v : Word) (f : ProcField) :
    fieldOf l (m.setReg tf r v).mem f = fieldOf l m.mem f :=
  fieldOf_write_of_apart (fun x hproc hreg => hstack.apart_proc x hproc (within_reg hreg)) f

section Fields

variable {l : Layout} {m : Machine} (hholds : Holds l m.mem)

include hholds

theorem Machine.field_eq (f : ProcField) : m.field l f = fieldOf l m.mem f := by
  rw [Machine.field, Machine.fieldAddr, Machine.myproc, Machine.load, Machine.load, hholds.1,
    fieldOf]

theorem Machine.setField_mem (f : ProcField) (v : Word) :
    (m.setField l f v).mem = m.mem.store32 (l.proc + BitVec.ofNat 32 f.offset) v := by
  rw [Machine.setField, Machine.store, Machine.fieldAddr, Machine.myproc, Machine.load, hholds.1]

theorem Machine.setField_holds {f : ProcField} (hf : f ≠ .alarmTf) (v : Word) :
    Holds l (m.setField l f v).mem := by
  rw [Machine.setField_mem hholds]
  exact hholds.store_field hf v

theorem Machine.fieldOf_setField (f g : ProcField) (v : Word) :
    fieldOf l (m.setField l f v).mem g = if g = f then v else fieldOf l m.mem g := by
  rw [Machine.setField_mem hholds, fieldOf_store]

theorem Machine.view_setField (f : ProcField) (v : Word) :
    view l (m.setField l f v).mem = (view l m.mem).update f v := by
  have hsaved : readFrame (m.setField l f v).mem l.alarmTf = readFrame m.mem l.alarmTf := by
    rw [Machine.setField_mem hholds, readFrame_store_field l.proc_alarmTf]
  cases f <;> simp [view, Machine.fieldOf_setField hholds, hsaved, AlarmState.update]

theorem Machine.frame_setField {tf : Addr} (hstack : InStack l tf) (f : ProcField) (v : Word) :
    readFrame (m.setField l f v).mem tf = readFrame m.mem tf := by
  rw [Machine.setField_mem hholds, readFrame_store_field hstack.apart_proc]

end Fields

theorem finish_eq_returns {l : Layout} {tf : Addr} {m m' : Machine}
    (hfinish : finish l tf m = .returns m') : m = m' := by
  unfold finish at hfinish
  split_ifs at hfinish
  cases hfinish
  rfl

/-! ### The code performs the operations -/

section Delivery

variable {l : Layout} {m : Machine} (hholds : Holds l m.mem)

include hholds

theorem Machine.field_alarmTf : m.field l .alarmTf = l.alarmTf :=
  (Machine.field_eq hholds _).trans hholds.2

omit hholds in
theorem Machine.reg_setReg (tf : Addr) (r : Fin 19) (v : Word) :
    (m.setReg tf r v).reg tf r = v := Memory.load32_store32 _ _ _ (by decide)

omit hholds in
/-- The saved frame is kept away from the stack that holds the current one. -/
theorem reg_memmove {tf : Addr} (hstack : InStack l tf) (r : Fin 19) :
    (m.memmove l.alarmTf tf TrapFrame.size).reg tf r = m.reg tf r :=
  Memory.load32_write_of_apart (by decide)
    fun x hframe hreg => l.kstack_alarmTf x (hstack.within (within_reg hreg)) hframe

theorem saveFrame_eq {tf : Addr} (hstack : InStack l tf) :
    saveFrame l tf m = (m.memmove l.alarmTf tf TrapFrame.size).setReg tf TrapFrame.esp
      (m.reg tf TrapFrame.esp - 4) := by
  rw [saveFrame, Machine.field_alarmTf hholds, reg_memmove hstack]

theorem saveFrame_esp {tf : Addr} (hstack : InStack l tf) :
    (saveFrame l tf m).reg tf TrapFrame.esp = m.reg tf TrapFrame.esp - 4 := by
  rw [saveFrame_eq hholds hstack, Machine.reg_setReg]

theorem saveFrame_view {tf : Addr} (hstack : InStack l tf) :
    Holds l (saveFrame l tf m).mem
      ∧ view l (saveFrame l tf m).mem = { view l m.mem with saved := readFrame m.mem tf } := by
  rw [saveFrame_eq hholds hstack]
  have hfield : ∀ f, fieldOf l (m.mem.move l.alarmTf tf TrapFrame.size) f = fieldOf l m.mem f :=
    fieldOf_write_of_apart l.proc_alarmTf
  have hmoved : Holds l (m.memmove l.alarmTf tf TrapFrame.size).mem := by
    rw [Machine.memmove_mem]
    refine ⟨?_, (hfield .alarmTf).trans hholds.2⟩
    rw [Memory.move, Memory.load32_write_of_apart (by decide), hholds.1]
    exact l.cpu_alarmTf.symm
  have hagree := Agree.setReg hstack (m.memmove l.alarmTf tf TrapFrame.size) TrapFrame.esp
    (m.reg tf TrapFrame.esp - 4)
  refine ⟨hmoved.congr hagree, ?_⟩
  rw [view_congr hagree]
  simp only [view, Machine.memmove_mem, hfield, readFrame_move]

theorem saveFrame_killed {tf : Addr} (hstack : InStack l tf) :
    fieldOf l (saveFrame l tf m).mem .killed = fieldOf l m.mem .killed := by
  rw [saveFrame_eq hholds hstack, Machine.fieldOf_setReg hstack]
  exact fieldOf_write_of_apart l.proc_alarmTf .killed

omit hholds in
/-- A stack word below `KERNBASE` is not protected. -/
theorem Agree.stackWord {sp : Addr} (huser : sp.toNat + 4 ≤ kernbase) (v : Word) :
    Agree l m.mem (m.store sp v).mem := by
  refine .store (fun x hx hprotected => ?_) m v
  rw [within_iff_of_le (huser.trans (by decide))] at hx
  have := hprotected.le
  omega

omit hholds in
theorem fieldOf_stackWord {sp : Addr} (huser : sp.toNat + 4 ≤ kernbase) (v : Word) (f : ProcField) :
    fieldOf l (m.store sp v).mem f = fieldOf l m.mem f := by
  refine fieldOf_write_of_apart (fun x hproc hsp => ?_) f
  rw [within_iff_of_le (huser.trans (by decide))] at hsp
  have := l.proc_kernel.le hproc
  omega

/-- With its stack in the user's half, the entry to the handler jumps to the handler that is set and
then marks the alarm as being handled. -/
theorem enterHandler_eq {tf : Addr} (hstack : InStack l tf)
    (huser : (m.reg tf TrapFrame.esp).toNat + 4 ≤ kernbase) :
    ∃ entered : Machine, Agree l m.mem entered.mem ∧
      fieldOf l entered.mem .killed = fieldOf l m.mem .killed ∧
      entered.reg tf TrapFrame.eip = (view l m.mem).handler ∧
      enterHandler l tf m = (entered.setField l .alarmpassed 0).setField l .handlingAlarm 1 := by
  have hpush : Agree l m.mem (m.store (m.reg tf TrapFrame.esp) 0xFFFFFFFF).mem :=
    .stackWord huser 0xFFFFFFFF
  have hhandler : (m.store (m.reg tf TrapFrame.esp) 0xFFFFFFFF).field l .handler
      = (view l m.mem).handler := by
    rw [Machine.field_eq (hholds.congr hpush)]
    exact congrArg AlarmState.handler (view_congr hpush)
  exact ⟨_, hpush.trans (.setReg hstack _ TrapFrame.eip _),
    (Machine.fieldOf_setReg hstack _ _ _ _).trans (fieldOf_stackWord huser _ _),
    (Machine.reg_setReg tf TrapFrame.eip _).trans hhandler, rfl⟩

/-- The entry to the handler leaves the saved frame alone. -/
theorem enterHandler_view {tf : Addr} (hstack : InStack l tf)
    (huser : (m.reg tf TrapFrame.esp).toNat + 4 ≤ kernbase) :
    Holds l (enterHandler l tf m).mem ∧ view l (enterHandler l tf m).mem
      = { view l m.mem with alarmpassed := 0, handling := 1 } := by
  obtain ⟨entered, hagree, -, -, heq⟩ := enterHandler_eq hholds hstack huser
  have hentered := hholds.congr hagree
  have hcleared := Machine.setField_holds hentered (f := .alarmpassed) (by decide) 0
  rw [heq]
  refine ⟨Machine.setField_holds hcleared (by decide) 1, ?_⟩
  rw [Machine.view_setField hcleared, Machine.view_setField hentered, view_congr hagree]
  rfl

theorem enterHandler_eip {tf : Addr} (hstack : InStack l tf)
    (huser : (m.reg tf TrapFrame.esp).toNat + 4 ≤ kernbase) :
    readFrame (enterHandler l tf m).mem tf TrapFrame.eip = (view l m.mem).handler := by
  obtain ⟨entered, hagree, -, hhandler, heq⟩ := enterHandler_eq hholds hstack huser
  have hentered := hholds.congr hagree
  rw [heq, Machine.frame_setField (Machine.setField_holds hentered (by decide) 0) hstack,
    Machine.frame_setField hentered hstack, ← Machine.reg_eq, hhandler]

theorem enterHandler_killed {tf : Addr} (hstack : InStack l tf)
    (huser : (m.reg tf TrapFrame.esp).toNat + 4 ≤ kernbase) :
    fieldOf l (enterHandler l tf m).mem .killed = fieldOf l m.mem .killed := by
  obtain ⟨entered, hagree, hkilled, -, heq⟩ := enterHandler_eq hholds hstack huser
  have hentered := hholds.congr hagree
  have hcleared := Machine.setField_holds hentered (f := .alarmpassed) (by decide) 0
  rw [heq, Machine.fieldOf_setField hcleared, if_neg (by decide), Machine.fieldOf_setField hentered,
    if_neg (by decide), hkilled]

/-- A process that has not been killed goes on. -/
theorem finish_of_alive (tf : Addr) (halive : fieldOf l m.mem .killed = 0) :
    finish l tf m = .returns m := by
  rw [finish, Machine.field_eq hholds, halive]
  exact if_neg fun hkilled => hkilled.2.1 rfl

omit hholds in
/-- A delivery that does not fault in the kernel. -/
theorem deliver_eq_returns {env : TrapEnv} {tf : Addr} {m' : Machine}
    (hdeliver : deliver l env tf m = .returns m') :
    m' = enterHandler l tf (saveFrame l tf m) := by
  unfold deliver at hdeliver
  dsimp only at hdeliver
  split_ifs at hdeliver
  exact (finish_eq_returns hdeliver).symm

/-- A delivery with its stack in the user's half saves the frame and starts the handling. -/
theorem deliver_view {env : TrapEnv} {tf : Addr} {m' : Machine} (hstack : InStack l tf)
    (huser : (m.reg tf TrapFrame.esp - 4).toNat + 4 ≤ kernbase)
    (hdeliver : deliver l env tf m = .returns m') :
    Holds l m'.mem ∧ view l m'.mem
      = { view l m.mem with alarmpassed := 0, handling := 1, saved := readFrame m.mem tf } := by
  obtain rfl := deliver_eq_returns hdeliver
  obtain ⟨hsaved, hview⟩ := saveFrame_view hholds hstack
  rw [← saveFrame_esp hholds hstack] at huser
  obtain ⟨hentered, hview'⟩ := enterHandler_view hsaved hstack huser
  exact ⟨hentered, by rw [hview', hview]⟩

/-- A delivery enters the handler that is set. -/
theorem deliver_eip {env : TrapEnv} {tf : Addr} {m' : Machine} (hstack : InStack l tf)
    (huser : (m.reg tf TrapFrame.esp - 4).toNat + 4 ≤ kernbase)
    (hdeliver : deliver l env tf m = .returns m') :
    readFrame m'.mem tf TrapFrame.eip = (view l m.mem).handler := by
  obtain rfl := deliver_eq_returns hdeliver
  obtain ⟨hsaved, hview⟩ := saveFrame_view hholds hstack
  rw [← saveFrame_esp hholds hstack] at huser
  rw [enterHandler_eip hsaved hstack huser, hview]

/-- A delivery whose stack word is in the user's half and can be stored to does not fault. -/
theorem deliver_returns {env : TrapEnv} {tf : Addr} (hstack : InStack l tf)
    (huser : (m.reg tf TrapFrame.esp - 4).toNat + 4 ≤ kernbase)
    (hwritable : WritableWord env (m.reg tf TrapFrame.esp - 4))
    (halive : fieldOf l m.mem .killed = 0) :
    deliver l env tf m = .returns (enterHandler l tf (saveFrame l tf m)) := by
  obtain ⟨hsaved, -⟩ := saveFrame_view hholds hstack
  rw [← saveFrame_esp hholds hstack] at huser hwritable
  obtain ⟨hentered, -⟩ := enterHandler_view hsaved hstack huser
  rw [deliver, if_pos hwritable]
  refine finish_of_alive hentered tf ?_
  rw [enterHandler_killed hsaved hstack huser, saveFrame_killed hholds hstack, halive]

theorem Machine.myproc_ne_zero : m.myproc l ≠ 0 := by
  intro hzero
  have hproc : l.proc = 0 := hholds.1.symm.trans hzero
  have hkernel := l.proc_kernel.1
  rw [hproc] at hkernel
  exact absurd hkernel (by decide)

theorem Machine.counted_holds : Holds l (m.counted l).mem :=
  Machine.setField_holds hholds (by decide) _

theorem Machine.view_counted : view l (m.counted l).mem
    = { view l m.mem with alarmpassed := (view l m.mem).alarmpassed + 1 } := by
  rw [Machine.counted, Machine.view_setField hholds, Machine.field_eq hholds]
  rfl

theorem Machine.frame_counted {tf : Addr} (hstack : InStack l tf) :
    readFrame (m.counted l).mem tf = readFrame m.mem tf :=
  Machine.frame_setField hholds hstack _ _

/-- The tests of the timer interrupt, on the alarm as memory has it. -/
theorem timer_eq (env : TrapEnv) (tf : Addr) :
    timer l env tf m = if fromUser m tf ∧ (view l m.mem).counts then
      if (view l m.mem).due then deliver l env tf (m.counted l) else finish l tf (m.counted l)
      else finish l tf m := by
  have hview := Machine.view_counted hholds
  have htime : (m.counted l).field l .alarmtime = (view l m.mem).alarmtime :=
    (Machine.field_eq (Machine.counted_holds hholds) _).trans (congrArg AlarmState.alarmtime hview)
  have hpassed : (m.counted l).field l .alarmpassed = (view l m.mem).alarmpassed + 1 :=
    (Machine.field_eq (Machine.counted_holds hholds) _).trans
      (congrArg AlarmState.alarmpassed hview)
  have hcounts : ((0 : Word).slt (m.field l .alarmtime) ∧ m.field l .handlingAlarm = 0)
      ↔ (view l m.mem).counts := by
    rw [Machine.field_eq hholds, Machine.field_eq hholds]
    rfl
  simp only [timer, hcounts, Machine.myproc_ne_zero hholds, ne_eq, not_false_eq_true, true_and]
  by_cases hfrom : fromUser m tf
  · by_cases hcounted : (view l m.mem).counts
    · simp only [hfrom, hcounted, htime, hpassed, AlarmState.due, true_and, if_true]
    · simp only [hcounted, and_false, if_false, ite_self]
  · simp only [hfrom, false_and, if_false, Bool.false_eq_true]

theorem timer_view {env : TrapEnv} {tf : Addr} {m' : Machine} (hstack : InStack l tf)
    (huser : fromUser m tf → (view l m.mem).due →
      (m.reg tf TrapFrame.esp - 4).toNat + 4 ≤ kernbase)
    (htimer : timer l env tf m = .returns m') :
    Holds l m'.mem ∧ view l m'.mem
      = if fromUser m tf then (view l m.mem).tick (readFrame m.mem tf) else view l m.mem := by
  have hcounted := Machine.counted_holds hholds
  have hview := Machine.view_counted hholds
  have hframe := Machine.frame_counted hholds hstack
  rw [timer_eq hholds] at htimer
  unfold AlarmState.tick
  by_cases hfrom : fromUser m tf
  · rw [if_pos hfrom]
    by_cases hcounts : (view l m.mem).counts
    · rw [if_pos ⟨hfrom, hcounts⟩] at htimer
      split_ifs at htimer ⊢ with hdue
      · have hesp : (m.counted l).reg tf TrapFrame.esp = m.reg tf TrapFrame.esp :=
          congrFun hframe TrapFrame.esp
        obtain ⟨hholds', hview'⟩ := deliver_view hcounted hstack
          (by rw [hesp]; exact huser hfrom hdue) htimer
        refine ⟨hholds', ?_⟩
        rw [hview', hview, hframe]
      · obtain rfl := finish_eq_returns htimer
        exact ⟨hcounted, hview⟩
    · rw [if_neg fun hboth => hcounts hboth.2] at htimer
      obtain rfl := finish_eq_returns htimer
      refine ⟨hholds, ?_⟩
      rw [if_neg fun hdue : (view l m.mem).due => hcounts hdue.1, if_neg hcounts]
  · rw [if_neg fun hboth => hfrom hboth.1] at htimer
    obtain rfl := finish_eq_returns htimer
    exact ⟨hholds, (if_neg hfrom).symm⟩

/-- The page fault at `0xFFFFFFFF` ends the handling and puts the saved frame in the place of the
current one. -/
theorem pageFault_view {env : TrapEnv} {tf : Addr} {m' : Machine} (hstack : InStack l tf)
    (hfault : pageFault l env tf m = .returns m') :
    Holds l m'.mem ∧
      if (view l m.mem).handling ≠ 0 ∧ env.cr2 = 0xFFFFFFFF then
        view l m'.mem = (view l m.mem).finish ∧ readFrame m'.mem tf = (view l m.mem).saved
      else m' = m := by
  unfold pageFault at hfault
  simp only [ne_eq, Machine.myproc_ne_zero hholds, not_false_eq_true, true_and,
    Machine.field_alarmTf hholds, Machine.field_eq hholds] at hfault
  split_ifs at hfault ⊢ with hends hends'
  · cases hfault
    have hagree := Agree.restore hstack m l.alarmTf
    have hrestored := hholds.congr hagree
    refine ⟨Machine.setField_holds hrestored (by decide) 0, ?_, ?_⟩
    · rw [Machine.view_setField hrestored, view_congr hagree]
      rfl
    · rw [Machine.frame_setField hrestored hstack]
      exact readFrame_move m.mem tf l.alarmTf
  · exact absurd hends hends'
  · exact absurd ‹_› hends
  · obtain rfl := finish_eq_returns hfault
    exact ⟨hholds, rfl⟩

theorem sysAlarm_view : Holds l (sysAlarm l m).1.mem ∧ view l (sysAlarm l m).1.mem
    = match argint l m 0, argptr l m 1 4 with
      | some ticks, some handler => (view l m.mem).set ticks handler
      | _, _ => view l m.mem := by
  unfold sysAlarm
  rcases argint l m 0 with _ | ticks
  · exact ⟨hholds, rfl⟩
  rcases argptr l m 1 4 with _ | handler
  · exact ⟨hholds, rfl⟩
  have htime := Machine.setField_holds hholds (f := .alarmtime) (by decide) ticks
  have hpassed := Machine.setField_holds htime (f := .alarmpassed) (by decide) 0
  refine ⟨Machine.setField_holds hpassed (by decide) handler, ?_⟩
  rw [Machine.view_setField hpassed, Machine.view_setField htime, Machine.view_setField hholds]
  rfl

end Delivery

end Acos.Alarm
