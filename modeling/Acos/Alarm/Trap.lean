import Acos.Lib.ByteMemory
import Acos.Lib.Transition

/-!
# Traps and the alarm

The kernel's side of the alarm: the timer interrupt that delivers it, the page fault that ends it
and the system call that sets it. Memory is the address space of the process, bytes at 32-bit
addresses, and the kernel reads `struct proc` and the trap frame from it, because delivery stores
through a pointer that the user chooses.
-/

namespace Acos.Alarm

open ByteMemory Transition

abbrev Addr := BitVec 32

abbrev Word := BitVec 32

/-- `KERNBASE`. -/
abbrev kernbase : Nat := 0x80000000

/-- `struct trapframe`, word by word. A selector shares its word with its padding. -/
abbrev TrapFrame := Fin 19 → Word

namespace TrapFrame

abbrev size : Nat := 76

abbrev eax : Fin 19 := 7

abbrev trapno : Fin 19 := 12

abbrev err : Fin 19 := 13

abbrev eip : Fin 19 := 14

abbrev cs : Fin 19 := 15

abbrev esp : Fin 19 := 17

/-- The distance of a field from the beginning of the frame. -/
abbrev offset (r : Fin 19) : Nat := 4 * r.val

end TrapFrame

/-- The fields of `struct proc` that are read or written here, with their distances from its
beginning. -/
inductive ProcField where
  | sz
  | tf
  | killed
  | handler
  | alarmtime
  | alarmpassed
  | handlingAlarm
  | alarmTf
  deriving DecidableEq

abbrev procSize : Nat := 144

abbrev ProcField.offset : ProcField → Nat
  | sz => 0
  | tf => 24
  | killed => 36
  | handler => 124
  | alarmtime => 128
  | alarmpassed => 132
  | handlingAlarm => 136
  | alarmTf => 140

/-- The region lies in the kernel's half of the address space. -/
def InKernel (a : Addr) (n : Nat) : Prop := kernbase ≤ a.toNat ∧ a.toNat + n ≤ 2 ^ 32

/-- Where the kernel keeps what belongs to the process: `mycpu()->proc`, the entry of the process
table, the kernel stack and the page of the saved frame. -/
structure Layout where
  cpu : Addr
  proc : Addr
  kstack : Addr
  alarmTf : Addr
  cpu_kernel : InKernel cpu 4
  proc_kernel : InKernel proc procSize
  kstack_kernel : InKernel kstack 4096
  alarmTf_kernel : InKernel alarmTf TrapFrame.size
  cpu_proc : Apart cpu 4 proc procSize
  cpu_kstack : Apart cpu 4 kstack 4096
  cpu_alarmTf : Apart cpu 4 alarmTf TrapFrame.size
  proc_kstack : Apart proc procSize kstack 4096
  proc_alarmTf : Apart proc procSize alarmTf TrapFrame.size
  kstack_alarmTf : Apart kstack 4096 alarmTf TrapFrame.size

/-- The frame of a trap from user mode is at the top of the kernel stack. -/
def Layout.tf (l : Layout) : Addr := l.kstack + BitVec.ofNat 32 (4096 - TrapFrame.size)

/-- Memory, and the regions the kernel has stored to. -/
structure Machine where
  mem : Memory 32
  written : List (Addr × Nat)

namespace Machine

def load (m : Machine) (a : Addr) : Word := m.mem.load32 a

def store (m : Machine) (a : Addr) (v : Word) : Machine :=
  ⟨m.mem.store32 a v, m.written ++ [(a, 4)]⟩

def memmove (m : Machine) (dst src : Addr) (n : Nat) : Machine :=
  ⟨m.mem.move dst src n, m.written ++ [(dst, n)]⟩

def myproc (l : Layout) (m : Machine) : Addr := m.load l.cpu

/-- The address of a field of `*myproc()`. -/
def fieldAddr (l : Layout) (m : Machine) (f : ProcField) : Addr :=
  m.myproc l + BitVec.ofNat 32 f.offset

def field (l : Layout) (m : Machine) (f : ProcField) : Word := m.load (m.fieldAddr l f)

def setField (l : Layout) (m : Machine) (f : ProcField) (v : Word) : Machine :=
  m.store (m.fieldAddr l f) v

def reg (m : Machine) (tf : Addr) (r : Fin 19) : Word :=
  m.load (tf + BitVec.ofNat 32 (TrapFrame.offset r))

def setReg (m : Machine) (tf : Addr) (r : Fin 19) (v : Word) : Machine :=
  m.store (tf + BitVec.ofNat 32 (TrapFrame.offset r)) v

end Machine

/-- `myproc()->alarmpassed++`. -/
def Machine.counted (l : Layout) (m : Machine) : Machine :=
  m.setField l .alarmpassed (m.field l .alarmpassed + 1)

/-- `(tf->cs & 3) == DPL_USER`. -/
def fromUser (m : Machine) (tf : Addr) : Bool := m.reg tf TrapFrame.cs &&& 3 = 3

/-- How `trap` ends. A store that faults raises a page fault in kernel mode, which `trap` returns
from without having done anything: the store is tried again forever. -/
inductive Outcome where
  | returns (m : Machine)
  | exits (m : Machine)
  | panics (m : Machine)
  | spins (m : Machine)

def Outcome.machine : Outcome → Machine
  | returns m => m
  | exits m => m
  | panics m => m
  | spins m => m

/-- What a trap finds outside memory: the address that faulted and the addresses the kernel may
store to. -/
structure TrapEnv where
  cr2 : Word
  writable : Addr → Bool

/-- The tail of `trap`, after its switch. -/
def finish (l : Layout) (tf : Addr) (m : Machine) : Outcome :=
  if m.myproc l ≠ 0 ∧ m.field l .killed ≠ 0 ∧ fromUser m tf then .exits m else .returns m

/-- The first half of a delivery: the frame is saved and the user stack grows by a word. -/
def saveFrame (l : Layout) (tf : Addr) (m : Machine) : Machine :=
  let m := m.memmove (m.field l .alarmTf) tf TrapFrame.size
  m.setReg tf TrapFrame.esp (m.reg tf TrapFrame.esp - 4)

/-- The second half: the return address `0xFFFFFFFF` goes on the user stack and the handler is
entered. -/
def enterHandler (l : Layout) (tf : Addr) (m : Machine) : Machine :=
  let m := m.store (m.reg tf TrapFrame.esp) 0xFFFFFFFF
  let m := m.setReg tf TrapFrame.eip (m.field l .handler)
  let m := m.setField l .alarmpassed 0
  m.setField l .handlingAlarm 1

/-- The kernel may store a word at `a`. -/
def WritableWord (env : TrapEnv) (a : Addr) : Prop :=
  ∀ i : Fin 4, env.writable (a + BitVec.ofNat 32 i)

instance (env : TrapEnv) (a : Addr) : Decidable (WritableWord env a) :=
  inferInstanceAs (Decidable (∀ _, _))

def deliver (l : Layout) (env : TrapEnv) (tf : Addr) (m : Machine) : Outcome :=
  let m := saveFrame l tf m
  if WritableWord env (m.reg tf TrapFrame.esp) then finish l tf (enterHandler l tf m)
  else .spins m

/-- The timer interrupt, as far as the process is concerned. -/
def timer (l : Layout) (env : TrapEnv) (tf : Addr) (m : Machine) : Outcome :=
  if m.myproc l ≠ 0 ∧ fromUser m tf then
    if (0 : Word).slt (m.field l .alarmtime) ∧ m.field l .handlingAlarm = 0 then
      let m := m.counted l
      if (m.field l .alarmtime).sle (m.field l .alarmpassed) then deliver l env tf m
      else finish l tf m
    else finish l tf m
  else finish l tf m

/-- The page fault: at `0xFFFFFFFF` it ends the handling of an alarm. -/
def pageFault (l : Layout) (env : TrapEnv) (tf : Addr) (m : Machine) : Outcome :=
  if m.myproc l ≠ 0 ∧ m.field l .handlingAlarm ≠ 0 ∧ env.cr2 = 0xFFFFFFFF then
    let m := m.memmove tf (m.field l .alarmTf) TrapFrame.size
    .returns (m.setField l .handlingAlarm 0)
  else finish l tf m

/-- `trap`. The devices' own handlers do not touch the process. -/
def trap (l : Layout) (env : TrapEnv) (syscall : Machine → Machine) (tf : Addr) (m : Machine) :
    Outcome :=
  match (m.reg tf TrapFrame.trapno).toNat with
  | 64 =>
      if m.field l .killed ≠ 0 then .exits m
      else
        let m := syscall (m.setField l .tf tf)
        if m.field l .killed ≠ 0 then .exits m else .returns m
  | 32 => timer l env tf m
  | 14 => pageFault l env tf m
  -- the keyboard, the serial port, the two disk interrupts and the two spurious ones
  | 33 | 36 | 46 | 47 | 39 | 63 => finish l tf m
  | _ =>
      if m.myproc l = 0 ∨ m.reg tf TrapFrame.cs &&& 3 = 0 then .panics m
      else finish l tf (m.setField l .killed 1)

/-! ### The system call -/

/-- `fetchint`. The sum may wrap around. -/
def fetchint (l : Layout) (m : Machine) (addr : Addr) : Option Word :=
  if m.field l .sz ≤ addr ∨ m.field l .sz < addr + 4 then none else some (m.load addr)

def argint (l : Layout) (m : Machine) (n : Nat) : Option Word :=
  fetchint l m (m.reg (m.field l .tf) TrapFrame.esp + 4 + BitVec.ofNat 32 (4 * n))

def argptr (l : Layout) (m : Machine) (n : Nat) (size : Word) : Option Addr :=
  (argint l m n).bind fun i =>
    if size.slt 0 ∨ m.field l .sz ≤ i ∨ m.field l .sz < i + size then none else some i

def sysAlarm (l : Layout) (m : Machine) : Machine × Word :=
  match argint l m 0, argptr l m 1 4 with
  | some ticks, some handler =>
      let m := m.setField l .alarmtime ticks
      let m := m.setField l .alarmpassed 0
      (m.setField l .handler handler, 0)
  | _, _ => (m, -1)

/-- `syscall` for the number of `alarm`. -/
def syscallAlarm (l : Layout) (m : Machine) : Machine :=
  let result := sysAlarm l m
  result.1.setReg (m.field l .tf) TrapFrame.eax result.2

/-! ### A process and its traps -/

def readFrame (mem : Memory 32) (tf : Addr) : TrapFrame :=
  fun r => mem.load32 (tf + BitVec.ofNat 32 (TrapFrame.offset r))

/-- The frame is laid down at `tf` by the hardware and by `alltraps`. -/
def pushFrame (mem : Memory 32) (tf : Addr) (frame : TrapFrame) : Memory 32 :=
  mem.write tf TrapFrame.size fun i => byteOf (frame (Fin.ofNat 19 (i / 4))) (i % 4)

/-- The frame that a trap with this number makes of the registers. -/
def TrapFrame.entering (regs : TrapFrame) (trapno err : Word) : TrapFrame :=
  Function.update (Function.update regs TrapFrame.trapno trapno) TrapFrame.err err

/-- A process in user mode: its memory and the registers the next trap will push. -/
structure State where
  mem : Memory 32
  regs : TrapFrame

def writeAll (writes : List (Addr × BitVec 8)) (mem : Memory 32) : Memory 32 :=
  writes.foldl (fun mem w => Function.update mem w.1 w.2) mem

/-- The addresses only the alarm's own code stores to. -/
def Protected (l : Layout) (x : Addr) : Prop :=
  Within l.cpu 4 x ∨ Within (l.proc + BitVec.ofNat 32 124) 20 x ∨ Within l.alarmTf TrapFrame.size x

instance (l : Layout) (x : Addr) : Decidable (Protected l x) := inferInstanceAs (Decidable (_ ∨ _))

/-- Stores of user code, which reach only the user's half of the address space. -/
def InUserHalf (writes : List (Addr × BitVec 8)) : Prop := ∀ w ∈ writes, w.1.toNat < kernbase

instance (writes : List (Addr × BitVec 8)) : Decidable (InUserHalf writes) :=
  List.decidableBAll _ writes

/-- Stores of a system call that leave the alarm's memory alone. -/
def Unprotected (l : Layout) (writes : List (Addr × BitVec 8)) : Prop :=
  ∀ w ∈ writes, ¬Protected l w.1

instance (l : Layout) (writes : List (Addr × BitVec 8)) : Decidable (Unprotected l writes) :=
  List.decidableBAll _ writes

inductive Event where
  /-- User code, a handler or not, changes registers and user memory. -/
  | user (regs : TrapFrame) (writes : List (Addr × BitVec 8))
  /-- The timer interrupts user mode. -/
  | timer (writable : Addr → Bool)
  /-- The timer interrupts the kernel during a system call. -/
  | kernelTimer (tf : Addr) (frame : TrapFrame)
  | alarm
  /-- A system call other than `alarm` and `exec`, with what it stores. A `fork` stores to the slot,
  the stack and the frames of the child. -/
  | syscall (writes : List (Addr × BitVec 8))
  | pageFault (err cr2 : Word)

/-- The machine on entry to `trap` from user mode. -/
def State.enter (l : Layout) (s : State) (trapno err : Word) : Machine :=
  ⟨pushFrame s.mem l.tf (s.regs.entering trapno err), []⟩

/-- Back in user mode, with the registers of the frame. -/
def resume (l : Layout) : Outcome → Option State
  | .returns m => some ⟨m.mem, readFrame m.mem l.tf⟩
  | _ => none

def occur (l : Layout) (event : Event) (s : State) : Option State :=
  match event with
  | .user regs writes =>
      if regs TrapFrame.cs &&& 3 = 3 ∧ InUserHalf writes then
        some ⟨writeAll writes s.mem, regs⟩
      else none
  | .timer writable => resume l (trap l ⟨0, writable⟩ id l.tf (s.enter l 32 0))
  | .kernelTimer tf frame =>
      if offset l.kstack tf + TrapFrame.size ≤ 4096 - TrapFrame.size ∧ frame TrapFrame.cs &&& 3 = 0
      then
        match trap l ⟨0, fun _ => true⟩ id tf ⟨pushFrame s.mem tf (frame.entering 32 0), []⟩ with
        | .returns m => some { s with mem := m.mem }
        | _ => none
      else none
  | .alarm => resume l (trap l ⟨0, fun _ => true⟩ (syscallAlarm l) l.tf (s.enter l 64 0))
  | .syscall writes =>
      if Unprotected l writes then
        resume l (trap l ⟨0, fun _ => true⟩ (fun m => { m with mem := writeAll writes m.mem }) l.tf
          (s.enter l 64 0))
      else none
  | .pageFault err cr2 => resume l (trap l ⟨cr2, fun _ => true⟩ id l.tf (s.enter l 14 err))

/-- A field of the entry of the process. -/
def fieldOf (l : Layout) (mem : Memory 32) (f : ProcField) : Word :=
  mem.load32 (l.proc + BitVec.ofNat 32 f.offset)

/-- The kernel finds the process and its saved frame where the layout says. -/
def Holds (l : Layout) (mem : Memory 32) : Prop :=
  mem.load32 l.cpu = l.proc ∧ fieldOf l mem .alarmTf = l.alarmTf

/-- A process as `allocproc` sets it up. -/
def Started (l : Layout) (s : State) : Prop :=
  Holds l s.mem ∧ ∀ f ∈ [ProcField.handler, .alarmtime, .alarmpassed, .handlingAlarm],
    fieldOf l s.mem f = 0

def alarmSystem (l : Layout) : System State Event := .ofFunction (Started l) (occur l)

end Acos.Alarm
