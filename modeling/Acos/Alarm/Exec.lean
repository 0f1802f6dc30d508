import Acos.Alarm.Restore

/-!
# `exec`

`exec` builds the new address space next to the old one: the segments of the file, two pages for the
stack, the arguments. Only when all of it has succeeded does it commit, and what it then changes is
the page table, the size of the process and two registers of the trap frame. Of `struct proc` it
leaves the rest as it was.
-/

namespace Acos.Alarm

open ByteMemory

/-- `PGSIZE`. -/
abbrev pgsize : Nat := 4096

/-- `MAXARG`. -/
abbrev maxarg : Nat := 32

/-- `struct proghdr`, with what the file holds from `off` on. -/
structure Proghdr where
  type : Word
  vaddr : Word
  memsz : Word
  filesz : Word
  bytes : List (BitVec 8)

/-- The file that `path` names: the entry point and the program headers. A header that cannot be
read in full is `none`. -/
structure ElfFile where
  entry : Word
  headers : List (Option Proghdr)

/-- What `exec` finds outside the process: the file, if there is one with the right header and a
page table could be had, and whether there are pages enough to grow to a size. -/
structure ExecEnv where
  file : Option ElfFile
  pages : Word → Bool

/-- The address space being built. -/
structure Space where
  sz : Word
  mem : Memory 32

/-- `allocuvm`. The size 0 stands for a failure. -/
def allocuvm (pages : Word → Bool) (oldsz newsz : Word) : Word :=
  if kernbase ≤ newsz.toNat then 0
  else if newsz < oldsz then oldsz
  else if pages newsz then newsz else 0

/-- One round of the loop over the program headers. -/
def loadSegment (pages : Word → Bool) (space : Space) (header : Option Proghdr) : Option Space :=
  header.bind fun ph =>
    if ph.type ≠ 1 then some space
    else if ph.memsz < ph.filesz ∨ ph.vaddr + ph.memsz < ph.vaddr then none
    else
      let sz := allocuvm pages space.sz (ph.vaddr + ph.memsz)
      if sz = 0 ∨ ph.vaddr.toNat % pgsize ≠ 0 then none
      -- `loaduvm` fails if the file is too short
      else if ph.bytes.length < ph.filesz.toNat then none
      else some { sz, mem := space.mem.write ph.vaddr ph.filesz.toNat fun i => ph.bytes.getD i 0 }

/-- `PGROUNDUP`. -/
def pgroundup (sz : Word) : Word := (sz + 4095) &&& ~~~4095

/-- The pages that user code may use: all below `sz` but the guard page under the stack. -/
def Space.accessible (space : Space) (x : Addr) : Bool :=
  x < space.sz ∧ ¬(space.sz - 8192 ≤ x ∧ x < space.sz - 4096)

def copyout (space : Space) (va : Addr) (bytes : List (BitVec 8)) : Option Space :=
  if (List.range bytes.length).all fun i => space.accessible (va + BitVec.ofNat 32 i) then
    some { space with mem := space.mem.write va bytes.length fun i => bytes.getD i 0 }
  else none

/-- The loop that pushes the argument strings, with the pointers it puts into `ustack`. -/
def pushStrings : List (List (BitVec 8)) → Nat → Word → List Word → Space →
    Option (Word × List Word × Space)
  | [], _, sp, pointers, space => some (sp, pointers, space)
  | arg :: argv, argc, sp, pointers, space =>
      if maxarg ≤ argc then none
      else
        let sp := (sp - BitVec.ofNat 32 (arg.length + 1)) &&& ~~~3
        (copyout space sp (arg ++ [0])).bind (pushStrings argv (argc + 1) sp (pointers ++ [sp]))

/-- The bytes of an array of words. -/
def wordBytes (words : List Word) : List (BitVec 8) :=
  words.flatMap fun v => (List.range 4).map (byteOf v)

/-- The stack of `main`: a return address that is not mapped, the number of the arguments, the
pointer to their array, and the array. -/
def ustack (sp : Word) (pointers : List Word) : List Word :=
  let argc := pointers.length
  [0xFFFFFFFF, BitVec.ofNat 32 argc, sp - BitVec.ofNat 32 ((argc + 1) * 4)] ++ pointers ++ [0]

/-- Everything up to the commit: the new address space, its entry point and its stack pointer. -/
def buildImage (env : ExecEnv) (argv : List (List (BitVec 8))) : Option (Space × Word × Word) := do
  let file ← env.file
  let loaded ← file.headers.foldlM (loadSegment env.pages) { sz := 0, mem := fun _ => 0 }
  let base := pgroundup loaded.sz
  let sz := allocuvm env.pages base (base + BitVec.ofNat 32 (2 * pgsize))
  if sz = 0 then none
  else
    let (sp, pointers, space) ← pushStrings argv 0 sz [] { loaded with sz }
    let frame := wordBytes (ustack sp pointers)
    let sp := sp - BitVec.ofNat 32 frame.length
    let space ← copyout space sp frame
    some (space, file.entry, sp)

/-- `switchuvm`: the user's half is the one of the new page table. -/
def Machine.switchuvm (m : Machine) (space : Space) : Machine :=
  { m with mem := fun x => if x.toNat < kernbase then space.mem x else m.mem x }

def exec (l : Layout) (env : ExecEnv) (argv : List (List (BitVec 8))) (m : Machine) :
    Machine × Word :=
  match buildImage env argv with
  | none => (m, -1)
  | some (space, entry, sp) =>
      let m := m.setField l .sz space.sz
      let m := m.setReg (m.field l .tf) TrapFrame.eip entry
      let m := m.setReg (m.field l .tf) TrapFrame.esp sp
      (m.switchuvm space, 0)

/-- `syscall` for the number of `exec`, with the arguments `sys_exec` has fetched. -/
def syscallExec (l : Layout) (env : ExecEnv) (argv : List (List (BitVec 8))) (m : Machine) :
    Machine :=
  let result := exec l env argv m
  result.1.setReg (m.field l .tf) TrapFrame.eax result.2

/-! ### What it leaves alone -/

theorem Agree.switchuvm (l : Layout) (m : Machine) (space : Space) :
    Agree l m.mem (m.switchuvm space).mem :=
  fun _ hx => if_neg (Nat.not_lt.mpr hx.le)

section Exec

variable {l : Layout} {m : Machine} (hholds : Holds l m.mem)

include hholds

theorem Machine.field_setReg {tf : Addr} (hstack : InStack l tf) (r : Fin 19) (v : Word)
    (f : ProcField) : (m.setReg tf r v).field l f = m.field l f := by
  have hset : Holds l (m.setReg tf r v).mem := hholds.congr (Agree.setReg hstack m r v)
  rw [Machine.field_eq hset, Machine.field_eq hholds]
  refine Memory.load32_write_of_apart (by decide) fun x hreg hfield => ?_
  exact l.proc_kstack x (hfield.of_add f.offset_add_le) (hstack.within (within_reg hreg))

/-- The alarm survives an `exec`, whether it succeeds or not. -/
theorem exec_view (htf : m.field l .tf = l.tf) (env : ExecEnv) (argv : List (List (BitVec 8))) :
    Holds l (exec l env argv m).1.mem ∧ view l (exec l env argv m).1.mem = view l m.mem := by
  unfold exec
  split
  · exact ⟨hholds, rfl⟩
  · rename_i space entry sp _
    dsimp only
    have hsized := Machine.setField_holds hholds (f := .sz) (by decide) space.sz
    have hview : view l (m.setField l .sz space.sz).mem = view l m.mem :=
      Machine.view_setField hholds .sz space.sz
    have htf' : (m.setField l .sz space.sz).field l .tf = l.tf := by
      rw [Machine.field_eq hsized, Machine.fieldOf_setField hholds, if_neg (by decide),
        ← Machine.field_eq hholds, htf]
    generalize m.setField l .sz space.sz = sized at hsized hview htf'
    rw [htf', Machine.field_setReg hsized l.tf_inStack, htf']
    have hagree := ((Agree.setReg l.tf_inStack sized TrapFrame.eip entry).trans
      (Agree.setReg l.tf_inStack _ TrapFrame.esp sp)).trans (Agree.switchuvm l _ space)
    exact ⟨hsized.congr hagree, (view_congr hagree).trans hview⟩

end Exec

end Acos.Alarm
