import Acos.Lib.ByteMemory
import Mathlib.Logic.Relation

/-!
# A fragment of x86-64

Registers, the three flags that the conditional jumps read, byte-addressed memory and the
instructions in the operand order of the assembler, source first. A program is a listing at a base
address: each line has its distance from the base and its length, so that `call` pushes the address
of the next line. The code is not part of the memory that the program stores to.
-/

namespace X86

open ByteMemory

abbrev Word := BitVec 64

inductive Reg where
  | rax
  | rcx
  | rdx
  | rsi
  | rdi
  | rbp
  | rsp
  deriving DecidableEq

structure Flags where
  zf : Bool
  sf : Bool
  of : Bool

structure State where
  regs : Reg → Word
  flags : Flags
  mem : Memory 64
  rip : Word

/-- `disp(base)` or `disp(base, index, 8)`. -/
structure Address where
  base : Reg
  index : Option Reg
  disp : Word

inductive Place where
  | reg (r : Reg)
  | mem (a : Address)

inductive Operand where
  | place (p : Place)
  | imm (v : Word)

abbrev Operand.reg (r : Reg) : Operand := .place (.reg r)

abbrev Operand.mem (a : Address) : Operand := .place (.mem a)

/-- The labels of the jumps are distances from the beginning of the program. -/
inductive Instruction where
  | mov (src : Operand) (dst : Place)
  | lea (src : Address) (dst : Reg)
  | add (src : Operand) (dst : Place)
  | xor (src : Operand) (dst : Place)
  | inc (dst : Place)
  | cmp (src : Operand) (dst : Place)
  /-- The comparison of 32-bit operands. -/
  | cmpl (src : Operand) (dst : Place)
  | test (src : Operand) (dst : Place)
  | jmp (label : Nat)
  | je (label : Nat)
  | jge (label : Nat)
  | call (label : Nat)
  | ret

/-! ### Flags -/

namespace Flags

variable {w : Nat}

def ofResult (result : BitVec w) (overflow : Bool) : Flags :=
  ⟨result == 0, result.msb, overflow⟩

def ofAdd (a b : BitVec w) : Flags := ofResult (a + b) (a.saddOverflow b)

def ofSub (a b : BitVec w) : Flags := ofResult (a - b) (a.ssubOverflow b)

theorem zf_ofSub {a b : BitVec w} : (ofSub a b).zf = true ↔ a = b := by
  rw [ofSub, ofResult, beq_iff_eq]
  constructor
  · intro hzero
    rw [← BitVec.sub_add_cancel a b, hzero]
    exact BitVec.zero_add b
  · rintro rfl
    exact BitVec.sub_self a

theorem zf_ofResult_and_self {a : BitVec w} {overflow : Bool} :
    (ofResult (a &&& a) overflow).zf = true ↔ a = 0 := by
  rw [ofResult, BitVec.and_self, beq_iff_eq]

/-- The sign and the overflow of a difference agree exactly if it is not negative. -/
theorem sf_eq_of_ofSub {a b : Word} : (ofSub a b).sf = (ofSub a b).of ↔ b.toInt ≤ a.toInt := by
  have ha := BitVec.toInt_lt (x := a)
  have ha' := BitVec.le_toInt (x := a)
  have hb := BitVec.toInt_lt (x := b)
  have hb' := BitVec.le_toInt (x := b)
  have hsub : (a - b).toInt = (a.toInt - b.toInt).bmod (2 ^ 64) := BitVec.toInt_sub
  rw [ofSub, ofResult, BitVec.msb_eq_toInt, BitVec.ssubOverflow, hsub, Bool.eq_iff_iff]
  simp only [Int.bmod, decide_eq_true_eq, Bool.or_eq_true]
  omega

end Flags

/-! ### States -/

namespace State

def set (s : State) (r : Reg) (v : Word) : State := { s with regs := Function.update s.regs r v }

def goto (s : State) (rip : Word) : State := { s with rip := rip }

def addr (s : State) (a : Address) : Word :=
  s.regs a.base + a.index.elim 0 (fun r => 8 * s.regs r) + a.disp

def readPlace (s : State) : Place → Word
  | .reg r => s.regs r
  | .mem a => s.mem.load64 (s.addr a)

def read (s : State) : Operand → Word
  | .place p => s.readPlace p
  | .imm v => v

/-- The low half of a register, or the four bytes at an address. -/
def readPlace32 (s : State) : Place → BitVec 32
  | .reg r => (s.regs r).setWidth 32
  | .mem a => s.mem.load32 (s.addr a)

def read32 (s : State) : Operand → BitVec 32
  | .place p => s.readPlace32 p
  | .imm v => v.setWidth 32

def write (s : State) : Place → Word → State
  | .reg r, v => s.set r v
  | .mem a, v => { s with mem := s.mem.store64 (s.addr a) v }

/-- The word goes below the stack pointer. -/
def push (s : State) (v : Word) : State :=
  { s.set .rsp (s.regs .rsp - 8) with mem := s.mem.store64 (s.regs .rsp - 8) v }

variable (s : State) (r : Reg) (v : Word)

@[simp]
theorem addr_base : s.addr ⟨r, none, 0⟩ = s.regs r := by simp [addr]

@[simp]
theorem addr_disp : s.addr ⟨r, none, v⟩ = s.regs r + v := by simp [addr]

@[simp]
theorem addr_index (q : Reg) : s.addr ⟨r, some q, 0⟩ = s.regs r + 8 * s.regs q := by simp [addr]

@[simp]
theorem set_regs_self : (s.set r v).regs r = v := Function.update_self ..

@[simp]
theorem set_regs_of_ne {q : Reg} (hne : q ≠ r) : (s.set r v).regs q = s.regs q :=
  Function.update_of_ne hne ..

@[simp]
theorem set_set (u : Word) : (s.set r u).set r v = s.set r v := by
  simp [set]

variable (rip : Word)

@[simp]
theorem goto_regs : (s.goto rip).regs = s.regs := rfl

@[simp]
theorem goto_set : (s.goto rip).set r v = (s.set r v).goto rip := rfl

@[simp]
theorem goto_goto (next : Word) : (s.goto rip).goto next = s.goto next := rfl

end State

/-! ### Programs -/

structure Line where
  offset : Nat
  length : Nat
  instruction : Instruction

structure Program where
  base : Word
  lines : List Line

namespace Program

variable (p : Program)

def address (label : Nat) : Word := p.base + BitVec.ofNat 64 label

def fetch (rip : Word) : Option Line :=
  p.lines.find? fun line => line.offset == (rip - p.base).toNat

end Program

/-- One instruction, with the address of the next one in `rip`. -/
def exec (p : Program) (instruction : Instruction) (s : State) : State :=
  match instruction with
  | .mov src dst => s.write dst (s.read src)
  | .lea src dst => s.set dst (s.addr src)
  | .add src dst =>
      { s.write dst (s.readPlace dst + s.read src) with
        flags := .ofAdd (s.readPlace dst) (s.read src) }
  | .xor src dst =>
      { s.write dst (s.readPlace dst ^^^ s.read src) with
        flags := .ofResult (s.readPlace dst ^^^ s.read src) false }
  | .inc dst =>
      { s.write dst (s.readPlace dst + 1) with flags := .ofAdd (s.readPlace dst) 1 }
  | .cmp src dst => { s with flags := .ofSub (s.readPlace dst) (s.read src) }
  | .cmpl src dst => { s with flags := .ofSub (s.readPlace32 dst) (s.read32 src) }
  | .test src dst => { s with flags := .ofResult (s.readPlace dst &&& s.read src) false }
  | .jmp label => s.goto (p.address label)
  | .je label => s.goto (if s.flags.zf then p.address label else s.rip)
  | .jge label => s.goto (if s.flags.sf = s.flags.of then p.address label else s.rip)
  | .call label => (s.push s.rip).goto (p.address label)
  | .ret => (s.set .rsp (s.regs .rsp + 8)).goto (s.mem.load64 (s.regs .rsp))

/-- The program goes on as long as there is a line at `rip`. -/
def step (p : Program) (s : State) : Option State :=
  (p.fetch s.rip).map fun line =>
    exec p line.instruction (s.goto (s.rip + BitVec.ofNat 64 line.length))

/-- Finitely many steps lead from one state to the other. -/
def Reaches (p : Program) : State → State → Prop :=
  Relation.ReflTransGen fun s s' => step p s = some s'

section Steps

variable {p : Program} {s s' s'' : State}

theorem step_at {offset : Nat} {line : Line} (hrip : s.rip = p.address offset)
    (hoffset : offset < 2 ^ 64)
    (hline : p.lines.find? (fun line => line.offset == offset) = some line) :
    step p s = some (exec p line.instruction (s.goto (p.address (offset + line.length)))) := by
  have hdistance : (s.rip - p.base).toNat = offset := by
    rw [hrip, Program.address, BitVec.add_comm, BitVec.add_sub_cancel, BitVec.toNat_ofNat,
      Nat.mod_eq_of_lt hoffset]
  have hnext : s.rip + BitVec.ofNat 64 line.length = p.address (offset + line.length) := by
    rw [hrip, Program.address, Program.address, BitVec.add_assoc, BitVec.ofNat_add]
  rw [step, Program.fetch, hdistance, hline, Option.map_some, hnext]

theorem Reaches.refl (p : Program) (s : State) : Reaches p s s := Relation.ReflTransGen.refl

theorem Reaches.head (hstep : step p s = some s') (hreaches : Reaches p s' s'') :
    Reaches p s s'' := Relation.ReflTransGen.head hstep hreaches

theorem Reaches.trans (hfirst : Reaches p s s') (hsecond : Reaches p s' s'') :
    Reaches p s s'' := Relation.ReflTransGen.trans hfirst hsecond

/-- A loop is gone through `n` times if every turn leads from one invariant to the next. -/
theorem Reaches.loop {inv : Nat → State → Prop} {n : Nat}
    (hturn : ∀ i s, i < n → inv i s → ∃ s', Reaches p s s' ∧ inv (i + 1) s')
    (hstart : ∃ s', Reaches p s s' ∧ inv 0 s') : ∃ s', Reaches p s s' ∧ inv n s' := by
  induction n with
  | zero => exact hstart
  | succ n ih =>
      obtain ⟨s₁, hfirst, hinv⟩ := ih fun i s hi => hturn i s (Nat.lt_succ_of_lt hi)
      obtain ⟨s₂, hlast, hinv'⟩ := hturn n s₁ (Nat.lt_succ_self n) hinv
      exact ⟨s₂, hfirst.trans hlast, hinv'⟩

/-- A program that stops does so in one state only. -/
theorem Reaches.unique (hfirst : Reaches p s s') (hsecond : Reaches p s s'')
    (hstop : step p s' = none) (hstop' : step p s'' = none) : s' = s'' := by
  have hunique : Relator.RightUnique fun s s' => step p s = some s' :=
    fun _ _ _ h h' => Option.some.inj (h.symm.trans h')
  have hstay : ∀ {t t' : State}, step p t = none → Reaches p t t' → t = t' := by
    intro t t' hnone hreaches
    rcases Relation.ReflTransGen.cases_head hreaches with heq | ⟨next, hnext, _⟩
    · exact heq
    · exact absurd (hnone.symm.trans hnext) (Option.some_ne_none next).symm
  rcases Relation.ReflTransGen.total_of_right_unique hunique hfirst hsecond with h | h
  · exact hstay hstop h
  · exact (hstay hstop' h).symm

end Steps

end X86
