import Mathlib.Data.Nat.Find
import Acos.Lib.X86

/-!
# Return addresses of the frames

The loop of `Backtrace` follows the saved frame pointers from `%rbp` on and stores the return
address of each frame. It compares the four low bytes of a saved frame pointer with zero, since the
comparison has no suffix, and it stores before it looks at the limit.
-/

namespace Acos.Elf

open ByteMemory X86

/-! ### The text -/

abbrev loop : Nat := 8

/-- The jump after the limit has been looked at. -/
abbrev limitTest : Nat := 27

abbrev endLoop : Nat := 34

/-- The compiler has put `cnt` into `%rdx`, `backtrace` into `%rsi` and `lim` into `%rdi`. -/
def backtraceS (base : Word) : Program where
  base := base
  lines := [
    ⟨0, 3, .test (.reg .rsi) (.reg .rsi)⟩,
    ⟨3, 2, .je endLoop⟩,
    ⟨5, 3, .mov (.reg .rbp) (.reg .rax)⟩,
    -- loop:
    ⟨8, 3, .cmpl (.imm 0) (.mem ⟨.rax, none, 0⟩)⟩,
    ⟨11, 2, .je endLoop⟩,
    ⟨13, 4, .mov (.mem ⟨.rax, none, 8⟩) (.reg .rcx)⟩,
    ⟨17, 4, .mov (.reg .rcx) (.mem ⟨.rsi, some .rdx, 0⟩)⟩,
    ⟨21, 3, .inc (.reg .rdx)⟩,
    ⟨24, 3, .cmp (.reg .rdi) (.reg .rdx)⟩,
    ⟨27, 2, .jge endLoop⟩,
    ⟨29, 3, .mov (.mem ⟨.rax, none, 0⟩) (.reg .rax)⟩,
    ⟨32, 2, .jmp loop⟩]
    -- end:

/-- The state at the beginning of the text: `cnt` is 0 and `lim` the limit as `long long`. -/
def Backtrace (base : Word) (s : State) (backtrace : Word) (limit : BitVec 32) : State :=
  (((s.set .rdx 0).set .rsi backtrace).set .rdi (limit.signExtend 64)).goto base

def returned (s : State) : BitVec 32 := (s.regs .rdx).setWidth 32

/-! ### Frames -/

/-- The frame pointer `i` frames further out. -/
def framePointer (mem : Memory 64) (fp : Word) : Nat → Word
  | 0 => fp
  | i + 1 => mem.load64 (framePointer mem fp i)

/-- The frames from `fp` on have these return addresses, up to the one whose saved frame pointer
is 0. -/
def Chain (mem : Memory 64) : Word → List Word → Prop
  | fp, [] => mem.load64 fp = 0
  | fp, ra :: returns =>
      mem.load64 fp ≠ 0 ∧ mem.load64 (fp + 8) = ra ∧ Chain mem (mem.load64 fp) returns

instance Chain.decidable (mem : Memory 64) :
    (fp : Word) → (returns : List Word) → Decidable (Chain mem fp returns)
  | fp, [] => inferInstanceAs (Decidable (mem.load64 fp = 0))
  | fp, ra :: returns =>
      have := Chain.decidable mem (mem.load64 fp) returns
      inferInstanceAs (Decidable (mem.load64 fp ≠ 0 ∧ mem.load64 (fp + 8) = ra
        ∧ Chain mem (mem.load64 fp) returns))

section Frames

variable {mem : Memory 64} {fp : Word} {returns : List Word}

theorem framePointer_succ (i : Nat) :
    framePointer mem fp (i + 1) = framePointer mem (mem.load64 fp) i := by
  induction i with
  | zero => rfl
  | succ i ih => rw [framePointer, ih, framePointer]

theorem Chain.last (hchain : Chain mem fp returns) :
    mem.load64 (framePointer mem fp returns.length) = 0 := by
  induction returns generalizing fp with
  | nil => exact hchain
  | cons ra returns ih =>
      rw [List.length_cons, framePointer_succ]
      exact ih hchain.2.2

theorem Chain.getElem? (hchain : Chain mem fp returns) {i : Nat} (hi : i < returns.length) :
    returns[i]? = some (mem.load64 (framePointer mem fp i + 8)) := by
  induction returns generalizing fp i with
  | nil => exact absurd hi (Nat.not_lt_zero i)
  | cons ra returns ih =>
      cases i with
      | zero => exact congrArg some hchain.2.1.symm
      | succ i =>
          rw [List.getElem?_cons_succ, framePointer_succ]
          exact ih hchain.2.2 (Nat.lt_of_succ_lt_succ hi)

theorem load32_eq_zero {a : Word} (hzero : mem.load64 a = 0) : mem.load32 a = 0 := by
  have hlow : (mem.load64 a).setWidth 32 = mem.load32 a := BitVec.setWidth_append_eq_right
  rw [← hlow, hzero]
  rfl

/-- The first frame at which the comparison finds zero. -/
structure StopsAt (mem : Memory 64) (fp : Word) (k : Nat) : Prop where
  zero : mem.load32 (framePointer mem fp k) = 0
  before : ∀ i < k, mem.load32 (framePointer mem fp i) ≠ 0

/-- It is not beyond the end of the chain. -/
theorem Chain.exists_stop (hchain : Chain mem fp returns) :
    ∃ k ≤ returns.length, StopsAt mem fp k := by
  have hlast : ∃ k, mem.load32 (framePointer mem fp k) = 0 :=
    ⟨returns.length, load32_eq_zero hchain.last⟩
  exact ⟨Nat.find hlast, Nat.find_min' hlast (load32_eq_zero hchain.last), Nat.find_spec hlast,
    fun i hi => Nat.find_min hlast hi⟩

end Frames

/-! ### Blocks -/

variable {base : Word} {s : State}

theorem stop (hrip : s.rip = (backtraceS base).address endLoop) :
    step (backtraceS base) s = none := by
  have hdistance : (s.rip - base).toNat = endLoop := by
    rw [hrip, Program.address, BitVec.add_comm, backtraceS, BitVec.add_sub_cancel]
    rfl
  rw [step, Program.fetch, backtraceS, hdistance]
  rfl

theorem enters {backtrace : Word} {limit : BitVec 32} (hbacktrace : backtrace ≠ 0) :
    ∃ s', Reaches (backtraceS base) (Backtrace base s backtrace limit) s'
      ∧ s'.rip = (backtraceS base).address loop ∧ s'.regs .rax = s.regs .rbp
      ∧ s'.regs .rdx = 0 ∧ s'.regs .rsi = backtrace ∧ s'.regs .rdi = limit.signExtend 64
      ∧ s'.mem = s.mem := by
  have hrip : (Backtrace base s backtrace limit).rip = (backtraceS base).address 0 :=
    (BitVec.add_zero base).symm
  have hzf : ¬(Flags.ofResult (backtrace &&& backtrace) false).zf = true :=
    mt Flags.zf_ofResult_and_self.mp hbacktrace
  exact ⟨_, .head (step_at hrip (by decide) rfl) (.head (step_at rfl (by decide) rfl)
    (.head (step_at (if_neg hzf) (by decide) rfl) (.refl _ _))), rfl, rfl, rfl, rfl, rfl, rfl⟩

theorem leaves (hrip : s.rip = (backtraceS base).address loop)
    (hzero : s.mem.load32 (s.regs .rax) = 0) :
    ∃ s', Reaches (backtraceS base) s s' ∧ s'.rip = (backtraceS base).address endLoop
      ∧ s'.regs .rdx = s.regs .rdx ∧ s'.mem = s.mem := by
  have hzf : (Flags.ofSub (s.mem.load32 (s.addr ⟨.rax, none, 0⟩)) 0).zf = true := by
    rw [Flags.zf_ofSub, State.addr_base, hzero]
  exact ⟨_, .head (step_at hrip (by decide) rfl) (.head (step_at rfl (by decide) rfl)
    (.refl _ _)), if_pos hzf, rfl, rfl⟩

/-- The comparison does not find zero, and the return address is stored. -/
theorem stores (hrip : s.rip = (backtraceS base).address loop)
    (hne : s.mem.load32 (s.regs .rax) ≠ 0) :
    ∃ s', Reaches (backtraceS base) s s' ∧ s'.rip = (backtraceS base).address limitTest
      ∧ s'.flags = .ofSub (s.regs .rdx + 1) (s.regs .rdi)
      ∧ s'.regs .rax = s.regs .rax ∧ s'.regs .rdx = s.regs .rdx + 1
      ∧ s'.regs .rsi = s.regs .rsi ∧ s'.regs .rdi = s.regs .rdi
      ∧ s'.mem = s.mem.store64 (s.regs .rsi + 8 * s.regs .rdx)
        (s.mem.load64 (s.regs .rax + 8)) := by
  have hzf : ¬(Flags.ofSub (s.mem.load32 (s.addr ⟨.rax, none, 0⟩)) 0).zf = true := by
    rw [Flags.zf_ofSub, State.addr_base]
    exact hne
  refine ⟨_, .head (step_at hrip (by decide) rfl) (.head (step_at rfl (by decide) rfl)
    (.head (step_at (if_neg hzf) (by decide) rfl) (.head (step_at rfl (by decide) rfl)
    (.head (step_at rfl (by decide) rfl) (.head (step_at rfl (by decide) rfl) (.refl _ _)))))),
    rfl, rfl, rfl, rfl, rfl, rfl, ?_⟩
  change s.mem.store64 (s.addr ⟨.rsi, some .rdx, 0⟩) (s.mem.load64 (s.addr ⟨.rax, none, 8⟩)) = _
  rw [State.addr_index, State.addr_disp]

theorem limit_reached (hrip : s.rip = (backtraceS base).address limitTest) {a b : Word}
    (hflags : s.flags = .ofSub a b) (hle : b.toInt ≤ a.toInt) :
    Reaches (backtraceS base) s (s.goto ((backtraceS base).address endLoop)) := by
  have hge : s.flags.sf = s.flags.of := by
    rw [hflags]
    exact Flags.sf_eq_of_ofSub.mpr hle
  have hstep := step_at hrip (by decide) rfl
  change step _ s = some (s.goto (if s.flags.sf = s.flags.of then _ else _)) at hstep
  rw [if_pos hge] at hstep
  exact .head hstep (.refl _ _)

theorem limit_not_reached (hrip : s.rip = (backtraceS base).address limitTest) {a b : Word}
    (hflags : s.flags = .ofSub a b) (hlt : a.toInt < b.toInt) :
    Reaches (backtraceS base) s
      ((s.set .rax (s.mem.load64 (s.regs .rax))).goto ((backtraceS base).address loop)) := by
  have hge : ¬s.flags.sf = s.flags.of := by
    rw [hflags, Flags.sf_eq_of_ofSub]
    exact Int.not_le.mpr hlt
  have hstep := step_at hrip (by decide) rfl
  change step _ s = some (s.goto (if s.flags.sf = s.flags.of then _ else _)) at hstep
  rw [if_neg hge] at hstep
  have hnext := step_at (s := s.goto ((backtraceS base).address 29)) rfl (by decide) rfl
  change step _ _ = some ((s.set .rax (s.mem.load64 (s.addr ⟨.rax, none, 0⟩))).goto _) at hnext
  rw [State.addr_base] at hnext
  exact .head hstep (.head hnext (.head (step_at rfl (by decide) rfl) (.refl _ _)))

/-! ### The walk -/

/-- The array of the caller: not NULL, and none of its elements among the words of the frames. -/
structure IsBuffer (s : State) (backtrace : Word) (limit : BitVec 32) (frames : Nat) : Prop where
  limit_nonneg : 0 ≤ limit.toInt
  ne_null : backtrace ≠ 0
  apart : ∀ i, i ≤ frames →
    Apart (framePointer s.mem (s.regs .rbp) i) 16 backtrace (8 * limit.toNat)

/-- The memory with the first `i` return addresses stored. -/
structure Recorded (s : State) (backtrace : Word) (i : Nat) (mem : Memory 64) : Prop where
  stored : ∀ j, j < i → mem.load64 (backtrace + .ofNat 64 (8 * j))
    = s.mem.load64 (framePointer s.mem (s.regs .rbp) j + 8)
  frame : ∀ x, ¬Within backtrace (8 * i) x → mem x = s.mem x

/-- The head of the loop after `i` turns. -/
structure Walking (base : Word) (s : State) (backtrace : Word) (limit : BitVec 32) (i : Nat)
    (t : State) : Prop where
  rip : t.rip = (backtraceS base).address loop
  rax : t.regs .rax = framePointer s.mem (s.regs .rbp) i
  rdx : t.regs .rdx = .ofNat 64 i
  rsi : t.regs .rsi = backtrace
  rdi : t.regs .rdi = limit.signExtend 64
  recorded : Recorded s backtrace i t.mem

section Walk

variable {backtrace : Word} {limit : BitVec 32} {frames i j : Nat} {t : State} {mem : Memory 64}

theorem IsBuffer.limit_lt (hbuffer : IsBuffer s backtrace limit frames) :
    limit.toNat < 2 ^ 31 := by
  have hnonneg := hbuffer.limit_nonneg
  rw [BitVec.toInt_eq_toNat_cond] at hnonneg
  have hlt := limit.isLt
  split at hnonneg <;> omega

theorem IsBuffer.lim (hbuffer : IsBuffer s backtrace limit frames) :
    (limit.signExtend 64).toInt = limit.toNat := by
  have hlt := hbuffer.limit_lt
  rw [BitVec.toInt_signExtend_of_le (by decide), BitVec.toInt_eq_toNat_of_lt (by omega)]

theorem toInt_ofNat_of_lt (hi : i < 2 ^ 63) : (BitVec.ofNat 64 i).toInt = i := by
  have hvalue : (BitVec.ofNat 64 i).toNat = i := by
    rw [BitVec.toNat_ofNat, Nat.mod_eq_of_lt (by omega)]
  rw [BitVec.toInt_eq_toNat_of_lt (by omega), hvalue]

theorem Recorded.store (hrecorded : Recorded s backtrace i mem) (hi : i < 2 ^ 60) :
    Recorded s backtrace (i + 1) (mem.store64 (backtrace + .ofNat 64 (8 * i))
      (s.mem.load64 (framePointer s.mem (s.regs .rbp) i + 8))) := by
  constructor
  · intro j hj
    rcases Nat.lt_succ_iff_lt_or_eq.mp hj with hlt | rfl
    · rw [← hrecorded.stored j hlt]
      apply Memory.load64_store64_of_apart (by decide)
      exact .of_add (by omega) (by omega)
    · exact Memory.load64_store64 _ _ _ (by decide)
  · intro x hx
    rw [Memory.store64_of_not_within fun hslot => hx (hslot.of_add (by omega))]
    exact hrecorded.frame x fun hold => hx (hold.mono (by omega))

/-- The words of a frame have not changed. -/
theorem Recorded.frame_eq (hrecorded : Recorded s backtrace i mem) (hi : i ≤ limit.toNat)
    (hbuffer : IsBuffer s backtrace limit frames) (hj : j ≤ frames) :
    ∀ x, Within (framePointer s.mem (s.regs .rbp) j) 16 x → mem x = s.mem x := by
  intro x hx
  exact hrecorded.frame x fun hold => hbuffer.apart j hj x hx (hold.mono (by omega))

theorem Walking.load32 (hwalking : Walking base s backtrace limit i t)
    (hbuffer : IsBuffer s backtrace limit frames) (hi : i ≤ limit.toNat) (hframes : i ≤ frames) :
    t.mem.load32 (t.regs .rax) = s.mem.load32 (framePointer s.mem (s.regs .rbp) i) := by
  rw [hwalking.rax]
  exact Memory.load32_congr (by decide) fun x hx =>
    hwalking.recorded.frame_eq hi hbuffer hframes x (hx.mono (by decide))

theorem Walking.stored (hwalking : Walking base s backtrace limit i t)
    (hbuffer : IsBuffer s backtrace limit frames) (hi : i ≤ limit.toNat) (hframes : i ≤ frames) :
    Recorded s backtrace (i + 1) (t.mem.store64 (t.regs .rsi + 8 * t.regs .rdx)
      (t.mem.load64 (t.regs .rax + 8))) := by
  have hlimit := hbuffer.limit_lt
  have hword : t.mem.load64 (t.regs .rax + 8)
      = s.mem.load64 (framePointer s.mem (s.regs .rbp) i + 8) := by
    rw [hwalking.rax]
    exact Memory.load64_congr (by decide) fun x hx =>
      hwalking.recorded.frame_eq hi hbuffer hframes x (hx.of_add (by decide))
  have hslot : t.regs .rsi + 8 * t.regs .rdx = backtrace + .ofNat 64 (8 * i) := by
    rw [hwalking.rsi, hwalking.rdx, BitVec.ofNat_mul]
    rfl
  rw [hword, hslot]
  exact hwalking.recorded.store (by omega)

theorem Walking.count (hwalking : Walking base s backtrace limit i t) :
    t.regs .rdx + 1 = .ofNat 64 (i + 1) := by
  rw [hwalking.rdx, BitVec.ofNat_add]
  rfl

theorem Walking.limit_le_iff (hwalking : Walking base s backtrace limit i t)
    (hbuffer : IsBuffer s backtrace limit frames) (hi : i ≤ limit.toNat) :
    (t.regs .rdi).toInt ≤ (t.regs .rdx + 1).toInt ↔ limit.toNat ≤ i + 1 := by
  have hlimit := hbuffer.limit_lt
  rw [hwalking.count, toInt_ofNat_of_lt (by omega), hwalking.rdi, hbuffer.lim]
  exact Int.ofNat_le

theorem Walking.turn (hwalking : Walking base s backtrace limit i t)
    (hbuffer : IsBuffer s backtrace limit frames) (hi : i + 1 < limit.toNat)
    (hframes : i ≤ frames) (hne : s.mem.load32 (framePointer s.mem (s.regs .rbp) i) ≠ 0) :
    ∃ t', Reaches (backtraceS base) t t' ∧ Walking base s backtrace limit (i + 1) t' := by
  rw [← hwalking.load32 hbuffer (by omega) hframes] at hne
  obtain ⟨t', hreaches, hrip, hflags, hrax, hrdx, hrsi, hrdi, hmem⟩ := stores hwalking.rip hne
  have hlt : (t.regs .rdx + 1).toInt < (t.regs .rdi).toInt := by
    rw [← Int.not_le, hwalking.limit_le_iff hbuffer (by omega)]
    omega
  have hrecorded : Recorded s backtrace (i + 1) t'.mem :=
    hmem ▸ hwalking.stored hbuffer (by omega) hframes
  have hnext : t'.mem.load64 (t'.regs .rax) = framePointer s.mem (s.regs .rbp) (i + 1) := by
    rw [hrax, hwalking.rax]
    exact Memory.load64_congr (by decide) fun x hx =>
      hrecorded.frame_eq (by omega) hbuffer hframes x (hx.mono (by decide))
  refine ⟨_, hreaches.trans (limit_not_reached hrip hflags hlt), rfl, ?_,
    hrdx.trans hwalking.count, hrsi.trans hwalking.rsi, hrdi.trans hwalking.rdi, hrecorded⟩
  rw [State.goto_regs, State.set_regs_self, hnext]

/-- The head of the loop is reached with each frame up to the one where the walk stops, as long as
the limit allows. -/
theorem walks (base : Word) (hbuffer : IsBuffer s backtrace limit frames) {k : Nat}
    (hk : k ≤ frames) (hstops : StopsAt s.mem (s.regs .rbp) k) (hi : i ≤ k)
    (hlimit : i < max limit.toNat 1) :
    ∃ t, Reaches (backtraceS base) (Backtrace base s backtrace limit) t
      ∧ Walking base s backtrace limit i t := by
  apply Reaches.loop
  · intro j t hj hwalking
    exact hwalking.turn hbuffer (by omega) (by omega) (hstops.before j (by omega))
  · obtain ⟨t, hreaches, hrip, hrax, hrdx, hrsi, hrdi, hmem⟩ := enters hbuffer.ne_null
    exact ⟨t, hreaches, hrip, hrax, hrdx, hrsi, hrdi, nofun, fun x _ => congrFun hmem x⟩

/-- Where the walk ends: at the first frame at which the comparison finds zero, or once the limit
is reached, which is after one frame at the earliest. -/
theorem backtrace_ends (base : Word) (hbuffer : IsBuffer s backtrace limit frames) {k : Nat}
    (hk : k ≤ frames) (hstops : StopsAt s.mem (s.regs .rbp) k) :
    ∃ t, Reaches (backtraceS base) (Backtrace base s backtrace limit) t
      ∧ t.rip = (backtraceS base).address endLoop
      ∧ t.regs .rdx = .ofNat 64 (min (max limit.toNat 1) k)
      ∧ Recorded s backtrace (min (max limit.toNat 1) k) t.mem := by
  rcases lt_or_ge k (max limit.toNat 1) with hlt | hge
  · obtain ⟨t, hreaches, hwalking⟩ := walks base hbuffer hk hstops le_rfl hlt
    have hzero := hwalking.load32 hbuffer (by omega) hk
    obtain ⟨t', hreaches', hrip, hrdx, hmem⟩ := leaves hwalking.rip (hzero.trans hstops.zero)
    rw [min_eq_right hlt.le]
    exact ⟨t', hreaches.trans hreaches', hrip, hrdx.trans hwalking.rdx, hmem ▸ hwalking.recorded⟩
  · obtain ⟨i, hi⟩ : ∃ i, max limit.toNat 1 = i + 1 := Nat.exists_eq_succ_of_ne_zero (by omega)
    obtain ⟨t, hreaches, hwalking⟩ :=
      walks (i := i) base hbuffer hk hstops (by omega) (by omega)
    have hload := hstops.before i (by omega)
    rw [← hwalking.load32 hbuffer (by omega) (by omega)] at hload
    obtain ⟨t', hreaches', hrip, hflags, -, hrdx, -, -, hmem⟩ := stores hwalking.rip hload
    have hle : (t.regs .rdi).toInt ≤ (t.regs .rdx + 1).toInt := by
      rw [hwalking.limit_le_iff hbuffer (by omega)]
      omega
    rw [min_eq_left hge, hi]
    exact ⟨_, hreaches.trans (hreaches'.trans (limit_reached hrip hflags hle)), rfl,
      hrdx.trans hwalking.count, hmem ▸ hwalking.stored hbuffer (by omega) (by omega)⟩

end Walk

/-! ### What is recorded -/

/-- The return addresses of the innermost frames, as many as the limit allows, are put into the
array and counted, and nothing else is written. -/
def Records (base : Word) (s : State) (backtrace : Word) (limit : BitVec 32)
    (returns : List Word) : Prop :=
  ∃ t, Reaches (backtraceS base) (Backtrace base s backtrace limit) t
    ∧ step (backtraceS base) t = none
    ∧ returned t = .ofNat 32 (min limit.toNat returns.length)
    ∧ (∀ i, i < min limit.toNat returns.length →
      returns[i]? = some (t.mem.load64 (backtrace + .ofNat 64 (8 * i))))
    ∧ ∀ x, ¬Within backtrace (8 * min limit.toNat returns.length) x → t.mem x = s.mem x

section Records

variable {backtrace : Word} {limit : BitVec 32} {returns : List Word} {k : Nat}

theorem records_iff_count (hchain : Chain s.mem (s.regs .rbp) returns)
    (hbuffer : IsBuffer s backtrace limit returns.length) (hk : k ≤ returns.length)
    (hstops : StopsAt s.mem (s.regs .rbp) k) :
    Records base s backtrace limit returns
      ↔ min (max limit.toNat 1) k = min limit.toNat returns.length := by
  have hlimit := hbuffer.limit_lt
  obtain ⟨t, hreaches, hrip, hrdx, hrecorded⟩ := backtrace_ends base hbuffer hk hstops
  have hreturned : returned t = .ofNat 32 (min (max limit.toNat 1) k) := by
    rw [returned, hrdx, BitVec.setWidth_ofNat_of_le (by decide)]
  constructor
  · rintro ⟨t', hreaches', hstop', hreturned', -, -⟩
    have hsame : t' = t := hreaches'.unique hreaches hstop' (stop hrip)
    rw [hsame, hreturned] at hreturned'
    have hvalue := congrArg BitVec.toNat hreturned'
    rw [BitVec.toNat_ofNat, BitVec.toNat_ofNat] at hvalue
    omega
  · intro hcount
    rw [hcount] at hreturned hrecorded
    refine ⟨t, hreaches, stop hrip, hreturned, ?_, hrecorded.frame⟩
    intro i hi
    rw [hrecorded.stored i hi]
    exact hchain.getElem? (by omega)

theorem count_eq_iff (zero : Nat → Prop) {limit frames : Nat} (hk : k ≤ frames) (hzero : zero k)
    (hne : ∀ i < k, ¬zero i) :
    min (max limit 1) k = min limit frames
      ↔ (limit = 0 → zero 0) ∧ ∀ i < min limit frames, ¬zero i := by
  constructor
  · intro heq
    refine ⟨fun hlimit => ?_, fun i hi => hne i (by omega)⟩
    have hfirst : k = 0 := by omega
    exact hfirst ▸ hzero
  · rintro ⟨hfirst, hbefore⟩
    have hstop : ¬k < min limit frames := fun hlt => hbefore k hlt hzero
    rcases Nat.eq_zero_or_pos limit with hlimit | hlimit
    · have hnotBefore : ¬0 < k := fun hlt => hne 0 hlt (hfirst hlimit)
      omega
    · omega

end Records

/-- `Backtrace` does this exactly if the comparison finds no zero in the frames that are recorded,
and, with the limit 0, finds one in the first frame. -/
theorem backtrace_records_iff (base : Word) (s : State) (backtrace : Word) (limit : BitVec 32)
    (returns : List Word) (hchain : Chain s.mem (s.regs .rbp) returns)
    (hbuffer : IsBuffer s backtrace limit returns.length) :
    Records base s backtrace limit returns
      ↔ (limit.toNat = 0 → s.mem.load32 (s.regs .rbp) = 0)
        ∧ ∀ i < min limit.toNat returns.length,
          s.mem.load32 (framePointer s.mem (s.regs .rbp) i) ≠ 0 := by
  obtain ⟨k, hk, hstops⟩ := hchain.exists_stop
  rw [records_iff_count hchain hbuffer hk hstops]
  exact count_eq_iff (fun i => s.mem.load32 (framePointer s.mem (s.regs .rbp) i) = 0) hk
    hstops.zero hstops.before

/-- One frame at `0x1000` with the return address `0x55`, called from the last one at `caller`. -/
def oneFrame (caller : Word) : State where
  regs
    | .rbp => 0x1000
    | _ => 0
  flags := ⟨false, false, false⟩
  mem := Memory.store64 (Memory.store64 (fun _ => 0) 0x1000 caller) 0x1008 0x55
  rip := 0

theorem oneFrame_isBuffer {caller : Word} {limit : BitVec 32} (hlimit : limit.toNat ≤ 1)
    (hapart : Apart caller 16 0x3000 8) (hsaved : (oneFrame caller).mem.load64 0x1000 = caller) :
    IsBuffer (oneFrame caller) 0x3000 limit 1 := by
  refine ⟨?_, by decide, ?_⟩
  · rw [BitVec.toInt_eq_toNat_of_lt (by omega)]
    exact Int.natCast_nonneg _
  · intro i hi x hx hbuffer
    have hwithin : Within 0x3000#64 8 x := hbuffer.mono (by omega)
    rcases Nat.le_one_iff_eq_zero_or_eq_one.mp hi with rfl | rfl
    · have hfirst : Apart 0x1000#64 16 0x3000 8 := .of_le (by decide) (by decide)
      exact hfirst x hx hwithin
    · have hframe : Within ((oneFrame caller).mem.load64 0x1000) 16 x := hx
      exact hapart x (hsaved ▸ hframe) hwithin

/-- Two frames before the last one, with the return addresses `0x55` and `0x66`. -/
def twoFrames : State where
  regs
    | .rbp => 0x1000
    | _ => 0
  flags := ⟨false, false, false⟩
  mem :=
    let words : List (Word × Word) :=
      [(0x1000, 0x1800), (0x1008, 0x55), (0x1800, 0x2000), (0x1808, 0x66)]
    words.foldl (fun mem w => mem.store64 w.1 w.2) fun _ => 0
  rip := 0

theorem backtrace_records_iff_two : Records 0x400 twoFrames 0x3000 2 [0x55, 0x66] := by
  have hchain : Chain twoFrames.mem 0x1000 [0x55, 0x66] := by decide +kernel
  have hframe : ∀ i, i ≤ 2 →
      framePointer twoFrames.mem 0x1000 i = .ofNat 64 (0x1000 + 0x800 * i) := by decide +kernel
  have hbuffer : IsBuffer twoFrames 0x3000 2 2 := by
    refine ⟨by decide, by decide, fun i hi => ?_⟩
    change Apart (framePointer twoFrames.mem 0x1000 i) 16 0x3000 16
    rw [hframe i hi]
    refine .of_le ?_ (by decide)
    rw [BitVec.toNat_ofNat, Nat.mod_eq_of_lt (by omega)]
    change 0x1000 + 0x800 * i + 16 ≤ 0x3000
    omega
  refine (backtrace_records_iff _ _ _ _ _ hchain hbuffer).mpr ⟨by decide, ?_⟩
  change ∀ i < 2, twoFrames.mem.load32 (framePointer twoFrames.mem 0x1000 i) ≠ 0
  decide +kernel

/-- With the limit 0 one return address is stored and counted, and a frame whose saved frame pointer
is a multiple of `2 ^ 32` is taken for the last one. -/
theorem backtrace_miscounts :
    (Chain (oneFrame 0x2000).mem 0x1000 [0x55] ∧ IsBuffer (oneFrame 0x2000) 0x3000 0 1
      ∧ ¬Records 0x400 (oneFrame 0x2000) 0x3000 0 [0x55])
    ∧ Chain (oneFrame 0x100000000).mem 0x1000 [0x55]
      ∧ IsBuffer (oneFrame 0x100000000) 0x3000 1 1
      ∧ ¬Records 0x400 (oneFrame 0x100000000) 0x3000 1 [0x55] := by
  have hchain : Chain (oneFrame 0x2000).mem 0x1000 [0x55] := by decide +kernel
  have hapart : Apart 0x2000#64 16 0x3000 8 := .of_le (by decide) (by decide)
  have hbuffer : IsBuffer (oneFrame 0x2000) 0x3000 0 1 :=
    oneFrame_isBuffer (by decide) hapart (by decide +kernel)
  have hchain' : Chain (oneFrame 0x100000000).mem 0x1000 [0x55] := by decide +kernel
  have hapart' : Apart 0x100000000#64 16 0x3000 8 := (Apart.of_le (by decide) (by decide)).symm
  have hbuffer' : IsBuffer (oneFrame 0x100000000) 0x3000 1 1 :=
    oneFrame_isBuffer (by decide) hapart' (by decide +kernel)
  refine ⟨⟨hchain, hbuffer, ?_⟩, hchain', hbuffer', ?_⟩
  · have hstops : StopsAt (oneFrame 0x2000).mem 0x1000 1 := ⟨by decide +kernel, by decide +kernel⟩
    rw [records_iff_count hchain hbuffer le_rfl hstops]
    decide
  · have hstops : StopsAt (oneFrame 0x100000000).mem 0x1000 0 := ⟨by decide +kernel, nofun⟩
    rw [records_iff_count hchain' hbuffer' (Nat.zero_le _) hstops]
    decide

end Acos.Elf
