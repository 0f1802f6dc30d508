import Mathlib.Algebra.BigOperators.Group.Finset.Basic
import Acos.Lib.X86

/-!
# Sums in assembly

The four functions of `sum.S`. The loop of `sum_array` goes back to its head by a `call`, which
leaves the address of `.end_loop` on the stack in every turn, below the address of `.for_loop` that
the first `call` has left there. The last `ret` therefore walks up through all these addresses,
enters the loop once more, finds it finished again and only then returns to the caller.
-/

namespace Acos.Asm

open ByteMemory X86

/-! ### The text -/

abbrev sum : Nat := 0

abbrev sumStruct : Nat := 10

abbrev sumArray : Nat := 25

abbrev forLoop : Nat := 36

abbrev endLoop : Nat := 56

abbrev sumArgs : Nat := 57

abbrev forLoop' : Nat := 70

abbrev endLoop' : Nat := 87

def sumS (base : Word) : Program where
  base := base
  lines := [
    -- sum:
    ⟨0, 3, .xor (.reg .rax) (.reg .rax)⟩,
    ⟨3, 3, .add (.reg .rdi) (.reg .rax)⟩,
    ⟨6, 3, .add (.reg .rsi) (.reg .rax)⟩,
    ⟨9, 1, .ret⟩,
    -- sum_struct:
    ⟨10, 3, .xor (.reg .rax) (.reg .rax)⟩,
    ⟨13, 3, .add (.mem ⟨.rdi, none, 0⟩) (.reg .rax)⟩,
    ⟨16, 4, .add (.mem ⟨.rdi, none, 8⟩) (.reg .rax)⟩,
    ⟨20, 4, .mov (.reg .rax) (.mem ⟨.rdi, none, 16⟩)⟩,
    ⟨24, 1, .ret⟩,
    -- sum_array:
    ⟨25, 3, .xor (.reg .rax) (.reg .rax)⟩,
    ⟨28, 3, .xor (.reg .rcx) (.reg .rcx)⟩,
    ⟨31, 5, .call forLoop⟩,
    -- .for_loop:
    ⟨36, 3, .cmp (.reg .rsi) (.reg .rcx)⟩,
    ⟨39, 2, .je endLoop⟩,
    ⟨41, 3, .add (.mem ⟨.rdi, none, 0⟩) (.reg .rax)⟩,
    ⟨44, 4, .add (.imm 8) (.reg .rdi)⟩,
    ⟨48, 3, .inc (.reg .rcx)⟩,
    ⟨51, 5, .call forLoop⟩,
    -- .end_loop:
    ⟨56, 1, .ret⟩,
    -- sum_args:
    ⟨57, 3, .xor (.reg .rax) (.reg .rax)⟩,
    ⟨60, 3, .xor (.reg .rcx) (.reg .rcx)⟩,
    ⟨63, 5, .lea ⟨.rsp, none, 8⟩ .rsi⟩,
    ⟨68, 2, .jmp forLoop'⟩,
    -- .for_loop_:
    ⟨70, 3, .cmp (.reg .rdi) (.reg .rcx)⟩,
    ⟨73, 2, .je endLoop'⟩,
    ⟨75, 3, .add (.mem ⟨.rsi, none, 0⟩) (.reg .rax)⟩,
    ⟨78, 4, .add (.imm 8) (.reg .rsi)⟩,
    ⟨82, 3, .inc (.reg .rcx)⟩,
    ⟨85, 2, .jmp forLoop'⟩,
    -- .end_loop_:
    ⟨87, 1, .ret⟩]

variable {base : Word} {s : State}

/-- The sum of the first `n` words from `a` on. -/
def wordSum (mem : Memory 64) (a : Word) (n : Nat) : Nat :=
  ∑ i ∈ Finset.range n, (mem.load64 (a + .ofNat 64 (8 * i))).toNat

theorem wordSum_succ (mem : Memory 64) (a : Word) (n : Nat) :
    BitVec.ofNat 64 (wordSum mem a (n + 1))
      = .ofNat 64 (wordSum mem a n) + mem.load64 (a + .ofNat 64 (8 * n)) := by
  rw [wordSum, Finset.sum_range_succ, BitVec.ofNat_add, BitVec.ofNat_toNat, BitVec.setWidth_eq]
  rfl

theorem ret_reaches {offset : Nat} (hrip : s.rip = (sumS base).address offset)
    (hret : offset = endLoop ∨ offset = endLoop') :
    Reaches (sumS base) s ((s.set .rsp (s.regs .rsp + 8)).goto (s.mem.load64 (s.regs .rsp))) := by
  rcases hret with rfl | rfl
  · exact .head (step_at hrip (by decide) rfl) (.refl _ _)
  · exact .head (step_at hrip (by decide) rfl) (.refl _ _)

/-! ### `sum` and `sum_struct` -/

theorem sum_returns (hrip : s.rip = (sumS base).address sum) :
    ∃ s', Reaches (sumS base) s s' ∧ s'.rip = s.mem.load64 (s.regs .rsp)
      ∧ s'.regs .rax = s.regs .rdi + s.regs .rsi ∧ s'.regs .rsp = s.regs .rsp + 8
      ∧ s'.mem = s.mem := by
  refine ⟨_, .head (step_at hrip (by decide) rfl) (.head (step_at rfl (by decide) rfl)
    (.head (step_at rfl (by decide) rfl) (.head (step_at rfl (by decide) rfl) (.refl _ _)))),
    rfl, ?_, rfl, rfl⟩
  change (s.regs .rax ^^^ s.regs .rax) + s.regs .rdi + s.regs .rsi = _
  rw [BitVec.xor_self, BitVec.zero_add]

/-- The return address is read after the sum has been stored. -/
theorem sumStruct_returns (hrip : s.rip = (sumS base).address sumStruct) :
    ∃ s', Reaches (sumS base) s s' ∧ s'.rip = s'.mem.load64 (s.regs .rsp)
      ∧ s'.regs .rsp = s.regs .rsp + 8
      ∧ s'.mem = s.mem.store64 (s.regs .rdi + 16)
        (s.mem.load64 (s.regs .rdi) + s.mem.load64 (s.regs .rdi + 8)) := by
  refine ⟨_, .head (step_at hrip (by decide) rfl) (.head (step_at rfl (by decide) rfl)
    (.head (step_at rfl (by decide) rfl) (.head (step_at rfl (by decide) rfl)
    (.head (step_at rfl (by decide) rfl) (.refl _ _))))), rfl, rfl, ?_⟩
  change s.mem.store64 (s.addr ⟨.rdi, none, 16⟩) ((s.regs .rax ^^^ s.regs .rax)
    + s.mem.load64 (s.addr ⟨.rdi, none, 0⟩) + s.mem.load64 (s.addr ⟨.rdi, none, 8⟩)) = _
  rw [BitVec.xor_self, BitVec.zero_add, State.addr_base, State.addr_disp, State.addr_disp]

/-! ### `sum_array` -/

/-- What the code does up to the first time at the head of the loop. -/
theorem sumArray_enters (hrip : s.rip = (sumS base).address sumArray) :
    ∃ s', Reaches (sumS base) s s' ∧ s'.rip = (sumS base).address forLoop
      ∧ s'.regs .rax = 0 ∧ s'.regs .rcx = 0 ∧ s'.regs .rdi = s.regs .rdi
      ∧ s'.regs .rsi = s.regs .rsi ∧ s'.regs .rsp = s.regs .rsp - 8
      ∧ s'.mem = s.mem.store64 (s.regs .rsp - 8) ((sumS base).address forLoop) := by
  refine ⟨_, .head (step_at hrip (by decide) rfl) (.head (step_at rfl (by decide) rfl)
    (.head (step_at rfl (by decide) rfl) (.refl _ _))), rfl, ?_, ?_, rfl, rfl, rfl, rfl⟩
  · exact BitVec.xor_self
  · exact BitVec.xor_self

theorem sumArray_turns (hrip : s.rip = (sumS base).address forLoop)
    (hne : s.regs .rcx ≠ s.regs .rsi) :
    ∃ s', Reaches (sumS base) s s' ∧ s'.rip = (sumS base).address forLoop
      ∧ s'.regs .rax = s.regs .rax + s.mem.load64 (s.regs .rdi)
      ∧ s'.regs .rcx = s.regs .rcx + 1 ∧ s'.regs .rdi = s.regs .rdi + 8
      ∧ s'.regs .rsi = s.regs .rsi ∧ s'.regs .rsp = s.regs .rsp - 8
      ∧ s'.mem = s.mem.store64 (s.regs .rsp - 8) ((sumS base).address endLoop) := by
  have hzf : ¬(Flags.ofSub (s.regs .rcx) (s.regs .rsi)).zf = true := mt Flags.zf_ofSub.mp hne
  refine ⟨_, .head (step_at hrip (by decide) rfl) (.head (step_at rfl (by decide) rfl)
    (.head (step_at (if_neg hzf) (by decide) rfl) (.head (step_at rfl (by decide) rfl)
    (.head (step_at rfl (by decide) rfl) (.head (step_at rfl (by decide) rfl) (.refl _ _)))))),
    rfl, ?_, rfl, rfl, rfl, rfl, rfl⟩
  change s.regs .rax + s.mem.load64 (s.addr ⟨.rdi, none, 0⟩) = _
  rw [State.addr_base]

theorem sumArray_leaves (hrip : s.rip = (sumS base).address forLoop)
    (heq : s.regs .rcx = s.regs .rsi) :
    ∃ s', Reaches (sumS base) s s' ∧ s'.rip = (sumS base).address endLoop
      ∧ s'.regs = s.regs ∧ s'.mem = s.mem :=
  ⟨_, .head (step_at hrip (by decide) rfl) (.head (step_at rfl (by decide) rfl) (.refl _ _)),
    if_pos (Flags.zf_ofSub.mpr heq), rfl, rfl⟩

/-! #### The stack of `sum_array` -/

/-- The word that the `j`-th `call` writes, when the stack pointer was `top`. It is counted from the
end of the `n + 2` words below `top`. -/
def slot (top : Word) (n j : Nat) : Word :=
  top - .ofNat 64 (8 * (n + 2)) + .ofNat 64 (8 * (n + 1 - j))

section Slots

variable {top : Word} {n j k : Nat}

theorem slot_succ (hj : j < n + 1) : slot top n j - 8 = slot top n (j + 1) := by
  have hsplit : 8 * (n + 1 - j) = 8 * (n + 1 - (j + 1)) + 8 := by omega
  rw [slot, slot, hsplit, BitVec.ofNat_add, ← BitVec.add_assoc]
  exact BitVec.add_sub_cancel _ _

theorem slot_succ_add (hj : j < n + 1) : slot top n (j + 1) + 8 = slot top n j := by
  rw [← slot_succ hj, BitVec.sub_add_cancel]

theorem slot_zero_add : slot top n 0 + 8 = top := by
  have hsplit : 8 * (n + 1 - 0) + 8 = 8 * (n + 2) := by omega
  calc
    slot top n 0 + 8 = top - .ofNat 64 (8 * (n + 2)) + .ofNat 64 (8 * (n + 1 - 0) + 8) := by
      rw [slot, BitVec.add_assoc, BitVec.ofNat_add]
      rfl
    _ = top := by rw [hsplit, BitVec.sub_add_cancel]

theorem slot_zero (top : Word) (n : Nat) : top - 8 = slot top n 0 := by
  calc
    top - 8 = slot top n 0 + 8 - 8 := by rw [slot_zero_add]
    _ = slot top n 0 := BitVec.add_sub_cancel _ _

theorem within_slots {x : Word} (hj : j ≤ n + 1) (hx : Within (slot top n j) 8 x) :
    Within (top - .ofNat 64 (8 * (n + 2))) (8 * (n + 2)) x :=
  hx.of_add (by omega)

theorem slots_apart (hn : n < 2 ^ 60) (hjk : j < k) (hk : k ≤ n + 1) :
    Apart (slot top n k) 8 (slot top n j) 8 :=
  .of_add (by omega) (by omega)

end Slots

/-- The head of the loop after `i` turns. -/
structure Summing (base : Word) (start : State) (n i : Nat) (s : State) : Prop where
  rip : s.rip = (sumS base).address forLoop
  rax : s.regs .rax = .ofNat 64 (wordSum start.mem (start.regs .rdi) i)
  rcx : s.regs .rcx = .ofNat 64 i
  rdi : s.regs .rdi = start.regs .rdi + .ofNat 64 (8 * i)
  rsi : s.regs .rsi = .ofNat 64 n
  rsp : s.regs .rsp = slot (start.regs .rsp) n i
  first : s.mem.load64 (slot (start.regs .rsp) n 0) = (sumS base).address forLoop
  returns : ∀ j, j < i →
    s.mem.load64 (slot (start.regs .rsp) n (j + 1)) = (sumS base).address endLoop
  frame : ∀ x, ¬Within (start.regs .rsp - .ofNat 64 (8 * (n + 2))) (8 * (n + 2)) x →
    s.mem x = start.mem x

section Run

variable {start : State} {n : Nat}

theorem counter_ne {i : Nat} (hn : n < 2 ^ 60) (hi : i < n) :
    BitVec.ofNat 64 i ≠ BitVec.ofNat 64 n := by
  intro heq
  have hvalue := congrArg BitVec.toNat heq
  rw [BitVec.toNat_ofNat, BitVec.toNat_ofNat] at hvalue
  omega

theorem Summing.enter (hn : n < 2 ^ 60) (hrip : start.rip = (sumS base).address sumArray)
    (hrsi : start.regs .rsi = .ofNat 64 n) :
    ∃ s, Reaches (sumS base) start s ∧ Summing base start n 0 s := by
  obtain ⟨s, hreaches, hrip', hrax, hrcx, hrdi, hrsi', hrsp, hmem⟩ := sumArray_enters hrip
  rw [slot_zero _ n] at hrsp hmem
  refine ⟨s, hreaches, hrip', hrax, hrcx, ?_, hrsi'.trans hrsi, hrsp, ?_, nofun, ?_⟩
  · rw [hrdi]
    exact (BitVec.add_zero _).symm
  · rw [hmem]
    exact Memory.load64_store64 _ _ _ (by decide)
  · intro x hx
    rw [hmem]
    exact Memory.store64_of_not_within fun hslot => hx (within_slots (by omega) hslot)

/-- The element that the turn adds is the one of the beginning. -/
theorem Summing.element {i : Nat} (hsumming : Summing base start n i s) (hi : i < n)
    (hapart : Apart (start.regs .rdi) (8 * n)
      (start.regs .rsp - .ofNat 64 (8 * (n + 2))) (8 * (n + 2))) :
    s.mem.load64 (s.regs .rdi) = start.mem.load64 (start.regs .rdi + .ofNat 64 (8 * i)) := by
  rw [hsumming.rdi]
  exact Memory.load64_congr (by decide) fun x hx =>
    hsumming.frame x (hapart x (hx.of_add (by omega)))

theorem Summing.turn {i : Nat} (hsumming : Summing base start n i s) (hn : n < 2 ^ 60)
    (hi : i < n) (hapart : Apart (start.regs .rdi) (8 * n)
      (start.regs .rsp - .ofNat 64 (8 * (n + 2))) (8 * (n + 2))) :
    ∃ s', Reaches (sumS base) s s' ∧ Summing base start n (i + 1) s' := by
  have hne : s.regs .rcx ≠ s.regs .rsi := by
    rw [hsumming.rcx, hsumming.rsi]
    exact counter_ne hn hi
  obtain ⟨s', hreaches, hrip, hrax, hrcx, hrdi, hrsi, hrsp, hmem⟩ :=
    sumArray_turns hsumming.rip hne
  rw [hsumming.rsp, slot_succ (by omega)] at hrsp hmem
  have hold : ∀ j, j ≤ i → s'.mem.load64 (slot (start.regs .rsp) n j)
      = s.mem.load64 (slot (start.regs .rsp) n j) := by
    intro j hj
    rw [hmem]
    apply Memory.load64_store64_of_apart (by decide)
    exact (slots_apart hn (by omega) (by omega)).symm
  refine ⟨s', hreaches, hrip, ?_, ?_, ?_, hrsi.trans hsumming.rsi, hrsp, ?_, ?_, ?_⟩
  · rw [hrax, hsumming.element hi hapart, hsumming.rax, wordSum_succ]
  · rw [hrcx, hsumming.rcx, BitVec.ofNat_add]
    rfl
  · rw [hrdi, hsumming.rdi, Nat.mul_succ, BitVec.ofNat_add, BitVec.add_assoc]
    rfl
  · rw [hold 0 (by omega), hsumming.first]
  · intro j hj
    rcases Nat.lt_succ_iff_lt_or_eq.mp hj with hlt | rfl
    · rw [hold (j + 1) hlt, hsumming.returns j hlt]
    · rw [hmem]
      exact Memory.load64_store64 _ _ _ (by decide)
  · intro x hx
    rw [hmem, Memory.store64_of_not_within fun hslot => hx (within_slots (by omega) hslot),
      hsumming.frame x hx]

theorem Summing.turns (hn : n < 2 ^ 60) (hrip : start.rip = (sumS base).address sumArray)
    (hrsi : start.regs .rsi = .ofNat 64 n)
    (hapart : Apart (start.regs .rdi) (8 * n)
      (start.regs .rsp - .ofNat 64 (8 * (n + 2))) (8 * (n + 2))) :
    ∃ s, Reaches (sumS base) start s ∧ Summing base start n n s :=
  Reaches.loop (fun _ _ hi hsumming => hsumming.turn hn hi hapart) (Summing.enter hn hrip hrsi)

/-- The final `ret` goes up through the addresses that the turns have left, and enters the loop. -/
theorem unwinds {j : Nat} (hj : j ≤ n) (hrip : s.rip = (sumS base).address endLoop)
    {top : Word} (hrsp : s.regs .rsp = slot top n j)
    (hfirst : s.mem.load64 (slot top n 0) = (sumS base).address forLoop)
    (hreturns : ∀ k, k < j → s.mem.load64 (slot top n (k + 1)) = (sumS base).address endLoop) :
    Reaches (sumS base) s ((s.set .rsp top).goto ((sumS base).address forLoop)) := by
  induction j generalizing s with
  | zero =>
      have hret := ret_reaches hrip (.inl rfl)
      rwa [hrsp, hfirst, slot_zero_add] at hret
  | succ j ih =>
      have hret := ret_reaches hrip (.inl rfl)
      rw [hrsp, hreturns j (Nat.lt_succ_self j), slot_succ_add (by omega)] at hret
      refine hret.trans ?_
      have hrest := ih (s := (s.set .rsp (slot top n j)).goto ((sumS base).address endLoop))
        (by omega) rfl (by simp) hfirst fun k hk => hreturns k (by omega)
      rwa [State.goto_set, State.set_set, State.goto_goto] at hrest

/-- The caller's words, the return address with them, are not among those that are written. -/
theorem above_apart (hn : n < 2 ^ 60) (top : Word) :
    Apart (top - .ofNat 64 (8 * (n + 2))) (8 * (n + 2)) top 8 := by
  have hapart : Apart (top - .ofNat 64 (8 * (n + 2)) + .ofNat 64 0) (8 * (n + 2))
      (top - .ofNat 64 (8 * (n + 2)) + .ofNat 64 (8 * (n + 2))) 8 := .of_add (by omega) (by omega)
  rwa [BitVec.sub_add_cancel, BitVec.add_zero] at hapart

theorem not_within_of_above {top x : Word} (hroom : 8 * (n + 2) ≤ top.toNat)
    (hx : top.toNat ≤ x.toNat) :
    ¬Within (top - .ofNat 64 (8 * (n + 2))) (8 * (n + 2)) x := by
  have htop := top.isLt
  have hfloor : (top - .ofNat 64 (8 * (n + 2))).toNat = top.toNat - 8 * (n + 2) := by
    rw [BitVec.toNat_sub, BitVec.toNat_ofNat]
    omega
  rw [within_iff_of_le (by omega), hfloor]
  omega

theorem sumArray_reaches (hn : n < 2 ^ 60) (hrip : start.rip = (sumS base).address sumArray)
    (hrsi : start.regs .rsi = .ofNat 64 n)
    (hapart : Apart (start.regs .rdi) (8 * n)
      (start.regs .rsp - .ofNat 64 (8 * (n + 2))) (8 * (n + 2))) :
    ∃ s, Reaches (sumS base) start s ∧ s.rip = start.mem.load64 (start.regs .rsp)
      ∧ s.regs .rax = .ofNat 64 (wordSum start.mem (start.regs .rdi) n)
      ∧ s.regs .rsp = start.regs .rsp + 8
      ∧ ∀ x, ¬Within (start.regs .rsp - .ofNat 64 (8 * (n + 2))) (8 * (n + 2)) x →
        s.mem x = start.mem x := by
  obtain ⟨s, hsums, hsumming⟩ := Summing.turns hn hrip hrsi hapart
  have hequal : s.regs .rcx = s.regs .rsi := hsumming.rcx.trans hsumming.rsi.symm
  -- the loop is left, and entered again from below
  obtain ⟨t, hleaves, htrip, htregs, htmem⟩ := sumArray_leaves hsumming.rip hequal
  have hunwinds := unwinds (le_refl n) htrip (htregs ▸ hsumming.rsp) (htmem ▸ hsumming.first)
    (htmem ▸ hsumming.returns)
  have hagain : (t.set .rsp (start.regs .rsp)).regs .rcx
      = (t.set .rsp (start.regs .rsp)).regs .rsi := by
    rw [State.set_regs_of_ne _ _ _ (by decide), State.set_regs_of_ne _ _ _ (by decide), htregs,
      hequal]
  obtain ⟨u, hleaves', hurip, huregs, humem⟩ := sumArray_leaves
    (s := (t.set .rsp (start.regs .rsp)).goto ((sumS base).address forLoop)) rfl hagain
  have hursp : u.regs .rsp = start.regs .rsp := by
    rw [huregs, State.goto_regs, State.set_regs_self]
  have hreturn : u.mem.load64 (start.regs .rsp) = start.mem.load64 (start.regs .rsp) := by
    rw [humem]
    refine Memory.load64_congr (by decide) fun x hx => ?_
    exact (congrFun htmem x).trans (hsumming.frame x ((above_apart hn _).symm x hx))
  refine ⟨_, (hsums.trans hleaves).trans (hunwinds.trans (hleaves'.trans
    (ret_reaches hurip (.inl rfl)))), ?_, ?_, ?_, ?_⟩
  · rw [hursp]
    exact hreturn
  · rw [State.goto_regs, State.set_regs_of_ne _ _ _ (by decide), huregs, State.goto_regs,
      State.set_regs_of_ne _ _ _ (by decide), htregs, hsumming.rax]
  · rw [hursp, State.goto_regs, State.set_regs_self]
  · intro x hx
    change u.mem x = _
    rw [humem]
    exact (congrFun htmem x).trans (hsumming.frame x hx)

/-! ### `sum_args` -/

/-- What the code does up to the first time at the head of the loop. -/
theorem sumArgs_enters (hrip : s.rip = (sumS base).address sumArgs) :
    ∃ s', Reaches (sumS base) s s' ∧ s'.rip = (sumS base).address forLoop'
      ∧ s'.regs .rax = 0 ∧ s'.regs .rcx = 0 ∧ s'.regs .rdi = s.regs .rdi
      ∧ s'.regs .rsi = s.regs .rsp + 8 ∧ s'.regs .rsp = s.regs .rsp ∧ s'.mem = s.mem := by
  refine ⟨_, .head (step_at hrip (by decide) rfl) (.head (step_at rfl (by decide) rfl)
    (.head (step_at rfl (by decide) rfl) (.head (step_at rfl (by decide) rfl) (.refl _ _)))),
    rfl, ?_, ?_, rfl, ?_, rfl, rfl⟩
  · exact BitVec.xor_self
  · exact BitVec.xor_self
  · exact State.addr_disp ..

theorem sumArgs_turns (hrip : s.rip = (sumS base).address forLoop')
    (hne : s.regs .rcx ≠ s.regs .rdi) :
    ∃ s', Reaches (sumS base) s s' ∧ s'.rip = (sumS base).address forLoop'
      ∧ s'.regs .rax = s.regs .rax + s.mem.load64 (s.regs .rsi)
      ∧ s'.regs .rcx = s.regs .rcx + 1 ∧ s'.regs .rsi = s.regs .rsi + 8
      ∧ s'.regs .rdi = s.regs .rdi ∧ s'.regs .rsp = s.regs .rsp ∧ s'.mem = s.mem := by
  have hzf : ¬(Flags.ofSub (s.regs .rcx) (s.regs .rdi)).zf = true := mt Flags.zf_ofSub.mp hne
  refine ⟨_, .head (step_at hrip (by decide) rfl) (.head (step_at rfl (by decide) rfl)
    (.head (step_at (if_neg hzf) (by decide) rfl) (.head (step_at rfl (by decide) rfl)
    (.head (step_at rfl (by decide) rfl) (.head (step_at rfl (by decide) rfl) (.refl _ _)))))),
    rfl, ?_, rfl, rfl, rfl, rfl, rfl⟩
  change s.regs .rax + s.mem.load64 (s.addr ⟨.rsi, none, 0⟩) = _
  rw [State.addr_base]

theorem sumArgs_leaves (hrip : s.rip = (sumS base).address forLoop')
    (heq : s.regs .rcx = s.regs .rdi) :
    ∃ s', Reaches (sumS base) s s' ∧ s'.rip = (sumS base).address endLoop'
      ∧ s'.regs = s.regs ∧ s'.mem = s.mem :=
  ⟨_, .head (step_at hrip (by decide) rfl) (.head (step_at rfl (by decide) rfl) (.refl _ _)),
    if_pos (Flags.zf_ofSub.mpr heq), rfl, rfl⟩

/-- The head of the loop after `i` turns. -/
structure SummingArgs (base : Word) (start : State) (n i : Nat) (s : State) : Prop where
  rip : s.rip = (sumS base).address forLoop'
  rax : s.regs .rax = .ofNat 64 (wordSum start.mem (start.regs .rsp + 8) i)
  rcx : s.regs .rcx = .ofNat 64 i
  rsi : s.regs .rsi = start.regs .rsp + 8 + .ofNat 64 (8 * i)
  rdi : s.regs .rdi = .ofNat 64 n
  rsp : s.regs .rsp = start.regs .rsp
  mem : s.mem = start.mem

theorem SummingArgs.turn {i : Nat} (hsumming : SummingArgs base start n i s) (hn : n < 2 ^ 60)
    (hi : i < n) : ∃ s', Reaches (sumS base) s s' ∧ SummingArgs base start n (i + 1) s' := by
  have hne : s.regs .rcx ≠ s.regs .rdi := by
    rw [hsumming.rcx, hsumming.rdi]
    exact counter_ne hn hi
  obtain ⟨s', hreaches, hrip, hrax, hrcx, hrsi, hrdi, hrsp, hmem⟩ :=
    sumArgs_turns hsumming.rip hne
  refine ⟨s', hreaches, hrip, ?_, ?_, ?_, hrdi.trans hsumming.rdi, hrsp.trans hsumming.rsp,
    hmem.trans hsumming.mem⟩
  · rw [hrax, hsumming.rax, hsumming.rsi, hsumming.mem, wordSum_succ]
  · rw [hrcx, hsumming.rcx, BitVec.ofNat_add]
    rfl
  · rw [hrsi, hsumming.rsi, Nat.mul_succ, BitVec.ofNat_add, BitVec.add_assoc _ _ 8]
    rfl

theorem SummingArgs.enter (hrip : start.rip = (sumS base).address sumArgs)
    (hrdi : start.regs .rdi = .ofNat 64 n) :
    ∃ s, Reaches (sumS base) start s ∧ SummingArgs base start n 0 s := by
  obtain ⟨s, hreaches, hrip', hrax, hrcx, hrdi', hrsi, hrsp, hmem⟩ := sumArgs_enters hrip
  refine ⟨s, hreaches, hrip', hrax, hrcx, ?_, hrdi'.trans hrdi, hrsp, hmem⟩
  rw [hrsi]
  exact (BitVec.add_zero _).symm

theorem SummingArgs.turns (hn : n < 2 ^ 60) (hrip : start.rip = (sumS base).address sumArgs)
    (hrdi : start.regs .rdi = .ofNat 64 n) :
    ∃ s, Reaches (sumS base) start s ∧ SummingArgs base start n n s :=
  Reaches.loop (fun _ _ hi hsumming => hsumming.turn hn hi) (SummingArgs.enter hrip hrdi)

theorem sumArgs_reaches (hn : n < 2 ^ 60) (hrip : start.rip = (sumS base).address sumArgs)
    (hrdi : start.regs .rdi = .ofNat 64 n) :
    ∃ s, Reaches (sumS base) start s ∧ s.rip = start.mem.load64 (start.regs .rsp)
      ∧ s.regs .rax = .ofNat 64 (wordSum start.mem (start.regs .rsp + 8) n) := by
  obtain ⟨s, hsums, hsumming⟩ := SummingArgs.turns hn hrip hrdi
  obtain ⟨t, hleaves, htrip, htregs, htmem⟩ :=
    sumArgs_leaves hsumming.rip (hsumming.rcx.trans hsumming.rdi.symm)
  refine ⟨_, (hsums.trans hleaves).trans (ret_reaches htrip (.inr rfl)), ?_, ?_⟩
  · change t.mem.load64 (t.regs .rsp) = _
    rw [htmem, htregs, hsumming.mem, hsumming.rsp]
  · rw [State.goto_regs, State.set_regs_of_ne _ _ _ (by decide), htregs, hsumming.rax]

/-! ### The two functions -/

theorem wordSum_congr {mem mem' : Memory 64} {a a' : Word}
    (hwords : ∀ i, i < n →
      mem'.load64 (a' + .ofNat 64 (8 * i)) = mem.load64 (a + .ofNat 64 (8 * i))) :
    wordSum mem' a' n = wordSum mem a n :=
  Finset.sum_congr rfl fun i hi => congrArg BitVec.toNat (hwords i (Finset.mem_range.mp hi))

/-- `sum_array` returns the sum to its caller, with the stack pointer above the return address, and
changes nothing but the words below. `sum_args` returns the same for the same words on the stack. -/
theorem sumArray_returns_sum (base : Word) (start : State) (n : Nat) (hn : n < 2 ^ 60)
    (hrip : start.rip = (sumS base).address sumArray) (hrsi : start.regs .rsi = .ofNat 64 n)
    (hapart : Apart (start.regs .rdi) (8 * n)
      (start.regs .rsp - .ofNat 64 (8 * (n + 2))) (8 * (n + 2))) :
    ∃ s, Reaches (sumS base) start s ∧ s.rip = start.mem.load64 (start.regs .rsp)
      ∧ s.regs .rax = .ofNat 64 (∑ i ∈ Finset.range n,
        (start.mem.load64 (start.regs .rdi + .ofNat 64 (8 * i))).toNat)
      ∧ s.regs .rsp = start.regs .rsp + 8
      ∧ (∀ x, Within (start.regs .rdi) (8 * n) x → s.mem x = start.mem x)
      ∧ (∀ x, ¬Within (start.regs .rsp - .ofNat 64 (8 * (n + 2))) (8 * (n + 2)) x →
        s.mem x = start.mem x)
      ∧ (8 * (n + 2) ≤ (start.regs .rsp).toNat →
        ∀ x, (start.regs .rsp).toNat ≤ x.toNat → s.mem x = start.mem x)
      ∧ ∀ args : State, args.rip = (sumS base).address sumArgs → args.regs .rdi = .ofNat 64 n →
        (∀ i, i < n → args.mem.load64 (args.regs .rsp + 8 + .ofNat 64 (8 * i))
          = start.mem.load64 (start.regs .rdi + .ofNat 64 (8 * i))) →
        ∃ t, Reaches (sumS base) args t ∧ t.rip = args.mem.load64 (args.regs .rsp)
          ∧ t.regs .rax = s.regs .rax := by
  obtain ⟨s, hreaches, hreturn, hrax, hrsp, hframe⟩ := sumArray_reaches hn hrip hrsi hapart
  refine ⟨s, hreaches, hreturn, hrax, hrsp, ?_, hframe, ?_, ?_⟩
  · exact fun x hx => hframe x (hapart x hx)
  · exact fun hroom x hx => hframe x (not_within_of_above hroom hx)
  · intro args hargs hrdi hwords
    obtain ⟨t, hreaches', hreturn', hrax'⟩ := sumArgs_reaches hn hargs hrdi
    refine ⟨t, hreaches', hreturn', ?_⟩
    rw [hrax', hrax, wordSum_congr hwords]

end Run

/-- A stack with the return address `0x400` and the words 1, 2 and 3 above it. -/
def sampleState : State where
  regs
    | .rdi => 0x9008
    | .rsi => 3
    | .rsp => 0x9000
    | _ => 0
  flags := ⟨false, false, false⟩
  mem x :=
    if x = 0x9001 then 4 else if x = 0x9008 then 1 else if x = 0x9010 then 2
    else if x = 0x9018 then 3 else 0
  rip := (sumS 0x1000).address sumArray

theorem sumArray_returns_sum_three :
    (∃ s, Reaches (sumS 0x1000) sampleState s ∧ s.rip = 0x400 ∧ s.regs .rax = 6
      ∧ s.regs .rsp = 0x9008)
    ∧ ∃ t, Reaches (sumS 0x1000)
        ((sampleState.set .rdi 3).goto ((sumS 0x1000).address sumArgs)) t
      ∧ t.rip = 0x400 ∧ t.regs .rax = 6 := by
  have happart : Apart 0x9008#64 (8 * 3) (0x9000#64 - .ofNat 64 (8 * (3 + 2))) (8 * (3 + 2)) :=
    (Apart.of_le (by decide) (by decide)).symm
  obtain ⟨s, hreaches, hrip, hrax, hrsp, -, -, -, hargs⟩ :=
    sumArray_returns_sum 0x1000 sampleState 3 (by decide) rfl rfl happart
  have hsum : s.regs .rax = 6 := hrax.trans (by decide +kernel)
  obtain ⟨t, hreaches', hrip', hrax'⟩ :=
    hargs ((sampleState.set .rdi 3).goto ((sumS 0x1000).address sumArgs)) rfl rfl
      fun i _ => rfl
  exact ⟨⟨s, hreaches, hrip.trans (by decide +kernel), hsum, hrsp⟩, t, hreaches',
    hrip'.trans (by decide +kernel), hrax'.trans hsum⟩

end Acos.Asm
