import Acos.Logger.Rotation
import Mathlib.Data.Prod.Lex
import Mathlib.Order.WellFounded

/-!
# Nothing is lost and nothing is reordered

The invariant of a whole run: the rotated logs from the oldest on, the current log, the line that is
being written and the rest of the input are together the input. Signals only change the flag, which
the invariant does not mention; what a rotation does to it is in the lemmas on the directory.
-/

namespace Acos.Logger

open CString FileSystem

theorem takeLine_append (room : Nat) (input : List Byte) :
    (takeLine room input).1 ++ (takeLine room input).2 = input := by
  induction room generalizing input with
  | zero => rfl
  | succ room ih =>
      cases input with
      | nil => rfl
      | cons c input =>
          unfold takeLine
          split_ifs
          · rfl
          · simp [ih input]

theorem length_takeLine_le (room : Nat) (input : List Byte) :
    (takeLine room input).1.length ≤ room := by
  induction room generalizing input with
  | zero => exact le_refl 0
  | succ room ih =>
      cases input with
      | nil => exact Nat.zero_le _
      | cons c input =>
          unfold takeLine
          split_ifs
          · simp
          · simpa using ih input

theorem length_takeLine_lt {room : Nat} (hroom : 0 < room) {input : List Byte}
    (hinput : input ≠ []) :
    (takeLine room input).2.length < input.length := by
  obtain ⟨room, rfl⟩ := Nat.exists_eq_succ_of_ne_zero hroom.ne'
  obtain ⟨c, input, rfl⟩ := List.exists_cons_of_ne_nil hinput
  unfold takeLine
  split_ifs
  · simp
  · have hlength := congrArg List.length (takeLine_append room input)
    simp only [List.length_append, List.length_cons] at hlength ⊢
    omega

/-- A write that takes the whole buffer writes all of a line without zero bytes. -/
theorem text_eq {buffer : List Byte} {count : Nat} (hnul : 0 ∉ buffer)
    (hlength : buffer.length < bufferSize) (hcount : bufferSize ≤ count) :
    (buffer.takeWhile (· ≠ 0)).take count = buffer := by
  have hall : buffer.takeWhile (· ≠ 0) = buffer :=
    List.takeWhile_eq_self_iff.mpr fun c hc => decide_eq_true fun hzero => hnul (hzero ▸ hc)
  rw [hall, List.take_of_length_le]
  exact hlength.le.trans hcount

/-! ### The invariant -/

/-- Where the gap is: only the renaming loop moves it. -/
def gapAt (pc : Pc) (m : Nat) : Nat :=
  match pc with
  | .rename i => i + 1
  | .renameBase => 1
  | _ => m + 1

/-- What has been read and not yet written. -/
def pending (s : State) : List Byte :=
  match s.pc with
  | .fgets => []
  | .done => []
  | _ => s.buffer

/-- Nothing has been written yet. -/
def Unopened (s : State) (older : List Nat) (cur : Option Nat) : Prop :=
  s.loggerFd = none ∧ cur = none ∧ older = []

/-- The descriptor is at the end of the current log. -/
def Opened (s : State) (cur : Option Nat) : Prop :=
  ∃ inode, cur = some inode ∧ s.loggerFd = some ⟨inode, (s.fs.content inode).length⟩

def Descriptor (s : State) (older : List Nat) (cur : Option Nat) : Prop :=
  match s.pc with
  | .reopen => cur = none
  | .open => Unopened s older cur
  | .write => Opened s cur
  | .failed _ => False
  | _ => Unopened s older cur ∨ Opened s cur

structure Inv (base : Name) (fs₀ : Dir) (input : List Byte) (s : State) (older : List Nat)
    (cur : Option Nat) : Prop where
  placed : Placed base fs₀ s.fs older cur (gapAt s.pc older.length)
  index : ∀ i, s.pc = .rename i → 1 ≤ i ∧ i ≤ older.length
  descriptor : Descriptor s older cur
  stream_eq : stream s.fs older cur ++ pending s ++ s.input = input
  no_nul : 0 ∉ s.buffer ∧ 0 ∉ s.input
  length_lt : s.buffer.length < bufferSize
  done_input : s.pc = .done → s.input = []

/-- Every call succeeds, and every write takes the whole buffer. -/
def Env.Complete (env : Env) : Prop :=
  ∀ n, env.opendir n ∧ env.opens n ∧ ∃ count, bufferSize ≤ count ∧ env.write n = some count

theorem Inv.initial {base : Name} {fs : Dir} {input : List Byte} (hclean : Clean base fs)
    (hnul : 0 ∉ input) : Inv base fs input (initial input fs) [] none where
  placed := hclean.placed
  index i hpc := by cases hpc
  descriptor := Or.inl ⟨rfl, rfl, rfl⟩
  stream_eq := rfl
  no_nul := ⟨List.not_mem_nil, hnul⟩
  length_lt := (by decide : 0 < bufferSize)
  done_input hpc := by cases hpc

/-- The step makes a rotation that finds a log. -/
def Rotates (base : Name) (s : State) : Prop :=
  s.pc = .renameBase ∧ (s.fs.inode base).isSome

instance (base : Name) (s : State) : Decidable (Rotates base s) :=
  inferInstanceAs (Decidable (_ ∧ _))

section Step

variable {env : Env} {base : Name} {fs₀ : Dir} {input : List Byte} {n : Nat}
  {rest buffer : List Byte} {rotate : Bool} {fd : Option File} {fs : Dir} {older : List Nat}
  {cur : Option Nat}

/-- A step that tests or assigns without touching a file. -/
theorem Inv.goto {pc pc' : Pc} {rotate' : Bool}
    (hinv : Inv base fs₀ input ⟨pc, rest, buffer, rotate, fd, fs⟩ older cur)
    (hgap : gapAt pc' older.length = gapAt pc older.length)
    (hpending : pending ⟨pc', rest, buffer, rotate', fd, fs⟩
      = pending ⟨pc, rest, buffer, rotate, fd, fs⟩)
    (hindex : ∀ i, pc' ≠ .rename i)
    (hdescriptor : Descriptor ⟨pc', rest, buffer, rotate', fd, fs⟩ older cur)
    (hdone : pc' ≠ .done) :
    Inv base fs₀ input ⟨pc', rest, buffer, rotate', fd, fs⟩ older cur where
  placed := hgap ▸ hinv.placed
  index i hpc := absurd hpc (hindex i)
  descriptor := hdescriptor
  stream_eq := hpending ▸ hinv.stream_eq
  no_nul := hinv.no_nul
  length_lt := hinv.length_lt
  done_input hpc := absurd hpc hdone

theorem Inv.step_fgets
    (hinv : Inv base fs₀ input ⟨.fgets, rest, buffer, rotate, fd, fs⟩ older cur) :
    Inv base fs₀ input (step env base n ⟨.fgets, rest, buffer, rotate, fd, fs⟩) older cur := by
  unfold step Logger.fgets
  dsimp only
  by_cases hrest : rest = []
  · rw [if_pos hrest]
    exact ⟨hinv.placed, nofun, hinv.descriptor, hinv.stream_eq, hinv.no_nul, hinv.length_lt,
      fun _ => hrest⟩
  · rw [if_neg hrest]
    have happend := takeLine_append (bufferSize - 1) rest
    have hnul := hinv.no_nul.2
    have hstream := hinv.stream_eq
    dsimp only [pending] at hnul hstream
    rw [← happend, List.mem_append, not_or] at hnul
    refine ⟨hinv.placed, nofun, hinv.descriptor, ?_, hnul, ?_, nofun⟩
    · dsimp only [pending]
      rw [List.append_assoc, happend, ← hstream, List.append_nil]
    · exact (length_takeLine_le _ rest).trans_lt (by decide)

theorem Inv.step_scan (hinv : Inv base fs₀ input ⟨.scan, rest, buffer, rotate, fd, fs⟩ older cur)
    (hcomplete : env.Complete) (hclean : Clean base fs₀) (hm : older.length < intMax) :
    Inv base fs₀ input (step env base n ⟨.scan, rest, buffer, rotate, fd, fs⟩) older cur := by
  have hscan := hinv.placed.scan_eq hclean hm (env.order_coe n (entries fs))
  unfold step
  dsimp only
  rw [if_pos (hcomplete n).1, hscan, Int.toNat_natCast]
  split_ifs with hone
  · exact ⟨hinv.placed, fun i hpc => by cases hpc; exact ⟨hone, le_refl _⟩, hinv.descriptor,
      hinv.stream_eq, hinv.no_nul, hinv.length_lt, nofun⟩
  · have hempty : older.length = 0 := by omega
    refine ⟨?_, nofun, hinv.descriptor, hinv.stream_eq, hinv.no_nul, hinv.length_lt, nofun⟩
    have hplaced := hinv.placed
    dsimp only [gapAt] at hplaced ⊢
    rwa [hempty] at hplaced

theorem Inv.step_rename {i : Nat}
    (hinv : Inv base fs₀ input ⟨.rename i, rest, buffer, rotate, fd, fs⟩ older cur)
    (hlength : base.length ≤ 240) (hm : older.length + 1 < 2 ^ 31) :
    Inv base fs₀ input (step env base n ⟨.rename i, rest, buffer, rotate, fd, fs⟩) older cur := by
  obtain ⟨hpos, hi⟩ := hinv.index i rfl
  have hshift := hinv.placed.shift hlength hpos hi (by omega)
  have hstream : stream (shift base i fs) older cur ++ buffer ++ rest = input := by
    rw [stream_shift]
    exact hinv.stream_eq
  have hdescriptor : Unopened ⟨.rename i, rest, buffer, rotate, fd, shift base i fs⟩ older cur
      ∨ Opened ⟨.rename i, rest, buffer, rotate, fd, shift base i fs⟩ cur := by
    have hopen := hinv.descriptor
    unfold Opened
    dsimp only
    rw [Logger.shift, Fs.rename_content]
    exact hopen
  unfold step
  dsimp only
  split_ifs with hnext
  · refine ⟨?_, fun j hpc => ?_, hdescriptor, hstream, hinv.no_nul, hinv.length_lt,
      fun hdone => Pc.noConfusion hdone⟩
    · have hgap : i - 1 + 1 = i := by omega
      dsimp only [gapAt]
      rwa [hgap]
    · cases hpc
      exact ⟨hnext, by omega⟩
  · obtain rfl : i = 1 := by omega
    exact ⟨hshift, fun j hpc => Pc.noConfusion hpc, hdescriptor, hstream, hinv.no_nul,
      hinv.length_lt, fun hdone => Pc.noConfusion hdone⟩

theorem Inv.step_renameBase
    (hinv : Inv base fs₀ input ⟨.renameBase, rest, buffer, rotate, fd, fs⟩ older cur)
    (hlength : base.length ≤ 240) :
    ∃ older', Inv base fs₀ input (step env base n ⟨.renameBase, rest, buffer, rotate, fd, fs⟩)
        older' none
      ∧ older'.length = older.length + if (fs.inode base).isSome then 1 else 0 := by
  have hplaced : Placed base fs₀ fs older cur 1 := hinv.placed
  have hstream : stream fs older cur ++ buffer ++ rest = input := hinv.stream_eq
  rcases hinv.descriptor with ⟨-, rfl, rfl⟩ | ⟨inode, rfl, -⟩
  · -- no log yet: the renaming fails
    have hsame : shiftBase base fs = fs := Fs.rename_of_inode_eq_none hplaced.base_inode
    refine ⟨[], ⟨?_, nofun, rfl, ?_, hinv.no_nul, hinv.length_lt, nofun⟩, ?_⟩
    · change Placed base fs₀ (shiftBase base fs) [] none 1
      rwa [hsame]
    · change stream (shiftBase base fs) [] none ++ buffer ++ rest = input
      rwa [hsame]
    · rw [hplaced.base_inode]
      rfl
  · refine ⟨inode :: older, ⟨hplaced.shiftBase hlength, nofun, rfl, ?_, hinv.no_nul,
      hinv.length_lt, nofun⟩, ?_⟩
    · have hshift : stream (shiftBase base fs) (inode :: older) none =
          stream fs older (some inode) := stream_shiftBase inode
      exact hshift.symm ▸ hstream
    · rw [hplaced.base_inode]
      rfl

/-- The log is opened, for the first time or after a rotation. -/
theorem Inv.opened {pc pc' : Pc}
    (hinv : Inv base fs₀ input ⟨pc, rest, buffer, rotate, fd, fs⟩ older cur)
    (hpc : pc = .reopen ∧ pc' = .testFd ∨ pc = .open ∧ pc' = .write) :
    Inv base fs₀ input ⟨pc', rest, buffer, rotate, some (fs.openCreate base).1,
      (fs.openCreate base).2⟩ older (some fs.fresh) := by
  have hnone : cur = none := by
    rcases hpc with ⟨rfl, -⟩ | ⟨rfl, -⟩
    · exact hinv.descriptor
    · exact hinv.descriptor.2.1
  subst hnone
  have hgap : gapAt pc older.length = older.length + 1 ∧
      gapAt pc' older.length = older.length + 1 := by
    rcases hpc with ⟨rfl, rfl⟩ | ⟨rfl, rfl⟩ <;> exact ⟨rfl, rfl⟩
  have hstream : stream fs older none ++ buffer ++ rest = input := by
    rcases hpc with ⟨rfl, -⟩ | ⟨rfl, -⟩ <;> exact hinv.stream_eq
  have hplaced : Placed base fs₀ fs older none (older.length + 1) := hgap.1 ▸ hinv.placed
  obtain ⟨hfile, hplaced', hempty, hstream'⟩ := hplaced.openCreate
  have hopened : Opened ⟨pc', rest, buffer, rotate, some (fs.openCreate base).1,
      (fs.openCreate base).2⟩ (some fs.fresh) := by
    refine ⟨fs.fresh, rfl, ?_⟩
    dsimp only
    rw [hempty, hfile, List.length_nil]
  refine ⟨?_, ?_, ?_, ?_, hinv.no_nul, hinv.length_lt, ?_⟩
  · dsimp only
    rwa [hgap.2]
  · rcases hpc with ⟨-, rfl⟩ | ⟨-, rfl⟩ <;> exact nofun
  · rcases hpc with ⟨-, rfl⟩ | ⟨-, rfl⟩
    · exact Or.inr hopened
    · exact hopened
  · rcases hpc with ⟨-, rfl⟩ | ⟨-, rfl⟩ <;> exact hstream'.symm ▸ hstream
  · rcases hpc with ⟨-, rfl⟩ | ⟨-, rfl⟩ <;> exact nofun

theorem Inv.step_write (hinv : Inv base fs₀ input ⟨.write, rest, buffer, rotate, fd, fs⟩ older cur)
    (hcomplete : env.Complete) :
    Inv base fs₀ input (step env base n ⟨.write, rest, buffer, rotate, fd, fs⟩) older cur := by
  obtain ⟨inode, rfl, hfd⟩ := hinv.descriptor
  dsimp only at hfd
  subst hfd
  obtain ⟨-, -, count, hcount, hwrite⟩ := hcomplete n
  obtain ⟨hfile, hplaced, hstream⟩ := hinv.placed.write buffer
  unfold step
  dsimp only
  rw [hwrite]
  dsimp only
  rw [text_eq hinv.no_nul.1 hinv.length_lt hcount]
  refine ⟨hplaced, nofun, Or.inr ⟨inode, rfl, congrArg some hfile⟩, ?_, hinv.no_nul,
    hinv.length_lt, nofun⟩
  dsimp only [pending]
  rw [hstream, List.append_nil]
  exact hinv.stream_eq

/-- **One step.** Every step of the program keeps the invariant, and the number of rotated logs
grows by one exactly at a rotation that finds a log. -/
theorem Inv.step {s : State} (hinv : Inv base fs₀ input s older cur) (hcomplete : env.Complete)
    (hclean : Clean base fs₀) (hlength : base.length ≤ 240) (hm : older.length + 1 < intMax) :
    ∃ older' cur', Inv base fs₀ input (step env base n s) older' cur'
      ∧ older'.length = older.length + if Rotates base s then 1 else 0 := by
  obtain ⟨pc, rest, buffer, rotate, fd, fs⟩ := s
  have hkeeps : pc ≠ .renameBase → ∀ cur',
      Inv base fs₀ input (Logger.step env base n ⟨pc, rest, buffer, rotate, fd, fs⟩) older cur' →
      ∃ older' cur', Inv base fs₀ input
          (Logger.step env base n ⟨pc, rest, buffer, rotate, fd, fs⟩) older' cur'
        ∧ older'.length = older.length
          + if Rotates base ⟨pc, rest, buffer, rotate, fd, fs⟩ then 1 else 0 := by
    intro hpc cur' hinv'
    exact ⟨older, cur', hinv', by rw [if_neg fun hrotates => hpc hrotates.1, Nat.add_zero]⟩
  cases pc with
  | fgets => exact hkeeps nofun _ hinv.step_fgets
  | testRotate =>
      refine hkeeps nofun cur ?_
      unfold Logger.step
      dsimp only
      split_ifs
      · exact hinv.goto rfl rfl nofun hinv.descriptor nofun
      · exact hinv.goto rfl rfl nofun hinv.descriptor nofun
  | clearRotate => exact hkeeps nofun cur (hinv.goto rfl rfl nofun hinv.descriptor nofun)
  | close => exact hkeeps nofun cur (hinv.goto rfl rfl nofun hinv.descriptor nofun)
  | scan => exact hkeeps nofun _ (hinv.step_scan hcomplete hclean (by omega))
  | rename i => exact hkeeps nofun _ (hinv.step_rename hlength (hm.trans (by decide)))
  | renameBase =>
      obtain ⟨older', hinv', hcount⟩ := hinv.step_renameBase (n := n) hlength
      refine ⟨older', none, hinv', hcount.trans ?_⟩
      simp [Rotates]
  | reopen =>
      refine hkeeps nofun (some fs.fresh) ?_
      unfold Logger.step
      dsimp only
      rw [if_pos (hcomplete n).2.1]
      exact hinv.opened (Or.inl ⟨rfl, rfl⟩)
  | testFd =>
      refine hkeeps nofun cur ?_
      unfold Logger.step
      dsimp only
      rcases hinv.descriptor with hunopened | hopened
      · rw [if_pos hunopened.1]
        exact hinv.goto rfl rfl nofun hunopened nofun
      · obtain ⟨inode, hcur, hfd⟩ := hopened
        dsimp only at hfd
        rw [if_neg (by rw [hfd]; simp)]
        exact hinv.goto rfl rfl nofun ⟨inode, hcur, hfd⟩ nofun
  | «open» =>
      refine hkeeps nofun (some fs.fresh) ?_
      unfold Logger.step
      dsimp only
      rw [if_pos (hcomplete n).2.1]
      exact hinv.opened (Or.inr ⟨rfl, rfl⟩)
  | write => exact hkeeps nofun _ (hinv.step_write hcomplete)
  | done => exact hkeeps nofun _ hinv
  | failed message => exact hinv.descriptor.elim

end Step

/-! ### The end of the run -/

/-- Steps that are left before the next one that reads. -/
def rank : Pc → Nat
  | .testRotate => 11
  | .clearRotate => 10
  | .close => 9
  | .scan => 8
  | .rename _ => 7
  | .renameBase => 6
  | .reopen => 5
  | .testFd => 4
  | .open => 3
  | .write => 2
  | .fgets => 1
  | .done => 0
  | .failed _ => 0

/-- What every step makes smaller: the input, then the rank, then the index of the renaming loop. -/
def runMeasure (s : State) : ℕ ×ₗ ℕ ×ₗ ℕ :=
  toLex (s.input.length, toLex (rank s.pc, match s.pc with | .rename i => i | _ => 0))

theorem runMeasure_lt {s s' : State} (hinput : s'.input = s.input)
    (hrank : rank s'.pc < rank s.pc) : runMeasure s' < runMeasure s := by
  rw [runMeasure, runMeasure, Prod.Lex.toLex_lt_toLex, Prod.Lex.toLex_lt_toLex, hinput]
  exact Or.inr ⟨rfl, Or.inl hrank⟩

theorem runMeasure_step {env : Env} {base : Name} {n : Nat} {s : State} (hdone : s.pc ≠ .done)
    (hfailed : ∀ message, s.pc ≠ .failed message) :
    runMeasure (step env base n s) < runMeasure s := by
  obtain ⟨pc, rest, buffer, rotate, fd, fs⟩ := s
  cases pc with
  | fgets =>
      unfold step Logger.fgets
      dsimp only
      by_cases hrest : rest = []
      · rw [if_pos hrest]
        exact runMeasure_lt rfl (by simp [rank])
      · rw [if_neg hrest, runMeasure, runMeasure, Prod.Lex.toLex_lt_toLex]
        exact Or.inl (length_takeLine_lt (by decide) hrest)
  | rename i =>
      unfold step
      dsimp only
      split_ifs with hnext
      · rw [runMeasure, runMeasure, Prod.Lex.toLex_lt_toLex, Prod.Lex.toLex_lt_toLex]
        exact Or.inr ⟨rfl, Or.inr ⟨rfl, (by omega : i - 1 < i)⟩⟩
      · exact runMeasure_lt rfl (by simp [rank])
  | write =>
      unfold step
      dsimp only
      split <;> exact runMeasure_lt rfl (by simp [rank])
  | done => exact absurd rfl hdone
  | failed message => exact absurd rfl (hfailed message)
  | clearRotate => exact runMeasure_lt rfl (by simp [step, rank])
  | close => exact runMeasure_lt rfl (by simp [step, rank])
  | renameBase => exact runMeasure_lt rfl (by simp [step, rank])
  | testRotate | reopen | testFd | «open» =>
      unfold step
      dsimp only
      split_ifs <;> exact runMeasure_lt rfl (by simp [rank])
  | scan =>
      unfold step
      dsimp only
      split_ifs
      · exact runMeasure_lt rfl (by simp [rank])
      · exact runMeasure_lt rfl (by simp [rank])
      · exact runMeasure_lt rfl (by simp [rank])

theorem sched_iterate (s : State) (k : Nat) :
    ∃ rotate, sched^[k] s = { s with rotate } := by
  induction k with
  | zero => exact ⟨s.rotate, rfl⟩
  | succ k ih =>
      obtain ⟨rotate, hrotate⟩ := ih
      refine ⟨true, ?_⟩
      rw [Function.iterate_succ_apply', hrotate]
      rfl

section Run

variable {env : Env} {base : LogName} {fs : Dir} {input : List Byte}

theorem foundRotations_le (env : Env) (base : Name) (start : State) (n : Nat) :
    foundRotations env base start n ≤ rotations env base start n :=
  Nat.count_mono_left fun _ _ hfound => hfound.1

/-- **A whole run.** The invariant holds after every number of steps, with as many rotated logs as
rotations have found one. -/
theorem trace_inv (hcomplete : env.Complete) (hclean : Clean base.bytes fs) (hnul : 0 ∉ input)
    (hrotations : ∀ n, rotations env base.bytes (initial input fs) n < 2 ^ 31 - 2) (n : Nat) :
    ∃ older cur, Inv base.bytes fs input (trace env base.bytes (initial input fs) n) older cur
      ∧ older.length = foundRotations env base.bytes (initial input fs) n := by
  induction n with
  | zero => exact ⟨[], none, .initial hclean hnul, rfl⟩
  | succ n ih =>
      obtain ⟨older, cur, hinv, hcount⟩ := ih
      have hbound := (foundRotations_le env base.bytes (initial input fs) n).trans_lt (hrotations n)
      obtain ⟨rotate, hsched⟩ :=
        sched_iterate (trace env base.bytes (initial input fs) n) (env.hups n)
      have hsignalled : Inv base.bytes fs input
          (sched^[env.hups n] (trace env base.bytes (initial input fs) n)) older cur := by
        rw [hsched]
        exact ⟨hinv.placed, hinv.index, hinv.descriptor, hinv.stream_eq, hinv.no_nul,
          hinv.length_lt, hinv.done_input⟩
      obtain ⟨older', cur', hinv', hcount'⟩ := hsignalled.step (n := n) hcomplete hclean
        base.length_le (by rw [hcount]; simp only [intMax]; omega)
      refine ⟨older', cur', hinv', ?_⟩
      rw [hcount', hcount, foundRotations, foundRotations, Nat.count_succ, hsched]
      rfl

theorem trace_done (hcomplete : env.Complete) (hclean : Clean base.bytes fs) (hnul : 0 ∉ input)
    (hrotations : ∀ n, rotations env base.bytes (initial input fs) n < 2 ^ 31 - 2) :
    ∃ n, (trace env base.bytes (initial input fs) n).pc = .done := by
  by_contra! hnever
  obtain ⟨n, hn⟩ := WellFounded.not_rel_apply_succ (r := (· < ·))
    fun n => runMeasure (trace env base.bytes (initial input fs) n)
  refine hn ?_
  obtain ⟨older, cur, hinv, -⟩ := trace_inv hcomplete hclean hnul hrotations n
  obtain ⟨rotate, hsched⟩ := sched_iterate (trace env base.bytes (initial input fs) n) (env.hups n)
  have hstep : runMeasure (step env base.bytes n
      { trace env base.bytes (initial input fs) n with rotate })
      < runMeasure { trace env base.bytes (initial input fs) n with rotate } := by
    refine runMeasure_step (hnever n) fun message hpc => ?_
    have hfalse := hinv.descriptor
    dsimp only at hpc
    unfold Descriptor at hfalse
    rw [hpc] at hfalse
    exact hfalse
  dsimp only [trace]
  rw [hsched]
  exact hstep

/-- The logs as the directory has them are what the invariant says they hold. -/
theorem joined_eq_stream {older : List Nat} {cur : Option Nat} {fs' : Dir}
    (hplaced : Placed base.bytes fs fs' older cur (older.length + 1))
    (hm : older.length < 2 ^ 31 - 2) :
    joined fs' base.bytes older.length = stream fs' older cur := by
  have hread : ∀ k (hk : k < older.length),
      fs'.read (numbered base.bytes (k + 1)) = fs'.content older[k] := by
    intro k hk
    rw [Fs.read, numbered_eq_tag base.length_le (by omega), hplaced.tag_inode _ (by omega),
      slot_full _ (by omega), Nat.add_sub_cancel, List.getElem?_eq_getElem hk, Option.elim_some]
  have hcur : fs'.read base.bytes = cur.toList.flatMap fs'.content := by
    rw [Fs.read, hplaced.base_inode]
    cases cur <;> simp
  have hrotated : (List.range older.length).map (fun k => fs'.read (numbered base.bytes (k + 1)))
      = older.map fs'.content := by
    refine List.ext_getElem (by simp) fun k hk _ => ?_
    rw [List.getElem_map, List.getElem_map, List.getElem_range,
      hread k (by simpa using hk)]
  simp only [joined, stream, hcur, List.flatMap_def, List.map_append, List.flatten_append,
    List.map_reverse, hrotated]

theorem unchanged_of_placed {older : List Nat} {cur : Option Nat} {fs' : Dir}
    (hplaced : Placed base.bytes fs fs' older cur (older.length + 1))
    (hclean : Clean base.bytes fs) (hm : older.length < 2 ^ 31 - 2) {name : Name}
    (hbase : name ≠ base.bytes)
    (hnumbered : ∀ i, 1 ≤ i → i ≤ older.length → name ≠ numbered base.bytes i) :
    fs'.inode name = fs.inode name ∧ fs'.read name = fs.read name := by
  have hinode : fs'.inode name = fs.inode name := by
    by_cases hprefix : base.bytes ++ [46] <+: name
    · rw [hclean.inode_eq_none (Or.inr hprefix)]
      by_contra hsome
      have hsome := Option.isSome_iff_ne_none.mpr hsome
      obtain ⟨k, hpos, rfl⟩ := hplaced.tagged name hprefix hsome
      rw [hplaced.tag_inode k hpos, slot_full older hpos] at hsome
      have hk : k - 1 < older.length := by simpa using hsome
      exact hnumbered k hpos (by omega) (numbered_eq_tag base.length_le (by omega)).symm
    · exact hplaced.others name hbase hprefix
  refine ⟨hinode, ?_⟩
  rw [Fs.read, Fs.read, hinode]
  cases hold : fs.inode name with
  | none => rfl
  | some inode => exact hplaced.content inode (Fs.inode_lt hold)

/-- A line has been read and the rotation before it has not been made. -/
def mayRotate : Pc → Nat
  | .testRotate | .clearRotate | .close | .scan | .rename _ | .renameBase => 1
  | _ => 0

theorem mayRotate_step (env : Env) (base : Name) (n : Nat) (s : State) :
    mayRotate (step env base n s).pc + (step env base n s).input.length
      + (if s.pc = .renameBase then 1 else 0) ≤ mayRotate s.pc + s.input.length := by
  obtain ⟨pc, rest, buffer, rotate, fd, fs⟩ := s
  cases pc with
  | fgets =>
      unfold step Logger.fgets
      dsimp only
      by_cases hrest : rest = []
      · rw [if_pos hrest]
        simp [mayRotate]
      · rw [if_neg hrest]
        have hlt := length_takeLine_lt (by decide : 0 < bufferSize - 1) hrest
        simp only [mayRotate, reduceCtorEq, if_false]
        omega
  | write =>
      unfold step
      dsimp only
      split <;> simp [mayRotate]
  | clearRotate | close | renameBase | done | failed => simp [step, mayRotate]
  | testRotate | scan | rename | reopen | testFd | «open» =>
      unfold step
      dsimp only
      split_ifs <;> simp_all [mayRotate]

/-- There is at most one rotation for each byte of the input. -/
theorem rotations_le_length (env : Env) (base : Name) (fs : Dir) (input : List Byte) (n : Nat) :
    rotations env base (initial input fs) n ≤ input.length := by
  have hbound : rotations env base (initial input fs) n
      + mayRotate (trace env base (initial input fs) n).pc
      + (trace env base (initial input fs) n).input.length ≤ input.length := by
    induction n with
    | zero =>
        rw [rotations, Nat.count_zero]
        simp [trace, initial, mayRotate]
    | succ n ih =>
        obtain ⟨rotate, hsched⟩ := sched_iterate (trace env base (initial input fs) n) (env.hups n)
        have hstep := mayRotate_step env base n
          { trace env base (initial input fs) n with rotate }
        rw [rotations, Nat.count_succ, ← rotations, trace, hsched]
        dsimp only at hstep
        omega
  omega

/-- **Nothing is lost, nothing is reordered.** Every run of the logger on an input without zero
bytes comes to its end, and then the rotated logs from the oldest on, followed by the current log,
are exactly the input, and every other entry of the directory is as it was. -/
theorem logger_whole_run (env : Env) (base : LogName) (fs : Dir) (input : List Byte)
    (hcomplete : env.Complete) (hclean : Clean base.bytes fs) (hnul : 0 ∉ input)
    (hrotations : ∀ n, rotations env base.bytes (initial input fs) n < 2 ^ 31 - 2) :
    ∃ n, (trace env base.bytes (initial input fs) n).pc = .done
      ∧ let final := (trace env base.bytes (initial input fs) n).fs
        let m := foundRotations env base.bytes (initial input fs) n
        joined final base.bytes m = input
          ∧ ∀ name, name ≠ base.bytes → (∀ i, 1 ≤ i → i ≤ m → name ≠ numbered base.bytes i) →
            final.inode name = fs.inode name ∧ final.read name = fs.read name := by
  obtain ⟨n, hdone⟩ := trace_done hcomplete hclean hnul hrotations
  obtain ⟨older, cur, hinv, hcount⟩ := trace_inv hcomplete hclean hnul hrotations n
  have hm : older.length < 2 ^ 31 - 2 :=
    hcount ▸ (foundRotations_le env base.bytes (initial input fs) n).trans_lt (hrotations n)
  have hplaced := hinv.placed
  have hstream := hinv.stream_eq
  rw [hdone] at hplaced
  rw [hinv.done_input hdone, pending, hdone, List.append_nil, List.append_nil] at hstream
  refine ⟨n, hdone, ?_⟩
  dsimp only
  rw [← hcount]
  exact ⟨(joined_eq_stream hplaced hm).trans hstream,
    fun name => unchanged_of_placed hplaced hclean hm⟩

/-- The logger in an empty directory, with a signal before every step. -/
theorem logger_whole_run_under_signals :
    ∃ (env : Env) (base : LogName) (fs : Dir), env.Complete ∧ (∀ n, 0 < env.hups n)
      ∧ Clean base.bytes fs ∧ ∃ n, (trace env base.bytes (initial [97, 10, 98] fs) n).pc = .done
        ∧ joined (trace env base.bytes (initial [97, 10, 98] fs) n).fs base.bytes
            (foundRotations env base.bytes (initial [97, 10, 98] fs) n) = [97, 10, 98] := by
  let env : Env := ⟨fun _ => 1, fun _ names => names.toList, fun _ names => names.coe_toList,
    fun _ => true, fun _ => true, fun _ => some bufferSize⟩
  let base : LogName := ⟨[108], by decide, by decide⟩
  let fs : Dir := ⟨∅, fun _ => [], 0, fun name inode hinode => by simp at hinode⟩
  have hcomplete : env.Complete := fun n => ⟨rfl, rfl, bufferSize, le_refl _, rfl⟩
  have hclean : Clean base.bytes fs := by
    intro name hname
    have hdots : name = [46] ∨ name = [46, 46] := by
      simpa [entries, fs] using hname
    rcases hdots with rfl | rfl <;> decide
  obtain ⟨n, hdone, hjoined, -⟩ := logger_whole_run env base fs [97, 10, 98] hcomplete hclean
    (by decide) fun n => (rotations_le_length env base.bytes fs _ n).trans_lt (by decide)
  exact ⟨env, base, fs, hcomplete, fun _ => Nat.one_pos, hclean, n, hdone, hjoined⟩

end Run

end Acos.Logger
