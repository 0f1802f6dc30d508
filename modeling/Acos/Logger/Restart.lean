import Acos.Logger.WholeRun

/-!
# Starting the logger on a log that exists

The log is opened without `O_APPEND` and without `O_TRUNC`. A run without signals therefore writes
its input over the beginning of the log it finds, and the rest of the old log stays behind it. The
invariant follows one run: what has been written so far, then the old bytes that it does not reach.
-/

namespace Acos.Logger

open CString FileSystem

/-- The places of the loop where no rotation is under way. -/
def quiet : Pc → Bool
  | .fgets | .testRotate | .testFd | .open | .write | .done => true
  | _ => false

/-- The descriptor is at the end of what has been written, and the old log goes on behind it. -/
def AtEnd (base : Name) (old : List Byte) (fs : Dir) (written : List Byte) : Option File → Prop
  | none => written = [] ∧ fs.read base = old
  | some file => fs.inode base = some file.inode ∧ file.offset = written.length ∧
      fs.content file.inode = written ++ old.drop written.length

structure Overwrites (base : Name) (old input : List Byte) (s : State) (written : List Byte) :
    Prop where
  quiet : quiet s.pc = true
  rotate : s.rotate = false
  atEnd : AtEnd base old s.fs written s.loggerFd
  unopened : s.pc = .open → s.loggerFd = none
  opened : s.pc = .write → s.loggerFd ≠ none
  input_eq : written ++ pending s ++ s.input = input
  no_nul : 0 ∉ s.buffer ∧ 0 ∉ s.input
  length_lt : s.buffer.length < bufferSize
  done_input : s.pc = .done → s.input = []

theorem AtEnd.read_eq {base : Name} {old : List Byte} {fs : Dir} {written : List Byte}
    {fd : Option File} (hend : AtEnd base old fs written fd) :
    fs.read base = written ++ old.drop written.length := by
  cases fd with
  | none =>
      obtain ⟨rfl, hread⟩ := hend
      rw [hread]
      rfl
  | some file => rw [Fs.read_of_inode hend.1, hend.2.2]

/-- An opened log is written from its beginning on. -/
theorem AtEnd.openCreate {base : Name} {old : List Byte} {fs : Dir} {written : List Byte}
    (hend : AtEnd base old fs written none) :
    AtEnd base old (fs.openCreate base).2 written (some (fs.openCreate base).1) := by
  obtain ⟨rfl, hread⟩ := hend
  cases hinode : fs.inode base with
  | none =>
      obtain ⟨hfile, hcontent, -, hinodes⟩ := Fs.openCreate_of_inode_eq_none hinode
      rw [Fs.read, hinode] at hread
      rw [hfile]
      refine ⟨(hinodes base).trans (if_pos rfl), rfl, ?_⟩
      rw [hcontent, Function.update_self, ← hread]
      rfl
  | some inode =>
      rw [Fs.read_of_inode hinode] at hread
      rw [Fs.openCreate, hinode]
      exact ⟨hinode, rfl, hread⟩

theorem AtEnd.write {base : Name} {old : List Byte} {fs : Dir} {written : List Byte} {file : File}
    (hend : AtEnd base old fs written (some file)) (bytes : List Byte) :
    AtEnd base old (fs.write file bytes).2 (written ++ bytes) (some (fs.write file bytes).1) := by
  obtain ⟨hinode, hoffset, hcontent⟩ := hend
  refine ⟨hinode, ?_, ?_⟩
  · rw [List.length_append, ← hoffset]
    rfl
  · change Function.update fs.content file.inode _ file.inode = _
    rw [Function.update_self, hcontent, hoffset, List.take_append_length, List.drop_append,
      List.drop_eq_nil_of_le (Nat.le_add_right _ _), Nat.add_sub_cancel_left, List.drop_drop,
      List.length_append, List.nil_append]
    rfl

section Step

variable {env : Env} {base : Name} {old input : List Byte} {n : Nat} {s : State}
  {written : List Byte}

theorem Overwrites.initial {fs : Dir} (hnul : 0 ∉ input) :
    Overwrites base (fs.read base) input (initial input fs) [] where
  quiet := rfl
  rotate := rfl
  atEnd := ⟨rfl, rfl⟩
  unopened hpc := by cases hpc
  opened hpc := by cases hpc
  input_eq := rfl
  no_nul := ⟨List.not_mem_nil, hnul⟩
  length_lt := (by decide : 0 < bufferSize)
  done_input hpc := by cases hpc

theorem Overwrites.step_fgets (hinv : Overwrites base old input s written) (hpc : s.pc = .fgets) :
    Overwrites base old input (step env base n s) written := by
  obtain ⟨pc, rest, buffer, rotate, fd, fs⟩ := s
  cases hpc
  unfold step Logger.fgets
  dsimp only
  by_cases hrest : rest = []
  · rw [if_pos hrest]
    exact ⟨rfl, hinv.rotate, hinv.atEnd, nofun, nofun, hinv.input_eq, hinv.no_nul,
      hinv.length_lt, fun _ => hrest⟩
  · rw [if_neg hrest]
    have happend := takeLine_append (bufferSize - 1) rest
    have hnul := hinv.no_nul.2
    have hinput := hinv.input_eq
    dsimp only [pending] at hnul hinput
    rw [← happend, List.mem_append, not_or] at hnul
    refine ⟨rfl, hinv.rotate, hinv.atEnd, nofun, nofun, ?_, hnul, ?_, nofun⟩
    · dsimp only [pending]
      rw [List.append_assoc, happend, ← hinput, List.append_nil]
    · exact (length_takeLine_le _ rest).trans_lt (by decide)

theorem Overwrites.step_write (hinv : Overwrites base old input s written) (hpc : s.pc = .write)
    (hcomplete : env.Complete) :
    Overwrites base old input (step env base n s) (written ++ s.buffer) := by
  obtain ⟨pc, rest, buffer, rotate, fd, fs⟩ := s
  cases hpc
  obtain ⟨file, rfl⟩ := Option.ne_none_iff_exists'.mp (hinv.opened rfl)
  obtain ⟨-, -, count, hcount, hwrite⟩ := hcomplete n
  unfold step
  dsimp only
  rw [hwrite]
  dsimp only
  rw [text_eq hinv.no_nul.1 hinv.length_lt hcount]
  refine ⟨rfl, hinv.rotate, hinv.atEnd.write buffer, nofun, nofun, ?_, hinv.no_nul,
    hinv.length_lt, nofun⟩
  dsimp only [pending]
  rw [List.append_nil]
  exact hinv.input_eq

theorem Overwrites.step (hinv : Overwrites base old input s written) (hcomplete : env.Complete) :
    ∃ written', Overwrites base old input (step env base n s) written' := by
  cases hpc : s.pc with
  | fgets => exact ⟨written, hinv.step_fgets hpc⟩
  | write => exact ⟨written ++ s.buffer, hinv.step_write hpc hcomplete⟩
  | testRotate =>
      refine ⟨written, ?_⟩
      obtain ⟨pc, rest, buffer, rotate, fd, fs⟩ := s
      cases hpc
      -- without signals the flag is never set
      cases hinv.rotate
      exact ⟨rfl, rfl, hinv.atEnd, nofun, nofun, hinv.input_eq, hinv.no_nul, hinv.length_lt, nofun⟩
  | testFd =>
      refine ⟨written, ?_⟩
      obtain ⟨pc, rest, buffer, rotate, fd, fs⟩ := s
      cases hpc
      unfold Logger.step
      dsimp only
      split_ifs with hfd
      · exact ⟨rfl, hinv.rotate, hinv.atEnd, fun _ => hfd, nofun, hinv.input_eq, hinv.no_nul,
          hinv.length_lt, nofun⟩
      · exact ⟨rfl, hinv.rotate, hinv.atEnd, nofun, fun _ => hfd, hinv.input_eq, hinv.no_nul,
          hinv.length_lt, nofun⟩
  | «open» =>
      refine ⟨written, ?_⟩
      obtain ⟨pc, rest, buffer, rotate, fd, fs⟩ := s
      cases hpc
      cases hinv.unopened rfl
      unfold Logger.step
      dsimp only
      rw [if_pos (hcomplete n).2.1]
      exact ⟨rfl, hinv.rotate, hinv.atEnd.openCreate, nofun, fun _ => Option.some_ne_none _,
        hinv.input_eq, hinv.no_nul, hinv.length_lt, nofun⟩
  | done =>
      refine ⟨written, ?_⟩
      rw [Logger.step, hpc]
      exact hinv
  | clearRotate | close | scan | rename | renameBase | reopen | failed =>
      have hquiet := hinv.quiet
      rw [hpc] at hquiet
      cases hquiet

end Step

section Run

variable {env : Env} (base : Name) (fs : Dir) {input : List Byte}

theorem trace_overwrites (hcomplete : env.Complete) (hsilent : ∀ n, env.hups n = 0)
    (hnul : 0 ∉ input) (n : Nat) :
    ∃ written, Overwrites base (fs.read base) input (trace env base (initial input fs) n)
      written := by
  induction n with
  | zero => exact ⟨[], .initial hnul⟩
  | succ n ih =>
      obtain ⟨written, hinv⟩ := ih
      rw [trace, hsilent n]
      exact hinv.step hcomplete

theorem trace_silent_done (hcomplete : env.Complete) (hsilent : ∀ n, env.hups n = 0)
    (hnul : 0 ∉ input) : ∃ n, (trace env base (initial input fs) n).pc = .done := by
  -- otherwise the measure would fall at every step
  by_contra! hnever
  obtain ⟨n, hn⟩ := WellFounded.not_rel_apply_succ (r := (· < ·))
    fun n => runMeasure (trace env base (initial input fs) n)
  refine hn ?_
  obtain ⟨written, hinv⟩ := trace_overwrites base fs hcomplete hsilent hnul n
  rw [trace, hsilent n]
  refine runMeasure_step (hnever n) fun message hpc => ?_
  have hquiet := hinv.quiet
  rw [Function.iterate_zero, id_eq] at hpc
  rw [hpc] at hquiet
  cases hquiet

variable {base fs}

/-- What the log holds after a run without signals. -/
theorem read_of_done (hcomplete : env.Complete) (hsilent : ∀ n, env.hups n = 0) (hnul : 0 ∉ input)
    {n : Nat} (hdone : (trace env base (initial input fs) n).pc = .done) :
    (trace env base (initial input fs) n).fs.read base
      = input ++ (fs.read base).drop input.length := by
  obtain ⟨written, hinv⟩ := trace_overwrites base fs hcomplete hsilent hnul n
  have hinput := hinv.input_eq
  rw [hinv.done_input hdone, pending, hdone, List.append_nil, List.append_nil] at hinput
  rw [hinv.atEnd.read_eq, hinput]

end Run

/-- Writing over the beginning is neither appending nor starting anew if something stays behind. -/
theorem overwritten_iff {old new : List Byte} :
    (new ++ old.drop new.length = old ++ new ∨ new ++ old.drop new.length = new)
      ↔ new = [] ∨ old.length ≤ new.length := by
  constructor
  · rintro (happended | hreplaced)
    · have hlength := congrArg List.length happended
      simp only [List.length_append, List.length_drop] at hlength
      by_cases hnew : new = []
      · exact .inl hnew
      · have hpos := List.length_pos_iff.mpr hnew
        exact .inr (by omega)
    · rw [List.append_right_eq_self, List.drop_eq_nil_iff] at hreplaced
      exact .inr hreplaced
  · rintro (rfl | hle)
    · exact .inl (by simp)
    · exact .inr (by rw [List.drop_eq_nil_of_le hle, List.append_nil])

/-- **A restart.** A run without signals comes to its end. It leaves the old log followed by the
input, or the input alone, exactly if there is no input or it is as long as the old log. -/
theorem restart_iff (env : Env) (base : Name) (fs : Dir) (input : List Byte)
    (hcomplete : env.Complete) (hsilent : ∀ n, env.hups n = 0) (hnul : 0 ∉ input) :
    (∃ n, (trace env base (initial input fs) n).pc = .done)
      ∧ ∀ n, (trace env base (initial input fs) n).pc = .done →
        let log := (trace env base (initial input fs) n).fs.read base
        ((log = fs.read base ++ input ∨ log = input)
          ↔ input = [] ∨ (fs.read base).length ≤ input.length) := by
  refine ⟨trace_silent_done base fs hcomplete hsilent hnul, fun n hdone => ?_⟩
  dsimp only
  rw [read_of_done hcomplete hsilent hnul hdone]
  exact overwritten_iff

theorem exists_undisturbed : ∃ env : Env, env.Complete ∧ ∀ n, env.hups n = 0 :=
  ⟨⟨fun _ => 0, fun _ names => names.toList, fun _ names => names.coe_toList, fun _ => true,
    fun _ => true, fun _ => some bufferSize⟩, fun _ => ⟨rfl, rfl, bufferSize, le_refl _, rfl⟩,
    fun _ => rfl⟩

/-- A log that is shorter than the input is replaced. -/
theorem restart_iff_shorter :
    ∃ env : Env, env.Complete ∧ (∀ n, env.hups n = 0) ∧
      ∃ n, (trace env [108] (initial [98, 99] (Fs.single [108] [97])) n).pc = .done
        ∧ let log := (trace env [108] (initial [98, 99] (Fs.single [108] [97])) n).fs.read [108]
          log = [97] ++ [98, 99] ∨ log = [98, 99] := by
  obtain ⟨env, hcomplete, hsilent⟩ := exists_undisturbed
  obtain ⟨⟨n, hdone⟩, hlog⟩ := restart_iff env [108] (Fs.single [108] [97]) [98, 99] hcomplete
    hsilent (by decide)
  have hiff := hlog n hdone
  rw [Fs.single_read] at hiff
  exact ⟨env, hcomplete, hsilent, n, hdone, hiff.mpr (.inr (by decide))⟩

/-- The log holds `older`, and the logger is started on the input `new`: the log holds `newer`. -/
theorem restart_mixes_logs :
    ∃ env : Env, env.Complete ∧ (∀ n, env.hups n = 0)
      ∧ (Fs.single [108] [111, 108, 100, 101, 114]).read [108] = [111, 108, 100, 101, 114]
      ∧ ∃ n, (trace env [108]
          (initial [110, 101, 119] (Fs.single [108] [111, 108, 100, 101, 114])) n).pc = .done
        ∧ (trace env [108]
            (initial [110, 101, 119] (Fs.single [108] [111, 108, 100, 101, 114])) n).fs.read [108]
          = [110, 101, 119, 101, 114] := by
  obtain ⟨env, hcomplete, hsilent⟩ := exists_undisturbed
  have hnul : 0 ∉ ([110, 101, 119] : List Byte) := by decide
  obtain ⟨n, hdone⟩ := trace_silent_done [108] (Fs.single [108] [111, 108, 100, 101, 114])
    hcomplete hsilent hnul
  refine ⟨env, hcomplete, hsilent, Fs.single_read _ _, n, hdone, ?_⟩
  rw [read_of_done hcomplete hsilent hnul hdone, Fs.single_read]
  rfl

end Acos.Logger
