import Mathlib.Data.List.Forall2
import Acos.Shell.SyntaxCheck

/-!
# What is made of a pipeline

For a pipeline whose commands all have a word of their own, both passes agree: the shell starts one
process for every command, with the plain words of this command as its arguments, and the files are
those named behind the redirections, wherever in their commands these stand. The only exception is
the check of the output file, which refuses every pipeline of `2 ^ 31` or more pipes that writes to
a file, up to the numbers of pipes that are `-1` as an `int`.
-/

namespace Acos.Shell.Pipe

open Program

variable {env : Env Reply} {scan next : Scan} {t : Token}

/-! ## The first pass over a pipeline -/

theorem Scan.steps_append (a b : List Token) (scan : Scan) :
    Scan.steps (a ++ b) scan = (Scan.steps a scan).bind (Scan.steps b) := by
  induction a generalizing scan with
  | nil => rfl
  | cons t ts ih =>
      simp only [List.cons_append, Scan.steps, Option.bind_assoc]
      exact congrArg _ (funext ih)

/-- A redirection waits for its name. -/
def Scan.waits (scan : Scan) : Bool := scan.infileBefore || scan.outfileBefore

/-- The variables after the tokens of one command. -/
structure ReadsCommand (scan next : Scan) (c : List Token) : Prop where
  waits : next.waits = false
  blockCount : next.blockCount = scan.blockCount
  argv : next.argv = scan.argv ++ plainWordsAfter scan.waits c
  pipeBefore : scan.pipeBefore = false ∨ c ≠ [] → next.pipeBefore = false

theorem Scan.step_word (scan : Scan) (ht : t.type = .word) :
    ∃ next, scan.step t = some next ∧ next.waits = false ∧ next.pipeBefore = false ∧
      next.blockCount = scan.blockCount ∧
      next.argv = scan.argv ++ if scan.waits = true then [] else [t.text] := by
  simp only [Scan.step, ht]
  by_cases hinfile : scan.infileBefore = true
  · rw [if_pos hinfile]
    exact ⟨_, rfl, rfl, rfl, rfl, by simp [Scan.clear, Scan.waits, hinfile]⟩
  · rw [if_neg hinfile]
    by_cases houtfile : scan.outfileBefore = true
    · rw [if_pos houtfile]
      exact ⟨_, rfl, rfl, rfl, rfl, by simp [Scan.clear, Scan.waits, houtfile]⟩
    · rw [if_neg houtfile]
      exact ⟨_, rfl, rfl, rfl, rfl, by simp [Scan.waits, hinfile, houtfile]⟩

/-- A redirection is read when no other one waits for its name. -/
theorem Scan.step_redirection (scan : Scan) (ht : t.isRedirection = true)
    (hwaits : scan.waits = false) (hblock : t.type = .infile → scan.blockCount = 0) :
    ∃ next, scan.step t = some next ∧ next.waits = true ∧
      next.blockCount = scan.blockCount ∧ next.argv = scan.argv := by
  obtain ⟨hinfile, houtfile⟩ := Bool.or_eq_false_iff.mp hwaits
  rcases Token.isRedirection_iff.mp ht with htype | htype
  · refine ⟨{ scan with infileCount := scan.infileCount + 1, infileBefore := true }, ?_, rfl, rfl,
      rfl⟩
    simp only [Scan.step, htype]
    exact if_neg (by simp [hinfile, houtfile, hblock htype])
  · simp only [Scan.step, htype]
    rw [if_neg (by simp [hinfile, houtfile])]
    exact ⟨_, rfl, Bool.or_true _, rfl, rfl⟩

theorem Scan.steps_command (c : List Token) (hfree : ∀ t ∈ c, t.type ≠ .pipe)
    (hnamed : RedirectionsNamed c) (scan : Scan)
    (hpending : scan.waits = true → ∃ w ∈ c.head?, w.type = .word)
    (hinfile : scan.blockCount = 0 ∨ count .infile c = 0) :
    ∃ next, Scan.steps c scan = some next ∧ ReadsCommand scan next c := by
  induction c generalizing scan with
  | nil =>
      have hwaits : scan.waits = false := Bool.eq_false_iff.mpr fun hwaits => by
        obtain ⟨w, hw, _⟩ := hpending hwaits
        exact absurd hw (Option.not_mem_none w)
      exact ⟨scan, rfl, hwaits, rfl, by simp [plainWordsAfter], fun h => h.resolve_right (· rfl)⟩
  | cons t c ih =>
      have hfree' : ∀ u ∈ c, u.type ≠ .pipe := fun u hu => hfree u (List.mem_cons_of_mem t hu)
      have hinfile' : scan.blockCount = 0 ∨ count .infile c = 0 := by
        rw [count_cons] at hinfile
        omega
      by_cases hword : t.type = .word
      · obtain ⟨middle, hstep, hwaits, hpipe, hblock, hargv⟩ := scan.step_word hword
        obtain ⟨next, hsteps, hreads⟩ := ih hfree' hnamed.2 middle (by simp [hwaits])
          (hblock ▸ hinfile')
        refine ⟨next, by rw [Scan.steps, hstep]; exact hsteps, hreads.waits,
          hreads.blockCount.trans hblock, ?_, fun _ => hreads.pipeBefore (.inl hpipe)⟩
        rw [hreads.argv, hargv, hwaits, plainWordsAfter_word hword, List.append_assoc]
      · have hredirection := Token.isRedirection_of_ne hword (hfree t List.mem_cons_self)
        have hwaits : scan.waits = false := Bool.eq_false_iff.mpr fun hwaits => by
          obtain ⟨w, hw, hwtype⟩ := hpending hwaits
          exact hword (Option.mem_some_iff.mp hw ▸ hwtype)
        obtain ⟨w, hw, hwtype⟩ := hnamed.1 hredirection
        obtain ⟨middle, hstep, hwaits', hblock, hargv⟩ :=
          scan.step_redirection hredirection hwaits fun htype => by
            simpa [count_cons, htype] using hinfile
        obtain ⟨next, hsteps, hreads⟩ := ih hfree' hnamed.2 middle (fun _ => ⟨w, hw, hwtype⟩)
          (hblock ▸ hinfile')
        have hne : c ≠ [] := by
          rintro rfl
          exact absurd hw (Option.not_mem_none w)
        refine ⟨next, by rw [Scan.steps, hstep]; exact hsteps, hreads.waits,
          hreads.blockCount.trans hblock, ?_, fun _ => hreads.pipeBefore (.inr hne)⟩
        rw [hreads.argv, hargv, hwaits', plainWordsAfter_redirection hredirection]

/-- The first pass gets through a line whose commands are in order. -/
theorem Scan.steps_line (tokens : List Token) (scan : Scan) (hwaits : scan.waits = false)
    (hcommands : ∀ c ∈ commands tokens, c ≠ [] ∧ RedirectionsNamed c)
    (htail : ∀ c ∈ (commands tokens).tail, count .infile c = 0)
    (hhead : scan.blockCount = 0 ∨ ∀ c ∈ (commands tokens).head?, count .infile c = 0) :
    ∃ next, Scan.steps tokens scan = some next ∧ next.waits = false := by
  obtain ⟨c, cs, heq⟩ := List.exists_cons_of_ne_nil (commands_ne_nil tokens)
  induction cs generalizing tokens scan c with
  | nil =>
      obtain ⟨rfl, _⟩ | ⟨_, ts, _, _, hnil⟩ := commands_eq_cons heq
      · have hmem : tokens ∈ commands tokens := heq ▸ List.mem_cons_self
        obtain ⟨next, hsteps, hreads⟩ := scan.steps_command tokens
          (fun t ht => type_ne_pipe_of_mem_commands hmem ht) (hcommands tokens hmem).2
          (by simp [hwaits]) (hhead.imp_right fun h => h tokens (heq ▸ rfl))
        exact ⟨next, hsteps, hreads.waits⟩
      · exact absurd hnil (commands_ne_nil ts)
  | cons c' cs ih =>
      obtain ⟨_, hnil⟩ | ⟨p, ts, rfl, hp, hrest⟩ := commands_eq_cons heq
      · exact absurd hnil (List.cons_ne_nil _ _)
      · have hmem : c ∈ commands (c ++ p :: ts) := heq ▸ List.mem_cons_self
        obtain ⟨middle, hsteps, hreads⟩ := scan.steps_command c
          (fun t ht => type_ne_pipe_of_mem_commands hmem ht) (hcommands c hmem).2
          (by simp [hwaits]) (hhead.imp_right fun h => h c (heq ▸ rfl))
        have hpipe := hreads.pipeBefore (.inr (hcommands c hmem).1)
        rw [heq, List.tail_cons, ← hrest] at htail
        have hcommands' : ∀ d ∈ commands ts, d ≠ [] ∧ RedirectionsNamed d := fun d hd =>
          hcommands d (heq ▸ List.mem_cons_of_mem c (hrest ▸ hd))
        obtain ⟨next, hnext, hwaits'⟩ := ih ts
          { middle with pipeBefore := true, blockCount := middle.blockCount + 1 } hreads.waits
          hcommands' (fun d hd => htail d (List.mem_of_mem_tail hd))
          (.inr fun d hd => htail d (List.mem_of_mem_head? hd)) c' hrest
        refine ⟨next, ?_, hwaits'⟩
        rw [Scan.steps_append, hsteps]
        simpa [Scan.steps, Scan.step, hp, hpipe] using hnext

/-! ## The names of the files -/

/-- The name of the input or of the output file. -/
def Scan.name (scan : Scan) : TokenType → Option Text
  | .infile => scan.infileName
  | .outfile => scan.outfileName
  | _ => none

/-- A redirection of this type waits for its name. -/
def Scan.waitsFor (scan : Scan) : TokenType → Bool
  | .infile => scan.infileBefore
  | .outfile => scan.outfileBefore
  | _ => false

/-- A token of another type leaves the name alone. -/
theorem Scan.name_step {type : TokenType} (hstep : scan.step t = some next) (ht : t.type ≠ type)
    (hwaits : scan.waitsFor type = false) :
    next.name type = scan.name type ∧ next.waitsFor type = false := by
  cases type with
  | word => exact ⟨rfl, rfl⟩
  | pipe => exact ⟨rfl, rfl⟩
  | infile =>
      have hinfile : ¬ scan.infileBefore = true := by simpa [Scan.waitsFor] using hwaits
      cases htype : t.type <;> simp only [Scan.step, htype] at hstep ht
      case infile => exact absurd rfl ht
      all_goals
        split_ifs at hstep
        all_goals
          cases hstep
          exact ⟨rfl, by simp [Scan.waitsFor, Scan.clear, hinfile]⟩
  | outfile =>
      have houtfile : ¬ scan.outfileBefore = true := by simpa [Scan.waitsFor] using hwaits
      cases htype : t.type <;> simp only [Scan.step, htype] at hstep ht
      case outfile => exact absurd rfl ht
      all_goals
        split_ifs at hstep
        all_goals
          cases hstep
          exact ⟨rfl, by simp [Scan.waitsFor, Scan.clear, houtfile]⟩

theorem Scan.name_steps {type : TokenType} {tokens : List Token}
    (hsteps : Scan.steps tokens scan = some next) (hcount : count type tokens = 0)
    (hwaits : scan.waitsFor type = false) : next.name type = scan.name type := by
  induction tokens generalizing scan with
  | nil =>
      cases hsteps
      rfl
  | cons t ts ih =>
      obtain ⟨middle, hstep, hrest⟩ := Option.bind_eq_some_iff.mp hsteps
      rw [count_eq_zero_iff, List.forall_mem_cons, ← count_eq_zero_iff] at hcount
      obtain ⟨hname, hwaits'⟩ := Scan.name_step hstep hcount.1 hwaits
      rw [ih hrest hcount.2 hwaits', hname]

/-- The word behind a redirection is taken as its name. -/
theorem Scan.name_redirection {type : TokenType} {w : Token} (ht : t.isRedirection = true)
    (htype : t.type = type) (hw : w.type = .word) {middle : Scan}
    (hstep : scan.step t = some middle) (hword : middle.step w = some next) :
    next.name type = some w.text ∧ next.waitsFor type = false := by
  subst htype
  unfold Scan.step at hstep hword
  simp only [hw] at hword
  rcases Token.isRedirection_iff.mp ht with htype | htype
  · simp only [htype, Option.ite_none_left_eq_some] at hstep
    cases hstep.2
    cases hword
    exact ⟨by rw [htype]; rfl, by rw [htype]; rfl⟩
  · simp only [htype, Option.ite_none_left_eq_some, not_or, Bool.not_eq_true] at hstep
    cases hstep.2
    simp only [hstep.1.1] at hword
    cases hword
    exact ⟨by rw [htype]; rfl, by rw [htype]; rfl⟩

/-- The first pass over a pipeline finds the names of its files. -/
theorem Scan.name_eq {tokens : List Token} (hwell : WellFormed tokens)
    (hsteps : Scan.steps tokens {} = some scan) {type : TokenType}
    (htype : type = .infile ∨ type = .outfile) (hcount : count type tokens ≤ 1) :
    scan.name type = fileName type tokens := by
  have hfresh : ({} : Scan).name type = none ∧ ({} : Scan).waitsFor type = false := by
    rcases htype with rfl | rfl <;> exact ⟨rfl, rfl⟩
  rcases Nat.eq_zero_or_pos (count type tokens) with hzero | hpos
  · rw [Scan.name_steps hsteps hzero hfresh.2, hfresh.1, fileName_of_count_eq_zero hzero]
  · obtain ⟨t, hmem, ht⟩ := count_pos_iff.mp hpos
    have hredirection : t.isRedirection = true := Token.isRedirection_iff.mpr (ht ▸ htype)
    obtain ⟨a, w, b, rfl, hw⟩ := hwell.exists_word hmem hredirection
    have hcounts : count type a = 0 ∧ count type b = 0 := by
      rw [count_append, count_cons, count_cons, if_pos ht] at hcount
      omega
    rw [fileName_append hcounts.1 ht]
    rw [Scan.steps_append] at hsteps
    obtain ⟨first, _, hrest⟩ := Option.bind_eq_some_iff.mp hsteps
    obtain ⟨second, hstep, hrest⟩ := Option.bind_eq_some_iff.mp hrest
    obtain ⟨third, hword, hrest⟩ := Option.bind_eq_some_iff.mp hrest
    obtain ⟨hname, hwaits⟩ := Scan.name_redirection hredirection ht hw hstep hword
    rw [Scan.name_steps hrest hcounts.2 hwaits, hname]

/-- The first pass gets through every pipeline. -/
theorem Scan.steps_wellFormed {tokens : List Token} (hwell : WellFormed tokens) :
    ∃ scan, Scan.steps tokens {} = some scan ∧ scan.waits = false :=
  Scan.steps_line tokens {} rfl (fun c hc => ⟨hwell.nonempty c hc, hwell.named c hc⟩)
    hwell.infile_first (.inl rfl)

/-- The test behind the first pass sees a pipeline as malformed only for the block of its output
file, when the number of pipes does not fit into an `int`. -/
theorem Scan.not_rejects_iff {tokens : List Token} (hwell : WellFormed tokens)
    (hlength : tokens.length < 2 ^ 59) (hsteps : Scan.steps tokens {} = some scan)
    (hwaits : scan.waits = false) :
    ¬ scan.Rejects ↔ count .outfile tokens = 0 ∨ count .pipe tokens < 2 ^ 31 ∨
      count .pipe tokens % 2 ^ 32 = 2 ^ 32 - 1 := by
  have hreads : Reads tokens scan := reads_nil.steps hsteps
  have hpending : ¬ (scan.infileBefore = true ∨ scan.outfileBefore = true) := by
    simpa [Scan.waits] using hwaits
  have hcounts : ¬ (scan.infileCount > 1 ∨ scan.outfileCount > 1) := by
    rw [hreads.infileCount, hreads.outfileCount]
    have := hwell.infile_le
    have := hwell.outfile_le
    omega
  have hblock : scan.Rejects ↔
      scan.outfileBlock ≠ -1 ∧ toSize scan.outfileBlock ≠ scan.blockCount :=
    ⟨fun h => h.resolve_right fun h => h.elim hpending hcounts, .inl⟩
  rw [hblock]
  rcases Nat.eq_zero_or_pos (count .outfile tokens) with hzero | hpos
  · simp [hreads.noOutfile hzero, hzero]
  · obtain ⟨t, hmem, ht⟩ := count_pos_iff.mp hpos
    obtain ⟨a, b, rfl⟩ := List.append_of_mem hmem
    -- the output file is in the last command
    have hlast : count .pipe b = 0 := Nat.eq_zero_of_not_pos fun hpipe =>
      hwell.not_overlooked (.outfile a t b rfl ht hpipe)
    have hpipes : count .pipe (a ++ t :: b) = count .pipe a := by
      simp [count_cons, ht, hlast]
    rw [hreads.outfileBlock_iff hlength rfl ht hwell.outfile_le, hpipes]
    omega

/-! ## The second pass -/

def Loop.waits (loop : Loop) : Bool := loop.infileBefore || loop.outfileBefore

/-- The variables of the loop when the tokens of a stage have been read. -/
def Loop.collected (loop : Loop) (argv : List Text) (cursor : List Token) : Loop :=
  { loop with argv := argv, cursor := cursor, infileBefore := false, outfileBefore := false }

theorem Loop.collected_self (loop : Loop) (hwaits : loop.waits = false) (cursor : List Token) :
    loop.collected loop.argv cursor = { loop with cursor := cursor } := by
  obtain ⟨hinfile, houtfile⟩ := Bool.or_eq_false_iff.mp hwaits
  cases loop
  cases hinfile
  cases houtfile
  rfl

/-- The second pass ends at the end of the line or in front of a pipe. -/
theorem collect_end (scan : Scan) (loop : Loop) {rest : List Token}
    (hrest : ∀ p ∈ rest.head?, p.type = .pipe) :
    collect scan rest loop = pure (some { loop with cursor := rest }) := by
  cases rest with
  | nil => rfl
  | cons p ts =>
      unfold collect
      simp only [hrest p rfl]

theorem collect_returns (henv : Allocates env) (scan : Scan) (c : List Token)
    (hfree : ∀ t ∈ c, t.type ≠ .pipe) (hnamed : RedirectionsNamed c) {rest : List Token}
    (hrest : ∀ p ∈ rest.head?, p.type = .pipe) (past : List (Event Reply)) (loop : Loop)
    (hpending : loop.waits = true → ∃ w ∈ c.head?, w.type = .word) :
    ∃ events, Returns env past (collect scan (c ++ rest) loop) events
      (some (loop.collected (loop.argv ++ plainWordsAfter loop.waits c) rest)) := by
  induction c generalizing past loop with
  | nil =>
      have hwaits : loop.waits = false := Bool.eq_false_iff.mpr fun hwaits => by
        obtain ⟨w, hw, _⟩ := hpending hwaits
        exact absurd hw (Option.not_mem_none w)
      rw [List.nil_append, collect_end scan loop hrest, plainWordsAfter, List.append_nil,
        loop.collected_self hwaits]
      exact ⟨[], .pure env past _⟩
  | cons t c ih =>
      have hfree' : ∀ u ∈ c, u.type ≠ .pipe := fun u hu => hfree u (List.mem_cons_of_mem t hu)
      by_cases hword : t.type = .word
      · rw [plainWordsAfter_word hword, List.cons_append]
        unfold collect
        simp only [hword]
        have hflags : (loop.infileBefore || loop.outfileBefore) = loop.waits := rfl
        rw [hflags]
        by_cases hwaits : loop.waits = true
        · rw [if_pos hwaits, if_pos hwaits, List.nil_append]
          exact ih hfree' hnamed.2 past
            { loop with infileBefore := false, outfileBefore := false }
            fun hwaits' => absurd hwaits' Bool.false_ne_true
        · rw [if_neg hwaits, if_neg hwaits, ← List.append_assoc]
          obtain ⟨events, hreturns⟩ := ih hfree' hnamed.2
            (past ++ [⟨.malloc (.arg loop.argv.length) (t.text.length + 1), true⟩])
            { loop with infileBefore := false, outfileBefore := false,
                        argv := loop.argv ++ [t.text] }
            fun hwaits' => absurd hwaits' Bool.false_ne_true
          exact ⟨_, (Returns.call (henv.malloc past _ _)).bind hreturns⟩
      · have hredirection := Token.isRedirection_of_ne hword (hfree t List.mem_cons_self)
        rw [plainWordsAfter_redirection hredirection, List.cons_append]
        unfold collect
        rcases Token.isRedirection_iff.mp hredirection with htype | htype
        · simp only [htype]
          exact ih hfree' hnamed.2 past { loop with infileBefore := true }
            fun _ => hnamed.1 hredirection
        · simp only [htype]
          have hwaits : ({ loop with outfileBefore := true } : Loop).waits = true := Bool.or_true _
          obtain ⟨events, hreturns⟩ := ih hfree' hnamed.2 past { loop with outfileBefore := true }
            fun _ => hnamed.1 hredirection
          rw [hwaits] at hreturns
          exact ⟨events, hreturns⟩

/-- The second pass over one command, with a new array. -/
theorem collect_command (henv : Allocates env) (scan : Scan) {c rest : List Token}
    (hfree : ∀ t ∈ c, t.type ≠ .pipe) (hnamed : RedirectionsNamed c)
    (hrest : ∀ p ∈ rest.head?, p.type = .pipe) (past : List (Event Reply)) (loop : Loop)
    (hwaits : loop.waits = false) :
    ∃ events, Returns env past
      (collect scan (c ++ rest) { loop with argv := [], cursor := c ++ rest }) events
      (some (loop.collected (plainWords c) rest)) := by
  have hwaits' : ({ loop with argv := [], cursor := c ++ rest } : Loop).waits = false := hwaits
  obtain ⟨events, hreturns⟩ := collect_returns henv scan c hfree hnamed hrest past
    { loop with argv := [], cursor := c ++ rest } (by simp [hwaits'])
  rw [hwaits'] at hreturns
  exact ⟨events, hreturns⟩

/-! ## The children of the shell -/

/-- What the child gets for the call of `fork` that makes it. -/
def forkChild : (c : Call) → Reply c → Option (Reply c)
  | .fork, .parent => some .child
  | _, _ => none

/-- The processes the shell starts on a line, each with the calls before it was forked. -/
def children (env : Env Reply) (tokenizer : Tokenizer) :
    List (List (Event Reply) × Prog Reply Unit) :=
  (exec tokenizer).alternatives forkChild env []

/-- An environment in which memory is not short and the shell gets its pipes and its children. -/
structure Hosts (env : Env Reply) : Prop extends Allocates env where
  dup : ∀ past fd, (env past (.dup fd)).isSome
  pipe : ∀ past, ∃ pipefd, env past .pipe = some (some pipefd)
  fork : ∀ past, env past .fork = some .parent
  wait : ∀ past, env past .wait = some ()
  close : ∀ past fd, env past (.close fd) = some ()

/-- The child runs the command with this index. -/
def IsStage (scan : Scan) (dupOut : Int) (command : List Token × Nat)
    (child : List (Event Reply) × Prog Reply Unit) : Prop :=
  ∃ prevPipeReadEnd pipefd,
    child.2 = stageChild scan dupOut command.2 (plainWords command.1) prevPipeReadEnd pipefd

theorem forkChild_of_ne {c : Call} (hc : c ≠ .fork) (reply : Reply c) :
    forkChild c reply = none := by
  cases c <;> first | rfl | exact absurd rfl hc

theorem forkChild_of_local {c : Call} (hlocal : c.Local) (reply : Reply c) :
    forkChild c reply = none :=
  forkChild_of_ne (by rintro rfl; exact hlocal) reply

section

variable (henv : Hosts env)

include henv

theorem closeIf_returns (past : List (Event Reply)) (condition : Prop) [Decidable condition]
    (fd : Int) : ∃ events, Returns env past (closeIf condition fd) events () := by
  unfold closeIf
  split
  · exact ⟨_, .call (henv.close past fd)⟩
  · exact ⟨[], .pure env past ()⟩

theorem command_children (past : List (Event Reply)) (scan : Scan) (dupOut : Int) :
    (command scan dupOut).alternatives forkChild env past =
      [(past ++ [⟨.fork, .child⟩], commandChild scan dupOut)] := by
  have hrest : (do
      sys .wait
      doFreeExit (entries scan.argv ++ [.null]) none scan.infileName scan.outfileName
        : Prog Reply Unit).Only fun c => ∀ reply, forkChild c reply = none :=
    .call_bind (fun _ => rfl) fun _ => doFreeExit_none_only (fun _ _ => rfl) _ _ _
  unfold command
  rw [Program.call_bind, alternatives_perform (henv.fork past), alternatives_eq_nil hrest]
  rfl

/-- One turn of the loop starts one child, with the plain words of its command. -/
theorem stages_step (past : List (Event Reply)) (scan : Scan) (wordsCount : Nat) (dupOut : Int)
    (left i : Nat) (loop : Loop) (hwaits : loop.waits = false) {c rest : List Token}
    (hcursor : skipPipe loop.cursor = pure (c ++ rest)) (hfree : ∀ t ∈ c, t.type ≠ .pipe)
    (hnamed : RedirectionsNamed c) (hrest : ∀ p ∈ rest.head?, p.type = .pipe) :
    ∃ before behind pipefd,
      (stages scan wordsCount dupOut (left + 1) i loop).alternatives forkChild env past =
        (before, stageChild scan dupOut i (plainWords c) loop.prevPipeReadEnd pipefd) ::
          (stages scan wordsCount dupOut left (i + 1)
            { loop.collected (plainWords c) rest with
              prevPipeReadEnd := pipefd.1 }).alternatives forkChild env behind := by
  obtain ⟨pipefd, hpipe⟩ := henv.pipe past
  obtain ⟨frees, _, hfrees⟩ := henv.toAllocates.returns
    (doFree_only (P := Call.Local) (fun _ => trivial) (entries loop.argv))
    (past ++ [⟨.pipe, some pipefd⟩])
  obtain ⟨copies, hcollect⟩ := collect_command henv.toAllocates scan hfree hnamed hrest
    (past ++ [⟨.pipe, some pipefd⟩] ++ frees ++ [⟨.malloc .argv ((wordsCount + 1) * 8), true⟩])
    loop hwaits
  obtain ⟨forked, hforked⟩ : ∃ forked, forked = past ++ [⟨.pipe, some pipefd⟩] ++ frees ++
    [⟨.malloc .argv ((wordsCount + 1) * 8), true⟩] ++ copies := ⟨_, rfl⟩
  obtain ⟨closes, hcloses⟩ := closeIf_returns henv (forked ++ [⟨.fork, .parent⟩]) (i > 0)
    loop.prevPipeReadEnd
  refine ⟨forked ++ [⟨.fork, .child⟩], forked ++ [⟨.fork, .parent⟩] ++ closes ++
    [⟨.close pipefd.2, ()⟩] ++ [⟨.wait, ()⟩], pipefd, ?_⟩
  rw [stages, (Returns.call hpipe).alternatives_bind (.call fun _ => rfl)]
  simp only
  rw [hfrees.alternatives_bind (doFree_only (fun _ _ => rfl) _),
    (Returns.call (henv.malloc _ _ _)).alternatives_bind (.call fun _ => rfl), if_pos rfl, hcursor,
    Program.pure_bind,
    hcollect.alternatives_bind ((collect_only scan _ _).mono fun _ h => forkChild_of_local h.1),
    ← hforked]
  simp only
  rw [Program.call_bind, alternatives_perform (henv.fork _)]
  refine congrArg (List.cons (forked ++ [⟨.fork, .child⟩], stageChild scan dupOut i (plainWords c)
    loop.prevPipeReadEnd pipefd)) ?_
  exact (hcloses.alternatives_bind (closeIf_only (fun _ => rfl) _)).trans
    (((Returns.call (henv.close _ _)).alternatives_bind (.call fun _ => rfl)).trans
      ((Returns.call (henv.wait _)).alternatives_bind (.call fun _ => rfl)))

/-- The loop starts one child for every command that is left. -/
theorem stages_children (past : List (Event Reply)) (scan : Scan) (wordsCount : Nat) (dupOut : Int)
    (i : Nat) (loop : Loop) (hwaits : loop.waits = false) {tokens : List Token}
    (hcursor : skipPipe loop.cursor = pure tokens)
    (hnamed : ∀ c ∈ commands tokens, RedirectionsNamed c) :
    List.Forall₂ (IsStage scan dupOut) ((commands tokens).zipIdx i)
      ((stages scan wordsCount dupOut (commands tokens).length i loop).alternatives forkChild env
        past) := by
  obtain ⟨c, cs, heq⟩ := List.exists_cons_of_ne_nil (commands_ne_nil tokens)
  have hmem : c ∈ commands tokens := heq ▸ List.mem_cons_self
  have hfree : ∀ t ∈ c, t.type ≠ .pipe := fun t ht => type_ne_pipe_of_mem_commands hmem ht
  induction cs generalizing tokens past i loop c with
  | nil =>
      obtain ⟨rfl, _⟩ | ⟨_, ts, _, _, hnil⟩ := commands_eq_cons heq
      · rw [← List.append_nil tokens] at hcursor
        obtain ⟨before, behind, pipefd, hstep⟩ := stages_step henv past scan wordsCount dupOut 0 i
          loop hwaits hcursor hfree (hnamed tokens hmem) nofun
        rw [heq, List.length_singleton, hstep, stages,
          alternatives_eq_nil (doFreeExit_none_only (fun _ _ => rfl) _ _ _)]
        exact .cons ⟨_, _, rfl⟩ .nil
      · exact absurd hnil (commands_ne_nil ts)
  | cons c' cs ih =>
      obtain ⟨_, hnil⟩ | ⟨p, ts, rfl, hp, hrest⟩ := commands_eq_cons heq
      · exact absurd hnil (List.cons_ne_nil _ _)
      · obtain ⟨before, behind, pipefd, hstep⟩ := stages_step henv past scan wordsCount dupOut
          (commands ts).length i loop hwaits hcursor hfree (hnamed c hmem)
          fun q hq => Option.mem_some_iff.mp hq ▸ hp
        have hmem' : c' ∈ commands ts := hrest ▸ List.mem_cons_self
        have hnamed' : ∀ d ∈ commands ts, RedirectionsNamed d := fun d hd =>
          hnamed d (heq ▸ List.mem_cons_of_mem c (hrest ▸ hd))
        have hskip : skipPipe (p :: ts) = pure ts := by
          simp only [skipPipe, hp, if_true]
        have hstages := ih behind (i + 1)
          { loop.collected (plainWords c) (p :: ts) with prevPipeReadEnd := pipefd.1 } rfl hskip
          hnamed' c' hrest hmem' fun t ht => type_ne_pipe_of_mem_commands hmem' ht
        rw [heq, ← hrest, List.length_cons, hstep]
        exact .cons ⟨_, _, rfl⟩ hstages

end

/-- The children `Exec` starts are those behind the first pass. -/
theorem exec_children (henv : Hosts env) (tokenizer : Tokenizer) (hne : tokenizer.tokens ≠ [])
    (hsteps : Scan.steps tokenizer.tokens {} = some scan) :
    ∃ dupOut past, children env tokenizer =
      (launch tokenizer.tokens dupOut scan).alternatives forkChild env past := by
  obtain ⟨dupOut, hdup⟩ := Option.isSome_iff_exists.mp (henv.dup [] stdoutFileno)
  set size := (tokenizer.tokens.length + 1) * 8 with hsize
  have hmalloc := henv.malloc ([] ++ [⟨.dup stdoutFileno, dupOut⟩]) .argv size
  obtain ⟨events, hfirst, _⟩ := firstPass_reports henv.toAllocates tokenizer.tokens
    ([] ++ [⟨.dup stdoutFileno, dupOut⟩] ++ [⟨.malloc .argv size, true⟩]) {}
  rw [hsteps] at hfirst
  refine ⟨dupOut, [] ++ [⟨.dup stdoutFileno, dupOut⟩] ++ [⟨.malloc .argv size, true⟩] ++ events, ?_⟩
  unfold children exec
  rw [if_neg (by simpa using hne), (Returns.call hdup).alternatives_bind (.call fun _ => rfl),
    (Returns.call hmalloc).alternatives_bind (.call fun _ => rfl), if_pos rfl,
    hfirst.alternatives_bind ((firstPass_only _ _).mono fun _ => forkChild_of_local)]

/-! ## The result -/

/-- A pipeline whose commands all have a word of their own. -/
structure Complete (tokens : List Token) : Prop extends WellFormed tokens where
  plainWords : ∀ c ∈ commands tokens, plainWords c ≠ []

/-- The process runs the command with these arguments and files and no other one: this holds for
its calls whatever the replies are, and it gets to its command where its calls succeed. -/
structure StageRuns (argv : List Text) (infile outfile : Option Text)
    (child : List (Event Reply) × Prog Reply Unit) : Prop where
  only : ∀ env, ∀ c ∈ (child.2.run env child.1).calls, StageCall argv infile outfile c
  runs : ∀ env, Serves env → Runs env child.1 child.2 argv infile outfile

/-- The shell reports no error and starts one process for every command, in their order. The first
one reads from the file behind `<`, and the last one writes to the file behind `>`. -/
structure Parsed (env : Env Reply) (tokenizer : Tokenizer) : Prop where
  silent : reportCall ∉ ((exec tokenizer).run env []).calls
  length : (children env tokenizer).length = count .pipe tokenizer.tokens + 1
  stages : List.Forall₂
    (fun command => StageRuns (plainWords command.1)
      (if command.2 = 0 then fileName .infile tokenizer.tokens else none)
      (if command.2 = count .pipe tokenizer.tokens then fileName .outfile tokenizer.tokens
        else none))
    (commands tokenizer.tokens).zipIdx (children env tokenizer)

theorem launch_children (henv : Hosts env) {tokens : List Token} (hwell : WellFormed tokens)
    (hsteps : Scan.steps tokens {} = some scan) (hwaits : scan.waits = false)
    (hrejects : ¬ scan.Rejects) (dupOut : Int) (past : List (Event Reply)) :
    List.Forall₂
      (fun command => StageRuns (plainWords command.1)
        (if command.2 = 0 then scan.infileName else none)
        (if command.2 = scan.blockCount then scan.outfileName else none))
      (commands tokens).zipIdx
      ((launch tokens dupOut scan).alternatives forkChild env past) := by
  have hblock : scan.blockCount = count .pipe tokens := (reads_nil.steps hsteps).blockCount
  unfold launch
  rw [if_neg hrejects]
  by_cases hzero : scan.blockCount = 0
  · have hfree : ∀ t ∈ tokens, t.type ≠ .pipe := count_eq_zero_iff.mp (hblock ▸ hzero)
    have hcommands := commands_of_forall hfree
    obtain ⟨next, hnext, hreads⟩ := ({} : Scan).steps_command tokens hfree
      (hwell.named tokens (hcommands ▸ List.mem_cons_self)) nofun (.inl rfl)
    have hargv : scan.argv = plainWords tokens := by
      rw [Option.some.inj (hsteps.symm.trans hnext), hreads.argv]
      rfl
    rw [if_pos hzero, command_children henv, hcommands]
    refine .cons ?_ .nil
    simp only [hzero, if_true, ← hargv]
    exact ⟨fun env => (commandChild_only scan dupOut).calls env _,
      fun env hserves => commandChild_runs hserves _ scan dupOut⟩
  · have hskip : skipPipe tokens = pure tokens := by
      cases tokens with
      | nil => exact absurd hblock hzero
      | cons t ts =>
          have ht : t.type ≠ .pipe := fun ht => hwell.not_overlooked (.leading t ts rfl ht)
          simp only [skipPipe, ht, if_false]
    rw [if_neg hzero, hblock, ← length_commands]
    have hstages := stages_children henv past scan tokens.length dupOut 0
      { argv := scan.argv, cursor := tokens, infileBefore := scan.infileBefore,
        outfileBefore := scan.outfileBefore, prevPipeReadEnd := -1 } hwaits hskip hwell.named
    refine hstages.imp ?_
    rintro ⟨c, i⟩ ⟨before, child⟩ ⟨prevPipeReadEnd, pipefd, rfl⟩
    rw [← hblock]
    exact ⟨fun env => (stageChild_only scan dupOut i _ _ _).calls env _,
      fun env hserves => stageChild_runs hserves _ scan dupOut i _ _ _⟩

/-- A pipeline is reported as malformed only for the number of its pipes. -/
theorem report_not_mem_iff (henv : Hosts env) (tokenizer : Tokenizer)
    (hwell : WellFormed tokenizer.tokens) :
    reportCall ∉ ((exec tokenizer).run env []).calls ↔ count .outfile tokenizer.tokens = 0 ∨
      count .pipe tokenizer.tokens < 2 ^ 31 ∨
      count .pipe tokenizer.tokens % 2 ^ 32 = 2 ^ 32 - 1 := by
  obtain ⟨scan, hsteps, hwaits⟩ := Scan.steps_wellFormed hwell
  rw [report_mem_iff henv.toAllocates henv.dup tokenizer hwell.ne_nil,
    detected_iff tokenizer.length_lt, hsteps,
    ← Scan.not_rejects_iff hwell tokenizer.length_lt hsteps hwaits, not_iff_not]
  exact ⟨fun hall => hall scan rfl, fun hrejects _ hscan => Option.some.inj hscan ▸ hrejects⟩

/-- **What is made of a pipeline.** Where the shell gets memory, pipes and processes, a pipeline is
taken apart as it is written, unless it writes to a file behind pipes whose number does not fit
into an `int` and is not `-1` as one. -/
theorem parsed_iff (henv : Hosts env) (tokenizer : Tokenizer)
    (hcomplete : Complete tokenizer.tokens) :
    Parsed env tokenizer ↔ count .outfile tokenizer.tokens = 0 ∨
      count .pipe tokenizer.tokens < 2 ^ 31 ∨
      count .pipe tokenizer.tokens % 2 ^ 32 = 2 ^ 32 - 1 := by
  have hwell := hcomplete.toWellFormed
  obtain ⟨scan, hsteps, hwaits⟩ := Scan.steps_wellFormed hwell
  rw [← report_not_mem_iff henv tokenizer hwell]
  refine ⟨Parsed.silent, fun hsilent => ?_⟩
  have hrejects : ¬ scan.Rejects := by
    rwa [Scan.not_rejects_iff hwell tokenizer.length_lt hsteps hwaits,
      ← report_not_mem_iff henv tokenizer hwell]
  have hinfile : scan.infileName = fileName .infile tokenizer.tokens :=
    Scan.name_eq hwell hsteps (.inl rfl) hwell.infile_le
  have houtfile : scan.outfileName = fileName .outfile tokenizer.tokens :=
    Scan.name_eq hwell hsteps (.inr rfl) hwell.outfile_le
  obtain ⟨dupOut, past, hchildren⟩ := exec_children henv tokenizer hwell.ne_nil hsteps
  have hstages := launch_children henv hwell hsteps hwaits hrejects dupOut past
  rw [← hchildren, hinfile, houtfile, (reads_nil.steps hsteps).blockCount] at hstages
  refine ⟨hsilent, ?_, hstages⟩
  rw [← hstages.length_eq, List.length_zipIdx, length_commands]

theorem obligingEnv_hosts : Hosts obligingEnv where
  toAllocates := obligingEnv_serves.toAllocates
  dup _ _ := rfl
  pipe _ := ⟨(3, 4), rfl⟩
  fork _ := rfl
  wait _ := rfl
  close _ _ := rfl

/-- The line `a < f b | c > g`. -/
def filePipeline : Tokenizer where
  tokens := [⟨[97], .word⟩, ⟨[60], .infile⟩, ⟨[102], .word⟩, ⟨[98], .word⟩, ⟨[124], .pipe⟩,
    ⟨[99], .word⟩, ⟨[62], .outfile⟩, ⟨[103], .word⟩]
  length_lt := by norm_num

theorem filePipeline_complete : Complete filePipeline.tokens := by
  have hcommands : commands filePipeline.tokens =
      [[⟨[97], .word⟩, ⟨[60], .infile⟩, ⟨[102], .word⟩, ⟨[98], .word⟩],
        [⟨[99], .word⟩, ⟨[62], .outfile⟩, ⟨[103], .word⟩]] := by decide
  refine ⟨⟨?_, ?_, by decide, ?_, by decide, ?_⟩, ?_⟩
  all_goals rw [hcommands]
  · decide
  · simp [RedirectionsNamed, Token.isRedirection]
  · decide
  · decide
  · decide

theorem parsed_filePipeline :
    Complete filePipeline.tokens ∧ Parsed obligingEnv filePipeline :=
  ⟨filePipeline_complete,
    (parsed_iff obligingEnv_hosts filePipeline filePipeline_complete).mpr (.inr (.inl (by decide)))⟩

/-- The line `a | a | … | a > f` with this number of pipes. -/
def longLine : Nat → List Token
  | 0 => [⟨[97], .word⟩, ⟨[62], .outfile⟩, ⟨[102], .word⟩]
  | pipes + 1 => ⟨[97], .word⟩ :: ⟨[124], .pipe⟩ :: longLine pipes

theorem length_longLine (pipes : Nat) : (longLine pipes).length = 2 * pipes + 3 := by
  induction pipes with
  | zero => rfl
  | succ pipes ih =>
      simp only [longLine, List.length_cons, ih]
      omega

theorem commands_longLine (pipes : Nat) : commands (longLine pipes) =
    List.replicate pipes [⟨[97], .word⟩] ++
      [[⟨[97], .word⟩, ⟨[62], .outfile⟩, ⟨[102], .word⟩]] := by
  induction pipes with
  | zero => decide
  | succ pipes ih =>
      have hcommands := commands_append_cons [⟨[97], .word⟩] (longLine pipes)
        (rfl : (⟨[124], .pipe⟩ : Token).type = .pipe)
      rw [ih] at hcommands
      exact hcommands

theorem count_longLine (pipes : Nat) : count .infile (longLine pipes) = 0 ∧
    count .outfile (longLine pipes) = 1 ∧ count .pipe (longLine pipes) = pipes := by
  induction pipes with
  | zero => decide
  | succ pipes ih => simpa [longLine, count_cons] using ih

theorem complete_longLine (pipes : Nat) : Complete (longLine pipes) := by
  have hcommand : ∀ c ∈ commands (longLine pipes),
      c = [⟨[97], .word⟩] ∨ c = [⟨[97], .word⟩, ⟨[62], .outfile⟩, ⟨[102], .word⟩] := by
    intro c hc
    rw [commands_longLine, List.mem_append, List.mem_singleton] at hc
    exact hc.imp_left List.eq_of_mem_replicate
  refine ⟨⟨fun c hc => ?_, fun c hc => ?_, (count_longLine pipes).1.le.trans (Nat.zero_le 1),
    fun c hc => ?_, (count_longLine pipes).2.1.le, fun c hc => ?_⟩, fun c hc => ?_⟩
  · rcases hcommand c hc with rfl | rfl <;> decide
  · rcases hcommand c hc with rfl | rfl <;> simp [RedirectionsNamed, Token.isRedirection]
  · rcases hcommand c (List.mem_of_mem_tail hc) with rfl | rfl <;> decide
  · rw [commands_longLine, List.dropLast_concat] at hc
    rw [List.eq_of_mem_replicate hc]
    decide
  · rcases hcommand c hc with rfl | rfl <;> decide

theorem report_mem_longLine {pipes : Nat} (hpipes : 2 ^ 31 ≤ pipes)
    (hseen : pipes % 2 ^ 32 ≠ 2 ^ 32 - 1) (tokenizer : Tokenizer)
    (htokens : tokenizer.tokens = longLine pipes) :
    reportCall ∈ ((exec tokenizer).run obligingEnv []).calls := by
  obtain ⟨_, houtfile, hpipe⟩ := count_longLine pipes
  have hwell : WellFormed tokenizer.tokens := htokens ▸ (complete_longLine pipes).toWellFormed
  by_contra hsilent
  rw [report_not_mem_iff obligingEnv_hosts tokenizer hwell, htokens, houtfile, hpipe] at hsilent
  omega

/-- The shortest of these lines that is refused. -/
def refusedLine : Tokenizer where
  tokens := longLine (2 ^ 31)
  length_lt := by
    rw [length_longLine]
    norm_num

/-- The block of the output file is negative as an `int`, and a pipeline is refused. -/
theorem parsed_fails_refusedLine :
    Hosts obligingEnv ∧ Complete refusedLine.tokens ∧
      reportCall ∈ ((exec refusedLine).run obligingEnv []).calls :=
  ⟨obligingEnv_hosts, complete_longLine _, report_mem_longLine le_rfl (by norm_num) refusedLine rfl⟩

end Acos.Shell.Pipe
