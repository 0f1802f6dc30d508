import Mathlib.Data.Set.List
import Acos.Shell.Earlier
import Acos.Shell.SyntaxCheck

/-!
# The three shells agree

A line without a pipe is the same to the two later shells, although one of them looks for errors
before it forks and the other one behind the fork, with other tests in another order. What can be
seen of a shell is what it does besides managing memory, in the process that goes on to the command:
the messages, the files it opens and the command.
-/

namespace Acos.Shell

open Program

/-- Memory is never short, and the child of a `fork` is followed. -/
def unseen : (c : Call) → Option (Reply c)
  | .malloc _ _ => some true
  | .free _ => some ()
  | .fork => some .child
  | _ => none

/-- What can be seen of a program. -/
def visible (p : Prog Reply Unit) : Prog Reply Unit := p.erase unseen

/-- The calls that can be seen in a run with enough memory, where the child is followed. -/
theorem calls_visible (env : Env Reply) (p : Prog Reply Unit) :
    ((p.run (env.fixing unseen) []).calls.filter fun c => (unseen c).isNone)
      = ((visible p).run env []).calls :=
  calls_erase env p []

/-! ### Verdicts -/

/-- What a shell makes of a line without a pipe. -/
inductive Verdict where
  | nothing
  | syntaxError
  | command (argv : List Text) (infileName outfileName : Option Text)
deriving DecidableEq

/-- The file becomes this standard descriptor. On failure the error is reported, behind the call of
`restore` if the file could not be opened. -/
def openAs (fileno : Int) (fd : Int) (restore : Prog Reply Unit) : Prog Reply Bool := do
  if fd = -1 then
    restore
    sys (.print "I/O error\n")
    return false
  if fd ≠ fileno then
    if ← sys (.dup2 fd fileno) then
      sys (.close fd)
      return true
    sys (.close fd)
    sys (.print "I/O error\n")
    return false
  sys (.close fd)
  return true

def openOutput : Option Text → Prog Reply Bool
  | none => return true
  | some name => do openAs stdoutFileno (← sys (.openWrite name)) (pure ())

/-- If the input file cannot be opened, the error is reported on the standard output as it was. -/
def openInput (dupOut : Int) : Option Text → Prog Reply Bool
  | none => return true
  | some name => do
      openAs stdinFileno (← sys (.openRead name)) do
        let _ ← sys (.dup2 dupOut stdoutFileno)

/-- The output file is opened first, and then the input file. -/
def runCommand (argv : List Text) (infileName outfileName : Option Text) : Prog Reply Unit := do
  let dupOut ← sys (.dup stdoutFileno)
  if ← openOutput outfileName then
    if ← openInput dupOut infileName then
      sys (.execvp argv)
      sys (.print "Command not found\n")

def Verdict.program : Verdict → Prog Reply Unit
  | .nothing => pure ()
  | .syntaxError => do
      let _ ← sys (.dup stdoutFileno)
      sys (.print "Syntax error\n")
  | .command argv infileName outfileName => runCommand argv infileName outfileName

/-! ### What can be seen of the parts -/

theorem erase_doFree (entries : List Block) : (doFree entries).erase unseen = pure () :=
  erase_of_only (doFree_only (fun _ => nofun) entries)

theorem erase_doFreeExit (entries : List Block) (msg : String)
    (infileName outfileName : Option Text) :
    (doFreeExit entries (some msg) infileName outfileName).erase unseen
      = sys (.print (msg ++ "\n")) := by
  have hfrees : (doFree entries >>= fun _ => freeName .infileName infileName >>= fun _ =>
      freeName .outfileName outfileName).erase unseen = pure () :=
    erase_of_only ((doFree_only (fun _ => nofun) entries).bind fun _ =>
      (freeName_only (fun _ => nofun) _ infileName).bind fun _ =>
        freeName_only (fun _ => nofun) _ outfileName)
  exact congrArg (Prog.perform _) (funext fun _ => hfrees)

theorem call_bind_congr {c : Call} {α : Type} {f g : Reply c → Prog Reply α}
    (h : ∀ reply, f reply = g reply) : (sys c >>= f) = sys c >>= g :=
  congrArg _ (funext h)

namespace Pipe

/-- The file is moved to its standard descriptor. -/
theorem erase_moved (fd fileno : Int) (block : Block) (entries : List Block)
    (infileName outfileName : Option Text) :
    (do
      if ← sys (.dup2 fd fileno) then
        sys (.close fd)
        sys (.free block)
        return true
      sys (.close fd)
      doFreeExit entries (some "I/O error") infileName outfileName
      return false : Prog Reply Bool).erase unseen
      = (do
        if ← sys (.dup2 fd fileno) then
          sys (.close fd)
          return true
        sys (.close fd)
        sys (.print "I/O error\n")
        return false) := by
  rw [erase_call_bind rfl]
  refine call_bind_congr fun ok => ?_
  cases ok with
  | true => rfl
  | false =>
      simp only [Bool.false_eq_true, if_false]
      rw [erase_call_bind rfl]
      refine call_bind_congr fun _ => ?_
      rw [erase_bind, erase_doFreeExit]
      rfl

theorem erase_commandOutput (scan : Scan) (name : Text) :
    (commandOutput scan name).erase unseen = openOutput (some name) := by
  unfold commandOutput openOutput openAs
  rw [erase_call_bind rfl]
  refine call_bind_congr fun fd => ?_
  split_ifs with hfailed hother
  · rw [erase_bind, erase_doFreeExit]
    rfl
  · exact erase_moved fd _ _ _ _ _
  · rfl

theorem erase_commandInput (scan : Scan) (dupOut : Int) (name : Text) :
    (commandInput scan dupOut name).erase unseen = openInput dupOut (some name) := by
  unfold commandInput openInput openAs
  rw [erase_call_bind rfl]
  refine call_bind_congr fun fd => ?_
  split_ifs with hfailed hother
  · rw [erase_call_bind rfl, Program.bind_assoc]
    refine call_bind_congr fun _ => ?_
    rw [erase_bind, erase_doFreeExit]
    rfl
  · exact erase_moved fd _ _ _ _ _
  · rfl

theorem erase_commandChild (scan : Scan) :
    (sys (.dup stdoutFileno) >>= fun dupOut => (commandChild scan dupOut).erase unseen)
      = runCommand scan.argv scan.infileName scan.outfileName := by
  unfold runCommand
  refine call_bind_congr fun dupOut => ?_
  have hend : (do
      sys (.execvp scan.argv)
      sys (.print "Command not found\n")
      doFree (entries scan.argv ++ [.null]) : Prog Reply Unit).erase unseen
      = (do sys (.execvp scan.argv); sys (.print "Command not found\n")) := by
    rw [erase_call_bind rfl]
    refine call_bind_congr fun _ => ?_
    rw [erase_call_bind rfl]
    exact congrArg (Prog.perform _) (funext fun _ => erase_doFree _)
  have hinput : (redirect scan.infileName (commandInput scan dupOut)).erase unseen
      = openInput dupOut scan.infileName := by
    cases scan.infileName with
    | none => rfl
    | some name => exact erase_commandInput scan dupOut name
  have houtput : (redirect scan.outfileName (commandOutput scan)).erase unseen
      = openOutput scan.outfileName := by
    cases scan.outfileName with
    | none => rfl
    | some name => exact erase_commandOutput scan name
  unfold commandChild
  rw [erase_bind, houtput]
  refine congrArg _ (funext fun output => ?_)
  cases output with
  | false => rfl
  | true =>
      simp only [if_true]
      rw [erase_bind, hinput]
      refine congrArg _ (funext fun input => ?_)
      cases input with
      | false => rfl
      | true => exact hend

/-- The result of the first pass, or the report of an error. -/
def report : Option Scan → Prog Reply (Option Scan)
  | none => do
      sys (.print "Syntax error\n")
      return none
  | some scan => return some scan

theorem Scan.erase_fail (scan : Scan) : scan.fail.erase unseen = report none := by
  unfold Scan.fail
  rw [erase_bind, erase_doFreeExit]
  rfl

theorem erase_freeName (block : Block) (name : Option Text) (p : Prog Reply (Option Scan)) :
    (freeName block name >>= fun _ => p).erase unseen = p.erase unseen := by
  have hfree : (freeName block name).erase unseen = pure () :=
    erase_of_only (freeName_only (fun _ => nofun) block name)
  rw [erase_bind, hfree]
  rfl

theorem Scan.erase_token (scan : Scan) (t : Token) :
    (scan.token t).erase unseen = report (scan.step t) := by
  unfold Scan.token Scan.step
  cases t.type with
  | word =>
      simp only [Scan.word]
      split_ifs
      · rw [erase_freeName]
        rfl
      · rw [erase_freeName]
        rfl
      · rfl
  | infile =>
      simp only [Scan.infile]
      rw [scan.syntaxError_bind]
      by_cases hpending : scan.infileBefore = true ∨ scan.outfileBefore = true
      · rw [if_pos hpending, if_pos (by tauto), scan.erase_fail]
      · rw [if_neg hpending]
        by_cases hblock : scan.blockCount ≠ 0
        · rw [if_pos hblock, if_pos (by tauto), scan.erase_fail]
        · rw [if_neg hblock, if_neg (by tauto)]
          rfl
  | outfile =>
      simp only [Scan.outfile]
      rw [scan.syntaxError_bind]
      split
      · rw [scan.erase_fail]
      · rfl
  | pipe =>
      simp only [Scan.pipe]
      split
      · rw [scan.erase_fail]
      · rfl

theorem erase_firstPass (tokens : List Token) (scan : Scan) :
    (firstPass tokens scan).erase unseen = report (Scan.steps tokens scan) := by
  induction tokens generalizing scan with
  | nil => rfl
  | cons t ts ih =>
      unfold firstPass Scan.steps
      rw [erase_bind, scan.erase_token]
      cases scan.step t with
      | none => rfl
      | some next => exact ih next

/-- What `Exec` makes of a line without a pipe. -/
def verdict (tokens : List Token) : Verdict :=
  if tokens = [] then .nothing
  else
    match Scan.steps tokens {} with
    | none => .syntaxError
    | some scan =>
        if scan.Rejects then .syntaxError
        else .command scan.argv scan.infileName scan.outfileName

theorem erase_exec (tokenizer : Tokenizer) (hne : tokenizer.tokens ≠ []) :
    (exec tokenizer).erase unseen = sys (.dup stdoutFileno) >>= fun dupOut =>
      report (Scan.steps tokenizer.tokens {}) >>= fun result =>
        match result with
        | none => pure ()
        | some scan => (launch tokenizer.tokens dupOut scan).erase unseen := by
  unfold exec
  rw [if_neg (by simpa using hne), erase_call_bind rfl]
  refine call_bind_congr fun dupOut => ?_
  rw [erase_call_bind_fixed rfl, if_pos rfl, erase_bind, erase_firstPass]
  refine congrArg _ (funext fun result => ?_)
  cases result with
  | none => rfl
  | some scan => rfl

theorem visible_exec (tokenizer : Tokenizer) (hplain : ∀ t ∈ tokenizer.tokens, t.type ≠ .pipe) :
    visible (exec tokenizer) = (verdict tokenizer.tokens).program := by
  unfold visible verdict
  by_cases hnil : tokenizer.tokens = []
  · rw [if_pos hnil]
    unfold exec
    rw [if_pos (by rw [hnil]; rfl)]
    rfl
  rw [if_neg hnil, erase_exec tokenizer hnil]
  cases hsteps : Scan.steps tokenizer.tokens {} with
  | none => rfl
  | some scan =>
      have hblock : scan.blockCount = 0 := by
        rw [(reads_nil.steps hsteps).blockCount, count_eq_zero_iff]
        simpa using hplain
      simp only [report, Program.pure_bind, launch]
      split_ifs with hrejects
      · rw [erase_doFreeExit]
        rfl
      · exact erase_commandChild scan

end Pipe

/-! ### The shell with redirections -/

namespace Io

def TokenType.toPipe : TokenType → Shell.TokenType
  | .word => .word
  | .infile => .infile
  | .outfile => .outfile

def Token.toPipe (t : Token) : Shell.Token := ⟨t.text, t.type.toPipe⟩

def Tokenizer.toPipe (tokenizer : Tokenizer) : Shell.Tokenizer where
  tokens := tokenizer.tokens.map Token.toPipe
  length_lt := by
    rw [List.length_map]
    exact tokenizer.length_lt

/-- Every list of tokens without a pipe is one of this shell. -/
theorem exists_toPipe (tokenizer : Shell.Tokenizer)
    (hplain : ∀ t ∈ tokenizer.tokens, t.type ≠ .pipe) :
    ∃ io : Tokenizer, io.toPipe = tokenizer := by
  have hrange : tokenizer.tokens ∈ Set.range (List.map Token.toPipe) := by
    rw [Set.range_list_map]
    rintro ⟨text, type⟩ ht
    cases type with
    | word => exact ⟨⟨text, .word⟩, rfl⟩
    | infile => exact ⟨⟨text, .infile⟩, rfl⟩
    | outfile => exact ⟨⟨text, .outfile⟩, rfl⟩
    | pipe => exact absurd rfl (hplain _ ht)
  obtain ⟨tokens, htokens⟩ := hrange
  have hlength : tokens.length < 2 ^ 59 := by
    rw [← List.length_map Token.toPipe, htokens]
    exact tokenizer.length_lt
  refine ⟨⟨tokens, hlength⟩, ?_⟩
  cases tokenizer
  cases htokens
  rfl

/-- The variables of the other shell, which has seen no pipe. -/
def Scan.toPipe (scan : Scan) : Pipe.Scan where
  argv := scan.argv
  infileCount := scan.infileCount
  outfileCount := scan.outfileCount
  infileBefore := scan.infileBefore
  outfileBefore := scan.outfileBefore
  pipeBefore := false
  infileName := scan.infileName
  outfileName := scan.outfileName
  outfileBlock := if scan.outfileCount = 0 then -1 else 0
  blockCount := 0

/-- A copy into new memory, followed by the change of the variables. -/
theorem malloc_toPipe (block : Block) (size : Nat) (scan : Scan) (failed : Prog Reply Unit) :
    (do
      if ← sys (.malloc block size) then return some scan.toPipe
      sys (.perror "malloc failed")
      failed
      return none : Prog Reply (Option Pipe.Scan))
      = (do
          if ← sys (.malloc block size) then return some scan
          sys (.perror "malloc failed")
          failed
          return none) >>= fun result => pure (result.map Scan.toPipe) := by
  rw [Program.bind_assoc]
  refine call_bind_congr fun ok => ?_
  cases ok with
  | true => rfl
  | false =>
      simp only [Bool.false_eq_true, if_false]
      rw [Program.bind_assoc]
      refine call_bind_congr fun _ => ?_
      rw [Program.bind_assoc]
      rfl

theorem syntaxError_toPipe (scan next : Scan) :
    (do
      if ← syntaxError (entries scan.argv) scan.infileName scan.outfileName scan.infileBefore
          scan.outfileBefore then
        return none
      return some next.toPipe : Prog Reply (Option Pipe.Scan))
      = (do
          if ← syntaxError (entries scan.argv) scan.infileName scan.outfileName scan.infileBefore
              scan.outfileBefore then
            return none
          return some next) >>= fun result => pure (result.map Scan.toPipe) := by
  rw [Program.bind_assoc]
  refine congrArg _ (funext fun failed => ?_)
  cases failed with
  | true => rfl
  | false => rfl

/-- The two shells do the same with a token. -/
theorem Scan.token_toPipe (scan : Scan) (t : Token) :
    scan.toPipe.token t.toPipe = scan.token t >>= fun result => pure (result.map Scan.toPipe) := by
  obtain ⟨text, type⟩ := t
  cases type with
  | word =>
      change scan.toPipe.word text = scan.word text >>= _
      unfold Pipe.Scan.word Scan.word
      have hflags : scan.toPipe.infileBefore = scan.infileBefore
          ∧ scan.toPipe.outfileBefore = scan.outfileBefore := ⟨rfl, rfl⟩
      rw [hflags.1, hflags.2]
      split_ifs
      · rw [Program.bind_assoc]
        exact congrArg _ (funext fun _ =>
          malloc_toPipe .infileName _ { scan.clear with infileName := some text } _)
      · rw [Program.bind_assoc]
        exact congrArg _ (funext fun _ =>
          malloc_toPipe .outfileName _ { scan.clear with outfileName := some text } _)
      · exact malloc_toPipe (.arg scan.argv.length) _
          { scan.clear with argv := scan.argv ++ [text] } _
  | infile =>
      change scan.toPipe.infile = scan.infile >>= _
      refine Eq.trans ?_ (syntaxError_toPipe scan
        { scan with infileCount := scan.infileCount + 1, infileBefore := true })
      refine congrArg _ (funext fun failed => ?_)
      cases failed with
      | true => rfl
      | false => rfl
  | outfile =>
      change scan.toPipe.outfile = scan.outfile >>= _
      refine Eq.trans ?_ (syntaxError_toPipe scan
        { scan with outfileCount := scan.outfileCount + 1, outfileBefore := true })
      -- the block of the output file is the first one
      have hblock : (if scan.toPipe.outfileBlock = -1 then toInt scan.toPipe.blockCount
          else scan.toPipe.outfileBlock) = 0 := by
        by_cases hcount : scan.outfileCount = 0
        · have hfirst : scan.toPipe.outfileBlock = -1 := if_pos hcount
          rw [if_pos hfirst]
          exact Int.zero_bmod
        · have hfound : scan.toPipe.outfileBlock = 0 := if_neg hcount
          rw [hfound, if_neg (by decide)]
      unfold Pipe.Scan.outfile
      rw [hblock]
      rfl

theorem firstPass_toPipe (tokens : List Token) (scan : Scan) :
    Pipe.firstPass (tokens.map Token.toPipe) scan.toPipe
      = firstPass tokens scan >>= fun result => pure (result.map Scan.toPipe) := by
  induction tokens generalizing scan with
  | nil => rfl
  | cons t ts ih =>
      rw [List.map_cons, Pipe.firstPass, firstPass, scan.token_toPipe, Program.bind_assoc,
        Program.bind_assoc]
      refine congrArg _ (funext fun result => ?_)
      cases result with
      | none => rfl
      | some next => exact ih next

theorem Scan.rejects_toPipe (scan : Scan) :
    scan.toPipe.Rejects ↔ (scan.infileBefore || scan.outfileBefore) = true ∨
      (scan.infileCount > 1 ∨ scan.outfileCount > 1) := by
  have hblock : ¬ (scan.toPipe.outfileBlock ≠ -1
      ∧ toSize scan.toPipe.outfileBlock ≠ scan.toPipe.blockCount) := by
    rintro ⟨hfound, hother⟩
    unfold Scan.toPipe at hfound hother
    split_ifs at hfound hother
    · exact hfound rfl
    · exact hother rfl
  rw [Pipe.Scan.Rejects, or_iff_right hblock, Bool.or_eq_true]
  rfl

/-- Behind the pass over the tokens the tests of the two shells come to the same. -/
theorem erase_launch (tokens : List Shell.Token) (dupOut : Int) (scan : Scan) :
    (launch dupOut scan).erase unseen
      = (Pipe.launch tokens dupOut scan.toPipe).erase unseen := by
  unfold launch
  by_cases hpending : (scan.infileBefore || scan.outfileBefore) = true
  · have hrejects := scan.rejects_toPipe.mpr (.inl hpending)
    rw [if_pos hpending, hrejects.launch_eq, erase_doFreeExit, erase_doFreeExit]
  rw [if_neg hpending]
  by_cases hcounts : scan.infileCount > 1 ∨ scan.outfileCount > 1
  · have hrejects := scan.rejects_toPipe.mpr (.inr hcounts)
    rw [if_pos hcounts, hrejects.launch_eq, erase_doFreeExit, erase_doFreeExit]
  have hrejects : ¬ scan.toPipe.Rejects := fun h =>
    (scan.rejects_toPipe.mp h).elim hpending hcounts
  rw [if_neg hcounts, Pipe.launch, if_neg hrejects]
  rfl

theorem visible_exec (tokenizer : Tokenizer) :
    visible (exec tokenizer) = visible (Pipe.exec tokenizer.toPipe) := by
  have hlength : tokenizer.toPipe.tokens.length = tokenizer.tokens.length := List.length_map _
  unfold visible exec Pipe.exec
  rw [erase_call_bind_fixed rfl]
  change (child tokenizer.tokens).erase unseen = _
  unfold child
  rw [hlength]
  by_cases hzero : tokenizer.tokens.length = 0
  · rw [if_pos hzero, if_pos hzero]
  rw [if_neg hzero, if_neg hzero, erase_call_bind rfl, erase_call_bind rfl]
  refine call_bind_congr fun dupOut => ?_
  rw [erase_call_bind_fixed rfl, erase_call_bind_fixed rfl, if_pos rfl, if_pos rfl]
  have hpass : Pipe.firstPass tokenizer.toPipe.tokens {}
      = firstPass tokenizer.tokens {} >>= fun result => pure (result.map Scan.toPipe) :=
    firstPass_toPipe tokenizer.tokens {}
  rw [hpass, Program.bind_assoc, erase_bind, erase_bind]
  refine congrArg _ (funext fun result => ?_)
  cases result with
  | none => rfl
  | some scan => exact erase_launch _ dupOut scan

end Io

/-! ### The shell without redirections -/

namespace Base

theorem erase_copyWords (argv texts : List Text) :
    (copyWords argv texts).erase unseen = pure (some (argv ++ texts)) := by
  induction texts generalizing argv with
  | nil =>
      rw [List.append_nil]
      rfl
  | cons text texts ih =>
      rw [copyWords, erase_call_bind_fixed rfl, if_pos rfl, ih, List.append_assoc,
        List.singleton_append]

theorem visible_exec (tokenizer : Tokenizer) (hne : tokenizer.tokens ≠ []) :
    visible (exec tokenizer) = (do
      sys (.execvp tokenizer.tokens)
      sys (.print "Command not found\n")) := by
  unfold visible exec
  rw [erase_call_bind_fixed rfl]
  change (child tokenizer.tokens).erase unseen = _
  unfold child
  rw [if_neg (by simpa using hne), erase_call_bind_fixed rfl, if_pos rfl, erase_bind,
    erase_copyWords, List.nil_append, Program.pure_bind]
  simp only
  rw [erase_call_bind rfl]
  refine call_bind_congr fun _ => ?_
  rw [erase_call_bind rfl]
  exact congrArg (Prog.perform _) (funext fun _ => erase_doFree (entries tokenizer.tokens))

end Base

/-! ### The three shells -/

theorem Pipe.steps_words {tokens : List Token} (hwords : ∀ t ∈ tokens, t.type = .word)
    (argv : List Text) :
    Scan.steps tokens { argv := argv } = some { argv := argv ++ tokens.map Token.text } := by
  induction tokens generalizing argv with
  | nil =>
      rw [List.map_nil, List.append_nil]
      rfl
  | cons t ts ih =>
      have hstep : Scan.step { argv := argv } t = some { argv := argv ++ [t.text] } := by
        simp [Scan.step, hwords t List.mem_cons_self, Scan.clear]
      rw [Scan.steps, hstep, Option.bind_some, ih fun u hu => hwords u (List.mem_cons_of_mem t hu),
        List.append_assoc, List.map_cons, List.singleton_append]

theorem Pipe.verdict_words {tokens : List Token} (hne : tokens ≠ [])
    (hwords : ∀ t ∈ tokens, t.type = .word) :
    verdict tokens = .command (tokens.map Token.text) none none := by
  have hsteps : Scan.steps tokens {} = some { argv := tokens.map Token.text } :=
    steps_words hwords []
  rw [verdict, if_neg hne, hsteps]
  rfl

theorem Pipe.verdict_eq_nothing_iff (tokens : List Token) :
    verdict tokens = .nothing ↔ tokens = [] := by
  unfold verdict
  split_ifs with hnil
  · exact iff_of_true rfl hnil
  · refine iff_of_false ?_ hnil
    cases Scan.steps tokens {} with
    | none => exact nofun
    | some scan =>
        simp only
        split_ifs
        · exact nofun
        · exact nofun

/-- The texts of the tokens, for the shell that knows only words. -/
def Tokenizer.words (tokenizer : Tokenizer) : Base.Tokenizer where
  tokens := tokenizer.tokens.map Token.text
  length_lt := by
    rw [List.length_map]
    exact tokenizer.length_lt

/-- **The three shells agree.** For a line without a pipe the two later shells come to one verdict:
they report a syntax error, or they run one command with the same arguments and files, opened in the
same order and with the same errors. Only for the empty line they do nothing. A line of words is run
with the arguments of the first shell. -/
theorem shells_agree (tokenizer : Tokenizer) (hplain : ∀ t ∈ tokenizer.tokens, t.type ≠ .pipe) :
    ∃ io : Io.Tokenizer, io.toPipe = tokenizer ∧ ∃ verdict : Verdict,
      visible (Pipe.exec tokenizer) = verdict.program
        ∧ visible (Io.exec io) = verdict.program
        ∧ (verdict = .nothing ↔ tokenizer.tokens = [])
        ∧ (tokenizer.tokens ≠ [] → (∀ t ∈ tokenizer.tokens, t.type = .word) →
            verdict = .command (tokenizer.tokens.map Token.text) none none
              ∧ visible (Base.exec tokenizer.words) = (do
                sys (.execvp (tokenizer.tokens.map Token.text))
                sys (.print "Command not found\n"))) := by
  obtain ⟨io, hio⟩ := Io.exists_toPipe tokenizer hplain
  have hpipe := Pipe.visible_exec tokenizer hplain
  refine ⟨io, hio, Pipe.verdict tokenizer.tokens, hpipe, ?_,
    Pipe.verdict_eq_nothing_iff tokenizer.tokens, fun hne hwords => ⟨?_, ?_⟩⟩
  · rw [Io.visible_exec, hio, hpipe]
  · exact Pipe.verdict_words hne hwords
  · exact Base.visible_exec tokenizer.words (by simpa [Tokenizer.words] using hne)

/-- The line `a b`. -/
def twoWords : Tokenizer where
  tokens := [⟨[97], .word⟩, ⟨[98], .word⟩]
  length_lt := by norm_num

theorem shells_agree_twoWords :
    ∃ io : Io.Tokenizer, io.toPipe = twoWords
      ∧ visible (Pipe.exec twoWords) = (Verdict.command [[97], [98]] none none).program
      ∧ visible (Io.exec io) = (Verdict.command [[97], [98]] none none).program
      ∧ visible (Base.exec twoWords.words) = (do
        sys (.execvp [[97], [98]])
        sys (.print "Command not found\n")) := by
  obtain ⟨io, hio, verdict, hpipe, hvisible, -, hwords⟩ := shells_agree twoWords (by decide)
  obtain ⟨rfl, hbase⟩ := hwords (by decide) (by decide)
  exact ⟨io, hio, hpipe, hvisible, hbase⟩

/-- On the empty line neither shell reports an error or runs a command. -/
theorem shells_idle_on_empty :
    let line : Tokenizer := ⟨[], Nat.two_pow_pos 59⟩
    let io : Io.Tokenizer := ⟨[], Nat.two_pow_pos 59⟩
    io.toPipe = line
      ∧ (visible (Pipe.exec line) ≠ Verdict.syntaxError.program
        ∧ ∀ argv infileName outfileName,
          visible (Pipe.exec line) ≠ (Verdict.command argv infileName outfileName).program)
      ∧ visible (Io.exec io) ≠ Verdict.syntaxError.program
        ∧ ∀ argv infileName outfileName,
          visible (Io.exec io) ≠ (Verdict.command argv infileName outfileName).program :=
  ⟨rfl, ⟨Prog.pure_ne_perform, fun _ _ _ => Prog.pure_ne_perform⟩, Prog.pure_ne_perform,
    fun _ _ _ => Prog.pure_ne_perform⟩

end Acos.Shell
