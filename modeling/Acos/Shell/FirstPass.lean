import Mathlib.Tactic.NormNum
import Acos.Shell.Pipe
import Acos.Shell.Pipeline

/-!
# The first pass

Where memory is never short, the first pass computes a function of the tokens. Its flags and
counters are facts about the tokens read so far, so that the pass fails exactly at the first token
that completes a defect, and the test behind it finds those that are complete only at the end.
-/

namespace Acos.Shell.Pipe

open Program

/-! ## The function of the first pass -/

/-- One token, without the calls it makes. There is no result at an error. -/
def Scan.step (scan : Scan) (t : Token) : Option Scan :=
  match t.type with
  | .infile =>
      if scan.infileBefore = true ∨ scan.outfileBefore = true ∨ scan.blockCount ≠ 0 then none
      else some { scan with infileCount := scan.infileCount + 1, infileBefore := true }
  | .outfile =>
      if scan.infileBefore = true ∨ scan.outfileBefore = true then none
      else some { scan with
        outfileBlock := if scan.outfileBlock = -1 then toInt scan.blockCount else scan.outfileBlock
        outfileCount := scan.outfileCount + 1
        outfileBefore := true }
  | .pipe =>
      if scan.pipeBefore = true then none
      else some { scan with pipeBefore := true, blockCount := scan.blockCount + 1 }
  | .word =>
      if scan.infileBefore then some { scan.clear with infileName := some t.text }
      else if scan.outfileBefore then some { scan.clear with outfileName := some t.text }
      else some { scan.clear with argv := scan.argv ++ [t.text] }

def Scan.steps : List Token → Scan → Option Scan
  | [], scan => some scan
  | t :: ts, scan => (scan.step t).bind (steps ts)

/-- The report of an error. -/
def reportCall : Call := .print "Syntax error\n"

/-- The program ends with the value, and reports an error if and only if there is no value. -/
def Reports (env : Env Reply) (past : List (Event Reply)) (p : Prog Reply (Option Scan))
    (result : Option Scan) : Prop :=
  ∃ events, Returns env past p events result ∧
    (reportCall ∈ events.map Sigma.fst ↔ result = none)

variable {env : Env Reply}

theorem doFreeExit_returns (henv : Allocates env) (past : List (Event Reply))
    (entries : List Block) (errMsg : Option String) (infileName outfileName : Option Text) :
    ∃ events, Returns env past (doFreeExit entries errMsg infileName outfileName) events () := by
  obtain ⟨events, _, hreturns⟩ := henv.returns (doFreeExit_only (fun _ => trivial) entries errMsg
    infileName outfileName fun _ _ => trivial) past
  exact ⟨events, hreturns⟩

theorem Scan.fail_reports (henv : Allocates env) (past : List (Event Reply)) (scan : Scan) :
    Reports env past scan.fail none := by
  obtain ⟨events, hreturns⟩ := doFreeExit_returns henv past (entries scan.argv)
    (some "Syntax error") scan.infileName scan.outfileName
  obtain ⟨_, rest, _, rfl, _⟩ := hreturns.of_perform
  exact ⟨_, hreturns.bind (.pure env _ none), by simp [reportCall]⟩

theorem freeName_returns (henv : Allocates env) (past : List (Event Reply)) (block : Block)
    (name : Option Text) : ∃ events, Returns env past (freeName block name) events () ∧
      reportCall ∉ events.map Sigma.fst := by
  unfold freeName
  split
  · exact ⟨_, .call (henv.free past block), by simp [reportCall]⟩
  · exact ⟨[], .pure env past (), by simp⟩

theorem Reports.after_freeName (henv : Allocates env) (past : List (Event Reply)) (block : Block)
    (name : Option Text) {p : Prog Reply (Option Scan)} {result : Option Scan}
    (hreports : ∀ past, Reports env past p result) :
    Reports env past (freeName block name >>= fun _ => p) result := by
  obtain ⟨events, hreturns, hreport⟩ := freeName_returns henv past block name
  obtain ⟨events', hreturns', hreport'⟩ := hreports (past ++ events)
  refine ⟨_, hreturns.bind hreturns', ?_⟩
  rw [List.map_append, List.mem_append, hreport']
  simp [hreport]

/-- A name or an argument is copied into new memory. -/
theorem malloc_reports (henv : Allocates env) (past : List (Event Reply)) (block : Block)
    (size : Nat) (next : Scan) (failed : Prog Reply (Option Scan)) :
    Reports env past (do if ← sys (.malloc block size) then return some next else failed)
      (some next) :=
  ⟨[⟨.malloc block size, true⟩], .perform (henv.malloc past block size) (.pure env _ _),
    by simp [reportCall]⟩

theorem Reports.some (env : Env Reply) (past : List (Event Reply)) (scan : Scan) :
    Reports env past (pure (some scan)) (some scan) :=
  ⟨[], .pure env past _, by simp⟩

/-- The test in front of a redirection. -/
theorem Scan.syntaxError_bind (scan : Scan) (rest : Prog Reply (Option Scan)) :
    (do
      if ← syntaxError (entries scan.argv) scan.infileName scan.outfileName scan.infileBefore
          scan.outfileBefore then
        return none
      else rest) =
      if scan.infileBefore = true ∨ scan.outfileBefore = true then scan.fail else rest := by
  unfold syntaxError
  by_cases hpending : scan.infileBefore = true ∨ scan.outfileBefore = true
  · simp only [Bool.or_eq_true, hpending, if_true, Program.bind_assoc, Program.pure_bind]
    rfl
  · simp only [Bool.or_eq_true, hpending, if_false]
    rfl

theorem Scan.infile_reports (henv : Allocates env) (past : List (Event Reply)) (scan : Scan)
    {t : Token} (ht : t.type = .infile) : Reports env past scan.infile (scan.step t) := by
  unfold Scan.infile Scan.step
  rw [scan.syntaxError_bind]
  simp only [ht]
  by_cases hpending : scan.infileBefore = true ∨ scan.outfileBefore = true
  · rw [if_pos hpending, if_pos (by tauto)]
    exact scan.fail_reports henv past
  · rw [if_neg hpending]
    by_cases hblock : scan.blockCount ≠ 0
    · rw [if_pos hblock, if_pos (by tauto)]
      exact scan.fail_reports henv past
    · rw [if_neg hblock, if_neg (by tauto)]
      exact .some env past _

theorem Scan.outfile_reports (henv : Allocates env) (past : List (Event Reply)) (scan : Scan)
    {t : Token} (ht : t.type = .outfile) : Reports env past scan.outfile (scan.step t) := by
  unfold Scan.outfile Scan.step
  rw [scan.syntaxError_bind]
  simp only [ht]
  split
  · exact scan.fail_reports henv past
  · exact .some env past _

theorem Scan.word_reports (henv : Allocates env) (past : List (Event Reply)) (scan : Scan)
    {t : Token} (ht : t.type = .word) : Reports env past (scan.word t.text) (scan.step t) := by
  unfold Scan.word Scan.step
  by_cases hinfile : scan.infileBefore = true
  · simp only [ht, hinfile, if_true]
    exact .after_freeName henv past _ _ fun past => malloc_reports henv past _ _ _ _
  · by_cases houtfile : scan.outfileBefore = true
    · simp only [ht, hinfile, houtfile, if_true]
      exact .after_freeName henv past _ _ fun past => malloc_reports henv past _ _ _ _
    · simp only [ht, hinfile, houtfile]
      exact malloc_reports henv past _ _ _ _

theorem Scan.token_reports (henv : Allocates env) (past : List (Event Reply)) (scan : Scan)
    (t : Token) : Reports env past (scan.token t) (scan.step t) := by
  unfold Scan.token
  cases ht : t.type with
  | word => exact scan.word_reports henv past ht
  | infile => exact scan.infile_reports henv past ht
  | outfile => exact scan.outfile_reports henv past ht
  | pipe =>
      simp only [Scan.pipe, Scan.step, ht]
      split
      · exact scan.fail_reports henv past
      · exact .some env past _

theorem firstPass_reports (henv : Allocates env) (tokens : List Token) (past : List (Event Reply))
    (scan : Scan) : Reports env past (firstPass tokens scan) (Scan.steps tokens scan) := by
  induction tokens generalizing past scan with
  | nil => exact .some env past scan
  | cons t ts ih =>
      obtain ⟨events, hreturns, hreport⟩ := scan.token_reports henv past t
      unfold firstPass Scan.steps
      cases hstep : scan.step t with
      | none =>
          rw [hstep] at hreturns hreport
          exact ⟨_, hreturns.bind (.pure env _ none), by simpa using hreport⟩
      | some next =>
          rw [hstep] at hreturns hreport
          obtain ⟨events', hreturns', hreport'⟩ := ih (past ++ events) next
          refine ⟨_, hreturns.bind hreturns', ?_⟩
          rw [List.map_append, List.mem_append, hreport, hreport']
          simp

/-! ## Short memory -/

theorem Scan.not_yields_fail {scan next : Scan} : ¬ scan.fail.Yields (some next) :=
  Prog.not_yields_none

/-- A copy into new memory, or the end of `Exec`. -/
theorem eq_of_yields_malloc {block : Block} {size : Nat} {scan next : Scan} {text : String}
    {frees : Prog Reply Unit}
    (hyields : (do
      if ← sys (.malloc block size) then return some scan
      sys (.perror text)
      frees
      return none : Prog Reply (Option Scan)).Yields (some next)) : scan = next := by
  obtain ⟨ok, hyields⟩ := hyields
  cases ok with
  | true => exact Option.some.inj hyields
  | false =>
      obtain ⟨_, hfrees⟩ := hyields
      exact absurd hfrees Prog.not_yields_none

/-- If the memory is short, the first pass has no result, but never another one. -/
theorem Scan.step_of_yields {scan next : Scan} {t : Token}
    (hyields : (scan.token t).Yields (some next)) : scan.step t = some next := by
  unfold Scan.token at hyields
  unfold Scan.step
  cases ht : t.type with
  | word =>
      simp only [ht, Scan.word] at hyields ⊢
      split_ifs at hyields ⊢
      · obtain ⟨_, -, hyields⟩ := Prog.yields_bind.mp hyields
        exact congrArg some (eq_of_yields_malloc hyields)
      · obtain ⟨_, -, hyields⟩ := Prog.yields_bind.mp hyields
        exact congrArg some (eq_of_yields_malloc hyields)
      · exact congrArg some (eq_of_yields_malloc hyields)
  | infile =>
      simp only [ht, Scan.infile, Scan.syntaxError_bind] at hyields ⊢
      by_cases hpending : scan.infileBefore = true ∨ scan.outfileBefore = true
      · rw [if_pos hpending] at hyields
        exact absurd hyields Scan.not_yields_fail
      · rw [if_neg hpending] at hyields
        split_ifs at hyields with hblock
        · exact absurd hyields Scan.not_yields_fail
        · rw [if_neg (by tauto)]
          exact hyields
  | outfile =>
      simp only [ht, Scan.outfile, Scan.syntaxError_bind] at hyields ⊢
      by_cases hpending : scan.infileBefore = true ∨ scan.outfileBefore = true
      · rw [if_pos hpending] at hyields
        exact absurd hyields Scan.not_yields_fail
      · rw [if_neg hpending] at hyields ⊢
        exact hyields
  | pipe =>
      simp only [ht, Scan.pipe] at hyields ⊢
      split_ifs at hyields ⊢
      · exact absurd hyields Scan.not_yields_fail
      · exact hyields

theorem steps_of_yields {tokens : List Token} {scan next : Scan}
    (hyields : (firstPass tokens scan).Yields (some next)) :
    Scan.steps tokens scan = some next := by
  induction tokens generalizing scan with
  | nil => exact hyields
  | cons t ts ih =>
      obtain ⟨result, htoken, hrest⟩ := Prog.yields_bind.mp hyields
      cases result with
      | none => exact nomatch hrest
      | some middle =>
          rw [Scan.steps, Scan.step_of_yields htoken]
          exact ih hrest

/-! ## The flags and the tokens -/

/-- What the variables say about the tokens read so far. -/
structure Reads (pre : List Token) (scan : Scan) : Prop where
  infileBefore : scan.infileBefore = true ↔ Awaits .infile pre
  outfileBefore : scan.outfileBefore = true ↔ Awaits .outfile pre
  pipeBefore : scan.pipeBefore = true ↔ EndsInPipe pre
  infileCount : scan.infileCount = count .infile pre
  outfileCount : scan.outfileCount = count .outfile pre
  blockCount : scan.blockCount = count .pipe pre
  noOutfile : count .outfile pre = 0 → scan.outfileBlock = -1
  outfileBlock : ∀ a t b, pre = a ++ t :: b → t.type = .outfile → count .outfile pre = 1 →
    scan.outfileBlock = toInt (count .pipe a)

/-- The token completes a defect. -/
def ErrorAt (pre : List Token) (t : Token) : Prop :=
  (t.isRedirection = true ∧ AwaitsWord pre) ∨ (t.type = .infile ∧ 0 < count .pipe pre) ∨
    (t.type = .pipe ∧ EndsInPipe pre)

variable {pre : List Token} {scan next : Scan} {t : Token}

theorem reads_nil : Reads [] {} where
  infileBefore := by simp [Awaits]
  outfileBefore := by simp [Awaits]
  pipeBefore := by simp [EndsInPipe]
  infileCount := rfl
  outfileCount := rfl
  blockCount := rfl
  noOutfile _ := rfl
  outfileBlock a t b hsplit := by simp at hsplit

theorem Reads.step_eq_none_iff (hreads : Reads pre scan) :
    scan.step t = none ↔ ErrorAt pre t := by
  have hpending : AwaitsWord pre ↔ scan.infileBefore = true ∨ scan.outfileBefore = true := by
    rw [AwaitsWord, hreads.infileBefore, hreads.outfileBefore]
  unfold Scan.step ErrorAt
  rw [hpending, ← hreads.blockCount, ← hreads.pipeBefore, Nat.pos_iff_ne_zero]
  cases ht : t.type with
  | word => simp only [Token.isRedirection, ht]; split_ifs <;> simp
  | pipe => simp [Token.isRedirection, ht]
  | infile | outfile =>
      simp only [Token.isRedirection, ht]
      cases scan.infileBefore <;> cases scan.outfileBefore <;> simp

/-- The block of the output file is that of the first one, and only counts if there is no other. -/
theorem Reads.outfileBlock_concat (hreads : Reads pre scan) (ht : t.type ≠ .outfile) :
    (count .outfile (pre ++ [t]) = 0 → scan.outfileBlock = -1) ∧
      ∀ a u b, pre ++ [t] = a ++ u :: b → u.type = .outfile → count .outfile (pre ++ [t]) = 1 →
        scan.outfileBlock = toInt (count .pipe a) := by
  have hcount : count .outfile (pre ++ [t]) = count .outfile pre := by
    simp [count_cons, ht]
  rw [hcount]
  refine ⟨hreads.noOutfile, fun a u b hsplit hu hone => ?_⟩
  rcases List.eq_nil_or_concat b with rfl | ⟨b', last, rfl⟩
  · have hlast := List.singleton_inj.mp (List.append_inj_right' hsplit rfl)
    exact absurd (hlast ▸ hu) ht
  · rw [List.concat_eq_append, ← List.cons_append, ← List.append_assoc] at hsplit
    exact hreads.outfileBlock a u b' (List.append_inj_left' hsplit rfl) hu hone

theorem Reads.outfileBlock_first (hreads : Reads pre scan) (ht : t.type = .outfile) (a : List Token)
    (u : Token) (b : List Token) (hsplit : pre ++ [t] = a ++ u :: b) (hu : u.type = .outfile)
    (hone : count .outfile (pre ++ [t]) = 1) :
    (if scan.outfileBlock = -1 then toInt scan.blockCount else scan.outfileBlock)
      = toInt (count .pipe a) := by
  have hzero : count .outfile pre = 0 := by simpa [count_cons, ht] using hone
  rcases List.eq_nil_or_concat b with rfl | ⟨b', last, rfl⟩
  · rw [← List.append_inj_left' hsplit rfl]
    simp [hreads.noOutfile hzero, hreads.blockCount]
  · rw [List.concat_eq_append, ← List.cons_append, ← List.append_assoc] at hsplit
    have hpre := List.append_inj_left' hsplit rfl
    exact absurd hu (count_eq_zero_iff.mp hzero u (by simp [hpre]))

/-- Each counter counts the tokens of its type. -/
theorem Scan.step_counts (hstep : scan.step t = some next) :
    next.infileCount = scan.infileCount + count .infile [t] ∧
      next.outfileCount = scan.outfileCount + count .outfile [t] ∧
      next.blockCount = scan.blockCount + count .pipe [t] := by
  unfold Scan.step at hstep
  cases ht : t.type with
  | infile | outfile | pipe =>
      rw [ht] at hstep
      simp only [Option.ite_none_left_eq_some, Option.some.injEq] at hstep
      simp [← hstep.2, count_cons, ht]
  | word =>
      rw [ht] at hstep
      simp only at hstep
      split_ifs at hstep <;> cases hstep <;> simp [Scan.clear, count_cons, ht]

theorem Reads.no_pending (hreads : Reads pre scan) (hstep : scan.step t = some next)
    (ht : t.isRedirection = true) : scan.infileBefore = false ∧ scan.outfileBefore = false := by
  have herror : ¬ ErrorAt pre t := by
    rw [← hreads.step_eq_none_iff, hstep]
    exact nofun
  have hawaits : ¬ AwaitsWord pre := fun h => herror (.inl ⟨ht, h⟩)
  rw [AwaitsWord, ← hreads.infileBefore, ← hreads.outfileBefore] at hawaits
  simpa using hawaits

/-- A redirection waits for a word, a word clears what is waiting, and a pipe waits for a block. -/
theorem Reads.step_flags (hreads : Reads pre scan) (hstep : scan.step t = some next) :
    (next.infileBefore = true ↔ Awaits .infile (pre ++ [t])) ∧
      (next.outfileBefore = true ↔ Awaits .outfile (pre ++ [t])) ∧
      (next.pipeBefore = true ↔ EndsInPipe (pre ++ [t])) := by
  have hpending := hreads.no_pending hstep
  unfold Scan.step at hstep
  cases ht : t.type with
  | infile | outfile =>
      obtain ⟨hinfile, houtfile⟩ := hpending (by simp [Token.isRedirection, ht])
      rw [ht] at hstep
      simp only [Option.ite_none_left_eq_some, Option.some.injEq] at hstep
      simp [← hstep.2, awaits_concat, endsInPipe_concat, Token.isRedirection, ht, hinfile, houtfile,
        hreads.pipeBefore]
  | pipe =>
      rw [ht] at hstep
      simp only [Option.ite_none_left_eq_some, Option.some.injEq] at hstep
      simp [← hstep.2, awaits_concat, endsInPipe_concat, Token.isRedirection, ht,
        hreads.infileBefore, hreads.outfileBefore]
  | word =>
      rw [ht] at hstep
      simp only at hstep
      split_ifs at hstep <;> cases hstep <;>
        simp [Scan.clear, awaits_concat, endsInPipe_concat, Token.isRedirection, ht]

/-- Only an output file sets the block, and only the first one does. -/
theorem Scan.step_outfileBlock (hstep : scan.step t = some next) :
    next.outfileBlock = if t.type = .outfile ∧ scan.outfileBlock = -1 then toInt scan.blockCount
      else scan.outfileBlock := by
  unfold Scan.step at hstep
  cases ht : t.type with
  | infile | outfile | pipe =>
      rw [ht] at hstep
      simp only [Option.ite_none_left_eq_some, Option.some.injEq] at hstep
      simp [← hstep.2]
  | word =>
      rw [ht] at hstep
      simp only at hstep
      split_ifs at hstep <;> cases hstep <;> simp [Scan.clear]

theorem Reads.step (hreads : Reads pre scan) (hstep : scan.step t = some next) :
    Reads (pre ++ [t]) next := by
  obtain ⟨hinfile, houtfile, hpipe⟩ := hreads.step_flags hstep
  obtain ⟨hinfiles, houtfiles, hblocks⟩ := Scan.step_counts hstep
  rw [hreads.infileCount, ← count_append] at hinfiles
  rw [hreads.outfileCount, ← count_append] at houtfiles
  rw [hreads.blockCount, ← count_append] at hblocks
  have hblock := Scan.step_outfileBlock hstep
  by_cases ht : t.type = .outfile
  · simp only [ht, true_and] at hblock
    refine ⟨hinfile, houtfile, hpipe, hinfiles, houtfiles, hblocks, fun hzero => ?_, ?_⟩
    · simp [count_cons, ht] at hzero
    · rw [hblock]
      exact hreads.outfileBlock_first ht
  · rw [if_neg fun h => ht h.1] at hblock
    obtain ⟨hnone, hsome⟩ := hreads.outfileBlock_concat ht
    rw [← hblock] at hnone hsome
    exact ⟨hinfile, houtfile, hpipe, hinfiles, houtfiles, hblocks, hnone, hsome⟩

theorem Reads.steps (hreads : Reads pre scan) {tokens : List Token}
    (hsteps : Scan.steps tokens scan = some next) : Reads (pre ++ tokens) next := by
  induction tokens generalizing pre scan with
  | nil =>
      cases hsteps
      rwa [List.append_nil]
  | cons t ts ih =>
      obtain ⟨middle, hstep, hrest⟩ := Option.bind_eq_some_iff.mp hsteps
      rw [List.append_cons]
      exact ih (hreads.step hstep) hrest

/-- The pass fails at the first token that completes a defect. -/
theorem Reads.steps_eq_none_iff (hreads : Reads pre scan) {tokens : List Token} :
    Scan.steps tokens scan = none ↔ ∃ a t b, tokens = a ++ t :: b ∧ ErrorAt (pre ++ a) t := by
  induction tokens generalizing pre scan with
  | nil => simp [Scan.steps]
  | cons t ts ih =>
      unfold Scan.steps
      rw [Option.bind_eq_none_iff]
      constructor
      · intro hnone
        cases hstep : scan.step t with
        | none => exact ⟨[], t, ts, rfl, by simpa using hreads.step_eq_none_iff.mp hstep⟩
        | some middle =>
            obtain ⟨a, u, b, rfl, herror⟩ := (ih (hreads.step hstep)).mp (hnone middle hstep)
            exact ⟨t :: a, u, b, rfl, by rwa [List.append_cons]⟩
      · rintro ⟨a, u, b, hsplit, herror⟩ middle hstep
        cases a with
        | nil =>
            obtain ⟨rfl, rfl⟩ := List.cons.inj hsplit
            rw [List.append_nil, ← hreads.step_eq_none_iff, hstep] at herror
            exact absurd herror nofun
        | cons _ a =>
            obtain ⟨rfl, rfl⟩ := List.cons.inj hsplit
            refine (ih (hreads.step hstep)).mpr ⟨a, u, b, rfl, ?_⟩
            rwa [List.append_cons] at herror

/-! ## The test behind the first pass -/

theorem toInt_eq (n : Nat) : toInt n =
    if n % 4294967296 < 2147483648 then (n : Int) % 4294967296
    else (n : Int) % 4294967296 - 4294967296 := by
  unfold toInt
  generalize hmodulus : 2 ^ 32 = modulus
  have hcast : (modulus : Int) = 4294967296 := by rw [← hmodulus]; norm_num
  rw [Int.bmod_def, hcast]
  split_ifs <;> omega

theorem toInt_eq_neg_one_iff (n : Nat) : toInt n = -1 ↔ n % 2 ^ 32 = 2 ^ 32 - 1 := by
  rw [toInt_eq]
  split_ifs <;> omega

/-- A count below `2 ^ 31` comes back from the conversion to `int`, and no other one does. -/
theorem toSize_toInt_ne_iff {n m : Nat} (hle : n ≤ m) (hlt : m < 2 ^ 59) :
    toSize (toInt n) ≠ m ↔ n ≠ m ∨ 2 ^ 31 ≤ n := by
  rw [toInt_eq]
  unfold toSize
  split_ifs <;> omega

/-- The comparison of the blocks, for a line with one output file. -/
theorem Reads.outfileBlock_iff {tokens a b : List Token} (hreads : Reads tokens scan)
    (hlength : tokens.length < 2 ^ 59) (htokens : tokens = a ++ t :: b) (ht : t.type = .outfile)
    (hcount : count .outfile tokens ≤ 1) :
    (scan.outfileBlock ≠ -1 ∧ toSize scan.outfileBlock ≠ scan.blockCount) ↔
      count .pipe a % 2 ^ 32 ≠ 2 ^ 32 - 1 ∧
        (count .pipe a ≠ count .pipe tokens ∨ 2 ^ 31 ≤ count .pipe a) := by
  have hone : count .outfile tokens = 1 := by
    refine le_antisymm hcount (count_pos_iff.mpr ⟨t, ?_, ht⟩)
    rw [htokens]
    simp
  have hle : count .pipe a ≤ count .pipe tokens := by
    rw [htokens, count_append]
    exact Nat.le_add_right _ _
  rw [hreads.outfileBlock a t b htokens ht hone, hreads.blockCount, ne_eq, toInt_eq_neg_one_iff,
    toSize_toInt_ne_iff hle ((count_le_length _ _).trans_lt hlength)]

/-- The first pass and the test behind it find exactly the defects they are made for. -/
theorem detected_iff {tokens : List Token} (hlength : tokens.length < 2 ^ 59) :
    Detected tokens ↔ ∀ scan, Scan.steps tokens {} = some scan → scan.Rejects := by
  constructor
  · intro hdetected scan hsteps
    have hreads : Reads tokens scan := reads_nil.steps hsteps
    have herror : ∀ a t b, tokens = a ++ t :: b → ¬ ErrorAt a t := by
      intro a t b htokens herror
      have hnone := reads_nil.steps_eq_none_iff.mpr ⟨a, t, b, htokens, herror⟩
      rw [hsteps] at hnone
      exact absurd hnone nofun
    cases hdetected with
    | redirection a t b htokens ht hawaits =>
        exact absurd (.inl ⟨ht, hawaits⟩) (herror a t b htokens)
    | lateInfile a t b htokens ht hpipe =>
        exact absurd (.inr (.inl ⟨ht, hpipe⟩)) (herror a t b htokens)
    | pipe a t b htokens ht hends => exact absurd (.inr (.inr ⟨ht, hends⟩)) (herror a t b htokens)
    | unnamed hawaits =>
        rw [AwaitsWord, ← hreads.infileBefore, ← hreads.outfileBefore] at hawaits
        exact .inr (.inl hawaits)
    | infiles hcount => exact .inr (.inr (.inl (hreads.infileCount ▸ hcount)))
    | outfiles hcount => exact .inr (.inr (.inr (hreads.outfileCount ▸ hcount)))
    | earlyOutfile a t b htokens ht hseen hpipe =>
        by_cases hcount : count .outfile tokens ≤ 1
        · exact .inl ((hreads.outfileBlock_iff hlength htokens ht hcount).mpr ⟨hseen, hpipe⟩)
        · exact .inr (.inr (.inr (hreads.outfileCount ▸ Nat.lt_of_not_le hcount)))
  · intro hrejects
    cases hsteps : Scan.steps tokens {} with
    | none =>
        obtain ⟨a, t, b, htokens, herror⟩ := reads_nil.steps_eq_none_iff.mp hsteps
        rcases herror with ⟨ht, hawaits⟩ | ⟨ht, hpipe⟩ | ⟨ht, hends⟩
        · exact .redirection a t b htokens ht hawaits
        · exact .lateInfile a t b htokens ht hpipe
        · exact .pipe a t b htokens ht hends
    | some scan =>
        have hreads : Reads tokens scan := reads_nil.steps hsteps
        rcases hrejects scan hsteps with hblock | hawaits | hcount | hcount
        · by_cases hle : count .outfile tokens ≤ 1
          · have hpos : 0 < count .outfile tokens :=
              Nat.pos_of_ne_zero fun hzero => hblock.1 (hreads.noOutfile hzero)
            obtain ⟨t, hmem, ht⟩ := count_pos_iff.mp hpos
            obtain ⟨a, b, htokens⟩ := List.append_of_mem hmem
            obtain ⟨hseen, hpipe⟩ := (hreads.outfileBlock_iff hlength htokens ht hle).mp hblock
            exact .earlyOutfile a t b htokens ht hseen hpipe
          · exact .outfiles (Nat.lt_of_not_le hle)
        · rw [hreads.infileBefore, hreads.outfileBefore] at hawaits
          exact .unnamed hawaits
        · exact .infiles (hreads.infileCount ▸ hcount)
        · exact .outfiles (hreads.outfileCount ▸ hcount)

end Acos.Shell.Pipe
