import Acos.Shell.Stages

/-!
# Malformed lines

`Exec` is to refuse every line that is not a pipeline. It does so except for the defects it does
not look for: a pipe at the beginning or at the end of the line, and an input redirection right
before a pipe, as long as no other defect is in the line. The check of the output file goes through
an `int`, which hides an output file before the last command behind `2 ^ 32 - 1` pipes.
-/

namespace Acos.Shell.Pipe

open Program

variable {env : Env Reply}

theorem Scan.fail_only (scan : Scan) : scan.fail.Only Call.Local :=
  (doFreeExit_only (fun _ => trivial) _ _ _ _ fun _ _ => trivial).bind fun _ => trivial

theorem Scan.word_only (scan : Scan) (text : Text) : (scan.word text).Only Call.Local := by
  have hcopy : ∀ (block : Block) (next : Scan) (infileName outfileName : Option Text),
      (do
        if ← sys (.malloc block (text.length + 1)) then
          return some next
        sys (.perror "malloc failed")
        doFreeExit (entries scan.argv) none infileName outfileName
        return none : Prog Reply (Option Scan)).Only Call.Local := by
    intro block next infileName outfileName
    refine .call_bind trivial fun allocated => ?_
    cases allocated with
    | true => trivial
    | false =>
        exact .call_bind trivial fun _ =>
          (doFreeExit_only (fun _ => trivial) _ _ _ _ fun _ _ => trivial).bind fun _ => trivial
  unfold Scan.word
  split
  · exact (freeName_only (fun _ => trivial) _ _).bind fun _ => hcopy _ _ _ _
  · split
    · exact (freeName_only (fun _ => trivial) _ _).bind fun _ => hcopy _ _ _ _
    · exact hcopy _ _ _ _

theorem Scan.token_only (scan : Scan) (t : Token) : (scan.token t).Only Call.Local := by
  unfold Scan.token
  cases t.type with
  | word => exact scan.word_only t.text
  | infile =>
      change scan.infile.Only Call.Local
      unfold Scan.infile
      rw [scan.syntaxError_bind]
      split_ifs
      · exact scan.fail_only
      · exact scan.fail_only
      · trivial
  | outfile =>
      change scan.outfile.Only Call.Local
      unfold Scan.outfile
      rw [scan.syntaxError_bind]
      split
      · exact scan.fail_only
      · trivial
  | pipe =>
      change scan.pipe.Only Call.Local
      unfold Scan.pipe
      split
      · exact scan.fail_only
      · trivial

theorem firstPass_only (tokens : List Token) (scan : Scan) :
    (firstPass tokens scan).Only Call.Local := by
  induction tokens generalizing scan with
  | nil => trivial
  | cons t ts ih =>
      refine (scan.token_only t).bind fun next => ?_
      cases next with
      | none => trivial
      | some next => exact ih next

/-- The calls behind the first pass. -/
def launchCalls (env : Env Reply) (past : List (Event Reply)) (tokens : List Token) (dupOut : Int) :
    Option Scan → List Call
  | none => []
  | some scan => ((launch tokens dupOut scan).run env past).calls

/-- What `Exec` does with a line that is not empty. -/
theorem exec_calls (henv : Allocates env) (tokenizer : Tokenizer) (hne : tokenizer.tokens ≠ [])
    {dupOut : Int} (hdup : env [] (.dup stdoutFileno) = some dupOut) :
    ∃ first past, ((exec tokenizer).run env []).calls =
        first ++ launchCalls env past tokenizer.tokens dupOut (Scan.steps tokenizer.tokens {}) ∧
      (reportCall ∈ first ↔ Scan.steps tokenizer.tokens {} = none) ∧
      ∀ c ∈ first, ¬ c.Launches := by
  set size := (tokenizer.tokens.length + 1) * 8 with hsize
  have hmalloc := henv.malloc ([] ++ [⟨.dup stdoutFileno, dupOut⟩]) .argv size
  obtain ⟨events, hfirst, hreport⟩ := firstPass_reports henv tokenizer.tokens
    ([] ++ [⟨.dup stdoutFileno, dupOut⟩] ++ [⟨.malloc .argv size, true⟩]) {}
  refine ⟨.dup stdoutFileno :: .malloc .argv size :: events.map Sigma.fst,
    [] ++ [⟨.dup stdoutFileno, dupOut⟩] ++ [⟨.malloc .argv size, true⟩] ++ events, ?_, ?_, ?_⟩
  · unfold exec
    rw [if_neg (by simpa using hne), (Returns.call hdup).calls_bind,
      (Returns.call hmalloc).calls_bind, if_pos rfl, hfirst.calls_bind]
    cases Scan.steps tokenizer.tokens {} with
    | none => simp [launchCalls, Prog.run, Execution.calls, pure]
    | some scan => simp [launchCalls]
  · rw [List.mem_cons, List.mem_cons, hreport]
    simp [reportCall]
  · intro c hc
    rcases List.mem_cons.mp hc with rfl | hc
    · exact id
    · rcases List.mem_cons.mp hc with rfl | hc
      · exact id
      · rw [← hfirst.calls] at hc
        exact ((firstPass_only _ _).calls env _ c hc).not_launches

theorem Scan.Rejects.launch_eq {scan : Scan} (hrejects : scan.Rejects) (tokens : List Token)
    (dupOut : Int) : launch tokens dupOut scan =
      doFreeExit (entries scan.argv) (some "Syntax error") scan.infileName scan.outfileName :=
  if_pos hrejects

section

variable (henv : Allocates env) (hdup : ∀ past fd, (env past (.dup fd)).isSome)
  (tokenizer : Tokenizer) (hne : tokenizer.tokens ≠ [])

include henv hdup hne

theorem report_mem_iff :
    reportCall ∈ ((exec tokenizer).run env []).calls ↔ Detected tokenizer.tokens := by
  obtain ⟨dupOut, hdup⟩ := Option.isSome_iff_exists.mp (hdup [] stdoutFileno)
  obtain ⟨first, past, hcalls, hreport, _⟩ := exec_calls henv tokenizer hne hdup
  rw [hcalls, detected_iff tokenizer.length_lt, List.mem_append, hreport]
  cases hsteps : Scan.steps tokenizer.tokens {} with
  | none => exact ⟨fun _ => nofun, fun _ => .inl rfl⟩
  | some scan =>
      rw [launchCalls]
      by_cases hrejects : scan.Rejects
      · rw [hrejects.launch_eq]
        exact ⟨fun _ _ hscan => Option.some.inj hscan ▸ hrejects,
          fun _ => .inr (mem_calls_perform _)⟩
      · refine ⟨fun hmem => ?_, fun hall => absurd (hall scan rfl) hrejects⟩
        rcases hmem with hnone | hmem
        · exact absurd hnone nofun
        · exact absurd rfl ((launch_only hrejects _ dupOut).calls env past _ hmem)

/-- On an error nothing is opened and nothing is started, before the report or after it. -/
theorem not_launches_of_detected (hdetected : Detected tokenizer.tokens) :
    ∀ c ∈ ((exec tokenizer).run env []).calls, ¬ c.Launches := by
  obtain ⟨dupOut, hdup⟩ := Option.isSome_iff_exists.mp (hdup [] stdoutFileno)
  obtain ⟨first, past, hcalls, _, hquiet⟩ := exec_calls henv tokenizer hne hdup
  rw [detected_iff tokenizer.length_lt] at hdetected
  intro c hc
  rw [hcalls] at hc
  rcases List.mem_append.mp hc with hc | hc
  · exact hquiet c hc
  · cases hsteps : Scan.steps tokenizer.tokens {} with
    | none =>
        rw [hsteps] at hc
        exact absurd hc List.not_mem_nil
    | some scan =>
        have honly := doFreeExit_only (P := Call.Local) (fun _ => trivial) (entries scan.argv)
          (some "Syntax error") scan.infileName scan.outfileName fun _ _ => trivial
        rw [hsteps, launchCalls, (hdetected scan hsteps).launch_eq] at hc
        exact (honly.calls env past c hc).not_launches

end

/-- `Exec` reports a syntax error, opens no file and starts no process. -/
def Refuses (env : Env Reply) (tokenizer : Tokenizer) : Prop :=
  reportCall ∈ ((exec tokenizer).run env []).calls ∧
    ∀ c ∈ ((exec tokenizer).run env []).calls, ¬ c.Launches

theorem refuses_iff (henv : Allocates env) (hdup : ∀ past fd, (env past (.dup fd)).isSome)
    (tokenizer : Tokenizer) (hne : tokenizer.tokens ≠ []) :
    Refuses env tokenizer ↔ Detected tokenizer.tokens :=
  ⟨fun hrefuses => (report_mem_iff henv hdup tokenizer hne).mp hrefuses.1, fun hdetected =>
    ⟨(report_mem_iff henv hdup tokenizer hne).mpr hdetected,
      not_launches_of_detected henv hdup tokenizer hne hdetected⟩⟩

/-- **Malformed lines.** A line that is not a pipeline is refused, and an empty one is ignored,
exactly if the line has a defect that is looked for or none of those that are overlooked. -/
theorem malformed_refused_iff (henv : Allocates env)
    (hdup : ∀ past fd, (env past (.dup fd)).isSome) (tokenizer : Tokenizer) :
    ((tokenizer.tokens ≠ [] → ¬ WellFormed tokenizer.tokens → Refuses env tokenizer) ∧
        (tokenizer.tokens = [] → ((exec tokenizer).run env []).calls = []))
      ↔ Detected tokenizer.tokens ∨ ¬ Overlooked tokenizer.tokens := by
  by_cases hne : tokenizer.tokens = []
  · have hoverlooked : ¬ Overlooked tokenizer.tokens := by
      rw [hne]
      rintro (⟨_, _, h, _⟩ | ⟨_, _, h, _⟩ | ⟨_, _, _, _, h, _⟩ | ⟨_, _, _, h, _⟩) <;> simp at h
    have hempty : ((exec tokenizer).run env []).calls = [] := by
      unfold exec
      rw [if_pos (by rw [hne]; rfl)]
      rfl
    exact ⟨fun _ => .inr hoverlooked, fun _ => ⟨fun h => absurd hne h, fun _ => hempty⟩⟩
  · rw [refuses_iff henv hdup tokenizer hne]
    constructor
    · rintro ⟨hrefused, _⟩
      by_cases hwell : WellFormed tokenizer.tokens
      · exact .inr hwell.not_overlooked
      · exact .inl (hrefused hne hwell)
    · rintro (hdetected | hoverlooked)
      · exact ⟨fun _ _ => hdetected, fun h => absurd h hne⟩
      · refine ⟨fun _ hwell => ?_, fun h => absurd h hne⟩
        by_contra hdetected
        exact hwell (wellFormed_of_not_detected hdetected hoverlooked hne)

/-- The line `a || b`. -/
def doubledPipe : Tokenizer where
  tokens := [⟨[97], .word⟩, ⟨[124], .pipe⟩, ⟨[124], .pipe⟩, ⟨[98], .word⟩]
  length_lt := by norm_num

theorem malformed_refused_doubledPipe :
    Allocates obligingEnv ∧ Refuses obligingEnv doubledPipe := by
  have hdetected : Detected doubledPipe.tokens := by
    refine .pipe [⟨[97], .word⟩, ⟨[124], .pipe⟩] ⟨[124], .pipe⟩ [⟨[98], .word⟩] rfl rfl ?_
    exact ⟨⟨[124], .pipe⟩, by decide, rfl⟩
  refine ⟨obligingEnv_serves.toAllocates, ?_⟩
  exact ((malformed_refused_iff obligingEnv_serves.toAllocates (fun _ _ => rfl) doubledPipe).mpr
    (.inl hdetected)).1 (by decide) fun hwell => hwell.nonempty [] (by decide) rfl

/-- The line `| a`. -/
def leadingPipe : Tokenizer where
  tokens := [⟨[124], .pipe⟩, ⟨[97], .word⟩]
  length_lt := by norm_num

/-- The pipe at the beginning is not noticed, and a process is started. -/
theorem malformed_launched_leadingPipe :
    ¬ WellFormed leadingPipe.tokens ∧
      reportCall ∉ ((exec leadingPipe).run obligingEnv []).calls ∧
      Call.fork ∈ ((exec leadingPipe).run obligingEnv []).calls :=
  ⟨fun hwell => hwell.nonempty [] (by decide) rfl, by decide +kernel, by decide +kernel⟩

end Acos.Shell.Pipe
