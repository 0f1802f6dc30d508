import Acos.Jobserver.Processes

/-!
# Tokens

Every byte that main has preloaded, or still has to, is in one of four places: in the pipe, with
main, with a watcher that is going to write it, or with a watcher that has ended without having
written it. Each step moves one byte from one place to another. The last place is entered by one
step only, the failed fork of a user process.
-/

namespace Acos.Jobserver

open Transition Interleaving

variable {File : Type} {k capacity : Nat} {s s' : State File}

/-! ### Where the tokens are -/

/-- The watcher is alive and has not released. -/
def Watcher.holds : Watcher → Bool
  | .fork | .waitpid _ | .release => true
  | _ => false

/-- The watcher has ended without a release. -/
def Watcher.lost : Watcher → Bool
  | .exited released | .reaped released => !released
  | _ => false

def Watcher.alive : Watcher → Bool
  | .exited _ | .reaped _ => false
  | _ => true

/-- The user process of the watcher is alive. -/
def Watcher.userAlive : Watcher → Bool
  | .waitpid .forked | .waitpid .running => true
  | _ => false

/-- The tokens main still has to preload, or has taken and not given to a watcher. -/
def Main.held (k : Nat) : Main File → Nat
  | .preload count _ => k - count
  | .runWatcher _ _ | .exited => 1
  | _ => 0

structure Conserved (k : Nat) (s : State File) : Prop where
  tokens : s.pipe + s.main.held k + s.watchers.countP Watcher.holds
    + s.watchers.countP Watcher.lost = k
  preload : ∀ count files, s.main = .preload count files → count ≤ k
  returned : s.main = .returned → s.watchers.all Watcher.isReaped

/-- A step of a watcher moves at most one token between itself and the pipe, and only a failed
fork loses it. -/
theorem Watcher.next_spec {pipe pipe' : Nat} {action : WatcherAction} {old new : Watcher}
    (hnext : old.next capacity pipe action = some (new, pipe')) :
    pipe' + new.holds.toNat + new.lost.toNat = pipe + old.holds.toNat + old.lost.toNat ∧
      old.isReaped = false ∧ (new.lost = true ↔ action = .fork false) := by
  unfold Watcher.next at hnext
  split at hnext
  case h_7 =>
      split at hnext
      · cases hnext
        exact ⟨by simp [holds, lost], rfl, by simp [lost]⟩
      · exact nomatch hnext
  all_goals cases hnext
  all_goals exact ⟨by simp [holds, lost], rfl, by simp [lost]⟩

theorem watcherStep_eq_some {watcher : Nat} {action : WatcherAction}
    (hstep : watcherStep capacity watcher action s = some s') :
    ∃ old new pipe, s.watchers[watcher]? = some old ∧
      old.next capacity s.pipe action = some (new, pipe) ∧
      s' = { s with pipe := pipe, watchers := s.watchers.set watcher new } := by
  obtain ⟨old, hold, hstep⟩ := Option.bind_eq_some_iff.mp hstep
  obtain ⟨⟨new, pipe⟩, hnext, heq⟩ := Option.bind_eq_some_iff.mp hstep
  exact ⟨old, new, pipe, hold, hnext, (Option.some.inj heq).symm⟩

theorem Conserved.init (hinit : Initial s) : Conserved k s := by
  obtain ⟨files, rfl⟩ := hinit
  refine ⟨?_, ?_, nofun⟩
  · simp [Main.held]
  · rintro count files ⟨⟩
    exact Nat.zero_le k

theorem Conserved.watcherStep (hconserved : Conserved k s) {watcher : Nat}
    {action : WatcherAction} (hstep : watcherStep capacity watcher action s = some s') :
    Conserved k s' := by
  obtain ⟨old, new, pipe, hold, hnext, rfl⟩ := watcherStep_eq_some hstep
  obtain ⟨hbalance, hreaped, _⟩ := Watcher.next_spec hnext
  refine ⟨?_, hconserved.preload, fun hreturned => ?_⟩
  · have htokens := hconserved.tokens
    have hholds := countP_set Watcher.holds hold new
    have hlost := countP_set Watcher.lost hold new
    change pipe + s.main.held k + (s.watchers.set watcher new).countP Watcher.holds
      + (s.watchers.set watcher new).countP Watcher.lost = k
    omega
  · have hall := List.all_eq_true.mp (hconserved.returned hreturned) old
      (List.mem_of_getElem? hold)
    exact absurd hall (by simp [hreaped])

/-- What a step of main can do to a state. -/
inductive MainStep (k capacity : Nat) (s : State File) : State File → Prop where
  | release (count : Nat) (files : List File) (hmain : s.main = .preload count files)
      (hcount : count < k) :
      MainStep k capacity s { s with pipe := s.pipe + 1, main := .preload (count + 1) files }
  | walkDir (count : Nat) (files : List File) (hmain : s.main = .preload count files)
      (hcount : ¬ count < k) : MainStep k capacity s { s with main := .walk files }
  | acquire (file : File) (files : List File) (hmain : s.main = .walk (file :: files))
      (hpipe : s.pipe ≠ 0) :
      MainStep k capacity s { s with pipe := s.pipe - 1, main := .runWatcher file files }
  | forked (file : File) (files : List File) (hmain : s.main = .runWatcher file files) :
      MainStep k capacity s { s with
        main := .walk files, watchers := s.watchers ++ [.fork], started := s.started ++ [file] }
  | failed (file : File) (files : List File) (hmain : s.main = .runWatcher file files) :
      MainStep k capacity s { s with main := .exited }
  | endWalk (hmain : s.main = .walk []) : MainStep k capacity s { s with main := .wait }
  | wait (watcher : Nat) (released : Bool) (hmain : s.main = .wait)
      (hold : s.watchers[watcher]? = some (.exited released)) :
      MainStep k capacity s { s with watchers := s.watchers.set watcher (.reaped released) }
  | noChild (hmain : s.main = .wait) (hall : s.watchers.all Watcher.isReaped = true) :
      MainStep k capacity s { s with main := .returned }

theorem mainStep_cases {action : MainAction} (hstep : mainStep k capacity action s = some s') :
    MainStep k capacity s s' := by
  unfold mainStep at hstep
  split at hstep
  case h_1 count files hmain =>
      obtain ⟨⟨hcount, _⟩, ⟨⟩⟩ := Option.ite_none_right_eq_some.mp hstep
      exact .release count files hmain hcount
  case h_2 count files hmain =>
      obtain ⟨hcount, ⟨⟩⟩ := Option.ite_none_left_eq_some.mp hstep
      exact .walkDir count files hmain hcount
  case h_3 file files hmain =>
      obtain ⟨hpipe, ⟨⟩⟩ := Option.ite_none_left_eq_some.mp hstep
      exact .acquire file files hmain hpipe
  case h_4 file files hmain =>
      cases hstep
      exact .forked file files hmain
  case h_5 file files hmain =>
      cases hstep
      exact .failed file files hmain
  case h_6 hmain =>
      cases hstep
      exact .endWalk hmain
  case h_7 watcher hmain =>
      split at hstep
      case h_1 released hold =>
          cases hstep
          exact .wait watcher released hmain hold
      case h_2 => exact nomatch hstep
  case h_8 hmain =>
      obtain ⟨hall, ⟨⟩⟩ := Option.ite_none_right_eq_some.mp hstep
      exact .noChild hmain hall
  case h_9 => exact nomatch hstep

theorem Conserved.mainStep (hconserved : Conserved k s) (hstep : MainStep k capacity s s') :
    Conserved k s' := by
  obtain ⟨htokens, hpreload, hreturned⟩ := hconserved
  cases hstep with
  | release count files hmain hcount =>
      rw [hmain] at htokens
      refine ⟨?_, ?_, nofun⟩
      · simp only [Main.held] at htokens ⊢
        omega
      · rintro _ _ ⟨⟩
        exact hcount
  | walkDir count files hmain hcount =>
      have hle := hpreload count files hmain
      rw [hmain] at htokens
      refine ⟨?_, nofun, nofun⟩
      simp only [Main.held] at htokens ⊢
      omega
  | acquire file files hmain hpipe =>
      rw [hmain] at htokens
      refine ⟨?_, nofun, nofun⟩
      simp only [Main.held] at htokens ⊢
      omega
  | forked file files hmain =>
      rw [hmain] at htokens
      refine ⟨?_, nofun, nofun⟩
      simp only [Main.held, List.countP_append, List.countP_singleton] at htokens ⊢
      simp only [Watcher.holds, Watcher.lost, if_true, Bool.false_eq_true, if_false]
      omega
  | failed file files hmain =>
      rw [hmain] at htokens
      exact ⟨htokens, nofun, nofun⟩
  | endWalk hmain =>
      rw [hmain] at htokens
      exact ⟨htokens, nofun, nofun⟩
  | wait watcher released hmain hold =>
      have hholds := countP_set Watcher.holds hold (.reaped released)
      have hlost := countP_set Watcher.lost hold (.reaped released)
      simp only [Watcher.holds, Watcher.lost] at hholds hlost
      refine ⟨?_, hpreload, ?_⟩
      · simp only
        omega
      · rw [hmain]
        exact nofun
  | noChild hmain hall =>
      rw [hmain] at htokens
      exact ⟨htokens, nofun, fun _ => hall⟩

theorem Conserved.perform (hconserved : Conserved k s) {action : Action}
    (hstep : perform k capacity action s = some s') : Conserved k s' := by
  cases action with
  | main action => exact hconserved.mainStep (mainStep_cases hstep)
  | watcher watcher action => exact hconserved.watcherStep hstep

/-! ### Lost tokens -/

/-- The fork of a user process fails. -/
def LosesToken (action : Action) : Prop := ∃ watcher, action = .watcher watcher (.fork false)

instance : (action : Action) → Decidable (LosesToken action)
  | .watcher watcher (.fork false) => .isTrue ⟨watcher, rfl⟩
  | .watcher _ (.fork true) | .watcher _ (.execl _) | .watcher _ .finish | .watcher _ .waitpid
  | .watcher _ .release | .watcher _ .exit | .main _ => .isFalse (by simp [LosesToken])

def NoneLost (s : State File) : Prop := ∀ watcher ∈ s.watchers, watcher.lost = false

theorem NoneLost.mainStep (hnone : NoneLost s) (hstep : MainStep k capacity s s') :
    NoneLost s' := by
  cases hstep with
  | release | walkDir | acquire | failed | endWalk | noChild => exact hnone
  | forked file files hmain =>
      intro watcher hwatcher
      rcases List.mem_append.mp hwatcher with hwatcher | hwatcher
      · exact hnone watcher hwatcher
      · cases List.mem_singleton.mp hwatcher
        rfl
  | wait watcher released hmain hold =>
      intro other hother
      rcases List.mem_or_eq_of_mem_set hother with hother | rfl
      · exact hnone other hother
      · exact hnone (.exited released) (List.mem_of_getElem? hold)

theorem NoneLost.perform_iff (hnone : NoneLost s) {action : Action}
    (hstep : perform k capacity action s = some s') : NoneLost s' ↔ ¬ LosesToken action := by
  cases action with
  | main action =>
      exact iff_of_true (hnone.mainStep (mainStep_cases hstep)) (fun ⟨_, heq⟩ => nomatch heq)
  | watcher watcher action =>
      obtain ⟨old, new, pipe, hold, hnext, rfl⟩ := watcherStep_eq_some hstep
      obtain ⟨_, _, hlost⟩ := Watcher.next_spec hnext
      have hmem : new ∈ s.watchers.set watcher new :=
        List.mem_set (List.getElem?_eq_some_iff.mp hold).1 new
      constructor
      · rintro hnone' ⟨_, heq⟩
        cases heq
        exact absurd (hlost.mpr rfl) (by simp [hnone' new hmem])
      · intro hloses other hother
        rcases List.mem_or_eq_of_mem_set hother with hother | rfl
        · exact hnone other hother
        · refine Bool.eq_false_iff.mpr fun htrue => hloses ⟨watcher, ?_⟩
          rw [hlost.mp htrue]

theorem conserved_of_run (run : Run (jobserver File k capacity)) :
    ∀ i, i ≤ run.length → Conserved k (run.state i) :=
  run.invariant (fun _ => Conserved.init) fun _ _ _ hconserved => hconserved.perform

theorem noneLost_of_run (run : Run (jobserver File k capacity))
    (hlose : ∀ i, i < run.length → ¬ LosesToken (run.label i)) :
    ∀ i, i ≤ run.length → NoneLost (run.state i) := by
  refine run.induction ?_ fun i hi hnone => (hnone.perform_iff (run.steps i hi)).mpr (hlose i hi)
  obtain ⟨files, hstart⟩ := run.starts
  rw [hstart]
  exact nofun

theorem NoneLost.countP_eq_zero (hnone : NoneLost s) : s.watchers.countP Watcher.lost = 0 := by
  apply List.countP_eq_zero.mpr
  intro watcher hwatcher
  simp [hnone watcher hwatcher]

/-! ### Parallelism -/

/-- The pipe has been preloaded, and main has not given up. -/
def Main.preloaded : Main File → Bool
  | .walk _ | .runWatcher _ _ | .wait | .returned => true
  | .preload _ _ | .exited => false

/-- Main is between `acquire` and the fork of the watcher. -/
def Main.between : Main File → Bool
  | .runWatcher _ _ => true
  | _ => false

structure Bounded (k : Nat) (s : State File) : Prop where
  tokens : s.main.preloaded = true →
    s.pipe + s.main.between.toNat + s.watchers.countP Watcher.holds = k
  users : s.watchers.countP Watcher.userAlive ≤ k
  returned : s.main = .returned →
    (∀ watcher ∈ s.watchers, watcher.userAlive = false) ∧ s.pipe = k

theorem Main.held_eq {main : Main File} (hpreloaded : main.preloaded = true) :
    main.held k = main.between.toNat := by
  cases main <;> first | rfl | exact nomatch hpreloaded

theorem Watcher.holds_of_userAlive {watcher : Watcher} (halive : watcher.userAlive = true) :
    watcher.holds = true := by
  cases watcher <;> simp_all [userAlive, holds]

theorem Conserved.bounded (hconserved : Conserved k s) (hnone : NoneLost s) : Bounded k s := by
  have htokens := hconserved.tokens
  rw [hnone.countP_eq_zero, Nat.add_zero] at htokens
  have husers : s.watchers.countP Watcher.userAlive ≤ s.watchers.countP Watcher.holds :=
    List.countP_mono_left fun _ _ => Watcher.holds_of_userAlive
  refine ⟨fun hpreloaded => ?_, by omega, fun hreturned => ?_⟩
  · rw [← Main.held_eq hpreloaded]
    exact htokens
  · have hreaped := List.all_eq_true.mp (hconserved.returned hreturned)
    have hholds : s.watchers.countP Watcher.holds = 0 := by
      apply List.countP_eq_zero.mpr
      intro watcher hwatcher
      have := hreaped watcher hwatcher
      cases watcher <;> simp_all [Watcher.isReaped, Watcher.holds]
    refine ⟨fun watcher hwatcher => ?_, ?_⟩
    · have := hreaped watcher hwatcher
      cases watcher <;> simp_all [Watcher.isReaped, Watcher.userAlive]
    · rw [hreturned, hholds] at htokens
      exact htokens

/-- **Parallelism.** In every run in which no user process fails to be forked, at most `k` user
processes are alive at any moment, the tokens in the pipe, with main and with the watchers are `k`,
and when main returns all user processes have ended and the pipe holds `k` tokens again. -/
theorem jobserver_bounded (run : Run (jobserver File k capacity))
    (hforks : ∀ i, i < run.length → ¬ LosesToken (run.label i)) :
    ∀ i, i ≤ run.length → Bounded k (run.state i) := fun i hi =>
  (conserved_of_run run i hi).bounded (noneLost_of_run run hforks i hi)

/-- One token and two files, the second of which cannot be executed: main waits until the first
watcher has written the token back. -/
def twoFiles : Run (jobserver Nat 1 1) :=
  .ofExecute ⟨0, .preload 0 [7, 8], [], []⟩ ⟨[7, 8], rfl⟩
    [.main .release, .main .walkDir, .main .acquire, .main (.fork true), .watcher 0 (.fork true),
      .watcher 0 (.execl true), .watcher 0 .finish, .watcher 0 .waitpid, .watcher 0 .release,
      .main .acquire, .main (.fork true), .watcher 0 .exit, .main .endWalk, .main (.wait 0),
      .watcher 1 (.fork true), .watcher 1 (.execl false), .watcher 1 .waitpid, .watcher 1 .release,
      .watcher 1 .exit, .main (.wait 1), .main .noChild] (.main .noChild) (by decide)

theorem jobserver_bounded_two_files :
    (twoFiles.state 5).main = .walk [8] ∧ perform 1 1 (.main .acquire) (twoFiles.state 5) = none ∧
      (twoFiles.state 21).main = .returned ∧ (twoFiles.state 21).started = [7, 8] ∧
      ∀ i, i ≤ 21 → Bounded 1 (twoFiles.state i) :=
  ⟨rfl, rfl, rfl, rfl, jobserver_bounded twoFiles (by decide)⟩

/-! ### Failures -/

/-- Every watcher that has ended has written its token back, the pipe is full again whenever no
watcher is alive and main holds no token, and so main is not blocked for ever. -/
structure TokensKept (k capacity : Nat) (s : State File) : Prop where
  released : ∀ released, .exited released ∈ s.watchers ∨ .reaped released ∈ s.watchers →
    released = true
  restored : s.main.preloaded = true → s.main.between = false →
    (∀ watcher ∈ s.watchers, watcher.alive = false) → s.pipe = k
  unblocked : ∀ file files, s.main = .walk (file :: files) →
    (∀ watcher ∈ s.watchers, watcher.alive = false) →
    (perform k capacity (.main .acquire) s).isSome = true

theorem TokensKept.noneLost (hkept : TokensKept k capacity s) : NoneLost s := by
  intro watcher hwatcher
  cases watcher with
  | exited released => simp [Watcher.lost, hkept.released released (.inl hwatcher)]
  | reaped released => simp [Watcher.lost, hkept.released released (.inr hwatcher)]
  | fork | waitpid | release | exit => rfl

theorem Conserved.tokensKept (hk : 1 ≤ k) (hconserved : Conserved k s) (hnone : NoneLost s) :
    TokensKept k capacity s := by
  have hrestored : s.main.preloaded = true → s.main.between = false →
      (∀ watcher ∈ s.watchers, watcher.alive = false) → s.pipe = k := by
    intro hpreloaded hbetween hdead
    have htokens := (hconserved.bounded hnone).tokens hpreloaded
    have hholds : s.watchers.countP Watcher.holds = 0 := by
      apply List.countP_eq_zero.mpr
      intro watcher hwatcher
      have := hdead watcher hwatcher
      cases watcher <;> simp_all [Watcher.alive, Watcher.holds]
    rw [hbetween, hholds] at htokens
    exact htokens
  refine ⟨?_, hrestored, ?_⟩
  · rintro released (hmem | hmem) <;> simpa [Watcher.lost] using hnone _ hmem
  · intro file files hmain hdead
    have hpipe : s.pipe = k := hrestored (by rw [hmain]; rfl) (by rw [hmain]; rfl) hdead
    have hne : s.pipe ≠ 0 := by omega
    simp [Jobserver.perform, Jobserver.mainStep, hmain, hne]

/-- **No token is lost** in a run just if the fork of a user process never fails in it; a failing
`execl` does no harm. -/
theorem tokensKept_iff (hk : 1 ≤ k) (run : Run (jobserver File k capacity)) :
    (∀ i, i ≤ run.length → TokensKept k capacity (run.state i)) ↔
      ∀ i, i < run.length → ¬ LosesToken (run.label i) := by
  constructor
  · intro hkept i hi
    exact ((hkept i hi.le).noneLost.perform_iff (run.steps i hi)).mp (hkept (i + 1) hi).noneLost
  · intro hlose i hi
    exact (conserved_of_run run i hi).tokensKept hk (noneLost_of_run run hlose i hi)

/-- All watchers end well. -/
theorem tokensKept_two_files :
    (twoFiles.state 21).watchers = [.reaped true, .reaped true] ∧
      ∀ i, i ≤ 21 → TokensKept 1 1 (twoFiles.state i) :=
  ⟨rfl, (tokensKept_iff le_rfl twoFiles).mpr (by decide)⟩

/-- One token and two files, and the fork for the first one fails: main waits for a token, and
nobody is left to write it. -/
theorem tokensKept_fails_after_fork :
    ∃ run : Run (jobserver Nat 1 1), run.length = 5 ∧ (run.state 5).main = .walk [8] ∧
      (run.state 5).watchers = [.exited false] ∧
      (∀ action, perform 1 1 action (run.state 5) = none) ∧ ¬ TokensKept 1 1 (run.state 5) := by
  let run : Run (jobserver Nat 1 1) :=
    .ofExecute ⟨0, .preload 0 [7, 8], [], []⟩ ⟨[7, 8], rfl⟩
      [.main .release, .main .walkDir, .main .acquire, .main (.fork true),
        .watcher 0 (.fork false)] (.main .noChild) (by decide)
  refine ⟨run, rfl, rfl, rfl, ?_, ?_⟩
  · intro action
    cases action with
    | main action =>
        cases action with
        | fork succeeds => cases succeeds <;> rfl
        | release | walkDir | acquire | endWalk | wait | noChild => rfl
    | watcher watcher action =>
        cases watcher with
        | zero =>
            cases action with
            | fork succeeds | execl succeeds => cases succeeds <;> rfl
            | finish | waitpid | release | exit => rfl
        | succ watcher => rfl
  · intro hkept
    exact nomatch hkept.released false (.inl (List.mem_singleton_self _))

end Acos.Jobserver
