import Acos.Shell.Wiring

/-!
# The descriptors that `Exec` leaves behind

The process that calls `Exec`, followed to the return with its descriptor table. The forks, the
pipes and the copy of the standard output are made; any other call may succeed or fail. `Exec` makes
the copy before it looks at the tokens, and no path closes it.
-/

namespace Acos.Shell.Pipe

open Program Descriptors

/-- The replies that the calling process can get, with its descriptors before and after. -/
def callerHandles : (c : Call) → Fds → Reply c → Fds → Prop
  | .fork, fds, reply, fds' => reply = .parent ∧ fds' = fds
  | .wait, fds, _, fds' => fds' = fds
  | .execvp _, fds, _, fds' => fds' = fds
  | .nullDereference, _, _, _ => False
  | .pipe, fds, reply, fds' =>
      ∃ pipe, reply = some (openPipe pipe fds).1 ∧ fds' = (openPipe pipe fds).2
  | .dup fd, fds, reply, fds' =>
      ∃ object, fds.get fd = some object ∧ reply = fds.lowest
        ∧ fds' = fds.put fds.lowest (some object)
  | c, fds, reply, fds' => ∃ ok, effect ok c fds = some (reply, fds')

/-- `Exec` returns in the process that has called it, which had the descriptors `fds` and has
`fds'`. -/
def ExecReturns (tokenizer : Tokenizer) (fds fds' : Fds) : Prop :=
  (exec tokenizer).Runs callerHandles fds () fds'

theorem extends_openPipe {base fds : Fds} (hextends : base.Extends fds) (pipe : Nat) :
    base.Extends (openPipe pipe fds).2 :=
  fun fd object hget => get_openPipe_of_some (hextends fd object hget)

section Caller

variable {α : Type} {post : α → Fds → Prop} {fds base : Fds} {scan : Scan} {dupOut : Int}

theorem caller_close {fd : Int} {next : Unit → Prog Reply α}
    (hnext : (next ()).Ensures (afterEach callerHandles) post (fds.close fd)) :
    (Prog.perform (.close fd) next).Ensures (afterEach callerHandles) post fds := by
  rintro reply fds' ⟨ok, heffect⟩
  cases heffect
  exact hnext

theorem caller_malloc {block : Block} {size : Nat} {next : Bool → Prog Reply α}
    (hnext : ∀ ok, (next ok).Ensures (afterEach callerHandles) post fds) :
    (Prog.perform (.malloc block size) next).Ensures (afterEach callerHandles) post fds := by
  rintro reply fds' ⟨ok, heffect⟩
  cases heffect
  exact hnext _

/-- Memory management and messages. -/
theorem caller_local {p : Prog Reply α} (hp : p.Only Call.Local)
    (hpost : ∀ value, p.Yields value → post value fds) :
    p.Ensures (afterEach callerHandles) post fds := by
  refine Prog.ensures_of_yields hp ?_ hpost
  intro c Q hlocal hQ
  cases c with
  | malloc | free | print | perror =>
      rintro reply fds' ⟨ok, heffect⟩
      cases heffect
      exact hQ _
  | _ => exact hlocal.elim

/-- The parent of a single command. -/
theorem command_keeps (hextends : base.Extends fds) :
    (command scan dupOut).Ensures (afterEach callerHandles) (fun _ => base.Extends) fds := by
  rintro reply fds' ⟨rfl, rfl⟩
  rintro reply fds' rfl
  exact caller_local (doFreeExit_none_only (fun _ => trivial) _ _ _) fun _ _ => hextends

/-- Neither end of a new pipe gets a descriptor that was open. -/
theorem get_pipefd_eq_none (hextends : base.Extends fds) (pipe : Nat) :
    base.get (openPipe pipe fds).1.1 = none ∧ base.get (openPipe pipe fds).1.2 = none := by
  have hread : fds.get (openPipe pipe fds).1.1 = none := fds.get_lowest
  have hwrite : (fds.put fds.lowest (some (.readEnd pipe))).get (openPipe pipe fds).1.2 = none :=
    Table.get_lowest _
  refine ⟨hextends.get_eq_none hread, hextends.get_eq_none ?_⟩
  have hne : (openPipe pipe fds).1.2 ≠ fds.lowest := by
    intro heq
    rw [heq, Table.get_put_self fds.lowest_nonneg] at hwrite
    exact nomatch hwrite
  rwa [Table.get_put_of_ne hne] at hwrite

/-- The shell closes its ends of the pipes, none of which was open before. -/
theorem waits_keeps {i pipe : Nat} {prev : Int} {next : Prog Reply α} (hextends : base.Extends fds)
    (hprev : 0 < i → base.get prev = none)
    (hnext : ∀ fds', base.Extends fds' → next.Ensures (afterEach callerHandles) post fds') :
    (do
      closeIf (i > 0) prev
      sys (.close (openPipe pipe fds).1.2)
      sys .wait
      next).Ensures (afterEach callerHandles) post (openPipe pipe fds).2 := by
  have hopened := extends_openPipe hextends pipe
  have hrest (fds' : Fds) (hkept : base.Extends fds') : (do
      sys (.close (openPipe pipe fds).1.2)
      sys .wait
      next).Ensures (afterEach callerHandles) post fds' := by
    refine caller_close ?_
    rintro reply closed rfl
    exact hnext _ (hkept.close (get_pipefd_eq_none hextends pipe).2)
  unfold closeIf
  split
  · rename_i hi
    exact caller_close (hrest _ (hopened.close (hprev hi)))
  · exact hrest _ hopened

theorem skipPipe_keeps {cursor : List Token} {next : List Token → Prog Reply α}
    (hnext : ∀ cursor, (next cursor).Ensures (afterEach callerHandles) post fds) :
    (skipPipe cursor >>= next).Ensures (afterEach callerHandles) post fds := by
  cases cursor with
  | nil => exact fun _ _ hnever => hnever.elim
  | cons t ts => exact hnext _

theorem stages_keeps {wordsCount left i : Nat} {loop : Loop} (hextends : base.Extends fds)
    (hprev : 0 < i → base.get loop.prevPipeReadEnd = none) :
    (stages scan wordsCount dupOut left i loop).Ensures (afterEach callerHandles)
      (fun _ => base.Extends) fds := by
  induction left generalizing i loop fds with
  | zero =>
      exact caller_local (doFreeExit_none_only (fun _ => trivial) _ _ _) fun _ _ => hextends
  | succ left ih =>
      rw [stages, Program.call_bind]
      rintro reply fds' ⟨pipe, rfl, rfl⟩
      have hopened := extends_openPipe hextends pipe
      dsimp only
      rw [Prog.ensures_bind]
      refine caller_local (doFree_only (fun _ => trivial) _) fun _ _ => ?_
      rw [Program.call_bind]
      refine caller_malloc fun ok => ?_
      cases ok with
      | false =>
          refine caller_local ⟨trivial, fun _ => ?_⟩ fun _ _ => hopened
          exact (freeName_only (fun _ => trivial) _ _).bind
            fun _ => freeName_only (fun _ => trivial) _ _
      | true =>
          refine skipPipe_keeps fun cursor => ?_
          rw [Prog.ensures_bind]
          refine caller_local ((collect_only scan _ _).mono fun _ h => h.1) fun result hyields => ?_
          cases result with
          | none => exact hopened
          | some loop' =>
              rintro reply fds' ⟨rfl, rfl⟩
              refine waits_keeps hextends ?_ fun fds' hkept => ih hkept ?_
              · rw [prevPipeReadEnd_of_yields hyields]
                exact hprev
              · exact fun _ => (get_pipefd_eq_none hextends pipe).1

theorem launch_keeps {tokens : List Token} (hextends : base.Extends fds) :
    (launch tokens dupOut scan).Ensures (afterEach callerHandles) (fun _ => base.Extends) fds := by
  unfold launch
  split_ifs
  · exact caller_local (doFreeExit_only (fun _ => trivial) _ _ _ _ fun _ _ => trivial)
      fun _ _ => hextends
  · exact command_keeps hextends
  · exact stages_keeps hextends fun hlt => absurd hlt (lt_irrefl 0)

end Caller

/-- Unless the line is empty, all that was open is kept, with a second descriptor for the standard
output. -/
theorem exec_keeps_copy {tokenizer : Tokenizer} {fds fds' : Fds}
    (hreturns : ExecReturns tokenizer fds fds') (hne : tokenizer.tokens ≠ []) :
    ∃ object, fds.get stdoutFileno = some object
      ∧ (fds.put fds.lowest (some object)).Extends fds' := by
  obtain ⟨dupOut, copied, ⟨object, hget, rfl, rfl⟩, hrest⟩ :
      ∃ reply mid, callerHandles (.dup stdoutFileno) fds reply mid ∧ _ := by
    rw [ExecReturns, exec, if_neg (by simpa using hne)] at hreturns
    exact hreturns
  refine ⟨object, hget, (?_ : Prog.Ensures (afterEach callerHandles)
    (fun _ => (fds.put fds.lowest (some object)).Extends) _ _).of_runs hrest⟩
  have hcopied := Table.Extends.refl (fds.put fds.lowest (some object))
  refine caller_malloc fun ok => ?_
  cases ok with
  | false => exact caller_local ⟨trivial, fun _ => trivial⟩ fun _ _ => hcopied
  | true =>
      change (firstPass tokenizer.tokens {} >>= _).Ensures _ _ _
      rw [Prog.ensures_bind]
      refine caller_local (firstPass_only _ _) fun result _ => ?_
      cases result with
      | none => exact hcopied
      | some scan => exact launch_keeps hcopied

/-- **`Exec` leaks a descriptor on every line that is not empty.** When it returns in the process
that called it, the descriptors are those at the call if and only if there were no tokens. -/
theorem exec_fds_same_iff {tokenizer : Tokenizer} {fds fds' : Fds}
    (hreturns : ExecReturns tokenizer fds fds') :
    (∀ fd, fds'.get fd = fds.get fd) ↔ tokenizer.tokens = [] := by
  constructor
  · intro hsame
    by_contra hne
    obtain ⟨object, -, hextends⟩ := exec_keeps_copy hreturns hne
    have hopen := hextends fds.lowest object (Table.get_put_self fds.lowest_nonneg)
    rw [hsame, Table.get_lowest] at hopen
    exact nomatch hopen
  · intro hempty
    rw [ExecReturns, exec, if_pos (by rw [hempty]; rfl)] at hreturns
    obtain ⟨-, rfl⟩ := hreturns
    exact fun _ => rfl

/-- The line `a`. -/
def wordLine : Tokenizer := ⟨[⟨[97], .word⟩], by decide⟩

/-- A run of `Exec` on this line: the copy, the two allocations, the fork, the wait and the three
blocks that are freed. -/
theorem execReturns_wordLine :
    ExecReturns wordLine standardFds (standardFds.put 3 (some (.inherited 1))) :=
  ⟨_, _, ⟨.inherited 1, rfl, rfl, rfl⟩, true, _, ⟨true, rfl⟩, true, _, ⟨true, rfl⟩,
    .parent, _, ⟨rfl, rfl⟩, (), _, rfl, (), _, ⟨true, rfl⟩, (), _, ⟨true, rfl⟩, (), _, ⟨true, rfl⟩,
    rfl, rfl⟩

/-- After the line `a` the shell has a descriptor more. -/
theorem exec_leaks_copy : ∃ fds', ExecReturns wordLine standardFds fds'
    ∧ standardFds.get 3 = none ∧ fds'.get 3 = some (.inherited 1) :=
  ⟨_, execReturns_wordLine, rfl, rfl⟩

theorem exec_fds_same_iff_wordLine : ∃ fds', ExecReturns wordLine standardFds fds'
    ∧ ∃ fd, fds'.get fd ≠ standardFds.get fd := by
  refine ⟨_, execReturns_wordLine, not_forall.mp fun hsame => ?_⟩
  exact absurd ((exec_fds_same_iff execReturns_wordLine).mp hsame) (by decide)

end Acos.Shell.Pipe
