import Acos.Lib.Monitor

/-!
# Sleep locks

`acquiresleep`, `releasesleep` and `holdingsleep` of any number of processes on one sleep lock, whose
fields are protected by a spin lock of its own.
-/

namespace Acos.Kernel

open Transition Monitor Interleaving

/-- `struct sleeplock` without its spin lock and its name. -/
structure SleepLock where
  locked : Bool
  pid : Int

/-- Where a process is. Outside of the code it owns the lock or not, and has the answer of its last
call of `holdingsleep`. -/
inductive LockLoc where
  | away (owner : Bool) (r : Bool)
  | acquireEnter (pid : Int)
  | acquire (pid : Int)
  | acquireSleep (pid : Int)
  | acquireLeave
  | releaseEnter
  | release
  | releaseWake
  | releaseLeave
  | holdingEnter (owner : Bool)
  | holding (owner : Bool)
  | holdingLeave (owner : Bool) (r : Bool)

/-- One turn of the loop of `acquiresleep`, or what follows it. -/
def acquiresleep (pid : Int) (lk : SleepLock) : SleepLock × LockLoc :=
  if lk.locked then (lk, .acquireSleep pid) else (⟨true, pid⟩, .acquireLeave)

def lockCode : LockLoc → Op LockLoc Unit SleepLock
  | .away _ _ => .outside
  | .acquireEnter pid => .acquire (.acquire pid)
  | .acquire pid => .compute fun _ => acquiresleep pid
  | .acquireSleep pid => .sleep () (.acquire pid)
  | .acquireLeave => .release (.away true false)
  | .releaseEnter => .acquire .release
  | .release => .compute fun _ _ => (⟨false, 0⟩, .releaseWake)
  | .releaseWake => .wakeup () .releaseLeave
  | .releaseLeave => .release (.away false false)
  | .holdingEnter owner => .acquire (.holding owner)
  | .holding owner => .compute fun _ lk => (lk, .holdingLeave owner lk.locked)
  | .holdingLeave owner r => .release (.away owner r)

/-- The process owns the lock: it has set `locked` and not cleared it again. -/
def LockLoc.owns : LockLoc → Bool
  | .away owner _ | .holdingEnter owner | .holding owner | .holdingLeave owner _ => owner
  | .acquireLeave | .releaseEnter | .release => true
  | _ => false

section System

variable {P : Type}

/-- A process releases the lock that it owns, and does not acquire it again before. -/
def lockEnter (s : State P LockLoc Unit SleepLock) (t : P) : LockLoc → Bool
  | .acquireEnter _ => !(s.thread t).target.owns
  | .releaseEnter => (s.thread t).target.owns
  | .holdingEnter owner => owner == (s.thread t).target.owns
  | _ => false

/-- `initsleeplock`, and the processes that use the lock. They may be killed at any time. -/
def lockProgram : Program P LockLoc Unit SleepLock where
  code := lockCode
  start _ := .away false false
  data := ⟨false, 0⟩
  enter := lockEnter
  killable := true

def LockLoc.holds : LockLoc → Bool
  | .away _ _ | .acquireEnter _ | .releaseEnter | .holdingEnter _ => false
  | _ => true

theorem lock_locking : Locking (lockProgram (P := P)) LockLoc.holds where
  start _ := rfl
  enter {_ _ l} henter := by
    cases l <;> first | rfl | cases henter
  outside {l} hop := by
    cases l <;> first | rfl | cases hop
  acquire {l _} hop := by
    cases l <;> cases hop <;> exact ⟨rfl, rfl⟩
  release {l _} hop := by
    cases l <;> cases hop <;> exact ⟨rfl, rfl⟩
  compute {l _} hop := by
    cases l <;> cases hop
    · refine ⟨rfl, fun _ lk => ?_⟩
      dsimp only
      unfold acquiresleep
      split_ifs <;> rfl
    · exact ⟨rfl, fun _ _ => rfl⟩
    · exact ⟨rfl, fun _ _ => rfl⟩
  wakeup {l _ _} hop := by
    cases l <;> cases hop
    exact ⟨rfl, rfl⟩
  sleep {l _ _} hop := by
    cases l <;> cases hop
    exact ⟨rfl, rfl⟩

/-- Whoever sleeps waits for the end of `locked`, and the release owes a `wakeup`. -/
theorem lock_signals :
    Signals (lockProgram (P := P)) LockLoc.holds (fun _ lk => lk.locked = true)
      (fun _ l => l = .releaseWake)
      (fun l lk => ∀ pid, l = .acquireSleep pid → lk.locked = true) where
  owes howes := by
    rw [howes]
    rfl
  acquire {l _} hop d := by
    cases l <;> cases hop <;> exact nofun
  release {l _} hop _ := by
    cases l <;> cases hop <;> exact nofun
  compute {l _} hop _ lk hkill hassert := by
    cases l <;> cases hop
    · dsimp only
      unfold acquiresleep
      split_ifs with hlocked
      · exact ⟨fun _ _ => hlocked, fun _ _ => .inl hlocked⟩
      · exact ⟨nofun, fun _ _ => .inl rfl⟩
    · exact ⟨nofun, fun _ _ => .inr rfl⟩
    · exact ⟨nofun, fun _ h => .inl (h.resolve_right nofun)⟩
  wakeup {l _ _} hop d hassert := by
    cases l <;> cases hop
    exact ⟨nofun, fun _ _ => .inl rfl⟩
  sleep {l _ _} hop := by
    cases l <;> cases hop
    exact ⟨fun _ h => h _ rfl, fun _ => nofun, fun _ => nofun⟩

end System

/-! ### Who owns the lock -/

section Owners

variable {l next : LockLoc} {lk lk' : SleepLock} {killed : Bool}

/-- A step of the code sets or clears `locked` when its process becomes the owner or ceases to be. -/
theorem leads_owns (hleads : (lockCode l).Leads killed lk lk' next) :
    (next.owns = l.owns ∧ lk' = lk) ∨
      (l.owns = false ∧ next.owns = true ∧ lk.locked = false ∧ lk'.locked = true) ∨
      (l.owns = true ∧ next.owns = false ∧ lk'.locked = false) := by
  cases l with
  | away => cases hleads
  | acquireEnter | acquireSleep | acquireLeave | releaseEnter | releaseWake | releaseLeave
  | holdingEnter | holding | holdingLeave =>
      cases hleads
      exact .inl ⟨rfl, rfl⟩
  | acquire pid =>
      cases hleads
      dsimp only
      unfold acquiresleep
      split_ifs with hlocked
      · exact .inl ⟨rfl, rfl⟩
      · exact .inr (.inl ⟨rfl, rfl, Bool.eq_false_iff.mpr hlocked, rfl⟩)
  | release =>
      cases hleads
      exact .inr (.inr ⟨rfl, rfl, rfl⟩)

variable {P : Type} [Fintype P] [DecidableEq P] {s s' : State P LockLoc Unit SleepLock}

/-- The number of owners. -/
def owners (s : State P LockLoc Unit SleepLock) : Nat :=
  count LockLoc.owns fun t => (s.thread t).target

theorem owners_update {t : P} (hothers : ∀ u, u ≠ t → (s'.thread u).target = (s.thread u).target) :
    owners s' + (s.thread t).target.owns.toNat = owners s + (s'.thread t).target.owns.toNat := by
  have hupdate : (fun u => (s'.thread u).target)
      = Function.update (fun u => (s.thread u).target) t (s'.thread t).target := by
    funext u
    by_cases hu : u = t
    · subst hu
      rw [Function.update_self]
    · rw [Function.update_of_ne hu]
      exact hothers u hu
  rw [owners, hupdate]
  exact count_update LockLoc.owns _ t _

theorem owners_step {t : P} (h : owners s = s.data.locked.toNat) (hstep : Step lockCode t s s') :
    owners s' = s'.data.locked.toNat := by
  rcases hstep.leads with ⟨hdata, -, hsame⟩ | ⟨l, ht, hleads, hothers⟩
  · rw [hdata, ← h, owners, owners]
    simp only [hsame]
  · have hcount := owners_update hothers
    have htarget : (s.thread t).target = l := by rw [ht]; rfl
    rw [htarget, h] at hcount
    rcases leads_owns hleads with ⟨hown, hdata⟩ | ⟨hbefore, hafter, hfree, hset⟩ | ⟨hbefore, hafter, hset⟩
    · rw [hown] at hcount
      rw [hdata]
      exact Nat.add_right_cancel hcount
    · rw [hbefore, hafter, hfree] at hcount
      rw [hset]
      exact hcount
    · have hone : s.data.locked = true := by
        have hpos : 0 < owners s :=
          count_pos_of_mem (p := LockLoc.owns) (t := t) (by rw [htarget]; exact hbefore)
        rw [h] at hpos
        cases hlocked : s.data.locked with
        | true => rfl
        | false => simp [hlocked] at hpos
      rw [hbefore, hafter, hone] at hcount
      rw [hset]
      exact Nat.add_right_cancel hcount

theorem owners_eq (hreach : Reachable (lockProgram (P := P)).system s) :
    owners s = s.data.locked.toNat := by
  induction hreach with
  | init hinit =>
      cases hinit
      exact count_eq_zero_iff.mpr fun _ => rfl
  | @step s s' label _ hstep ih =>
      cases perform_move hstep with
      | run hrun => exact owners_step ih hrun
      | @call t l₀ l ht hop henter =>
          have hothers : ∀ u, u ≠ t →
              ((s.move t (.loc l)).thread u).target = (s.thread u).target :=
            fun u hu => by rw [State.target_move, if_neg hu]
          have hcount := owners_update hothers
          have hsame : l.owns = (s.thread t).target.owns := by
            cases l with
            | acquireEnter => simpa [lockProgram, lockEnter, LockLoc.owns] using henter
            | releaseEnter => simpa [lockProgram, lockEnter, LockLoc.owns] using henter.symm
            | holdingEnter => simpa [lockProgram, lockEnter, LockLoc.owns] using henter
            | _ => cases henter
          rw [State.target_move, if_pos rfl, At.target, hsame] at hcount
          exact (Nat.add_right_cancel hcount).trans ih
      | @kill t =>
          have hsame := funext (s.target_rouse t)
          exact (congrArg (count LockLoc.owns) hsame).trans ih

end Owners

/-- **Sleep locks.** At most one process owns the lock, however the processes interleave and whoever
is killed; `locked` says whether there is an owner, so that `holdingsleep` tells an owner the truth
but does not tell it from another process. When no process in the code can go on, whoever sleeps waits
for an owner, which is outside of the code. -/
theorem sleeplock_exclusive {P : Type} [Fintype P] [DecidableEq P]
    (s : State P LockLoc Unit SleepLock) (hreach : Reachable (lockProgram (P := P)).system s) :
    (∀ t u, (s.thread t).target.owns = true → (s.thread u).target.owns = true → t = u) ∧
    (s.data.locked = true ↔ ∃ t, (s.thread t).target.owns = true) ∧
    ((∀ u, run lockCode u s = none) → ∀ t next, s.thread t = .asleep () next →
      ∃ u r, s.thread u = .loc (.away true r)) := by
  have howners := owners_eq hreach
  have hlocked : s.data.locked = true ↔ ∃ t, (s.thread t).target.owns = true := by
    constructor
    · intro hlocked
      rw [hlocked] at howners
      exact exists_of_count_ne_zero (howners.trans_ne one_ne_zero)
    · rintro ⟨t, ht⟩
      have hpos : 0 < owners s := count_pos_of_mem (p := LockLoc.owns) (t := t) ht
      rw [howners] at hpos
      cases hfalse : s.data.locked with
      | true => rfl
      | false => simp [hfalse] at hpos
  refine ⟨fun t u ht hu => ?_, hlocked, fun hstuck t next ht => ?_⟩
  · exact eq_of_count_le_one (p := LockLoc.owns) (howners.trans_le (Bool.toNat_le _)) ht hu
  · have hall := waits_of_stuck lock_locking lock_signals hreach hstuck
    rcases hall t with ⟨l, hl, -⟩ | ⟨c, n, -, hwait⟩
    · cases ht.symm.trans hl
    · obtain ⟨u, hu⟩ := hlocked.mp hwait
      rcases hall u with ⟨l, hl, hop⟩ | ⟨c', n', hasleep, -⟩
      · rw [hl] at hu
        cases l with
        | away owner r =>
            cases hu
            exact ⟨u, r, hl⟩
        | _ => cases hop
      · -- a sleeper does not own the lock
        obtain ⟨l, hop⟩ := (Locked.reachable lock_locking hreach).sleeping u c' n' (by
          rw [hasleep]
          rfl)
        rw [hasleep] at hu
        cases l <;> cases hop
        cases hu

/-- The second process comes while the first one owns the lock. -/
def contendedRun : Run (lockProgram (P := Fin 2)).system :=
  .ofExecute lockProgram.init rfl
    ([.call 0 (.acquireEnter 5)] ++ List.replicate 3 (.run 0) ++ [.call 1 (.acquireEnter 6)]
      ++ List.replicate 5 (.run 1)) (.run 0) (by decide +kernel)

theorem sleeplock_exclusive_contended :
    (contendedRun.state contendedRun.length).thread 1 = .asleep () (.acquire 6) ∧
      ∃ u r, (contendedRun.state contendedRun.length).thread u = .loc (.away true r) := by
  refine ⟨rfl, ?_⟩
  refine (sleeplock_exclusive _ (contendedRun.reachable _ le_rfl)).2.2 (fun u => ?_) 1 _ rfl
  match u with
  | 0 => rfl
  | 1 => rfl

end Acos.Kernel
