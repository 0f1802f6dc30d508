import Acos.Lib.Interleaving

/-!
# The log of the file system

The redo log of the kernel: the operations that begin and end a file system call, the recording of a
block, the commit and the recovery after a crash. A block is what one disk access transfers, and each
access is one step, so that a crash can fall between any two of them. `log_write` looks for room
before it takes the lock of the log, which makes it two steps. Of the buffer cache the copies of
blocks and their dirty flags are kept; a clean copy may be dropped at any time.
-/

namespace Acos.Storage

open Transition

abbrev Word := BitVec 32

/-- `BSIZE` bytes, as 32-bit words. -/
abbrev Block := Fin 128 → Word

abbrev MAXOPBLOCKS : Nat := 10

abbrev LOGSIZE : Nat := MAXOPBLOCKS * 3

/-- `log.start` and `log.size`, as the super block has them, and the number of different blocks that
an operation records at most. -/
structure Layout where
  start : Word
  size : Nat
  budget : Nat

/-- The data and the flag `B_DIRTY` of a valid buffer. -/
structure Buf where
  data : Block
  dirty : Bool

/-- The disk, the buffer cache and `log.lh`, of which the first `n` block numbers are kept. -/
structure Store where
  disk : Word → Block
  cache : Word → Option Buf
  lh : List Word

namespace Store

/-- The contents that `bread` returns. -/
def bread (s : Store) (blockno : Word) : Block :=
  (s.cache blockno).elim (s.disk blockno) Buf.data

/-- `bread` leaves the block in the cache. -/
def fill (s : Store) (blockno : Word) : Store :=
  match s.cache blockno with
  | some _ => s
  | none => { s with
      cache := Function.update s.cache blockno (some ⟨s.disk blockno, false⟩) }

/-- `bwrite` of a buffer with the data. `iderw` clears the dirty flag. -/
def bwrite (s : Store) (blockno : Word) (data : Block) : Store :=
  { s with
    disk := Function.update s.disk blockno data
    cache := Function.update s.cache blockno (some ⟨data, false⟩) }

/-- A buffer that is not dirty is recycled. -/
def evict (s : Store) (blockno : Word) : Option Store :=
  match s.cache blockno with
  | some ⟨_, false⟩ => some { s with cache := Function.update s.cache blockno none }
  | _ => none

end Store

/-- The block of the log that holds the data of `lh.block[tail]`. -/
def Layout.logBlock (l : Layout) (tail : Nat) : Word := l.start + .ofNat 32 tail + 1

/-- The loop of `write_head` changes the first `n` entries of the header block. -/
def setHead (lh : List Word) (buf : Block) : Block := fun i =>
  if i = 0 then .ofNat 32 lh.length else (lh[i.val - 1]?).getD (buf i)

/-- `read_head`. A count above `LOGSIZE` would run over the end of the header in memory. -/
def readHead (buf : Block) : Option (List Word) :=
  if (buf 0).toInt ≤ LOGSIZE then
    some ((List.range (buf 0).toInt.toNat).map fun i => buf (.ofNat 128 (i + 1)))
  else none

/-- Where `commit` or `recover_from_log` is. -/
inductive Task where
  | writeLog (tail : Nat)
  | writeHead
  | readHead
  | install (tail : Nat)
  | eraseHead
  | finish

/-- The beginning of `commit`. -/
def commit (s : Store) : Task := if 0 < s.lh.length then .writeLog 0 else .finish

/-- One turn of a loop, or what stands between the loops: at most one block is written. -/
def Task.step (l : Layout) (s : Store) : Task → Option (Store × Task)
  | .writeLog tail =>
      match s.lh[tail]? with
      | some blockno => some
          ((s.fill blockno).bwrite (l.logBlock tail) (s.bread blockno), .writeLog (tail + 1))
      | none => some (s, .writeHead)
  | .writeHead => some (s.bwrite l.start (setHead s.lh (s.bread l.start)), .install 0)
  | .readHead =>
      (Storage.readHead (s.bread l.start)).map fun lh =>
        ({ s.fill l.start with lh := lh }, .install 0)
  | .install tail =>
      match s.lh[tail]? with
      | some blockno => some
          ((s.fill (l.logBlock tail)).bwrite blockno (s.bread (l.logBlock tail)),
            .install (tail + 1))
      | none => some ({ s with lh := [] }, .eraseHead)
  | .eraseHead => some (s.bwrite l.start (setHead s.lh (s.bread l.start)), .finish)
  | .finish => none

/-- The turns, with what they find. -/
inductive Task.Turn (l : Layout) (s : Store) : Task → Store → Task → Prop where
  | writeLog {tail : Nat} {blockno : Word} (hb : s.lh[tail]? = some blockno) :
      Turn l s (.writeLog tail) ((s.fill blockno).bwrite (l.logBlock tail) (s.bread blockno))
        (.writeLog (tail + 1))
  | logged {tail : Nat} (hend : s.lh[tail]? = none) : Turn l s (.writeLog tail) s .writeHead
  | writeHead :
      Turn l s .writeHead (s.bwrite l.start (setHead s.lh (s.bread l.start))) (.install 0)
  | readHead {lh : List Word} (hhead : Storage.readHead (s.bread l.start) = some lh) :
      Turn l s .readHead { s.fill l.start with lh := lh } (.install 0)
  | install {tail : Nat} {blockno : Word} (hb : s.lh[tail]? = some blockno) :
      Turn l s (.install tail)
        ((s.fill (l.logBlock tail)).bwrite blockno (s.bread (l.logBlock tail)))
        (.install (tail + 1))
  | installed {tail : Nat} (hend : s.lh[tail]? = none) :
      Turn l s (.install tail) { s with lh := [] } .eraseHead
  | eraseHead :
      Turn l s .eraseHead (s.bwrite l.start (setHead s.lh (s.bread l.start))) .finish

theorem Task.step_turn {l : Layout} {s s' : Store} {task next : Task}
    (hstep : task.step l s = some (s', next)) : task.Turn l s s' next := by
  cases task with
  | writeLog tail =>
      cases hb : s.lh[tail]? with
      | some blockno =>
          simp only [Task.step, hb] at hstep
          cases hstep
          exact .writeLog hb
      | none =>
          simp only [Task.step, hb] at hstep
          cases hstep
          exact .logged hb
  | writeHead =>
      cases hstep
      exact .writeHead
  | readHead =>
      obtain ⟨lh, hhead, heq⟩ := Option.map_eq_some_iff.mp hstep
      cases heq
      exact .readHead hhead
  | install tail =>
      cases hb : s.lh[tail]? with
      | some blockno =>
          simp only [Task.step, hb] at hstep
          cases hstep
          exact .install hb
      | none =>
          simp only [Task.step, hb] at hstep
          cases hstep
          exact .installed hb
  | eraseHead =>
      cases hstep
      exact .eraseHead
  | finish => cases hstep

theorem Task.exists_step {l : Layout} {s : Store} {task : Task} (hfinish : task ≠ .finish)
    (hhead : task = .readHead → ∃ lh, Storage.readHead (s.bread l.start) = some lh) :
    ∃ store next, task.step l s = some (store, next) := by
  cases task with
  | writeLog tail | install tail =>
      cases hb : s.lh[tail]? with
      | none => exact ⟨_, _, by simp only [Task.step, hb]; rfl⟩
      | some blockno => exact ⟨_, _, by simp only [Task.step, hb]; rfl⟩
  | writeHead | eraseHead => exact ⟨_, _, rfl⟩
  | readHead =>
      obtain ⟨lh, hlh⟩ := hhead rfl
      exact ⟨_, _, by rw [Task.step, hlh]; rfl⟩
  | finish => exact absurd rfl hfinish

/-- Where a process is: outside of the file system, in the loop of `begin_op`, in an operation that
has called `log_write` for these blocks, in a call of `log_write` that has found room for another
one, or in the commit of its `end_op`. -/
inductive Pc where
  | idle
  | asleep
  | woken
  | active (blocks : List Word)
  | writing (blocks : List Word) (blockno : Word) (data : Block)
  | commit (task : Task)

def Pc.isActive : Pc → Bool
  | .active _ | .writing _ _ _ => true
  | _ => false

def Pc.wake : Pc → Pc
  | .asleep => .woken
  | pc => pc

/-- While `boot` is a task, the kernel is in `initlog`. -/
structure State (P : Type) where
  store : Store
  outstanding : Nat
  committing : Bool
  proc : P → Pc
  boot : Option Task
  panicked : Bool

section System

variable {P : Type} [DecidableEq P] (l : Layout)

def State.setProc (s : State P) (p : P) (pc : Pc) : State P :=
  { s with proc := Function.update s.proc p pc }

/-- `wakeup(&log)`. -/
def State.wakeup (s : State P) : State P := { s with proc := fun p => (s.proc p).wake }

/-- The condition of the loop of `begin_op`. -/
def State.Full (s : State P) : Prop :=
  s.committing = true ∨ LOGSIZE < s.store.lh.length + (s.outstanding + 1) * MAXOPBLOCKS

instance (s : State P) : Decidable s.Full := inferInstanceAs (Decidable (_ ∨ _))

/-- One turn of the loop of `begin_op`. -/
def beginOp (p : P) (s : State P) : State P :=
  if s.Full then s.setProc p .asleep
  else { s.setProc p (.active []) with outstanding := s.outstanding + 1 }

/-- What `log_write` does with the lock. -/
def record (s : Store) (blockno : Word) (data : Block) : Store :=
  { s with
    lh := if blockno ∈ s.lh then s.lh else s.lh ++ [blockno]
    cache := Function.update s.cache blockno (some ⟨data, true⟩) }

/-- The block has been read, changed and given to `log_write`, whose checks come before its
`acquire`. -/
def logWrite (p : P) (blocks : List Word) (blockno : Word) (data : Block) (s : State P) :
    State P :=
  if LOGSIZE ≤ s.store.lh.length ∨ l.size ≤ s.store.lh.length + 1 ∨ s.outstanding < 1 then
    { s with panicked := true }
  else s.setProc p (.writing blocks blockno data)

def endOp (p : P) (s : State P) : State P :=
  let s := { s with outstanding := s.outstanding - 1 }
  if s.committing then { s with panicked := true }
  else if s.outstanding = 0 then
    { s.setProc p (.commit (Storage.commit s.store)) with committing := true }
  else (s.setProc p .idle).wakeup

/-- The end of `end_op`, after the commit. -/
def endCommit (p : P) (s : State P) : State P :=
  { (s.setProc p .idle).wakeup with committing := false }

/-- The blocks of the disk that are not part of the log. -/
def Layout.Home (l : Layout) (blockno : Word) : Prop :=
  ∀ i < l.size, blockno ≠ l.start + .ofNat 32 i

instance (blockno : Word) : Decidable (l.Home blockno) :=
  inferInstanceAs (Decidable (∀ i < l.size, _))

/-- A machine that has been switched on. -/
def restart (disk : Word → Block) : State P where
  store := ⟨disk, fun _ => none, []⟩
  outstanding := 0
  committing := false
  proc _ := .idle
  boot := some .readHead
  panicked := false

inductive Label (P : Type) where
  | beginOp (p : P)
  | logWrite (p : P) (blockno : Word) (data : Block)
  | record (p : P)
  | endOp (p : P)
  | commit (p : P)
  | bread (blockno : Word)
  | evict (blockno : Word)
  | recover
  | crash

/-- What happens next. The file system calls keep to the rules of the log: they record blocks
between `begin_op` and `end_op`, no more than their budget, and only blocks outside of the log. -/
def perform (label : Label P) (s : State P) : Option (State P) :=
  match label, s.panicked, s.boot with
  | .crash, _, _ => some (restart s.store.disk)
  | .recover, false, some task =>
      match task with
      | .finish => some { s with boot := none }
      | task => (task.step l s.store).map fun next =>
          { s with store := next.1, boot := some next.2 }
  | .beginOp p, false, none =>
      match s.proc p with
      | .idle | .woken => some (beginOp p s)
      | _ => none
  | .logWrite p blockno data, false, none =>
      match s.proc p with
      | .active blocks =>
          if (blocks.insert blockno).length ≤ l.budget ∧ l.Home blockno then
            some (logWrite l p blocks blockno data s)
          else none
      | _ => none
  | .record p, false, none =>
      match s.proc p with
      | .writing blocks blockno data => some
          { s.setProc p (.active (blocks.insert blockno)) with
            store := Storage.record s.store blockno data }
      | _ => none
  | .endOp p, false, none =>
      match s.proc p with
      | .active _ => some (endOp p s)
      | _ => none
  | .commit p, false, none =>
      match s.proc p with
      | .commit .finish => some (endCommit p s)
      | .commit task => (task.step l s.store).map fun next =>
          { s.setProc p (.commit next.2) with store := next.1 }
      | _ => none
  | .bread blockno, false, none => some { s with store := s.store.fill blockno }
  | .evict blockno, false, none =>
      (s.store.evict blockno).map fun store => { s with store := store }
  | _, _, _ => none

/-- The kernel has booted and goes on. -/
def State.Up (s : State P) : Prop := s.panicked = false ∧ s.boot = none

/-- Everything that can happen, with what it needs. -/
inductive Move : Label P → State P → State P → Prop where
  | crash (s : State P) : Move .crash s (restart s.store.disk)
  | booted {s : State P} (hboot : s.boot = some .finish) : Move .recover s { s with boot := none }
  | recover {s : State P} {task next : Task} {store : Store} (hboot : s.boot = some task)
      (hturn : task.Turn l s.store store next) :
      Move .recover s { s with store := store, boot := some next }
  | sleeps {s : State P} {p : P} (hup : s.Up) (hp : s.proc p = .idle ∨ s.proc p = .woken)
      (hfull : s.Full) : Move (.beginOp p) s (s.setProc p .asleep)
  | begins {s : State P} {p : P} (hup : s.Up) (hp : s.proc p = .idle ∨ s.proc p = .woken)
      (hfull : ¬s.Full) :
      Move (.beginOp p) s { s.setProc p (.active []) with outstanding := s.outstanding + 1 }
  | overflows {s : State P} {p : P} {blocks : List Word} {blockno : Word} {data : Block}
      (hup : s.Up) (hp : s.proc p = .active blocks)
      (hbudget : (blocks.insert blockno).length ≤ l.budget)
      (htoo : LOGSIZE ≤ s.store.lh.length ∨ l.size ≤ s.store.lh.length + 1 ∨ s.outstanding < 1) :
      Move (.logWrite p blockno data) s { s with panicked := true }
  | checks {s : State P} {p : P} {blocks : List Word} {blockno : Word} {data : Block}
      (hup : s.Up) (hp : s.proc p = .active blocks)
      (hbudget : (blocks.insert blockno).length ≤ l.budget) (hhome : l.Home blockno) :
      Move (.logWrite p blockno data) s (s.setProc p (.writing blocks blockno data))
  | records {s : State P} {p : P} {blocks : List Word} {blockno : Word} {data : Block}
      (hup : s.Up) (hp : s.proc p = .writing blocks blockno data) :
      Move (.record p) s
        { s.setProc p (.active (blocks.insert blockno)) with
          store := Storage.record s.store blockno data }
  | disturbs {s : State P} {p : P} {blocks : List Word} (hup : s.Up)
      (hp : s.proc p = .active blocks)
      (hcommitting : s.committing = true) :
      Move (.endOp p) s { s with outstanding := s.outstanding - 1, panicked := true }
  | endsLast {s : State P} {p : P} {blocks : List Word} (hup : s.Up)
      (hp : s.proc p = .active blocks)
      (hcommitting : s.committing = false) (hlast : s.outstanding - 1 = 0) :
      Move (.endOp p) s { s.setProc p (.commit (Storage.commit s.store)) with
        outstanding := s.outstanding - 1, committing := true }
  | ends {s : State P} {p : P} {blocks : List Word} (hup : s.Up)
      (hp : s.proc p = .active blocks)
      (hcommitting : s.committing = false) (hmore : s.outstanding - 1 ≠ 0) :
      Move (.endOp p) s { (s.setProc p .idle).wakeup with outstanding := s.outstanding - 1 }
  | commits {s : State P} {p : P} {task next : Task} {store : Store} (hup : s.Up)
      (hp : s.proc p = .commit task) (hturn : task.Turn l s.store store next) :
      Move (.commit p) s { s.setProc p (.commit next) with store := store }
  | committed {s : State P} {p : P} (hup : s.Up) (hp : s.proc p = .commit .finish) :
      Move (.commit p) s (endCommit p s)
  | bread {s : State P} (hup : s.Up) (blockno : Word) :
      Move (.bread blockno) s { s with store := s.store.fill blockno }
  | evict {s : State P} (hup : s.Up) {blockno : Word} {data : Block}
      (hclean : s.store.cache blockno = some ⟨data, false⟩) :
      Move (.evict blockno) s { s with store :=
        { s.store with cache := Function.update s.store.cache blockno none } }

variable {l}

theorem perform_move {label : Label P} {s s' : State P} (hperform : perform l label s = some s') :
    Move l label s s' := by
  unfold perform at hperform
  split at hperform
  case h_1 =>
      cases hperform
      exact .crash s
  case h_2 task hpanicked hboot =>
      split at hperform
      · cases hperform
        exact .booted hboot
      · obtain ⟨⟨store, next⟩, hstep, rfl⟩ := Option.map_eq_some_iff.mp hperform
        exact .recover hboot (Task.step_turn hstep)
  case h_3 p hpanicked hboot =>
      have hbegin : (s.proc p = .idle ∨ s.proc p = .woken) → Move l (.beginOp p) s (beginOp p s) := by
        intro hp
        unfold beginOp
        split_ifs with hfull
        · exact .sleeps ⟨hpanicked, hboot⟩ hp hfull
        · exact .begins ⟨hpanicked, hboot⟩ hp hfull
      split at hperform
      · cases hperform
        exact hbegin (.inl ‹_›)
      · cases hperform
        exact hbegin (.inr ‹_›)
      · cases hperform
  case h_4 p blockno data hpanicked hboot =>
      split at hperform
      · rename_i blocks hp
        obtain ⟨⟨hbudget, hhome⟩, hsome⟩ := Option.ite_none_right_eq_some.mp hperform
        cases hsome
        unfold logWrite
        split_ifs with htoo
        · exact .overflows ⟨hpanicked, hboot⟩ hp hbudget htoo
        · exact .checks ⟨hpanicked, hboot⟩ hp hbudget hhome
      · cases hperform
  case h_5 p hpanicked hboot =>
      split at hperform
      · rename_i blocks blockno data hp
        cases hperform
        exact .records ⟨hpanicked, hboot⟩ hp
      · cases hperform
  case h_6 p hpanicked hboot =>
      split at hperform
      · rename_i blocks hp
        cases hperform
        unfold endOp
        dsimp only
        split_ifs with hcommitting hlast
        · exact .disturbs ⟨hpanicked, hboot⟩ hp hcommitting
        · exact .endsLast ⟨hpanicked, hboot⟩ hp (Bool.eq_false_iff.mpr hcommitting) hlast
        · exact .ends ⟨hpanicked, hboot⟩ hp (Bool.eq_false_iff.mpr hcommitting) hlast
      · cases hperform
  case h_7 p hpanicked hboot =>
      split at hperform
      · rename_i hp
        cases hperform
        exact .committed ⟨hpanicked, hboot⟩ hp
      · rename_i task hfinish hp
        obtain ⟨⟨store, next⟩, hstep, rfl⟩ := Option.map_eq_some_iff.mp hperform
        exact .commits ⟨hpanicked, hboot⟩ hp (Task.step_turn hstep)
      · cases hperform
  case h_8 blockno hpanicked hboot =>
      cases hperform
      exact .bread ⟨hpanicked, hboot⟩ blockno
  case h_9 blockno hpanicked hboot =>
      obtain ⟨store, hevict, rfl⟩ := Option.map_eq_some_iff.mp hperform
      unfold Store.evict at hevict
      split at hevict
      · cases hevict
        exact .evict ⟨hpanicked, hboot⟩ ‹_›
      · cases hevict
  case h_10 => cases hperform

variable (l)

/-- A machine is switched on with a file system whose log is empty. -/
def logSystem : System (State P) (Label P) :=
  .ofFunction (fun s => ∃ disk, readHead (disk l.start) = some [] ∧ s = restart disk) (perform l)

end System

/-- The log of a file system that `mkfs` has made: `nlog` is `LOGSIZE`. -/
def mkfsLog (budget : Nat) : Layout := ⟨2, LOGSIZE, budget⟩

end Acos.Storage
