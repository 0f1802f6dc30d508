import Acos.Lib.LinkedRing
import Acos.Storage.Log

/-!
# The buffer cache

The buffers of `bio.c`, their list and the queue of the disk driver, with any number of sessions that
use them. A session is one `bread` with the `brelse` that ends it; a process that holds two buffers
is two sessions. What happens under `bcache.lock` or `idelock` is one step, and a session that waits
for the sleep lock of its buffer or for the disk leaves room for the others.
-/

namespace Acos.Storage.Bio

open Transition LinkedRing

abbrev NBUF : Nat := MAXOPBLOCKS * 3

abbrev ROOTDEV : Word := 1

abbrev FSSIZE : Word := 1000

/-- `struct buf` with its two flags. The lock names the session that has it. -/
structure Buffer (U : Type) where
  valid : Bool
  dirty : Bool
  dev : Word
  blockno : Word
  lock : Option U
  refcnt : Word
  data : Block

/-- `bcache`, where `none` is the address of `bcache.head`, with the queue of the disk driver, what
`ideinit` has found and the disk of `ROOTDEV`. -/
structure Cache (U : Type) where
  buf : Fin NBUF → Buffer U
  links : Links (Option (Fin NBUF))
  idequeue : List (Fin NBUF)
  havedisk1 : Bool
  disk : Word → Block

inductive Panic where
  | noBuffers
  | bwrite
  | brelse
  | notLocked
  | nothingToDo
  | diskNotPresent
  | incorrectBlockno
deriving DecidableEq

section Operations

variable {U : Type}

def Buffer.holdingsleep (b : Buffer U) : Bool := b.lock.isSome

def Buffer.caches (b : Buffer U) (dev blockno : Word) : Bool :=
  b.dev == dev && b.blockno == blockno

/-- The buffer may be recycled. -/
def Buffer.free (b : Buffer U) : Bool := b.refcnt == 0 && !b.dirty

namespace Cache

variable (c : Cache U)

def set (i : Fin NBUF) (b : Buffer U) : Cache U := { c with buf := Function.update c.buf i b }

@[simp]
theorem set_buf_self (i : Fin NBUF) (b : Buffer U) : (c.set i b).buf i = b :=
  Function.update_self ..

theorem set_buf_of_ne {i j : Fin NBUF} (b : Buffer U) (hj : j ≠ i) : (c.set i b).buf j = c.buf j :=
  Function.update_of_ne hj ..

/-- The loop of `binit`. -/
def binitLinks : Links (Option (Fin NBUF)) :=
  (List.finRange NBUF).foldl (fun links b => links.insertAfter none (some b))
    (Links.single ⟨id, id⟩ none)

/-- The memory of the kernel is zero when `binit` is called. -/
def binit (havedisk1 : Bool) (disk : Word → Block) : Cache U where
  buf _ := ⟨false, false, 0, 0, none, 0, fun _ => 0⟩
  links := binitLinks
  idequeue := []
  havedisk1 := havedisk1
  disk := disk

/-- A session more refers to the buffer. -/
def ref (i : Fin NBUF) : Cache U :=
  c.set i { c.buf i with refcnt := (c.buf i).refcnt + 1 }

/-- The buffer is given to another block. -/
def recycle (i : Fin NBUF) (dev blockno : Word) : Cache U :=
  c.set i { c.buf i with
    dev := dev, blockno := blockno, valid := false, dirty := false, refcnt := 1 }

/-- The first loop of `bget`. -/
def lookup (dev blockno : Word) : Option (Fin NBUF) :=
  (search c.links.next none (Option.any fun i => (c.buf i).caches dev blockno) (NBUF + 1)
    (c.links.next none)).join

/-- The second loop of `bget`. -/
def victim : Option (Fin NBUF) :=
  (search c.links.prev none (Option.any fun i => (c.buf i).free) (NBUF + 1)
    (c.links.prev none)).join

/-- `bget` up to `acquiresleep`. -/
def bget (dev blockno : Word) : Except Panic (Fin NBUF × Cache U) :=
  match c.lookup dev blockno with
  | some i => .ok (i, c.ref i)
  | none =>
      match c.victim with
      | some i => .ok (i, c.recycle i dev blockno)
      | none => .error .noBuffers

/-- The data of a dirty buffer go to the disk with the command. -/
def transfer (i : Fin NBUF) : Word → Block :=
  if (c.buf i).dirty then Function.update c.disk (c.buf i).blockno (c.buf i).data else c.disk

def idestart (i : Fin NBUF) : Except Panic (Cache U) :=
  if FSSIZE ≤ (c.buf i).blockno then .error .incorrectBlockno
  else .ok { c with disk := c.transfer i }

/-- The buffer of the active request when its transfer is over. The data of a request to read are
taken from the disk if `idewait` reports no error, and the buffer is valid in any case. -/
def finished (i : Fin NBUF) (ready : Bool) : Buffer U :=
  { c.buf i with
    data := if !(c.buf i).dirty && ready then c.disk (c.buf i).blockno else (c.buf i).data
    valid := true
    dirty := false }

def ideintr (ready : Bool) : Except Panic (Cache U) :=
  match c.idequeue with
  | [] => .ok c
  | i :: queue =>
      let c := { c.set i (c.finished i ready) with idequeue := queue }
      match queue with
      | [] => .ok c
      | next :: _ => c.idestart next

/-- `iderw` up to the loop that waits for the disk. -/
def iderw (i : Fin NBUF) : Except Panic (Cache U) :=
  if !(c.buf i).holdingsleep then .error .notLocked
  else if (c.buf i).valid && !(c.buf i).dirty then .error .nothingToDo
  else if (c.buf i).dev ≠ 0 ∧ c.havedisk1 = false then .error .diskNotPresent
  else
    let c := { c with idequeue := c.idequeue ++ [i] }
    if c.idequeue.head? = some i then c.idestart i else .ok c

def acquiresleep (i : Fin NBUF) (u : U) : Cache U :=
  c.set i { c.buf i with lock := some u }

/-- `log_write` marks the buffer whose data the caller has changed. -/
def logWrite (i : Fin NBUF) (data : Block) : Cache U :=
  c.set i { c.buf i with data := data, dirty := true }

/-- `bwrite` of a buffer whose data the caller has changed, up to `iderw`. It marks the buffer as
`log_write` does. -/
def bwrite (i : Fin NBUF) (data : Block) : Except Panic (Cache U) :=
  if !(c.buf i).holdingsleep then .error .bwrite
  else .ok (c.logWrite i data)

def releasesleep (i : Fin NBUF) : Cache U :=
  c.set i { c.buf i with lock := none }

/-- `brelse` up to `releasesleep`. -/
def unlock (i : Fin NBUF) : Except Panic (Cache U) :=
  if !(c.buf i).holdingsleep then .error .brelse
  else .ok (c.releasesleep i)

/-- `brelse` after `releasesleep`. -/
def brelse (i : Fin NBUF) : Cache U :=
  let c := c.set i { c.buf i with refcnt := (c.buf i).refcnt - 1 }
  if (c.buf i).refcnt = 0 then
    { c with links := (c.links.detach (some i)).insertAfter none (some i) }
  else c

end Cache

end Operations

/-- Where a session is, with the block it has asked for and the buffer it has got. -/
inductive Pc where
  | idle
  | locking (blockno : Word) (i : Fin NBUF)
  | locked (blockno : Word) (i : Fin NBUF)
  | iderw (blockno : Word) (i : Fin NBUF)
  | waiting (blockno : Word) (i : Fin NBUF)
  | inUse (blockno : Word) (i : Fin NBUF)
  | releasing (blockno : Word) (i : Fin NBUF)
deriving DecidableEq

inductive Label (U : Type) where
  | bread (u : U) (blockno : Word)
  | acquiresleep (u : U)
  | test (u : U)
  | iderw (u : U)
  | ideintr (ready : Bool)
  | done (u : U)
  | logWrite (u : U) (data : Block)
  | bwrite (u : U) (data : Block)
  | releasesleep (u : U)
  | brelse (u : U)

structure State (U : Type) where
  cache : Cache U
  session : U → Pc
  panic : Option Panic

section System

variable {U : Type} [DecidableEq U]

/-- The session has moved on, unless the kernel has stopped. -/
def State.advance (s : State U) (u : U) (pc : Pc) : Except Panic (Cache U) → State U
  | .ok cache => ⟨cache, Function.update s.session u pc, s.panic⟩
  | .error panic => { s with panic := some panic }

def perform (s : State U) : Label U → Option (State U)
  | .bread u blockno =>
      match s.session u with
      | .idle =>
          match s.cache.bget ROOTDEV blockno with
          | .ok (i, cache) => some (s.advance u (.locking blockno i) (.ok cache))
          | .error panic => some { s with panic := some panic }
      | _ => none
  | .acquiresleep u =>
      match s.session u with
      | .locking blockno i =>
          if (s.cache.buf i).lock.isNone then
            some (s.advance u (.locked blockno i) (.ok (s.cache.acquiresleep i u)))
          else none
      | _ => none
  | .test u =>
      match s.session u with
      | .locked blockno i =>
          let next := if (s.cache.buf i).valid then Pc.inUse blockno i else .iderw blockno i
          some (s.advance u next (.ok s.cache))
      | _ => none
  | .iderw u =>
      match s.session u with
      | .iderw blockno i => some (s.advance u (.waiting blockno i) (s.cache.iderw i))
      | _ => none
  | .ideintr ready =>
      match s.cache.ideintr ready with
      | .ok cache => some { s with cache := cache }
      | .error panic => some { s with panic := some panic }
  | .done u =>
      match s.session u with
      | .waiting blockno i =>
          if (s.cache.buf i).valid && !(s.cache.buf i).dirty then
            some (s.advance u (.inUse blockno i) (.ok s.cache))
          else none
      | _ => none
  | .logWrite u data =>
      match s.session u with
      | .inUse blockno i => some (s.advance u (.inUse blockno i) (.ok (s.cache.logWrite i data)))
      | _ => none
  | .bwrite u data =>
      match s.session u with
      | .inUse blockno i => some (s.advance u (.iderw blockno i) (s.cache.bwrite i data))
      | _ => none
  | .releasesleep u =>
      match s.session u with
      | .inUse blockno i => some (s.advance u (.releasing blockno i) (s.cache.unlock i))
      | _ => none
  | .brelse u =>
      match s.session u with
      | .releasing _ i => some (s.advance u .idle (.ok (s.cache.brelse i)))
      | _ => none

/-- A kernel that has stopped does nothing more. -/
def step (label : Label U) (s : State U) : Option (State U) :=
  if s.panic.isSome then none else perform s label

/-- Before the first call of `bread`. -/
def start (havedisk1 : Bool) (disk : Word → Block) : State U :=
  ⟨.binit havedisk1 disk, fun _ => .idle, none⟩

/-- The steps, with what they find. -/
inductive Move (s : State U) : Label U → State U → Prop where
  | hit {u : U} {b : Word} {i : Fin NBUF} (hpc : s.session u = .idle)
      (hlookup : s.cache.lookup ROOTDEV b = some i) :
      Move s (.bread u b) (s.advance u (.locking b i) (.ok (s.cache.ref i)))
  | recycle {u : U} {b : Word} {i : Fin NBUF} (hpc : s.session u = .idle)
      (hlookup : s.cache.lookup ROOTDEV b = none) (hvictim : s.cache.victim = some i) :
      Move s (.bread u b) (s.advance u (.locking b i) (.ok (s.cache.recycle i ROOTDEV b)))
  | noBuffers {u : U} {b : Word} (hpc : s.session u = .idle)
      (hlookup : s.cache.lookup ROOTDEV b = none) (hvictim : s.cache.victim = none) :
      Move s (.bread u b) { s with panic := some .noBuffers }
  | acquiresleep {u : U} {b : Word} {i : Fin NBUF} (hpc : s.session u = .locking b i)
      (hlock : (s.cache.buf i).lock = none) :
      Move s (.acquiresleep u) (s.advance u (.locked b i) (.ok (s.cache.acquiresleep i u)))
  | valid {u : U} {b : Word} {i : Fin NBUF} (hpc : s.session u = .locked b i)
      (hvalid : (s.cache.buf i).valid = true) :
      Move s (.test u) (s.advance u (.inUse b i) (.ok s.cache))
  | invalid {u : U} {b : Word} {i : Fin NBUF} (hpc : s.session u = .locked b i)
      (hvalid : (s.cache.buf i).valid = false) :
      Move s (.test u) (s.advance u (.iderw b i) (.ok s.cache))
  | iderw {u : U} {b : Word} {i : Fin NBUF} (hpc : s.session u = .iderw b i) :
      Move s (.iderw u) (s.advance u (.waiting b i) (s.cache.iderw i))
  | ideintr {ready : Bool} {cache : Cache U} (hcache : s.cache.ideintr ready = .ok cache) :
      Move s (.ideintr ready) { s with cache := cache }
  | ideintrPanics {ready : Bool} {panic : Panic} (hpanic : s.cache.ideintr ready = .error panic) :
      Move s (.ideintr ready) { s with panic := some panic }
  | done {u : U} {b : Word} {i : Fin NBUF} (hpc : s.session u = .waiting b i)
      (hvalid : (s.cache.buf i).valid = true) (hdirty : (s.cache.buf i).dirty = false) :
      Move s (.done u) (s.advance u (.inUse b i) (.ok s.cache))
  | logWrite {u : U} {b : Word} {i : Fin NBUF} {data : Block} (hpc : s.session u = .inUse b i) :
      Move s (.logWrite u data) (s.advance u (.inUse b i) (.ok (s.cache.logWrite i data)))
  | bwrite {u : U} {b : Word} {i : Fin NBUF} {data : Block} (hpc : s.session u = .inUse b i) :
      Move s (.bwrite u data) (s.advance u (.iderw b i) (s.cache.bwrite i data))
  | releasesleep {u : U} {b : Word} {i : Fin NBUF} (hpc : s.session u = .inUse b i) :
      Move s (.releasesleep u) (s.advance u (.releasing b i) (s.cache.unlock i))
  | brelse {u : U} {b : Word} {i : Fin NBUF} (hpc : s.session u = .releasing b i) :
      Move s (.brelse u) (s.advance u .idle (.ok (s.cache.brelse i)))

theorem perform_move {s s' : State U} {label : Label U} (hperform : perform s label = some s') :
    Move s label s' := by
  cases label with
  | bread u b =>
      cases hpc : s.session u with
      | idle =>
          simp only [perform, hpc, Cache.bget] at hperform
          cases hlookup : s.cache.lookup ROOTDEV b with
          | some i =>
              simp only [hlookup] at hperform
              cases hperform
              exact .hit hpc hlookup
          | none =>
              cases hvictim : s.cache.victim with
              | some i =>
                  simp only [hlookup, hvictim] at hperform
                  cases hperform
                  exact .recycle hpc hlookup hvictim
              | none =>
                  simp only [hlookup, hvictim] at hperform
                  cases hperform
                  exact .noBuffers hpc hlookup hvictim
      | _ => simp [perform, hpc] at hperform
  | acquiresleep u =>
      cases hpc : s.session u with
      | locking b i =>
          simp only [perform, hpc] at hperform
          split_ifs at hperform with hlock
          cases hperform
          exact .acquiresleep hpc (Option.isNone_iff_eq_none.mp hlock)
      | _ => simp [perform, hpc] at hperform
  | test u =>
      cases hpc : s.session u with
      | locked b i =>
          simp only [perform, hpc] at hperform
          cases hperform
          cases hvalid : (s.cache.buf i).valid with
          | true => exact .valid hpc hvalid
          | false => exact .invalid hpc hvalid
      | _ => simp [perform, hpc] at hperform
  | iderw u =>
      cases hpc : s.session u with
      | iderw b i =>
          simp only [perform, hpc] at hperform
          cases hperform
          exact .iderw hpc
      | _ => simp [perform, hpc] at hperform
  | ideintr ready =>
      simp only [perform] at hperform
      split at hperform
      · rename_i cache hcache
        cases hperform
        exact .ideintr hcache
      · rename_i panic hpanic
        cases hperform
        exact .ideintrPanics hpanic
  | done u =>
      cases hpc : s.session u with
      | waiting b i =>
          simp only [perform, hpc] at hperform
          split_ifs at hperform with hdone
          cases hperform
          obtain ⟨hvalid, hdirty⟩ := (Bool.and_eq_true _ _).mp hdone
          exact .done hpc hvalid (by simpa using hdirty)
      | _ => simp [perform, hpc] at hperform
  | logWrite u data =>
      cases hpc : s.session u with
      | inUse b i =>
          simp only [perform, hpc] at hperform
          cases hperform
          exact .logWrite hpc
      | _ => simp [perform, hpc] at hperform
  | bwrite u data =>
      cases hpc : s.session u with
      | inUse b i =>
          simp only [perform, hpc] at hperform
          cases hperform
          exact .bwrite hpc
      | _ => simp [perform, hpc] at hperform
  | releasesleep u =>
      cases hpc : s.session u with
      | inUse b i =>
          simp only [perform, hpc] at hperform
          cases hperform
          exact .releasesleep hpc
      | _ => simp [perform, hpc] at hperform
  | brelse u =>
      cases hpc : s.session u with
      | releasing b i =>
          simp only [perform, hpc] at hperform
          cases hperform
          exact .brelse hpc
      | _ => simp [perform, hpc] at hperform

/-- The kernel has not stopped before a step. -/
theorem step_move {s s' : State U} {label : Label U} (hstep : step label s = some s') :
    s.panic = none ∧ Move s label s' := by
  unfold step at hstep
  split_ifs at hstep with hpanic
  exact ⟨by simpa using hpanic, perform_move hstep⟩

def system : System (State U) (Label U) :=
  System.ofFunction (fun s => ∃ havedisk1 disk, s = start havedisk1 disk) step

theorem init_start (havedisk1 : Bool) (disk : Word → Block) :
    (system (U := U)).init (start havedisk1 disk) := ⟨havedisk1, disk, rfl⟩

end System

end Acos.Storage.Bio
