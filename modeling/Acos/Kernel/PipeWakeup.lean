import Acos.Kernel.PipeOrder

/-!
# Nobody sleeps in a pipe for nothing

A reader sleeps while the pipe is empty and a writer while it is full, and whoever changes that wakes
them up. There is one exception: a writer that has been killed leaves a full pipe without a word.
-/

namespace Acos.Kernel

open Transition Monitor RingBuffer

/-- What the processes that sleep on an address wait for the end of. Nobody sleeps at an end of the
pipe that has been closed. -/
def PipeChan.Wait (c : PipeChan) (p : Pipe) : Prop :=
  match c with
  | .nread => p.empty = true ∧ p.writeopen = true ∨ p.readopen = false
  | .nwrite => p.full = true ∧ p.readopen = true ∨ p.writeopen = false

/-- Where a `wakeup` of the address is on the way. -/
def PipeLoc.Owes (c : PipeChan) (l : PipeLoc) : Prop :=
  match c, l with
  | .nread, .write _ _ | .nread, .writeFull _ _ | .nread, .writeWake _ | .nread, .closeWake true
  | .nwrite, .copy _ _ | .nwrite, .readWake _ _ | .nwrite, .closeWake false => True
  | _, _ => False

/-- What a process has found before it goes to sleep. -/
def PipeLoc.Found (l : PipeLoc) (p : Pipe) : Prop :=
  match l with
  | .writeFull _ _ | .writeSleep _ _ => p.full = true ∧ p.readopen = true
  | .readSleep _ => p.empty = true ∧ p.writeopen = true
  | _ => True

section Rule

variable {P : Type} [Fintype P] {page : Fin PIPESIZE → Byte}

theorem write_signals {addr : List Byte} {i : Nat} {p : Pipe} (c : PipeChan) :
    (pipewrite addr i false p).2.Found (pipewrite addr i false p).1 ∧
      (c.Wait p ∨ (PipeLoc.write addr i).Owes c →
        c.Wait (pipewrite addr i false p).1 ∨ (pipewrite addr i false p).2.Owes c) := by
  have hturn := pipewrite_turn addr i false p
  generalize (PipeLoc.write addr i).stores p = bytes, pipewrite addr i false p = result at hturn ⊢
  cases hturn with
  | done =>
      cases c with
      | nread => exact ⟨trivial, fun _ => .inr trivial⟩
      | nwrite => exact ⟨trivial, id⟩
  | gone _ _ hgone =>
      have hclosed : p.readopen = false := hgone.resolve_right Bool.false_ne_true
      cases c with
      | nread => exact ⟨trivial, fun _ => .inl (.inr hclosed)⟩
      | nwrite => exact ⟨trivial, id⟩
  | full _ hfull hopen =>
      cases c with
      | nread => exact ⟨⟨hfull, hopen⟩, fun _ => .inr trivial⟩
      | nwrite => exact ⟨⟨hfull, hopen⟩, id⟩
  | stored _ hfull =>
      cases c with
      | nread => exact ⟨trivial, fun _ => .inr trivial⟩
      | nwrite =>
          refine ⟨trivial, fun h => .inl (.inr ?_)⟩
          rcases h with (⟨htrue, -⟩ | hclosed) | howes
          · exact absurd (hfull.symm.trans htrue) Bool.false_ne_true
          · exact hclosed
          · exact howes.elim

theorem read_signals {n : Nat} {p : Pipe} (c : PipeChan) :
    (piperead n false p).2.Found (piperead n false p).1 ∧
      (c.Wait p ∨ (PipeLoc.read n).Owes c →
        c.Wait (piperead n false p).1 ∨ (piperead n false p).2.Owes c) := by
  have hnot : ¬(PipeLoc.read n).Owes c := by cases c <;> exact id
  unfold piperead
  rw [if_neg Bool.false_ne_true]
  split_ifs with hwait
  · exact ⟨hwait, fun h => .inl (h.resolve_right hnot)⟩
  · exact ⟨trivial, fun h => .inl (h.resolve_right hnot)⟩

theorem copy_signals {n : Nat} {addr : List Byte} {p : Pipe} (c : PipeChan) :
    (pipecopy n addr p).2.Found (pipecopy n addr p).1 ∧
      (c.Wait p ∨ (PipeLoc.copy n addr).Owes c →
        c.Wait (pipecopy n addr p).1 ∨ (pipecopy n addr p).2.Owes c) := by
  have hturn := pipecopy_turn n addr p
  generalize (PipeLoc.copy n addr).takes p = bytes, pipecopy n addr p = result at hturn ⊢
  cases hturn with
  | done =>
      cases c with
      | nread => exact ⟨trivial, id⟩
      | nwrite => exact ⟨trivial, fun _ => .inr trivial⟩
  | took _ hempty =>
      cases c with
      | nread =>
          refine ⟨trivial, fun h => .inl (.inr ?_)⟩
          rcases h with (⟨htrue, -⟩ | hclosed) | howes
          · exact absurd (hempty.symm.trans htrue) Bool.false_ne_true
          · exact hclosed
          · exact howes.elim
      | nwrite => exact ⟨trivial, fun _ => .inr trivial⟩

theorem close_signals (w : Bool) (p : Pipe) (c : PipeChan) :
    c.Wait (pipeclose w p).1 ∨ (pipeclose w p).2.Owes c := by
  cases w <;> cases c
  · exact .inl (.inr rfl)
  · exact .inr trivial
  · exact .inr trivial
  · exact .inl (.inr rfl)

/-- Without kills, the code of a pipe owes every sleeper a `wakeup`. -/
theorem pipe_signals :
    Signals (pipeProgram (P := P) page false) PipeLoc.holds PipeChan.Wait PipeLoc.Owes
      PipeLoc.Found where
  owes {c l} howes := by
    cases l <;> first | rfl | (cases c <;> exact howes.elim)
  acquire {l _} hop d := by
    cases l <;> cases hop <;> trivial
  release {l _} hop c := by
    cases l <;> cases hop
    cases c <;> exact id
  compute {l _} hop k d hkill hassert := by
    have halive : k = false := Bool.eq_false_iff.mpr fun h => Bool.false_ne_true (hkill h)
    subst halive
    cases l <;> cases hop
    case write addr i => exact ⟨(write_signals .nread).1, fun c => (write_signals c).2⟩
    case read n => exact ⟨(read_signals .nread).1, fun c => (read_signals c).2⟩
    case copy n addr => exact ⟨(copy_signals .nread).1, fun c => (copy_signals c).2⟩
    case close w => exact ⟨trivial, fun c _ => close_signals w d c⟩
  wakeup {l _ chan} hop d hassert := by
    cases l <;> cases hop
    case writeFull addr i =>
        refine ⟨hassert, fun c howes => ?_⟩
        cases c with
        | nread => exact .inl rfl
        | nwrite => exact howes.elim
    case writeWake addr =>
        refine ⟨trivial, fun c howes => ?_⟩
        cases c with
        | nread => exact .inl rfl
        | nwrite => exact howes.elim
    case readWake n addr =>
        refine ⟨trivial, fun c howes => ?_⟩
        cases c with
        | nread => exact howes.elim
        | nwrite => exact .inl rfl
    case closeWake w =>
        refine ⟨trivial, fun c howes => .inl ?_⟩
        cases w <;> cases c <;> first | rfl | exact howes.elim
  sleep {l _ _} hop := by
    cases l <;> cases hop
    case writeSleep addr i => exact ⟨fun _ h => .inl h, fun c => by cases c <;> exact id, fun _ => trivial⟩
    case readSleep n => exact ⟨fun _ h => .inl h, fun c => by cases c <;> exact id, fun _ => trivial⟩

end Rule

/-! ### The ends of the pipe -/

section Ends

variable {P : Type} {s s' : State P PipeLoc PipeChan Pipe} {l next : PipeLoc} {p p' : Pipe}
  {killed w : Bool}

theorem leads_uses (hleads : (pipeCode l).Leads killed p p' next) (huses : next.uses w = true) :
    l.uses w = true := by
  cases l with
  | back | leave => cases hleads; try cases huses
  | writeEnter | writeFull | writeSleep | readEnter | readSleep =>
      cases hleads
      exact huses
  | writeWake | readWake | closeEnter | closeWake =>
      cases hleads
      cases huses
  | write addr i =>
      cases hleads
      have hturn := pipewrite_turn addr i killed p
      generalize (PipeLoc.write addr i).stores p = bytes, pipewrite addr i killed p = result
        at hturn huses
      cases hturn with
      | gone => cases huses
      | done | full | stored => exact huses
  | read n =>
      cases hleads
      unfold piperead at huses
      split_ifs at huses
      · cases huses
      · exact huses
      · exact huses
  | copy n addr =>
      cases hleads
      have hturn := pipecopy_turn n addr p
      dsimp only at huses
      generalize (PipeLoc.copy n addr).takes p = bytes, pipecopy n addr p = result at hturn huses
      cases hturn <;> exact huses
  | close =>
      cases hleads
      cases huses

/-- Only a call of `pipeclose` closes an end, and it begins as such. -/
theorem leads_closes (hleads : (pipeCode l).Leads killed p p' next) :
    (next.closes w = true → l.closes w = true) ∧ (p'.isOpen w = p.isOpen w ∨ l.closes w = true) := by
  cases l with
  | back => cases hleads
  | leave | writeEnter | writeFull | writeSleep | readEnter | readSleep | writeWake | readWake
  | closeWake =>
      cases hleads
      exact ⟨nofun, .inl rfl⟩
  | closeEnter =>
      cases hleads
      exact ⟨id, .inl rfl⟩
  | write addr i =>
      cases hleads
      have hturn := pipewrite_turn addr i killed p
      generalize (PipeLoc.write addr i).stores p = bytes, pipewrite addr i killed p = result at hturn ⊢
      cases hturn <;> exact ⟨nofun, .inl rfl⟩
  | read n =>
      cases hleads
      unfold piperead
      split_ifs <;> exact ⟨nofun, .inl rfl⟩
  | copy n addr =>
      cases hleads
      have hturn := pipecopy_turn n addr p
      dsimp only
      generalize (PipeLoc.copy n addr).takes p = bytes, pipecopy n addr p = result at hturn ⊢
      cases hturn <;> exact ⟨nofun, .inl rfl⟩
  | close writable =>
      cases hleads
      refine ⟨id, ?_⟩
      cases writable <;> cases w
      · exact .inr rfl
      · exact .inl rfl
      · exact .inl rfl
      · exact .inr rfl

/-- An end that a process uses is open, and nobody is closing it. -/
def Guarded (s : State P PipeLoc PipeChan Pipe) : Prop :=
  ∀ w t, (s.thread t).target.uses w = true →
    s.data.isOpen w = true ∧ ∀ u, (s.thread u).target.closes w = false

variable [DecidableEq P] {page : Fin PIPESIZE → Byte} {killable : Bool} {label : Label P PipeLoc}

theorem Guarded.step {t : P} (h : Guarded s) (hstep : Step pipeCode t s s') : Guarded s' := by
  intro w v huses
  rcases hstep.leads with ⟨hdata, -, hsame⟩ | ⟨l, ht, hleads, hothers⟩
  · rw [hsame] at huses
    obtain ⟨hopen, hcloses⟩ := h w v huses
    exact ⟨hdata ▸ hopen, fun u => by rw [hsame]; exact hcloses u⟩
  · have htarget : (s.thread t).target = l := by rw [ht]; rfl
    have hbefore : (s.thread v).target.uses w = true := by
      by_cases hv : v = t
      · subst hv
        rw [htarget]
        exact leads_uses hleads huses
      · rwa [hothers v hv] at huses
    obtain ⟨hopen, hcloses⟩ := h w v hbefore
    obtain ⟨hback, hstays⟩ := leads_closes (w := w) hleads
    have hl : l.closes w = false := htarget ▸ hcloses t
    constructor
    · rw [hstays.resolve_right (by simp [hl])]
      exact hopen
    · intro u
      by_cases hu : u = t
      · subst hu
        exact Bool.eq_false_iff.mpr fun hnext => by simp [hback hnext] at hl
      · rw [hothers u hu]
        exact hcloses u

variable [Fintype P]

theorem Guarded.call {t : P} (h : Guarded s) (henter : pipeEnter s l = true) :
    Guarded (s.move t (.loc l)) := by
  have htarget : ∀ u, ((s.move t (.loc l)).thread u).target = if u = t then l else (s.thread u).target :=
    fun u => s.target_move t u (.loc l)
  intro w v huses
  rw [htarget] at huses
  -- a call that closes an end finds no user of it, and a user finds it open
  have hnew : l.uses w = true → s.data.isOpen w = true ∧ ∀ u, (s.thread u).target.closes w = false := by
    intro hl
    cases l with
    | writeEnter addr =>
        cases w with
        | true => simpa [pipeEnter] using henter
        | false => cases hl
    | readEnter n =>
        cases w with
        | true => cases hl
        | false => simpa [pipeEnter] using henter
    | closeEnter => cases hl
    | _ => cases henter
  have hclose : ∀ u, l.closes w = true → (s.thread u).target.uses w = false := by
    intro u hl
    cases l with
    | closeEnter w' =>
        have hw : w' = w := by simpa [PipeLoc.closes] using hl
        subst hw
        simp only [pipeEnter, Bool.and_eq_true, decide_eq_true_eq] at henter
        exact (henter.2 u).1
    | writeEnter | readEnter => cases hl
    | _ => cases henter
  have hdisjoint : l.uses w = true → l.closes w = false := by
    intro hl
    cases l with
    | writeEnter | readEnter => rfl
    | closeEnter => cases hl
    | _ => cases henter
  have hbefore : s.data.isOpen w = true ∧ (∀ u, (s.thread u).target.closes w = false) ∧
      l.closes w = false := by
    split_ifs at huses with hv
    · exact ⟨(hnew huses).1, (hnew huses).2, hdisjoint huses⟩
    · obtain ⟨hopen, hcloses⟩ := h w v huses
      refine ⟨hopen, hcloses, Bool.eq_false_iff.mpr fun hl => ?_⟩
      rw [hclose v hl] at huses
      cases huses
  refine ⟨hbefore.1, fun u => ?_⟩
  rw [htarget]
  split_ifs
  · exact hbefore.2.2
  · exact hbefore.2.1 u

theorem Guarded.reachable (hreach : Reachable (pipeProgram (P := P) page killable).system s) :
    Guarded s := by
  induction hreach with
  | init hinit =>
      cases hinit
      exact fun w t => nofun
  | @step s s' label _ hstep ih =>
      cases perform_move hstep with
      | run hrun => exact ih.step hrun
      | call _ _ henter => exact ih.call henter
      | @kill t =>
          intro w v huses
          obtain ⟨hopen, hcloses⟩ := ih w v ((s.target_rouse t v).symm ▸ huses)
          exact ⟨hopen, fun u => (congrArg _ (s.target_rouse t u)).trans (hcloses u)⟩

/-- Without kills, whoever sleeps when nothing goes on does so for a reason. -/
theorem asleep_of_stuck (hreach : Reachable (pipeProgram (P := P) page false).system s)
    (hstuck : ∀ u, run pipeCode u s = none) {t : P} {c : PipeChan} {next : PipeLoc}
    (ht : s.thread t = .asleep c next) : c.Wait s.data ∧
      match c with
      | .nread => s.data.readopen = true
      | .nwrite => s.data.writeopen = true := by
  have hlocking := pipe_locking (P := P) page false
  obtain ⟨l, hop⟩ := (Locked.reachable hlocking hreach).sleeping t c next (by rw [ht]; rfl)
  have hguarded := Guarded.reachable hreach
  constructor
  · rcases waits_of_stuck hlocking pipe_signals hreach hstuck t with ⟨l', hl', -⟩ | ⟨c', n', hc', hwait⟩
    · cases ht.symm.trans hl'
    · cases ht.symm.trans hc'
      exact hwait
  · cases l <;> cases hop
    · exact (hguarded true t (by rw [ht]; rfl)).1
    · exact (hguarded false t (by rw [ht]; rfl)).1

end Ends

/-! ### A killed writer -/

section Killed

variable {P : Type} [Fintype P] [DecidableEq P] {page : Fin PIPESIZE → Byte}
  {s : State P PipeLoc PipeChan Pipe} {a b : P}

/-- One byte more than a pipe can hold. -/
def tooMany : List Byte := List.replicate (PIPESIZE + 1) 0

/-- A reader sleeps, and a writer has stored `i` bytes. -/
structure Storing (a b : P) (i : Nat) (s : State P PipeLoc PipeChan Pipe) : Prop where
  reader : s.thread a = .asleep .nread (.read 1)
  writer : s.thread b = .loc (.write tooMany i)
  others : ∀ u, u ≠ a → u ≠ b → s.thread u = .loc (.back 0 [])
  table : s.table = none
  readopen : s.data.readopen = true
  killed : ∀ u, s.killed u = false
  used : s.data.ring.used = i

theorem exists_asleep (page : Fin PIPESIZE → Byte) (a : P) :
    ∃ s : State P PipeLoc PipeChan Pipe, Reachable (pipeProgram page true).system s ∧
      s.thread a = .asleep .nread (.read 1) ∧ (∀ u, u ≠ a → s.thread u = .loc (.back 0 [])) ∧
      s.lock = none ∧ s.table = none ∧ (∀ u, s.killed u = false) ∧
      s.data = ⟨⟨page, 0, 0⟩, true, true⟩ := by
  have hstart : Reachable (pipeProgram (P := P) page true).system (pipeProgram page true).init :=
    .init rfl
  have hopen : (pipeProgram page true).enter (pipeProgram page true).init a (.readEnter 1) = true := by
    simp [pipeEnter, pipeProgram, Program.init, Pipe.isOpen, At.target, PipeLoc.closes]
  have hcall := (Move.call (t := a) rfl rfl hopen).reachable hstart
  have hacquire := (Move.run (.acquire (Function.update_self ..) rfl rfl)).reachable hcall
  have hread := (Move.run (.compute (Function.update_self ..) rfl)).reachable hacquire
  refine ⟨_, reachable_asleep hread (Function.update_self ..) rfl rfl, Function.update_self .., ?_, rfl,
    rfl, fun _ => rfl, rfl⟩
  intro u hu
  simp only [State.move, Function.update_of_ne hu]
  rfl

theorem exists_storing_zero (page : Fin PIPESIZE → Byte) (hab : a ≠ b) :
    ∃ s : State P PipeLoc PipeChan Pipe,
      Reachable (pipeProgram page true).system s ∧ Storing a b 0 s := by
  obtain ⟨s, hreach, ha, hothers, hlock, htable, hkilled, hdata⟩ := exists_asleep page a
  have hopen : (pipeProgram page true).enter s b (.writeEnter tooMany) = true := by
    simp only [pipeProgram, pipeEnter, hdata, Pipe.isOpen, if_true, Bool.true_and, decide_eq_true_eq]
    intro u
    by_cases hu : u = a
    · rw [hu, ha]
      rfl
    · rw [hothers u hu]
      rfl
  have hcall := (Move.call (hothers b hab.symm) rfl hopen).reachable hreach
  have hacquire := (Move.run (.acquire (s := s.move b (.loc (.writeEnter tooMany)))
    (Function.update_self ..) rfl hlock)).reachable hcall
  refine ⟨_, hacquire, ?_, Function.update_self .., ?_, htable, ?_, hkilled, ?_⟩
  · simp only [State.move, Function.update_of_ne hab]
    exact ha
  · intro u hua hub
    simp only [State.move, Function.update_of_ne hub]
    exact hothers u hua
  · change s.data.readopen = true
    rw [hdata]
  · change s.data.ring.used = 0
    rw [hdata]
    change ((0 : BitVec 32) - 0).toNat = 0
    decide

theorem Storing.succ {i : Nat} (hab : a ≠ b) (hi : i < PIPESIZE) (h : Storing a b i s)
    (hreach : Reachable (pipeProgram page true).system s) :
    ∃ s', Reachable (pipeProgram page true).system s' ∧ Storing a b (i + 1) s' := by
  have hbyte : tooMany[i]? = some 0 := by
    rw [tooMany, List.getElem?_replicate, if_pos (Nat.lt_succ_of_lt hi)]
  have hroom : s.data.full = false := by
    rw [Bool.eq_false_iff, Ne, Pipe.full_iff, h.used]
    exact hi.ne
  have hwrite : pipewrite tooMany i (s.killed b) s.data
      = ({ s.data with ring := s.data.ring.push 0 }, .write tooMany (i + 1)) := by
    simp only [pipewrite, hbyte, hroom, Bool.false_eq_true, if_false]
  have hstore := (Move.run (.compute h.writer rfl)).reachable hreach
  rw [hwrite] at hstore
  refine ⟨_, hstore, ?_, Function.update_self .., ?_, h.table, h.readopen, h.killed, ?_⟩
  · simp only [State.move, Function.update_of_ne hab]
    exact h.reader
  · intro u hua hub
    simp only [State.move, Function.update_of_ne hub]
    exact h.others u hua hub
  · change (s.data.ring.push 0).used = i + 1
    rw [Ring.used_push (by rw [h.used]; exact Nat.lt_of_le_of_lt hi (by decide)), h.used]

/-- The writer is killed when the pipe is full, and leaves. -/
theorem Storing.killed_leaves (hab : a ≠ b) (h : Storing a b PIPESIZE s)
    (hreach : Reachable (pipeProgram page true).system s) :
    ∃ s', Reachable (pipeProgram page true).system s' ∧ (∀ u, run pipeCode u s' = none) ∧
      s'.thread a = .asleep .nread (.read 1) ∧ s'.data.empty = false := by
  have hbyte : tooMany[PIPESIZE]? = some 0 := by
    rw [tooMany, List.getElem?_replicate, if_pos (Nat.lt_succ_self _)]
  have hkill := (Move.kill (t := b) rfl h.table).reachable hreach
  generalize hs : ({ s.move b (s.thread b).rouse with
    killed := Function.update s.killed b true } : State P PipeLoc PipeChan Pipe) = s₁ at hkill
  have hwriter : s₁.thread b = .loc (.write tooMany PIPESIZE) := by
    rw [← hs, h.writer]
    exact Function.update_self ..
  have hwrite : pipewrite tooMany PIPESIZE (s₁.killed b) s₁.data = (s₁.data, .leave true (-1) []) := by
    have hkilled : s₁.killed b = true := by
      rw [← hs]
      exact Function.update_self ..
    have hfull : s₁.data.full = true := by
      rw [← hs]
      exact Pipe.full_iff.mpr h.used
    simp only [pipewrite, hbyte, hfull, hkilled, if_true, or_true]
  have hreader : s₁.thread a = .asleep .nread (.read 1) := by
    rw [← hs]
    exact (Function.update_of_ne hab ..).trans h.reader
  have hothers : ∀ u, u ≠ a → u ≠ b → s₁.thread u = .loc (.back 0 []) := by
    intro u hua hub
    rw [← hs]
    exact (Function.update_of_ne hub ..).trans (h.others u hua hub)
  have hfails := (Move.run (.compute hwriter rfl)).reachable hkill
  rw [hwrite] at hfails
  have hleaves := (Move.run (.release (Function.update_self ..) rfl)).reachable hfails
  refine ⟨_, hleaves, fun u => ?_, ?_, ?_⟩
  · by_cases hub : u = b
    · subst hub
      simp [run, State.move, pipeCode]
    · by_cases hua : u = a
      · subst hua
        simp [run, State.move, hub, hreader]
      · simp [run, State.move, hub, hothers u hua hub, pipeCode]
  · simp only [State.move, Function.update_of_ne hab]
    exact hreader
  · change s₁.data.empty = false
    rw [← hs, Bool.eq_false_iff, Ne, Pipe.empty_iff]
    change s.data.ring.used ≠ 0
    rw [h.used]
    decide

theorem exists_forgotten (page : Fin PIPESIZE → Byte) (hab : a ≠ b) :
    ∃ s : State P PipeLoc PipeChan Pipe, Reachable (pipeProgram page true).system s ∧
      (∀ u, run pipeCode u s = none) ∧ s.thread a = .asleep .nread (.read 1) ∧
      s.data.empty = false := by
  have hstoring : ∀ i, i ≤ PIPESIZE → ∃ s : State P PipeLoc PipeChan Pipe,
      Reachable (pipeProgram page true).system s ∧ Storing a b i s := by
    intro i
    induction i with
    | zero => exact fun _ => exists_storing_zero page hab
    | succ i ih =>
        intro hi
        obtain ⟨s, hreach, h⟩ := ih (Nat.le_of_succ_le hi)
        exact h.succ hab hi hreach
  obtain ⟨s, hreach, h⟩ := hstoring PIPESIZE le_rfl
  exact h.killed_leaves hab hreach

end Killed

/-- **Wakeups.** Whenever no process in the code of the pipe can go on, every reader that sleeps does
so before an empty pipe that is still open for writing, and every writer before a full pipe that is
still open for reading, if and only if processes are not killed. A writer that is killed when it has
filled the pipe leaves without waking up the readers. -/
theorem pipe_wakeups_iff {P : Type} [Fintype P] [DecidableEq P] (htwo : 2 ≤ Fintype.card P)
    (page : Fin PIPESIZE → Byte) (killable : Bool) :
    (∀ s : State P PipeLoc PipeChan Pipe, Reachable (pipeProgram page killable).system s →
      (∀ u, run pipeCode u s = none) → ∀ t c next, s.thread t = .asleep c next →
        match c with
        | .nread => s.data.empty = true ∧ s.data.writeopen = true
        | .nwrite => s.data.full = true ∧ s.data.readopen = true) ↔ killable = false := by
  constructor
  · intro hall
    cases killable with
    | false => rfl
    | true =>
        obtain ⟨a, b, hab⟩ := Fintype.exists_pair_of_one_lt_card htwo
        obtain ⟨s, hreach, hstuck, ha, hempty⟩ := exists_forgotten page hab
        exact absurd (hempty.symm.trans (hall s hreach hstuck a _ _ ha).1) Bool.false_ne_true
  · rintro rfl s hreach hstuck t c next ht
    obtain ⟨hwait, hopen⟩ := asleep_of_stuck hreach hstuck ht
    cases c with
    | nread => exact hwait.resolve_right fun h => absurd (h.symm.trans hopen) Bool.false_ne_true
    | nwrite => exact hwait.resolve_right fun h => absurd (h.symm.trans hopen) Bool.false_ne_true

theorem pipe_wakeups_iff_two :
    ¬∀ s : State (Fin 2) PipeLoc PipeChan Pipe,
      Reachable (pipeProgram (fun _ => 0) true).system s →
      (∀ u, run pipeCode u s = none) → ∀ t c next, s.thread t = .asleep c next →
        match c with
        | .nread => s.data.empty = true ∧ s.data.writeopen = true
        | .nwrite => s.data.full = true ∧ s.data.readopen = true := by
  rw [pipe_wakeups_iff (by decide) (fun _ => 0) true]
  decide

end Acos.Kernel
