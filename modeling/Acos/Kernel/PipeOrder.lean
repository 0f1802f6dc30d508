import Acos.Kernel.Pipe

/-!
# A pipe keeps the order of its bytes

The bytes come out of a pipe in the order in which they have been stored, none is lost and none comes
twice, whatever the order in which the processes run and although the counters wrap around.
-/

namespace Acos.Kernel

open Transition Monitor RingBuffer

/-- The byte that the next step from a location stores in the pipe. -/
def PipeLoc.stores (p : Pipe) : PipeLoc → List Byte
  | .write addr i => if p.full then [] else (addr[i]?).toList
  | _ => []

/-- The byte that the next step from a location takes out. -/
def PipeLoc.takes (p : Pipe) : PipeLoc → List Byte
  | .copy n addr =>
      if addr.length < n ∧ p.empty = false then [p.ring.data (Ring.slot p.ring.nread)] else []
  | _ => []

/-! ### One step of the code -/

section Steps

variable {p p' : Pipe} {l next : PipeLoc} {killed : Bool}

theorem Pipe.full_iff : p.full = true ↔ p.ring.used = PIPESIZE := by
  rw [Pipe.full, beq_iff_eq]
  exact Ring.nwrite_eq_add_iff (by decide)

theorem Pipe.empty_iff : p.empty = true ↔ p.ring.used = 0 := by
  rw [Pipe.empty, beq_iff_eq]
  exact Ring.nread_eq_nwrite_iff

/-- What a turn of `pipewrite` does, with the bytes that it stores. -/
inductive WriteTurn (addr : List Byte) (i : Nat) (killed : Bool) (p : Pipe) :
    List Byte → Pipe × PipeLoc → Prop where
  | done (hend : addr.length ≤ i) : WriteTurn addr i killed p [] (p, .writeWake addr)
  | gone (hi : i < addr.length) (hfull : p.full = true)
      (hgone : p.readopen = false ∨ killed = true) :
      WriteTurn addr i killed p [] (p, .leave true (-1) [])
  | full (hi : i < addr.length) (hfull : p.full = true) (hopen : p.readopen = true) :
      WriteTurn addr i killed p [] (p, .writeFull addr i)
  | stored {byte : Byte} (hbyte : addr[i]? = some byte) (hfull : p.full = false) :
      WriteTurn addr i killed p [byte] ({ p with ring := p.ring.push byte }, .write addr (i + 1))

theorem pipewrite_turn (addr : List Byte) (i : Nat) (killed : Bool) (p : Pipe) :
    WriteTurn addr i killed p ((PipeLoc.write addr i).stores p) (pipewrite addr i killed p) := by
  have hstores : (PipeLoc.write addr i).stores p = if p.full then [] else (addr[i]?).toList := rfl
  rw [hstores]
  unfold pipewrite
  cases hbyte : addr[i]? with
  | none =>
      rw [Option.toList_none, ite_self]
      exact .done (List.getElem?_eq_none_iff.mp hbyte)
  | some byte =>
      have hi := (List.getElem?_eq_some_iff.mp hbyte).1
      dsimp only
      by_cases hfull : p.full = true
      · rw [if_pos hfull, if_pos hfull]
        split_ifs with hgone
        · exact .gone hi hfull hgone
        · exact .full hi hfull (Bool.eq_true_of_not_eq_false fun h => hgone (.inl h))
      · rw [if_neg hfull, if_neg hfull]
        exact .stored hbyte (Bool.eq_false_iff.mpr hfull)

/-- What a turn of the second loop of `piperead` does. -/
inductive CopyTurn (n : Nat) (addr : List Byte) (p : Pipe) : List Byte → Pipe × PipeLoc → Prop where
  | done (hend : addr.length < n → p.empty = true) : CopyTurn n addr p [] (p, .readWake n addr)
  | took (hlength : addr.length < n) (hempty : p.empty = false) :
      CopyTurn n addr p [p.ring.data (Ring.slot p.ring.nread)]
        ({ p with ring := p.ring.pop }, .copy n (addr ++ [p.ring.data (Ring.slot p.ring.nread)]))

theorem pipecopy_turn (n : Nat) (addr : List Byte) (p : Pipe) :
    CopyTurn n addr p ((PipeLoc.copy n addr).takes p) (pipecopy n addr p) := by
  have htakes : (PipeLoc.copy n addr).takes p = if addr.length < n ∧ p.empty = false then
      [p.ring.data (Ring.slot p.ring.nread)] else [] := rfl
  rw [htakes, pipecopy]
  by_cases hmore : addr.length < n ∧ p.empty = false
  · rw [if_pos hmore, if_pos hmore]
    exact .took hmore.1 hmore.2
  · rw [if_neg hmore, if_neg hmore]
    exact .done fun hlength => Bool.eq_true_of_not_eq_false fun h => hmore ⟨hlength, h⟩

theorem leads_contents (hused : p.ring.used ≤ PIPESIZE)
    (hleads : (pipeCode l).Leads killed p p' next) :
    p.ring.contents ++ l.stores p = l.takes p ++ p'.ring.contents ∧ p'.ring.used ≤ PIPESIZE := by
  have hsame : p.ring.contents ++ [] = [] ++ p.ring.contents ∧ p.ring.used ≤ PIPESIZE :=
    ⟨List.append_nil _, hused⟩
  cases l with
  | back => cases hleads
  | leave | writeEnter | writeFull | writeSleep | writeWake | readEnter | readSleep | readWake
  | closeEnter | closeWake =>
      cases hleads
      exact hsame
  | write addr i =>
      cases hleads
      have hturn := pipewrite_turn addr i killed p
      generalize (PipeLoc.write addr i).stores p = bytes, pipewrite addr i killed p = result at hturn ⊢
      cases hturn with
      | done | gone | full => exact hsame
      | @stored byte hbyte hfull =>
          have hroom : p.ring.used < PIPESIZE := lt_of_le_of_ne hused fun heq =>
            absurd (hfull.symm.trans (Pipe.full_iff.mpr heq)) Bool.false_ne_true
          have hpush := Ring.used_push (Nat.lt_of_le_of_lt hroom (by decide)) byte
          exact ⟨(Ring.contents_push (by decide) (by decide) hroom byte).symm, hpush.trans_le hroom⟩
  | read n =>
      cases hleads
      unfold piperead
      split_ifs <;> exact hsame
  | copy n addr =>
      cases hleads
      have hturn := pipecopy_turn n addr p
      dsimp only
      generalize (PipeLoc.copy n addr).takes p = bytes, pipecopy n addr p = result at hturn ⊢
      cases hturn with
      | done => exact hsame
      | took hlength hempty =>
          have hused' : p.ring.used ≠ 0 := fun heq =>
            absurd (hempty.symm.trans (Pipe.empty_iff.mpr heq)) Bool.false_ne_true
          have hpop := Ring.used_pop hused'
          refine ⟨?_, Nat.le_of_succ_le (hpop.trans_le hused)⟩
          rw [Ring.contents_pop hused']
          exact List.append_nil _
  | close writable =>
      cases hleads
      unfold pipeclose
      dsimp only
      split_ifs <;> exact hsame

/-- The bytes that a call of `pipewrite` has stored so far. -/
def PipeLoc.Sent (addr bytes : List Byte) : PipeLoc → Prop
  | .writeEnter a => a = addr ∧ bytes = []
  | .write a i | .writeFull a i | .writeSleep a i => a = addr ∧ bytes = addr.take i
  | .writeWake a => a = addr ∧ bytes = addr
  | .leave true ret _ => ∃ m, bytes = addr.take m ∧
      (ret = addr.length ∧ m = addr.length ∨ ret = -1 ∧ m < addr.length)
  | _ => False

theorem leads_sent {addr bytes : List Byte} (hsent : l.Sent addr bytes)
    (hleave : ∀ w ret a, l ≠ .leave w ret a) (hleads : (pipeCode l).Leads killed p p' next) :
    next.Sent addr (bytes ++ l.stores p) := by
  cases l with
  | back | readEnter | read | readSleep | copy | readWake | closeEnter | close | closeWake =>
      exact hsent.elim
  | leave => exact absurd rfl (hleave _ _ _)
  | writeEnter a | writeFull a i | writeSleep a i =>
      cases hleads
      obtain ⟨rfl, rfl⟩ := hsent
      exact ⟨rfl, List.append_nil _⟩
  | writeWake a =>
      cases hleads
      obtain ⟨rfl, rfl⟩ := hsent
      refine ⟨bytes.length, ?_, .inl ⟨rfl, rfl⟩⟩
      rw [List.take_length]
      exact List.append_nil _
  | write a i =>
      cases hleads
      obtain ⟨rfl, rfl⟩ := hsent
      have hturn := pipewrite_turn a i killed p
      generalize (PipeLoc.write a i).stores p = bytes, pipewrite a i killed p = result at hturn ⊢
      cases hturn with
      | done hend =>
          refine ⟨rfl, ?_⟩
          rw [List.append_nil, List.take_of_length_le hend]
      | gone hi => exact ⟨i, List.append_nil _, .inr ⟨rfl, hi⟩⟩
      | full => exact ⟨rfl, List.append_nil _⟩
      | stored hbyte =>
          refine ⟨rfl, ?_⟩
          rw [List.take_add_one, hbyte]
          rfl

/-- The bytes that a call of `piperead` has taken out so far. -/
def PipeLoc.Received (n : Nat) (bytes : List Byte) : PipeLoc → Prop
  | .readEnter m | .read m | .readSleep m => m = n ∧ bytes = []
  | .copy m addr | .readWake m addr => m = n ∧ bytes = addr ∧ addr.length ≤ n
  | .leave false ret addr => bytes = addr ∧ addr.length ≤ n ∧
      (ret = addr.length ∨ ret = -1 ∧ addr = [])
  | _ => False

theorem leads_received {n : Nat} {bytes : List Byte} (hreceived : l.Received n bytes)
    (hleave : ∀ w ret a, l ≠ .leave w ret a) (hleads : (pipeCode l).Leads killed p p' next) :
    next.Received n (bytes ++ l.takes p) := by
  cases l with
  | back | writeEnter | write | writeFull | writeSleep | writeWake | closeEnter | close | closeWake =>
      exact hreceived.elim
  | leave => exact absurd rfl (hleave _ _ _)
  | readEnter m | readSleep m =>
      cases hleads
      obtain ⟨rfl, rfl⟩ := hreceived
      exact ⟨rfl, rfl⟩
  | readWake m addr =>
      cases hleads
      obtain ⟨rfl, rfl, hlength⟩ := hreceived
      exact ⟨List.append_nil _, hlength, .inl rfl⟩
  | read m =>
      cases hleads
      obtain ⟨rfl, rfl⟩ := hreceived
      unfold piperead
      split_ifs
      · exact ⟨rfl, Nat.zero_le _, .inr ⟨rfl, rfl⟩⟩
      · exact ⟨rfl, rfl⟩
      · exact ⟨rfl, rfl, Nat.zero_le _⟩
  | copy m addr =>
      cases hleads
      obtain ⟨rfl, rfl, hlength⟩ := hreceived
      have hturn := pipecopy_turn m bytes p
      dsimp only
      generalize (PipeLoc.copy m bytes).takes p = more, pipecopy m bytes p = result at hturn ⊢
      cases hturn with
      | done => exact ⟨rfl, List.append_nil _, hlength⟩
      | took hless =>
          refine ⟨rfl, rfl, ?_⟩
          rw [List.length_append]
          exact hless

end Steps

/-! ### Whole runs -/

section Runs

variable {P : Type}

/-- The byte that a step stores, with the process that stores it. -/
def stored (s : State P PipeLoc PipeChan Pipe) : Label P PipeLoc → List (P × Byte)
  | .run t =>
      match s.thread t with
      | .loc l => (l.stores s.data).map (t, ·)
      | _ => []
  | _ => []

/-- The byte that a step takes out, with the process that gets it. -/
def taken (s : State P PipeLoc PipeChan Pipe) : Label P PipeLoc → List (P × Byte)
  | .run t =>
      match s.thread t with
      | .loc l => (l.takes s.data).map (t, ·)
      | _ => []
  | _ => []

variable {s s' : State P PipeLoc PipeChan Pipe} {label : Label P PipeLoc} {t : P}

theorem stored_run {l : PipeLoc} (ht : s.thread t = .loc l) :
    stored s (.run t) = (l.stores s.data).map (t, ·) := by
  simp only [stored, ht]

theorem taken_run {l : PipeLoc} (ht : s.thread t = .loc l) :
    taken s (.run t) = (l.takes s.data).map (t, ·) := by
  simp only [taken, ht]

theorem stored_run_eq_nil (ht : ∀ l, s.thread t ≠ .loc l) : stored s (.run t) = [] := by
  cases hplace : s.thread t with
  | loc l => exact absurd hplace (ht l)
  | releasing | marking | asleep | runnable | retaking => simp only [stored, hplace]

theorem taken_run_eq_nil (ht : ∀ l, s.thread t ≠ .loc l) : taken s (.run t) = [] := by
  cases hplace : s.thread t with
  | loc l => exact absurd hplace (ht l)
  | releasing | marking | asleep | runnable | retaking => simp only [taken, hplace]

/-- What the steps of the code say about the bytes that a process deals with, and about its location,
until its call ends. -/
structure Tracks (f : PipeLoc → Pipe → List Byte)
    (g : State P PipeLoc PipeChan Pipe → Label P PipeLoc → List (P × Byte))
    (Q : List Byte → PipeLoc → Prop) : Prop where
  run {s : State P PipeLoc PipeChan Pipe} {t : P} {l : PipeLoc} (ht : s.thread t = .loc l) :
    g s (.run t) = (f l s.data).map (t, ·)
  nil {s : State P PipeLoc PipeChan Pipe} {t : P} (ht : ∀ l, s.thread t ≠ .loc l) :
    g s (.run t) = []
  call (s : State P PipeLoc PipeChan Pipe) (t : P) (l : PipeLoc) : g s (.call t l) = []
  kill (s : State P PipeLoc PipeChan Pipe) (t : P) : g s (.kill t) = []
  back (bytes : List Byte) (ret : Int) (addr : List Byte) : ¬Q bytes (.back ret addr)
  leads {l next : PipeLoc} {p p' : Pipe} {killed : Bool} {bytes : List Byte} (h : Q bytes l)
    (hleave : ∀ w ret a, l ≠ .leave w ret a) (hleads : (pipeCode l).Leads killed p p' next) :
    Q (bytes ++ f l p) next

variable {f : PipeLoc → Pipe → List Byte}
  {g : State P PipeLoc PipeChan Pipe → Label P PipeLoc → List (P × Byte)}
  {Q : List Byte → PipeLoc → Prop}

theorem tracks_sent (addr : List Byte) :
    Tracks (P := P) (fun l p => l.stores p) stored (fun bytes l => l.Sent addr bytes) where
  run := stored_run
  nil := stored_run_eq_nil
  call _ _ _ := rfl
  kill _ _ := rfl
  back _ _ _ := id
  leads := leads_sent

theorem tracks_received (n : Nat) :
    Tracks (P := P) (fun l p => l.takes p) taken (fun bytes l => l.Received n bytes) where
  run := taken_run
  nil := taken_run_eq_nil
  call _ _ _ := rfl
  kill _ _ := rfl
  back _ _ _ := id
  leads := leads_received

variable [DecidableEq P]

/-- The bytes of one process. -/
def bytesOf (t : P) (bytes : List (P × Byte)) : List Byte :=
  (bytes.filter fun b => b.1 = t).map Prod.snd

theorem bytesOf_append (t : P) (first second : List (P × Byte)) :
    bytesOf t (first ++ second) = bytesOf t first ++ bytesOf t second := by
  rw [bytesOf, List.filter_append, List.map_append]
  rfl

theorem bytesOf_map (t u : P) (bytes : List Byte) :
    bytesOf t (bytes.map (u, ·)) = if u = t then bytes else [] := by
  rw [bytesOf, List.filter_map, List.map_map]
  split_ifs with hut
  · rw [List.filter_eq_self.mpr fun b _ => by simpa using hut]
    exact List.map_id _
  · rw [List.filter_eq_nil_iff.mpr fun b _ => by simpa using hut]
    rfl

variable [Fintype P] {page : Fin PIPESIZE → Byte} {killable : Bool}

theorem move_contents (hused : s.data.ring.used ≤ PIPESIZE)
    (hmove : Move (pipeProgram page killable) s label s') :
    s.data.ring.contents ++ (stored s label).map Prod.snd
      = (taken s label).map Prod.snd ++ s'.data.ring.contents ∧ s'.data.ring.used ≤ PIPESIZE := by
  have hnothing : s.data.ring.contents ++ ([] : List (P × Byte)).map Prod.snd
      = ([] : List (P × Byte)).map Prod.snd ++ s.data.ring.contents ∧
        s.data.ring.used ≤ PIPESIZE := ⟨List.append_nil _, hused⟩
  cases hmove with
  | @run t _ hstep =>
      rcases hstep.leads with ⟨hdata, hplace, -⟩ | ⟨l, ht, hleads, -⟩
      · rw [stored_run_eq_nil hplace, taken_run_eq_nil hplace, hdata]
        exact hnothing
      · have hmap : ∀ bytes : List Byte, (bytes.map (t, ·)).map Prod.snd = bytes := fun bytes => by
          rw [List.map_map]
          exact List.map_id _
        rw [stored_run ht, taken_run ht, hmap, hmap]
        exact leads_contents hused hleads
  | call => exact hnothing
  | kill => exact hnothing

theorem Tracks.move (htracks : Tracks f g Q) {bytes : List Byte} (h : Q bytes (s.thread t).target)
    (hlasts : ∀ w ret a, s.thread t ≠ .loc (.leave w ret a))
    (hmove : Move (pipeProgram page killable) s label s') :
    Q (bytes ++ bytesOf t (g s label)) (s'.thread t).target := by
  cases hmove with
  | @run u _ hstep =>
      rcases hstep.leads with ⟨-, hplace, hsame⟩ | ⟨l, hl, hnext, hothers⟩
      · rw [htracks.nil hplace, hsame]
        simpa [bytesOf] using h
      · rw [htracks.run hl, bytesOf_map]
        split_ifs with hut
        · subst hut
          rw [hl] at h
          exact htracks.leads h (fun w ret a heq => hlasts w ret a (heq ▸ hl)) hnext
        · rw [List.append_nil, hothers t (Ne.symm hut)]
          exact h
  | @call u l₀ l hu hop henter =>
      -- a process that is outside is not in the call
      have hne : t ≠ u := by
        rintro rfl
        rw [hu] at h
        cases l₀ with
        | back ret addr => exact htracks.back _ _ _ h
        | _ => cases hop
      rw [htracks.call, State.target_move, if_neg hne]
      simpa [bytesOf] using h
  | @kill u =>
      rw [htracks.kill]
      change Q _ ((s.move u (s.thread u).rouse).thread t).target
      rw [s.target_rouse]
      simpa [bytesOf] using h

theorem Tracks.call_lasts (htracks : Tracks f g Q)
    (run : Run (pipeProgram (P := P) page killable).system) (t : P) {j k : Nat} (hjk : j ≤ k)
    (hk : k ≤ run.length) (hstart : Q [] ((run.state j).thread t).target)
    (hlasts : ∀ m, j ≤ m → m < k → ∀ w ret a, (run.state m).thread t ≠ .loc (.leave w ret a)) :
    Q (bytesOf t (run.collect g j k)) ((run.state k).thread t).target := by
  induction k, hjk using Nat.le_induction with
  | base =>
      rw [Run.collect_self]
      exact hstart
  | succ k hjk ih =>
      have hbefore := ih (Nat.le_of_succ_le hk) fun m hm hmk => hlasts m hm (hmk.trans k.lt_succ_self)
      rw [run.collect_succ g hjk, bytesOf_append]
      exact htracks.move hbefore (hlasts k hjk k.lt_succ_self) (perform_move (run.steps k hk))

theorem run_contents (run : Run (pipeProgram (P := P) page killable).system) :
    ∀ i, i ≤ run.length → (run.collect stored 0 i).map Prod.snd
      = (run.collect taken 0 i).map Prod.snd ++ (run.state i).data.ring.contents ∧
        (run.state i).data.ring.used ≤ PIPESIZE := by
  refine run.induction ?_ fun i hi ⟨hbytes, hused⟩ => ?_
  · have hused : (run.state 0).data.ring.used = 0 := by
      rw [run.starts]
      change ((0 : BitVec 32) - 0).toNat = 0
      decide
    have hempty : (run.state 0).data.ring.contents = [] := by
      rw [← List.length_eq_zero_iff, Ring.length_contents, hused]
    rw [Run.collect_self, Run.collect_self, hempty, hused]
    exact ⟨rfl, Nat.zero_le _⟩
  · obtain ⟨hstep, hused'⟩ := move_contents hused (perform_move (run.steps i hi))
    refine ⟨?_, hused'⟩
    rw [run.collect_succ _ (Nat.zero_le i), run.collect_succ _ (Nat.zero_le i), List.map_append,
      List.map_append, hbytes, List.append_assoc, hstep, List.append_assoc]

/-- What a process knows while it has the lock: it has waited for a byte or the end of the file. -/
def PipeLoc.Waited (l : PipeLoc) (p : Pipe) : Prop :=
  match l with
  | .copy _ [] => p.empty = false ∨ p.writeopen = false
  | .readWake n [] => n = 0 ∨ p.empty = true ∧ p.writeopen = false
  | _ => True

omit [DecidableEq P] in
theorem signals_waited :
    Signals (pipeProgram (P := P) page killable) PipeLoc.holds (fun _ _ => True) (fun _ _ => False)
      PipeLoc.Waited where
  owes := False.elim
  acquire {l _} hop d := by
    cases l <;> cases hop <;> trivial
  release _ _ := id
  compute {l _} hop k d hkill hassert := by
    refine ⟨?_, fun _ _ => .inl trivial⟩
    cases l <;> cases hop
    case write addr i =>
        have hturn := pipewrite_turn addr i k d
        generalize (PipeLoc.write addr i).stores d = bytes, pipewrite addr i k d = result at hturn ⊢
        cases hturn <;> trivial
    case read n =>
        unfold piperead
        split_ifs with hwait
        · trivial
        · trivial
        · rw [not_and_or, Bool.not_eq_true, Bool.not_eq_true] at hwait
          exact hwait
    case copy n addr =>
        have hturn := pipecopy_turn n addr d
        dsimp only
        generalize (PipeLoc.copy n addr).takes d = bytes, pipecopy n addr d = result at hturn ⊢
        cases hturn with
        | done hend =>
            cases addr with
            | cons => trivial
            | nil =>
                rcases Nat.eq_zero_or_pos n with hn | hn
                · exact .inl hn
                · have hempty := hend hn
                  refine .inr ⟨hempty, hassert.resolve_left fun h => ?_⟩
                  exact absurd (h.symm.trans hempty) Bool.false_ne_true
        | took =>
            cases addr <;> trivial
    case close => trivial
  wakeup {l _ _} hop d hassert := by
    refine ⟨?_, fun _ => False.elim⟩
    cases l <;> cases hop <;> trivial
  sleep {l _ _} hop := by
    refine ⟨fun _ _ => trivial, fun _ => id, fun _ => ?_⟩
    cases l <;> cases hop <;> trivial

end Runs

/-- **Order.** In every run, what has been stored in the pipe is what has been taken out of it and
then what it holds. A call of `pipewrite` stores a beginning of its buffer, all of it if it returns
its length, and less if it returns -1. What a call of `piperead` leaves in its buffer is what it has
taken out, and that is nothing only at the end of the file. -/
theorem pipe_order {P : Type} [Fintype P] [DecidableEq P] (page : Fin PIPESIZE → Byte)
    (killable : Bool) (run : Run (pipeProgram (P := P) page killable).system) :
    (∀ i, i ≤ run.length → (run.collect stored 0 i).map Prod.snd
      = (run.collect taken 0 i).map Prod.snd ++ (run.state i).data.ring.contents ∧
        (run.state i).data.ring.contents.length ≤ PIPESIZE) ∧
    (∀ t j k, j ≤ k → k ≤ run.length →
      (∀ m, j ≤ m → m < k → ∀ w ret a, (run.state m).thread t ≠ .loc (.leave w ret a)) →
      (∀ addr ret a, (run.state j).thread t = .loc (.writeEnter addr) →
        (run.state k).thread t = .loc (.leave true ret a) →
        ∃ m, bytesOf t (run.collect stored j k) = addr.take m ∧
          (ret = addr.length ∧ m = addr.length ∨ ret = -1 ∧ m < addr.length)) ∧
      ∀ n ret addr, (run.state j).thread t = .loc (.readEnter n) →
        (run.state k).thread t = .loc (.leave false ret addr) →
        bytesOf t (run.collect taken j k) = addr ∧ addr.length ≤ n ∧
          (ret = addr.length ∨ ret = -1 ∧ addr = [])) ∧
    ∀ i t n, i ≤ run.length → (run.state i).thread t = .loc (.readWake n []) →
      n = 0 ∨ (run.state i).data.empty = true ∧ (run.state i).data.writeopen = false := by
  refine ⟨fun i hi => ?_, fun t j k hjk hk hlasts => ⟨fun addr ret a hj hend => ?_,
    fun n ret addr hj hend => ?_⟩, fun i t n hi ht => ?_⟩
  · rw [Ring.length_contents]
    exact run_contents run i hi
  · have hsent := (tracks_sent addr).call_lasts run t hjk hk (by rw [hj]; exact ⟨rfl, rfl⟩) hlasts
    rw [hend] at hsent
    exact hsent
  · have hreceived :=
      (tracks_received n).call_lasts run t hjk hk (by rw [hj]; exact ⟨rfl, rfl⟩) hlasts
    rw [hend] at hreceived
    exact hreceived
  · exact (Signalled.reachable (pipe_locking page killable) signals_waited
      (run.reachable i hi)).assert t _ ht rfl

end Acos.Kernel
