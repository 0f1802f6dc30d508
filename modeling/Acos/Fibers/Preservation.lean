import Acos.Fibers.Schedule

/-!
# Every step keeps the ring and its contexts

One lemma for each function of the library: what it returns from a ring that is in order, that the
ring is in order afterwards, and which step of round robin this was.
-/

namespace Acos.Fibers

open LinkedRing RoundRobin

variable {Func Data : Type} {s s' : State Func Data} {ring rest : List Addr} {head addr : Addr}
  {stack : Nat}

/-- User code runs: main has no slot yet, or the thread at the head is the one that runs. -/
theorem Phase.user_cases (hphase : Phase s ring) {thread : Thread}
    (hcontrol : s.control = .user thread) :
    (thread = .main ∧ s.first = false ∧ ∀ a ∈ ring, Parked s a ∧ ¬ s.HasRun (s.thread a)) ∨
      ∃ head rest, ring = head :: rest ∧ thread = s.thread head ∧ s.first = true ∧
        s.HasRun (s.thread head) ∧ ∀ a ∈ rest, Parked s a := by
  cases hphase with
  | before hfirst hmain hring =>
      exact .inl ⟨Control.user.inj (hcontrol.symm.trans hmain), hfirst, hring⟩
  | user hfirst hhead hrun hrest =>
      exact .inr ⟨_, _, rfl, Control.user.inj (hcontrol.symm.trans hhead), hfirst, hrun, hrest⟩
  | afterSave _ hother | returning _ hother | starting _ hother | exited _ hother =>
      simp [hcontrol] at hother
  | switching _ _ hother => simp [hcontrol] at hother

/-! ## New nodes -/

/-- The state after `create_new_fiber`, for the links it leaves. -/
def State.extended (s : State Func Data) (ring : List Addr) (addr : Addr) (links : Links Addr) :
    State Func Data :=
  { s with
    live := insert addr s.live
    fiber := Function.update s.fiber addr (.new s.created)
    created := s.created + 1
    fibers := (ring ++ [addr]).head?
    links := links }

theorem createNewFiber_ok (hwired : Wired s ring) (hfresh : addr ∉ ring) :
    ∃ links, createNewFiber (.ok addr) s = .ok (s.extended ring addr links) ∧
      Wired (s.extended ring addr links) (ring ++ [addr]) := by
  have hlive : ∀ a, a ∈ insert addr s.live ↔ a ∈ ring ++ [addr] := by
    intro a
    rw [Finset.mem_insert, hwired.live, List.mem_append, List.mem_singleton, or_comm]
  have hfibers := hwired.fibers
  cases ring with
  | nil =>
      refine ⟨s.links.single addr, ?_, ⟨isRing_single s.links addr, rfl, hlive⟩⟩
      unfold createNewFiber
      simp only [hfibers]
      rfl
  | cons head rest =>
      have hprev := hwired.isRing.prev_mem
      refine ⟨s.links.insertBefore head addr, ?_,
        ⟨hwired.isRing.insertBefore hfresh, rfl, hlive⟩⟩
      unfold createNewFiber
      simp [hfibers, State.access, hwired.live, hprev, State.extended]
      rfl

/-- Both callers store to the new node through `fibers->prev`. -/
theorem Wired.exists_last (hwired : Wired s (ring ++ [addr])) :
    ∃ head, s.current = .ok head ∧ s.links.prev head = addr ∧ s.access addr = .ok () := by
  obtain ⟨head, rest, hring⟩ : ∃ head rest, ring ++ [addr] = head :: rest :=
    List.exists_cons_of_ne_nil (by simp)
  have hmem : addr ∈ ring ++ [addr] := by simp
  refine ⟨head, (hring ▸ hwired).current, ?_, hwired.access hmem⟩
  have hlast := (hring ▸ hwired.isRing).getLast?_eq
  rw [← hring, List.getLast?_concat, Option.some.injEq] at hlast
  exact hlast.symm

/-- The state `s'` has one node more than `s`, on a new stack. -/
structure Extends (s s' : State Func Data) (ring : List Addr) (addr : Addr) : Prop where
  wired : Wired s' (ring ++ [addr])
  fiber : ∀ a ∈ ring, s'.fiber a = s.fiber a
  stack : (s'.fiber addr).stack = s.created
  created : s'.created = s.created + 1
  spawned : ∀ stack, stack ≠ s.created → s'.spawned stack = s.spawned stack
  started : s'.started = s.started
  finished : s'.finished = s.finished

theorem Shape.spawned_extends (hshape : Shape s ring) (hextends : Extends s s' ring addr)
    {a : Addr} (ha : a ∈ ring) :
    s'.spawned (s.fiber a).stack = s.spawned (s.fiber a).stack :=
  hextends.spawned _ (hshape.stack_lt a ha).ne

theorem Shape.thread_extends (hshape : Shape s ring) (hextends : Extends s s' ring addr)
    {a : Addr} (ha : a ∈ ring) : s'.thread a = s.thread a :=
  State.thread_congr (by rw [hextends.fiber a ha]) (hshape.spawned_extends hextends ha)

theorem Shape.threads_extends (hshape : Shape s ring) (hextends : Extends s s' ring addr) :
    (ring ++ [addr]).map s'.thread = ring.map s.thread ++ [s'.thread addr] := by
  rw [List.map_append, List.map_singleton,
    List.map_congr_left fun a ha => hshape.thread_extends hextends ha]

theorem Shape.spawned_kept (hshape : Shape s ring) (hextends : Extends s s' ring addr)
    (hsome : (s.spawned stack).isSome) : s'.spawned stack = s.spawned stack :=
  hextends.spawned stack (hshape.spawned_lt stack hsome).ne

theorem Shape.extend (hshape : Shape s ring) (hextends : Extends s s' ring addr)
    (hown : ∀ job, s'.spawned s.created = some job →
      (s'.fiber addr).func = some job.1 ∧ (s'.fiber addr).data = job.2)
    (hmain : s'.first = true → .main ∈ (ring ++ [addr]).map s'.thread)
    (hthread : s'.thread addr ∉ ring.map s.thread) : Shape s' (ring ++ [addr]) where
  toWired := hextends.wired
  threads := by
    rw [hshape.threads_extends hextends, List.nodup_append]
    refine ⟨hshape.threads, List.nodup_singleton _, ?_⟩
    rintro thread hmem _ hnew rfl
    exact hthread (List.mem_singleton.mp hnew ▸ hmem)
  main := hmain
  stack_lt := by
    intro a ha
    rcases List.mem_append.mp ha with ha | ha
    · rw [hextends.fiber a ha, hextends.created]
      exact Nat.lt_succ_of_lt (hshape.stack_lt a ha)
    · rw [List.mem_singleton.mp ha, hextends.stack, hextends.created]
      exact Nat.lt_succ_self _
  own := by
    intro a ha job hjob
    rcases List.mem_append.mp ha with ha | ha
    · rw [hextends.fiber a ha, hshape.spawned_extends hextends ha] at hjob
      rw [hextends.fiber a ha]
      exact hshape.own a ha job hjob
    · cases List.mem_singleton.mp ha
      rw [hextends.stack] at hjob
      exact hown job hjob
  present := by
    intro stack hsome hnot
    rw [hshape.threads_extends hextends, List.mem_append, List.mem_singleton]
    by_cases hstack : stack = s.created
    · refine .inr (State.thread_eq_fiber_iff.mpr ⟨hsome, ?_⟩).symm
      rw [hextends.stack, hstack]
    · rw [hextends.spawned stack hstack] at hsome
      exact .inl (hshape.present stack hsome (hextends.finished ▸ hnot))
  unfinished := by
    intro stack hmem
    rw [hextends.finished] at hmem
    rw [hshape.threads_extends hextends, List.mem_append, List.mem_singleton]
    rintro (hold | hnew)
    · exact hshape.unfinished stack hmem hold
    · have hstack := (State.thread_eq_fiber_iff.mp hnew.symm).2
      have hlt := hshape.spawned_lt stack (hshape.finished_spawned stack hmem)
      rw [← hstack, hextends.stack] at hlt
      exact absurd hlt (Nat.lt_irrefl _)
  spawned_lt := by
    intro stack hsome
    rw [hextends.created]
    by_cases hstack : stack = s.created
    · exact hstack ▸ Nat.lt_succ_self _
    · rw [hextends.spawned stack hstack] at hsome
      exact Nat.lt_succ_of_lt (hshape.spawned_lt stack hsome)
  finished_spawned := by
    intro stack hmem
    rw [hextends.finished] at hmem
    have hsome := hshape.finished_spawned stack hmem
    rwa [hshape.spawned_kept hextends hsome]
  started_nodup := by
    rw [hextends.started]
    exact hshape.started_nodup
  started_own := by
    intro entry hmem
    rw [hextends.started] at hmem
    have hjob := hshape.started_own entry hmem
    rwa [hshape.spawned_kept hextends (by rw [hjob]; rfl)]

theorem Parked.extend (hshape : Shape s ring) (hextends : Extends s s' ring addr) {a : Addr}
    (ha : a ∈ ring) (hcalls : s'.calls (s.thread a) = s.calls (s.thread a))
    (hparked : Parked s a) : Parked s' a :=
  hparked.congr (hextends.fiber a ha) (hshape.spawned_extends hextends ha)
    (State.hasRun_congr hextends.started _) hcalls

/-- Nothing has run on a stack that does not exist yet. -/
theorem Shape.not_hasRun_created (hshape : Shape s ring) : ¬ s.HasRun (.fiber s.created) := by
  rintro ⟨entry, hmem, hstack⟩
  have hjob := hshape.started_own entry hmem
  have hlt := hshape.spawned_lt entry.1 (by rw [hjob]; rfl)
  rw [hstack] at hlt
  exact absurd hlt (Nat.lt_irrefl _)

theorem Wired.not_mem_of_available (hwired : Wired s ring) (havailable : Available s (.ok addr)) :
    addr ∉ ring := fun hmem =>
  havailable addr ((hwired.live addr).mpr hmem) rfl

/-! ## `FiberSpawn` -/

/-- The state after `FiberSpawn`, for the links it leaves. -/
def State.spawnedAt (s : State Func Data) (ring : List Addr) (addr : Addr) (links : Links Addr)
    (func : Func) (data : Option Data) : State Func Data :=
  { (s.extended ring addr links).modify addr (Fiber.setJob (some func) data) with
    spawned := Function.update s.spawned s.created (some (func, data)) }

theorem fiberSpawn_ok (hwired : Wired s ring) (hfresh : addr ∉ ring) (func : Func)
    (data : Option Data) :
    ∃ links, fiberSpawn func data (.ok addr) s = .ok (s.spawnedAt ring addr links func data) ∧
      Extends s (s.spawnedAt ring addr links func data) ring addr := by
  obtain ⟨links, hcreate, hwired'⟩ := createNewFiber_ok hwired hfresh
  obtain ⟨head, hcurrent, hprev, haccess⟩ := hwired'.exists_last
  refine ⟨links, ?_, ?_⟩
  · unfold fiberSpawn
    simp only [hcreate, bind, Except.bind, hcurrent, hprev, haccess]
    rfl
  · refine ⟨⟨hwired'.isRing, hwired'.fibers, hwired'.live⟩, ?_, ?_, rfl, ?_, rfl, rfl⟩
    · intro a ha
      have hne : a ≠ addr := fun heq => hfresh (heq ▸ ha)
      simp [State.spawnedAt, State.extended, State.modify, hne]
    · simp [State.spawnedAt, State.extended, State.modify, Fiber.new, Fiber.setJob]
    · intro stack hne
      simp [State.spawnedAt, hne]

theorem Shape.exited (hshape : Shape s ring) {event : Event}
    (hevent : event = .spawn ∨ event = .yield ∧ s.status = .before) (failure : AllocFailure) :
    Follows event (s.queue ring) { s with control := .halted (.exit failure) } := by
  have hshape' : Shape { s with control := .halted (.exit failure) } ring :=
    hshape.congr ⟨rfl, rfl, rfl, rfl, rfl⟩ ⟨rfl, rfl, rfl⟩ fun _ => ⟨rfl, rfl, rfl⟩
  exact .of_status hshape' (.exited failure rfl) (fun _ _ => rfl) rfl rfl
    (State.status_halted rfl) (.stop hevent)

/-- The node a spawn adds, and what it leaves alone. -/
structure Spawns (s s' : State Func Data) (ring : List Addr) (addr : Addr) : Prop
    extends Extends s s' ring addr where
  shape : Shape s' (ring ++ [addr])
  thread : s'.thread addr = .fiber s.created
  parked : Parked s' addr
  calls : s'.calls = s.calls
  first : s'.first = s.first
  control : s'.control = s.control

theorem Shape.spawns (hshape : Shape s ring) {func : Func} {data : Option Data}
    {links : Links Addr} (hextends : Extends s (s.spawnedAt ring addr links func data) ring addr) :
    Spawns s (s.spawnedAt ring addr links func data) ring addr := by
  generalize hs' : s.spawnedAt ring addr links func data = s' at hextends
  have hfiber : s'.fiber addr =
      { (Fiber.new s.created : Fiber Func Data) with func := some func, data := data } := by
    rw [← hs']
    simp [State.spawnedAt, State.extended, State.modify, Fiber.setJob]
  have hjob : s'.spawned s.created = some (func, data) := by
    rw [← hs']
    simp [State.spawnedAt]
  have hthread : s'.thread addr = .fiber s.created :=
    State.thread_eq_fiber_iff.mpr ⟨by rw [hjob]; rfl, hextends.stack⟩
  have hfirst : s'.first = s.first := by rw [← hs']; rfl
  have hnotRun : ¬ s'.HasRun (s'.thread addr) := by
    rw [hthread, State.hasRun_congr hextends.started]
    exact hshape.not_hasRun_created
  refine ⟨hextends, ?_, hthread, ⟨by rw [hfiber]; rfl, .inl ⟨hnotRun, ?_, ?_⟩⟩,
    by rw [← hs']; rfl, hfirst, by rw [← hs']; rfl⟩
  · refine hshape.extend hextends ?_ ?_ ?_
    · intro job hjob'
      rw [hjob, Option.some.injEq] at hjob'
      rw [hfiber, ← hjob']
      exact ⟨rfl, rfl⟩
    · intro hmain
      obtain ⟨a, ha, hthread⟩ := List.mem_map.mp (hshape.main (hfirst ▸ hmain))
      refine List.mem_map.mpr ⟨a, List.mem_append_left _ ha, ?_⟩
      rw [hshape.thread_extends hextends ha, hthread]
    · rw [hthread]
      intro hmem
      obtain ⟨a, ha, heq⟩ := List.mem_map.mp hmem
      exact (hshape.stack_lt a ha).ne (State.thread_eq_fiber_iff.mp heq).2
  · rw [hfiber]
    rfl
  · rw [hfiber]
    rfl

theorem Spawns.phase (hspawns : Spawns s s' ring addr) (hshape : Shape s ring)
    (hphase : Phase s ring) {thread : Thread} (hcontrol : s.control = .user thread) :
    Phase s' (ring ++ [addr]) ∧ s'.status = s.status := by
  have hold : ∀ a ∈ ring, Parked s a → Parked s' a := fun a ha =>
    Parked.extend hshape hspawns.toExtends ha (by rw [hspawns.calls])
  have hthread : ∀ a ∈ ring, s'.thread a = s.thread a := fun a ha =>
    hshape.thread_extends hspawns.toExtends ha
  have hrun : ∀ thread, s'.HasRun thread ↔ s.HasRun thread := State.hasRun_congr hspawns.started
  obtain ⟨rfl, hfirst, hring⟩ | ⟨head, rest, rfl, rfl, hfirst, hran, hrest⟩ :=
    hphase.user_cases hcontrol
  · have hfirst' := hspawns.first.trans hfirst
    have hcontrol' := hspawns.control.trans hcontrol
    refine ⟨.before hfirst' hcontrol' fun a ha => ?_, ?_⟩
    · rcases List.mem_append.mp ha with ha | ha
      · rw [hthread a ha, hrun]
        exact ⟨hold a ha (hring a ha).1, (hring a ha).2⟩
      · cases List.mem_singleton.mp ha
        refine ⟨hspawns.parked, ?_⟩
        rw [hspawns.thread, hrun]
        exact hshape.not_hasRun_created
    · rw [State.status_before hcontrol' hfirst', State.status_before hcontrol hfirst]
  · have hfirst' := hspawns.first.trans hfirst
    have hcontrol' : s'.control = .user (s'.thread head) := by
      rw [hspawns.control, hcontrol, hthread head List.mem_cons_self]
    refine ⟨.user hfirst' hcontrol' ?_ ?_, ?_⟩
    · rwa [hthread head List.mem_cons_self, hrun]
    · intro a ha
      rcases List.mem_append.mp ha with ha | ha
      · exact hold a (List.mem_cons_of_mem _ ha) (hrest a ha)
      · exact List.mem_singleton.mp ha ▸ hspawns.parked
    · rw [State.status_user hcontrol' hspawns.shape.fibers hfirst',
        State.status_user hcontrol hshape.fibers hfirst, hspawns.fiber head List.mem_cons_self]

theorem Phase.spawn_status (hphase : Phase s ring) (hshape : Shape s ring) {thread : Thread}
    (hcontrol : s.control = .user thread) :
    s.status = .before ∨ ∃ marked, s.status = .running marked := by
  obtain ⟨rfl, hfirst, _⟩ | ⟨head, rest, rfl, rfl, hfirst, _⟩ := hphase.user_cases hcontrol
  · exact .inl (State.status_before hcontrol hfirst)
  · exact .inr ⟨_, State.status_user hcontrol hshape.fibers hfirst⟩

theorem fiberSpawn_step (hshape : Shape s ring) (hphase : Phase s ring) {thread : Thread}
    (hcontrol : s.control = .user thread) {alloc : Except AllocFailure Addr}
    (havailable : Available s alloc) (func : Func) (data : Option Data) :
    Follows .spawn (s.queue ring) (s.settle (fiberSpawn func data alloc s)) := by
  cases alloc with
  | error failure => exact hshape.exited (.inl rfl) failure
  | ok addr =>
      have hfresh := hshape.toWired.not_mem_of_available havailable
      obtain ⟨links, hspawn, hextends⟩ := fiberSpawn_ok hshape.toWired hfresh func data
      rw [hspawn, State.settle_ok]
      have hspawns := hshape.spawns hextends
      obtain ⟨hphase', hstatus⟩ := hspawns.phase hshape hphase hcontrol
      refine ⟨ring ++ [addr], hspawns.shape, hphase', ?_⟩
      have hqueue : (s.spawnedAt ring addr links func data).queue (ring ++ [addr])
          = { s.queue ring with members := (s.queue ring).members ++ [.fiber s.created] } := by
        apply Queue.ext
        · exact hstatus
        · change List.map _ _ = List.map _ _ ++ _
          rw [List.map_append, List.map_singleton, hspawns.thread,
            List.map_congr_left fun a ha => hshape.thread_extends hextends ha]
        · rfl
        · rfl
      rw [hqueue]
      exact .spawn _ (hphase.spawn_status hshape hcontrol)

/-! ## `FiberYield` up to `save_context` -/

/-- The current node holds the context of the caller. -/
def State.savedAt (s : State Func Data) (thread : Thread) (head : Addr) : State Func Data :=
  { s.modify head (Fiber.setCtx (.saved thread (s.calls thread) .current)) with
    control := .afterSave thread }

/-- The caller has got a node of its own, for the links this leaves. -/
def State.settledAt (s : State Func Data) (thread : Thread) (head addr : Addr)
    (links : Links Addr) : State Func Data :=
  { ({ s with first := true }.extended [head] addr links).modify addr fun fiber =>
      ((fiber.setJob none none).setRepeats false).setCtx
        (.saved thread (s.calls thread) .newFiber) with
    control := .resume thread }

theorem Wired.called (hwired : Wired s ring) (thread : Thread) : Wired (s.called thread) ring :=
  ⟨hwired.isRing, hwired.fibers, hwired.live⟩

theorem fiberYield_nil (hwired : Wired s []) (thread : Thread)
    (alloc : Except AllocFailure Addr) :
    fiberYield thread alloc s = .ok (s.called thread) := by
  have hfibers : (s.called thread).fibers = none := hwired.fibers
  unfold fiberYield
  simp only [hfibers, if_true]
  rfl

theorem fiberYield_cons (hwired : Wired s (head :: rest)) (thread : Thread)
    (alloc : Except AllocFailure Addr) :
    fiberYield thread alloc s =
      if s.first = false ∧ s.links.next head = head then saveNewFiber thread alloc (s.called thread)
      else saveCurrent thread (s.called thread) := by
  have hfibers : (s.called thread).fibers = some head := hwired.fibers
  unfold fiberYield
  simp only [hfibers, (hwired.called thread).current, reduceCtorEq, if_false]
  rfl

theorem saveCurrent_ok (hwired : Wired s (head :: rest)) (thread : Thread) :
    saveCurrent thread s = .ok (s.savedAt thread head) := by
  unfold saveCurrent
  rw [hwired.current]
  rfl

theorem afterSave_ok (hwired : Wired s (head :: rest)) (thread : Thread) :
    afterSave thread s = .ok
      { (if (s.fiber head).done then s.modify head (Fiber.setRepeats false)
        else { s.modify head (Fiber.setRepeats false) with fibers := some (s.links.next head) })
        with control := .resume thread } := by
  have hdone : ((s.modify head (Fiber.setRepeats false)).fiber head).done
      = (s.fiber head).done := by
    rw [State.modify_fiber_self]
    rfl
  unfold afterSave
  rw [hwired.current, ← hdone]
  rfl

theorem resume_of_done (hwired : Wired s (head :: rest)) (thread : Thread)
    (hdone : (s.fiber head).done = true) :
    resume thread s =
      .ok { s.modify head (Fiber.setDone false) with control := .user thread } := by
  unfold resume
  rw [hwired.current]
  simp only [bind, Except.bind, hdone, if_true]
  rfl

theorem resume_of_not_done (hwired : Wired s (head :: rest)) (thread : Thread)
    (hdone : (s.fiber head).done = false) :
    resume thread s =
      if (s.fiber head).repeats then getContext (s.fiber head).ctx s
      else getContext ((s.modify head (Fiber.setDone true)).fiber head).ctx
        (s.modify head (Fiber.setDone true)) := by
  unfold resume
  rw [hwired.current]
  simp only [bind, Except.bind, hdone, Bool.false_eq_true, if_false]
  split_ifs <;> rfl

theorem startFunc_ok (hwired : Wired s (head :: rest)) (stack : Nat) {func : Func}
    (hfunc : (s.fiber head).func = some func) :
    startFunc stack s = .ok { s with
      control := .user (.fiber stack)
      started := s.started ++ [(stack, func, (s.fiber head).data)] } := by
  unfold startFunc
  rw [hwired.current]
  simp only [bind, Except.bind, hfunc]
  rfl

theorem saveNewFiber_ok (hwired : Wired s [head]) (thread : Thread) (hfresh : addr ∉ [head]) :
    ∃ links, saveNewFiber thread (.ok addr) s = .ok (s.settledAt thread head addr links) ∧
      Extends s (s.settledAt thread head addr links) [head] addr := by
  have hfirst : Wired { s with first := true } [head] :=
    ⟨hwired.isRing, hwired.fibers, hwired.live⟩
  obtain ⟨links, hcreate, hwired'⟩ := createNewFiber_ok hfirst hfresh
  obtain ⟨_, hlast, hprev, haccess⟩ := hwired'.exists_last
  refine ⟨links, ?_, ?_⟩
  · unfold saveNewFiber
    simp only [hcreate, bind, Except.bind, hlast, hprev, haccess]
    rfl
  · refine ⟨⟨hwired'.isRing, hwired'.fibers, hwired'.live⟩, ?_, ?_, rfl, fun _ _ => rfl, rfl, rfl⟩
    · intro a ha
      have hne : a ≠ addr := fun heq => hfresh (heq ▸ ha)
      simp [State.settledAt, State.extended, State.modify, hne]
    · simp [State.settledAt, State.extended, State.modify, Fiber.new, Fiber.setJob,
        Fiber.setRepeats, Fiber.setCtx]

theorem Shape.called (hshape : Shape s ring) (thread : Thread) : Shape (s.called thread) ring :=
  hshape.congr ⟨rfl, rfl, rfl, rfl, rfl⟩ ⟨rfl, rfl, rfl⟩ fun _ => ⟨rfl, rfl, rfl⟩

theorem Shape.moveTo (hshape : Shape s ring) (control : Control) :
    Shape { s with control := control } ring :=
  hshape.congr ⟨rfl, rfl, rfl, rfl, rfl⟩ ⟨rfl, rfl, rfl⟩ fun _ => ⟨rfl, rfl, rfl⟩

/-- A call of `FiberYield` concerns the context of its caller only. -/
theorem Parked.called (hparked : Parked s addr) {thread : Thread}
    (hne : s.thread addr ≠ thread) : Parked (s.called thread) addr :=
  hparked.congr rfl rfl Iff.rfl (Function.update_of_ne hne _ _)

/-- A change that leaves the node and the history alone. -/
theorem Parked.modify (hparked : Parked s addr) {a : Addr} (hne : addr ≠ a)
    (store : Fiber Func Data → Fiber Func Data) : Parked (s.modify a store) addr :=
  hparked.congr (State.modify_fiber_of_ne s hne store) rfl Iff.rfl rfl

theorem State.thread_modify (s : State Func Data) (a b : Addr)
    (store : Fiber Func Data → Fiber Func Data)
    (hstore : ∀ fiber, (store fiber).stack = fiber.stack) :
    (s.modify a store).thread b = s.thread b := by
  refine State.thread_congr ?_ rfl
  by_cases hb : b = a
  · subst hb
    rw [State.modify_fiber_self, hstore]
  · rw [State.modify_fiber_of_ne s hb]

theorem saveCurrent_step (hshape : Shape s (head :: rest)) (hfirst : s.first = true)
    (hcontrol : s.control = .user (s.thread head)) (hrun : s.HasRun (s.thread head))
    (hrest : ∀ a ∈ rest, Parked s a) :
    Follows .yield (s.queue (head :: rest)) (s.savedAt (s.thread head) head) := by
  set s' := s.savedAt (s.thread head) head with hs'
  have hthread : ∀ a, s'.thread a = s.thread a := fun a => s.thread_modify head a _ fun _ => rfl
  have hfiber : s'.fiber head = (s.fiber head).setCtx _ := s.modify_fiber_self head _
  have hdone : (s'.fiber head).done = (s.fiber head).done := by
    rw [hfiber]
    rfl
  have hshape' : Shape s' (head :: rest) :=
    (hshape.modify head (Fiber.setCtx _) fun _ => ⟨rfl, rfl, rfl⟩).moveTo _
  refine .of_status hshape'
    (.afterSave hfirst (congrArg Control.afterSave (hthread head).symm) ?_ ?_ ?_)
    (fun a _ => hthread a) rfl rfl (State.status_afterSave rfl hshape'.fibers) ?_
  · rw [hthread]
    exact hrun
  · rw [hthread, hfiber]
    rfl
  · intro a ha
    exact (hrest a ha).congr (State.modify_fiber_of_ne s (hshape.ne_of_mem ha) _) rfl Iff.rfl rfl
  · have hstatus := State.status_user hcontrol hshape.fibers hfirst
    rw [hdone]
    cases hmark : (s.fiber head).done with
    | false => exact .leave (hmark ▸ hstatus)
    | true => exact .keep 2 (hmark ▸ hstatus)

theorem saveNewFiber_step (hshape : Shape s [head]) (hfirst : s.first = false)
    (hcontrol : s.control = .user .main) (hparked : Parked s head)
    (hrun : ¬ s.HasRun (s.thread head)) {links : Links Addr}
    (hextends : Extends s (s.settledAt .main head addr links) [head] addr) :
    Follows .yield (s.queue [head]) (s.settledAt .main head addr links) := by
  generalize hs' : s.settledAt .main head addr links = s' at hextends ⊢
  have hfiber : s'.fiber addr =
      ⟨none, none, s.created, .saved .main (s.calls .main) .newFiber, false, false⟩ := by
    rw [← hs']
    simp [State.settledAt, State.extended, State.modify, Fiber.new, Fiber.setJob,
      Fiber.setRepeats, Fiber.setCtx]
  have hspawned : s'.spawned s.created = none := by
    have hnone : s.spawned s.created = none := by
      by_contra hsome
      exact absurd (hshape.spawned_lt _ (Option.ne_none_iff_isSome.mp hsome)) (Nat.lt_irrefl _)
    rw [← hs']
    exact hnone
  have hmain : s'.thread addr = .main := by
    unfold State.thread
    simp [hfiber, hspawned]
  have hcalls : s'.calls = s.calls := by rw [← hs']; rfl
  have hcontrol' : s'.control = .resume .main := by rw [← hs']; rfl
  have hmem : head ∈ [head] := List.mem_singleton_self head
  have hshape' : Shape s' ([head] ++ [addr]) := by
    refine hshape.extend hextends ?_ ?_ ?_
    · intro job hjob
      simp [hspawned] at hjob
    · exact fun _ => List.mem_map.mpr ⟨addr, by simp, hmain⟩
    · rw [hmain, List.map_singleton, List.mem_singleton]
      intro heq
      exact hrun (heq ▸ trivial)
  have hnext : Parked s' head := hparked.extend hshape hextends hmem (by rw [hcalls])
  refine ⟨[head] ++ [addr], hshape', .switching .main ?_ hcontrol' ?_, ?_⟩
  · rw [← hs']
    rfl
  · intro a ha
    rcases List.mem_cons.mp ha with rfl | ha
    · exact hnext
    · cases List.mem_singleton.mp ha
      refine ⟨by rw [hfiber], .inr ⟨?_, by rw [hfiber], .newFiber, ?_⟩⟩
      · rw [hmain]
        trivial
      · rw [hmain, hfiber, hcalls]
  · have hqueue : s'.queue ([head] ++ [addr])
        = { s.queue [head] with
            status := .arriving 3, members := (s.queue [head]).members ++ [Thread.main] } := by
      apply Queue.ext
      · rw [show (s'.queue ([head] ++ [addr])).status = s'.status from rfl,
          State.status_resume hcontrol' hshape'.fibers, hnext.done]
        rfl
      · change [s'.thread head, s'.thread addr] = [s.thread head, .main]
        rw [hmain, hshape.thread_extends hextends hmem]
      · rw [← hs']
        rfl
      · rw [← hs']
        rfl
    rw [hqueue]
    exact .enter Thread.main 3 (State.status_before hcontrol hfirst) rfl

/-- The yield of main before it has got a slot. -/
theorem firstYield_step (hshape : Shape s ring) (hfirst : s.first = false)
    (hcontrol : s.control = .user .main)
    (hring : ∀ a ∈ ring, Parked s a ∧ ¬ s.HasRun (s.thread a))
    {alloc : Except AllocFailure Addr} (havailable : Available s alloc)
    (halone : ∀ head, s.fibers = some head → s.links.next head = head) :
    Follows .yield (s.queue ring) (s.settle (fiberYield .main alloc s)) := by
  have hstatus := State.status_before hcontrol hfirst
  cases ring with
  | nil =>
      rw [fiberYield_nil hshape.toWired]
      exact ⟨[], hshape.called .main, .before hfirst hcontrol nofun, .idle hstatus rfl⟩
  | cons head rest =>
      have hnext := halone head hshape.fibers
      cases hshape.isRing.next_eq_self_iff.mp hnext
      rw [fiberYield_cons hshape.toWired, if_pos ⟨hfirst, hnext⟩]
      cases alloc with
      | error failure => exact hshape.exited (.inr ⟨rfl, hstatus⟩) failure
      | ok addr =>
          have hfresh := hshape.toWired.not_mem_of_available havailable
          obtain ⟨links, hsave, hextends⟩ :=
            saveNewFiber_ok (hshape.toWired.called .main) .main hfresh
          obtain ⟨hparked, hrun⟩ := hring head (List.mem_singleton_self head)
          rw [hsave]
          exact saveNewFiber_step (hshape.called .main) hfirst hcontrol
            (hparked.called fun heq => hrun (heq ▸ trivial)) hrun hextends

/-- The yield of the running thread, when it does not meet more than one node before main has got
a slot. -/
theorem fiberYield_step (hshape : Shape s ring) (hphase : Phase s ring) {thread : Thread}
    (hcontrol : s.control = .user thread) {alloc : Except AllocFailure Addr}
    (havailable : Available s alloc)
    (halone : s.first = false → ∀ head, s.fibers = some head → s.links.next head = head) :
    Follows .yield (s.queue ring) (s.settle (fiberYield thread alloc s)) := by
  obtain ⟨rfl, hfirst, hring⟩ | ⟨head, rest, rfl, rfl, hfirst, hrun, hrest⟩ :=
    hphase.user_cases hcontrol
  · exact firstYield_step hshape hfirst hcontrol hring havailable (halone hfirst)
  · rw [fiberYield_cons hshape.toWired, if_neg (by simp [hfirst]),
      saveCurrent_ok (hshape.toWired.called _)]
    exact saveCurrent_step (hshape.called _) hfirst hcontrol hrun fun a ha =>
      (hrest a ha).called (hshape.thread_ne ha)

/-! ## `FiberYield` behind `save_context` -/

/-- The thread is marked, so the call goes on in it. -/
theorem afterSave_returns (hshape : Shape s (head :: rest)) (hfirst : s.first = true)
    (hcontrol : s.control = .afterSave (s.thread head)) (hrun : s.HasRun (s.thread head))
    (hdone : (s.fiber head).done = true) (hrest : ∀ a ∈ rest, Parked s a) :
    Follows .internal (s.queue (head :: rest))
      { s.modify head (Fiber.setRepeats false) with control := .resume (s.thread head) } := by
  have hthread : ∀ a, (s.modify head (Fiber.setRepeats false)).thread a = s.thread a := fun a =>
    s.thread_modify head a _ fun _ => rfl
  have hshape' := hshape.modify head (Fiber.setRepeats false) fun _ => ⟨rfl, rfl, rfl⟩
  have hdone' : ((s.modify head (Fiber.setRepeats false)).fiber head).done = true := by
    rw [State.modify_fiber_self]
    exact hdone
  have hstatus := State.status_afterSave hcontrol hshape.fibers
  rw [if_pos hdone] at hstatus
  refine .of_status (hshape'.moveTo _) (.returning hfirst ?_ ?_ hdone' ?_)
    (fun a _ => hthread a) rfl rfl (State.status_resume rfl hshape'.fibers) ?_
  · exact congrArg Control.resume (hthread head).symm
  · exact hthread head ▸ hrun
  · exact fun a ha => ((hrest a ha).modify (hshape.ne_of_mem ha) _).congr rfl rfl Iff.rfl rfl
  · exact .pass _ hstatus (by rw [if_pos hdone']; decide)

/-- The thread is not marked: it is parked, and `fibers` moves on. -/
theorem afterSave_rotates (hshape : Shape s (head :: rest)) (hfirst : s.first = true)
    (hcontrol : s.control = .afterSave (s.thread head)) (hrun : s.HasRun (s.thread head))
    (hctx : (s.fiber head).ctx = .saved (s.thread head) (s.calls (s.thread head)) .current)
    (hdone : (s.fiber head).done = false) (hrest : ∀ a ∈ rest, Parked s a) :
    Follows .internal (s.queue (head :: rest))
      { s.modify head (Fiber.setRepeats false) with
        fibers := some (s.links.next head), control := .resume (s.thread head) } := by
  set s' := s.modify head (Fiber.setRepeats false) with hs'
  have hthread : ∀ a, s'.thread a = s.thread a := fun a => s.thread_modify head a _ fun _ => rfl
  have hshape' : Shape s' (head :: rest) :=
    hshape.modify head (Fiber.setRepeats false) fun _ => ⟨rfl, rfl, rfl⟩
  have hfiber : s'.fiber head = (s.fiber head).setRepeats false := by simp [hs']
  have hstatus := State.status_afterSave hcontrol hshape.fibers
  rw [if_neg (by simp [hdone])] at hstatus
  have hparked : ∀ a ∈ rest ++ [head], Parked s' a := by
    intro a ha
    rcases List.mem_append.mp ha with ha | ha
    · exact (hrest a ha).modify (hshape.ne_of_mem ha) _
    · cases List.mem_singleton.mp ha
      refine ⟨by rw [hfiber]; exact hdone,
        .inr ⟨hthread head ▸ hrun, by rw [hfiber]; rfl, .current, ?_⟩⟩
      rw [hthread, hfiber]
      exact hctx
  have hrotate := hshape'.rotate.moveTo (.resume (s.thread head))
  obtain ⟨next, others, hring⟩ : ∃ next others, rest ++ [head] = next :: others :=
    List.exists_cons_of_ne_nil (by simp)
  refine .of_status hrotate ?_ (fun a _ => hthread a) rfl rfl
    (State.status_resume rfl (hring ▸ hrotate).fibers) ?_
  · rw [hring] at hparked ⊢
    exact .switching (s.thread head) hfirst rfl fun a ha =>
      (hparked a ha).congr rfl rfl Iff.rfl rfl
  · rw [State.queue_rotate]
    exact .rotate _ hstatus rfl

theorem afterSave_step (hshape : Shape s ring) (hphase : Phase s ring) {thread : Thread}
    (hcontrol : s.control = .afterSave thread) :
    Follows .internal (s.queue ring) (s.settle (afterSave thread s)) := by
  cases hphase with
  | @afterSave head rest hfirst hhead hrun hctx hrest =>
      cases hcontrol.symm.trans hhead
      rw [afterSave_ok hshape.toWired, State.settle_ok]
      cases hdone : (s.fiber head).done with
      | true => exact afterSave_returns hshape hfirst hhead hrun hdone hrest
      | false => exact afterSave_rotates hshape hfirst hhead hrun hctx hdone hrest
  | before _ hother | user _ hother | returning _ hother | starting _ hother | exited _ hother =>
      simp [hcontrol] at hother
  | switching _ _ hother => simp [hcontrol] at hother

theorem State.thread_eq_of_not_hasRun (hrun : ¬ s.HasRun (s.thread addr)) :
    s.thread addr = .fiber (s.fiber addr).stack := by
  unfold State.thread at hrun ⊢
  split
  · rfl
  · rw [if_neg ‹_›] at hrun
    exact absurd trivial hrun

theorem Resumes.setDone (hresumes : Resumes s addr) (done : Bool) :
    Resumes (s.modify addr (Fiber.setDone done)) addr := by
  unfold Resumes at hresumes ⊢
  rw [s.thread_modify addr addr (Fiber.setDone done) fun _ => rfl, State.modify_fiber_self]
  exact hresumes

/-- A switch to the node at the head arrives in the thread of this node. -/
theorem getContext_arrives (hshape : Shape s (head :: rest)) (hfirst : s.first = true)
    (hresumes : Resumes s head) (hdone : s.HasRun (s.thread head) → (s.fiber head).done = true)
    (hrest : ∀ a ∈ rest, Parked s a) :
    ∃ next left, getContext (s.fiber head).ctx s = .ok next ∧ left < 3 ∧
      Shape next (head :: rest) ∧ Phase next (head :: rest) ∧
      next.queue (head :: rest) = { s.queue (head :: rest) with status := .arriving left } := by
  have hvalid : (s.fiber head).ctx.Valid s := by
    rcases hresumes with ⟨_, hctx, _⟩ | ⟨_, _, site, hctx⟩
    · rw [hctx]
      trivial
    · rw [hctx]
      refine ⟨rfl, fun stack hmem heq => hshape.unfinished stack hmem ?_⟩
      exact heq ▸ List.mem_map_of_mem List.mem_cons_self
  have hrest' : ∀ control, ∀ a ∈ rest, Parked { s with control := control } a :=
    fun control a ha => (hrest a ha).congr rfl rfl Iff.rfl rfl
  have hqueue : ∀ control left, ({ s with control := control } : State Func Data).status
      = .arriving left → ({ s with control := control } : State Func Data).queue (head :: rest)
        = { s.queue (head :: rest) with status := .arriving left } := by
    exact fun control left hstatus => State.queue_eq (fun _ _ => rfl) rfl rfl hstatus
  refine ⟨{ s with control := (s.fiber head).ctx.target }, ?_⟩
  rw [getContext, if_pos hvalid]
  have hmoved := hshape.moveTo (s.fiber head).ctx.target
  rcases hresumes with ⟨hrun, hctx, _⟩ | ⟨hrun, _, site, hctx⟩
  · have htarget : (s.fiber head).ctx.target = .startFunc (s.fiber head).stack :=
      congrArg Context.target hctx
    exact ⟨1, rfl, by decide, hmoved,
      .starting hfirst htarget (State.thread_eq_of_not_hasRun hrun) hrun (hrest' _),
      hqueue _ 1 (State.status_startFunc htarget hshape.fibers)⟩
  · cases site with
    | newFiber =>
        have htarget : (s.fiber head).ctx.target = .resume (s.thread head) :=
          congrArg Context.target hctx
        exact ⟨1, rfl, by decide, hmoved, .returning hfirst htarget hrun (hdone hrun) (hrest' _),
          hqueue _ 1 ((State.status_resume htarget hmoved.fibers).trans (by simp [hdone hrun]))⟩
    | current =>
        have htarget : (s.fiber head).ctx.target = .afterSave (s.thread head) :=
          congrArg Context.target hctx
        exact ⟨2, rfl, by decide, hmoved, .afterSave hfirst htarget hrun hctx (hrest' _),
          hqueue _ 2 ((State.status_afterSave htarget hmoved.fibers).trans (if_pos (hdone hrun)))⟩

/-- The call returns to the thread at the head. -/
theorem resume_returns (hshape : Shape s (head :: rest)) (hfirst : s.first = true)
    (hcontrol : s.control = .resume (s.thread head)) (hrun : s.HasRun (s.thread head))
    (hrest : ∀ a ∈ rest, Parked s a) :
    Follows .internal (s.queue (head :: rest))
      { s.modify head (Fiber.setDone false) with control := .user (s.thread head) } := by
  have hthread : ∀ a, (s.modify head (Fiber.setDone false)).thread a = s.thread a := fun a =>
    s.thread_modify head a _ fun _ => rfl
  have hshape' :=
    (hshape.modify head (Fiber.setDone false) fun _ => ⟨rfl, rfl, rfl⟩).moveTo
      (.user (s.thread head))
  refine .of_status hshape' (.user hfirst (congrArg Control.user (hthread head).symm)
    (hthread head ▸ hrun) fun a ha => ?_) (fun a _ => hthread a) rfl rfl
    (State.status_user rfl hshape'.fibers hfirst) ?_
  · exact (hrest a ha).congr (State.modify_fiber_of_ne s (hshape.ne_of_mem ha) _) rfl Iff.rfl rfl
  · simp only [State.modify_fiber_self]
    exact .resume (State.status_resume hcontrol hshape.fibers) rfl (State.hasRun_iff.mp hrun)

/-- The call switches to the node at the head. -/
theorem resume_switches (hshape : Shape s (head :: rest)) (hfirst : s.first = true)
    {thread : Thread} (hcontrol : s.control = .resume thread)
    (hring : ∀ a ∈ head :: rest, Parked s a) :
    Follows .internal (s.queue (head :: rest)) (s.settle (resume thread s)) := by
  have hparked := hring head List.mem_cons_self
  have hrest : ∀ a ∈ rest, Parked s a := fun a ha => hring a (List.mem_cons_of_mem head ha)
  have hstatus := State.status_resume hcontrol hshape.fibers
  rw [hparked.done] at hstatus
  rw [resume_of_not_done hshape.toWired thread hparked.done]
  -- the flag `repeat` tells a thread that has run from one that has not
  rcases hparked.resumes with ⟨hrun, _, hrepeats⟩ | ⟨hrun, hrepeats, _⟩
  · obtain ⟨next, left, hget, hleft, hshape', hphase', hqueue⟩ :=
      getContext_arrives hshape hfirst hparked.resumes (fun h => absurd h hrun) hrest
    rw [if_pos hrepeats, hget, State.settle_ok]
    exact ⟨head :: rest, hshape', hphase', hqueue ▸ .pass left hstatus hleft⟩
  · obtain ⟨next, left, hget, hleft, hshape', hphase', hqueue⟩ := getContext_arrives
      (hshape.modify head (Fiber.setDone true) fun _ => ⟨rfl, rfl, rfl⟩) hfirst
      (hparked.resumes.setDone true) (fun _ => by simp [Fiber.setDone])
      fun a ha => (hrest a ha).modify (hshape.ne_of_mem ha) _
    rw [if_neg (by simp [hrepeats]), hget, State.settle_ok]
    refine ⟨head :: rest, hshape', hphase', ?_⟩
    rw [hqueue, State.queue_eq
      (fun a _ => s.thread_modify head a (Fiber.setDone true) fun _ => rfl) rfl rfl rfl]
    exact .pass left hstatus hleft

theorem resume_step (hshape : Shape s ring) (hphase : Phase s ring) {thread : Thread}
    (hcontrol : s.control = .resume thread) :
    Follows .internal (s.queue ring) (s.settle (resume thread s)) := by
  cases hphase with
  | @returning head rest hfirst hhead hrun hdone hrest =>
      cases hcontrol.symm.trans hhead
      rw [resume_of_done hshape.toWired _ hdone, State.settle_ok]
      exact resume_returns hshape hfirst hhead hrun hrest
  | switching _ hfirst _ hring => exact resume_switches hshape hfirst hcontrol hring
  | before _ hother | user _ hother | afterSave _ hother | starting _ hother | exited _ hother =>
      simp [hcontrol] at hother

/-! ## `start_func` -/

/-- The state when the function of the fiber is entered. -/
def State.entered (s : State Func Data) (stack : Nat) (job : Func × Option Data) :
    State Func Data :=
  { s with control := .user (.fiber stack), started := s.started ++ [(stack, job)] }

theorem Shape.entered (hshape : Shape s ring) {job : Func × Option Data}
    (hjob : s.spawned stack = some job) (hrun : ¬ s.HasRun (.fiber stack)) :
    Shape (s.entered stack job) ring := by
  refine { hshape with started_nodup := ?_, started_own := ?_ }
  · unfold State.entered
    rw [List.map_append, List.nodup_append]
    refine ⟨hshape.started_nodup, List.nodup_singleton _, ?_⟩
    rintro first hmem _ hlast rfl
    obtain ⟨entry, hentry, rfl⟩ := List.mem_map.mp hmem
    exact hrun ⟨entry, hentry, List.mem_singleton.mp hlast⟩
  · intro entry hmem
    rcases List.mem_append.mp hmem with hmem | hmem
    · exact hshape.started_own entry hmem
    · cases List.mem_singleton.mp hmem
      exact hjob

theorem State.hasRun_entered (s : State Func Data) (stack : Nat) (job : Func × Option Data) :
    (s.entered stack job).HasRun (.fiber stack) :=
  ⟨(stack, job), List.mem_append_right _ (List.mem_singleton_self _), rfl⟩

/-- A fiber that starts concerns no other thread. -/
theorem State.hasRun_entered_of_ne {thread : Thread} (hne : thread ≠ .fiber stack)
    (job : Func × Option Data) : (s.entered stack job).HasRun thread ↔ s.HasRun thread := by
  cases thread with
  | main => exact Iff.rfl
  | fiber other =>
      have hother : stack ≠ other := fun heq => hne (heq ▸ rfl)
      simp [State.HasRun, State.entered, hother]

theorem startFunc_step (hshape : Shape s ring) (hphase : Phase s ring)
    (hcontrol : s.control = .startFunc stack) :
    Follows .internal (s.queue ring) (s.settle (startFunc stack s)) := by
  cases hphase with
  | @starting head rest stack hfirst hhead hthread hrun hrest =>
      cases hcontrol.symm.trans hhead
      obtain ⟨hsome, hstack⟩ := State.thread_eq_fiber_iff.mp hthread
      obtain ⟨job, hjob⟩ := Option.isSome_iff_exists.mp hsome
      obtain ⟨hfunc, hdata⟩ := hshape.own head List.mem_cons_self job (hstack ▸ hjob)
      have hshape' := hshape.entered hjob (hthread ▸ hrun)
      rw [startFunc_ok hshape.toWired stack hfunc, hdata, State.settle_ok]
      refine ⟨head :: rest, hshape', .user hfirst (congrArg Control.user hthread.symm) ?_ ?_, ?_⟩
      · exact hthread.symm ▸ s.hasRun_entered stack job
      · intro a ha
        have hne : s.thread a ≠ .fiber stack := hthread ▸ hshape.thread_ne ha
        exact (hrest a ha).congr rfl rfl (State.hasRun_entered_of_ne hne job) rfl
      · have hqueue : (s.entered stack job).queue (head :: rest)
            = { s.queue (head :: rest) with
                status := .running (s.fiber head).done
                begun := s.begun ++ [s.thread head] } := by
          apply Queue.ext
          · exact State.status_user rfl hshape.fibers hfirst
          · rfl
          · simp [State.queue, State.begun, State.entered, hthread]
          · rfl
        change RoundRobin.Step _ _ ((s.entered stack job).queue (head :: rest))
        rw [hqueue]
        exact .start _ (State.status_startFunc hhead hshape.fibers) rfl
          (mt State.hasRun_iff.mpr hrun)
  | before _ hother | user _ hother | afterSave _ hother | returning _ hother | exited _ hother =>
      simp [hcontrol] at hother
  | switching _ _ hother => simp [hcontrol] at hother

theorem Wired.removed (hwired : Wired s (head :: rest)) (hrest : rest ≠ []) (stack : Nat) :
    Wired (s.removed stack head) rest := by
  obtain ⟨hnot, _⟩ := List.nodup_cons.mp hwired.isRing.nodup
  refine ⟨hwired.isRing.unlink hrest, ?_, fun a => ?_⟩
  · rw [← List.head?_append_of_ne_nil rest hrest, hwired.isRing.head?_rotate]
    rfl
  · change a ∈ s.live.erase head ↔ a ∈ rest
    rw [Finset.mem_erase, hwired.live, List.mem_cons]
    constructor
    · rintro ⟨hne, rfl | hmem⟩
      · exact absurd rfl hne
      · exact hmem
    · exact fun hmem => ⟨fun heq => hnot (heq ▸ hmem), .inr hmem⟩

theorem Shape.removed (hshape : Shape s (head :: rest)) (hrest : rest ≠ [])
    (hthread : s.thread head = .fiber stack) : Shape (s.removed stack head) rest := by
  have hnodup := hshape.threads
  rw [List.map_cons, List.nodup_cons, hthread] at hnodup
  have hother : ∀ thread ∈ (head :: rest).map s.thread, thread ≠ .fiber stack →
      thread ∈ rest.map s.thread := by
    intro thread hmem hne
    rcases List.mem_cons.mp hmem with heq | hmem
    · exact absurd (heq.trans hthread) hne
    · exact hmem
  exact { hshape with
    toWired := hshape.toWired.removed hrest stack
    threads := hnodup.2
    main := fun hfirst => hother _ (hshape.main hfirst) nofun
    stack_lt := fun a ha => hshape.stack_lt a (List.mem_cons_of_mem head ha)
    own := fun a ha => hshape.own a (List.mem_cons_of_mem head ha)
    present := by
      intro other hsome hnot
      obtain ⟨hne, hnot⟩ := not_or.mp (mt Finset.mem_insert.mpr hnot)
      exact hother _ (hshape.present other hsome hnot) fun heq => hne (Thread.fiber.inj heq)
    unfinished := by
      intro other hmem hslot
      rcases Finset.mem_insert.mp hmem with rfl | hmem
      · exact hnodup.1 hslot
      · exact hshape.unfinished other hmem (List.mem_cons_of_mem _ hslot)
    finished_spawned := by
      intro other hmem
      rcases Finset.mem_insert.mp hmem with rfl | hmem
      · exact (State.thread_eq_fiber_iff.mp hthread).1
      · exact hshape.finished_spawned other hmem }

theorem finish_eq (hwired : Wired s (head :: rest)) (hrest : rest ≠ []) (stack : Nat) :
    finish stack s =
      let s' := (s.removed stack head).modify (s.links.next head) (Fiber.setDone true)
      getContext (s'.fiber (s.links.next head)).ctx s' := by
  have hremoved := hwired.removed hrest stack
  have hnext : s.links.next head ∈ rest :=
    List.mem_of_mem_head? (hremoved.fibers ▸ Option.mem_some_self _)
  have haccess : (s.removed stack head).access (s.links.next head) = .ok () :=
    hremoved.access hnext
  unfold finish
  simp only [hwired.current, bind, Except.bind, hwired.access hwired.isRing.prev_mem,
    hwired.access hwired.isRing.next_mem, haccess]

theorem finish_step (hshape : Shape s ring) (hphase : Phase s ring)
    (hcontrol : s.control = .user (.fiber stack)) :
    Follows .finish (s.queue ring) (s.settle (finish stack s)) := by
  obtain ⟨hmain, _⟩ | ⟨head, rest, rfl, hhead, hfirst, _, hrest⟩ := hphase.user_cases hcontrol
  · exact absurd hmain nofun
  · have hthread : s.thread head = .fiber stack := hhead.symm
    -- the slot of main is another one
    have hne : rest ≠ [] := by
      rintro rfl
      have hmain := hshape.main hfirst
      rw [List.map_singleton, List.mem_singleton, hthread] at hmain
      exact nomatch hmain
    have hshape' := hshape.removed hne hthread
    obtain ⟨nxt, others, rfl⟩ := List.exists_cons_of_ne_nil hne
    have hnext : s.links.next head = nxt := Option.some.inj hshape'.fibers
    have hparked : ∀ a ∈ nxt :: others, Parked (s.removed stack head) a := fun a ha =>
      (hrest a ha).congr rfl rfl Iff.rfl rfl
    obtain ⟨next, left, hget, _, hshape'', hphase'', hqueue⟩ := getContext_arrives
      (hshape'.modify nxt (Fiber.setDone true) fun _ => ⟨rfl, rfl, rfl⟩) hfirst
      ((hparked nxt List.mem_cons_self).resumes.setDone true)
      (fun _ => by simp [Fiber.setDone])
      fun a ha => (hparked a (List.mem_cons_of_mem nxt ha)).modify (hshape'.ne_of_mem ha) _
    rw [finish_eq hshape.toWired hne, hnext]
    simp only [hget, State.settle_ok]
    refine ⟨nxt :: others, hshape'', hphase'', ?_⟩
    have hremoved : ((s.removed stack head).modify nxt (Fiber.setDone true)).queue (nxt :: others)
        = { s.queue (head :: nxt :: others) with
            status := ((s.removed stack head).modify nxt (Fiber.setDone true)).status
            members := (nxt :: others).map s.thread
            finished := insert (.fiber stack) (s.queue (head :: nxt :: others)).finished } := by
      apply Queue.ext
      · rfl
      · exact List.map_congr_left fun a _ =>
          (s.removed stack head).thread_modify nxt a _ fun _ => rfl
      · rfl
      · exact Finset.image_insert _ _ _
    rw [hqueue, hremoved, ← hthread]
    exact .finish left (State.status_user (hthread ▸ hcontrol) hshape.fibers hfirst) rfl

/-! ## Every step -/

/-- Main is about to give its context away although it has no slot of its own: its first yield
meets a ring of more than one node. -/
def Displaces (s : State Func Data) (action : Action Func Data) : Prop :=
  (∃ alloc, action = .fiberYield alloc) ∧ s.first = false ∧
    ∃ head, s.fibers = some head ∧ s.links.next head ≠ head

instance (s : State Func Data) : (action : Action Func Data) → Decidable (Displaces s action)
  | .fiberYield alloc =>
      match hfibers : s.fibers with
      | none => .isFalse (by simp [Displaces, hfibers])
      | some head => decidable_of_iff (s.first = false ∧ s.links.next head ≠ head)
          (by simp [Displaces, hfibers])
  | .fiberSpawn _ _ _ | .fiberTryJoin | .finish | .internal => .isFalse (by simp [Displaces])

theorem fiberTryJoin_unchanged (hshape : Shape s ring) (hphase : Phase s ring) {thread : Thread}
    (hcontrol : s.control = .user thread) : s.settle ((fiberTryJoin s).map fun _ => s) = s := by
  unfold fiberTryJoin
  obtain ⟨_, hfirst, _⟩ | ⟨head, rest, rfl, _, hfirst, _⟩ := hphase.user_cases hcontrol
  · simp [hfirst, Except.map, pure, Except.pure]
  · simp [hfirst, hshape.toWired.current, bind, Except.bind, Except.map, pure, Except.pure]

/-- Every step that does not displace a fiber is a step of round robin. -/
theorem perform_step (hshape : Shape s ring) (hphase : Phase s ring) {action : Action Func Data}
    (hdisplaces : ¬ Displaces s action) (hperform : perform action s = some s') :
    Follows action.event (s.queue ring) s' := by
  unfold perform at hperform
  split at hperform
  case h_1 thread func data alloc hcontrol =>
      obtain ⟨havailable, hsettle⟩ := Option.ite_none_right_eq_some.mp hperform
      cases hsettle
      exact fiberSpawn_step hshape hphase hcontrol havailable func data
  case h_2 thread alloc hcontrol =>
      obtain ⟨havailable, hsettle⟩ := Option.ite_none_right_eq_some.mp hperform
      cases hsettle
      refine fiberYield_step hshape hphase hcontrol havailable fun hfirst head hhead => ?_
      by_contra hnext
      exact hdisplaces ⟨⟨alloc, rfl⟩, hfirst, head, hhead, hnext⟩
  case h_3 thread hcontrol =>
      cases hperform
      rw [fiberTryJoin_unchanged hshape hphase hcontrol]
      exact ⟨ring, hshape, hphase, .query⟩
  case h_4 stack hcontrol =>
      cases hperform
      exact finish_step hshape hphase hcontrol
  case h_5 thread hcontrol =>
      cases hperform
      exact afterSave_step hshape hphase hcontrol
  case h_6 thread hcontrol =>
      cases hperform
      exact resume_step hshape hphase hcontrol
  case h_7 stack hcontrol =>
      cases hperform
      exact startFunc_step hshape hphase hcontrol
  case h_8 => exact absurd hperform nofun

theorem perform_inv (hinv : Inv s) {action : Action Func Data} (hdisplaces : ¬ Displaces s action)
    (hperform : perform action s = some s') : Inv s' := by
  obtain ⟨ring, hshape, hphase⟩ := hinv
  obtain ⟨ring', hshape', hphase', _⟩ := perform_step hshape hphase hdisplaces hperform
  exact ⟨ring', hshape', hphase'⟩

end Acos.Fibers
