import Acos.Fibers.NoLoss

/-!
# The ring in every run

The nodes form one ring in every run, also in those that lose a fiber: the yield that takes the slot
of another fiber stores a context, not a link. What has to be followed through such a run is who
owns which node. The owner is the thread that the context of the node leads into; it is fixed when
the node is made and changes once at most, when main takes the node at `fibers`.

Main keeps a node from its first yield on, so a fiber that finishes is never alone in the ring. A
run in which main has taken a node ends badly later, when main is alone and gets a second node: the
context in the first one is then older than the last `FiberYield` of main. The ring is in order
there too.
-/

namespace Acos.Fibers

open LinkedRing Transition

variable {Func Data : Type} {s s' : State Func Data} {ring rest : List Addr} {head a addr : Addr}
  {owner : Addr → Thread} {thread : Thread} {stack : Nat}

/-! ## Owners -/

/-- The node holds the context of the last `FiberYield` of its owner. -/
def Saved (s : State Func Data) (owner : Addr → Thread) (a : Addr) : Prop :=
  ∃ site, (s.fiber a).ctx = .saved (owner a) (s.calls (owner a)) site

/-- The context of the node leads to the start of its owner, which is a fiber then. -/
def Unstarted (s : State Func Data) (owner : Addr → Thread) (a : Addr) : Prop :=
  ∃ stack, owner a = .fiber stack ∧ (s.fiber a).ctx = .start stack

/-- The node can be switched to, and its flags agree with its context. -/
structure Ready (s : State Func Data) (owner : Addr → Thread) (a : Addr) : Prop where
  done : (s.fiber a).done = false
  resumes : Unstarted s owner a ∧ (s.fiber a).repeats = true ∨
    Saved s owner a ∧ (s.fiber a).repeats = false

structure Slots (s : State Func Data) (owner : Addr → Thread) (ring : List Addr) : Prop
    extends Wired s ring where
  owners : (ring.map owner).Nodup
  stack : ∀ a ∈ ring, ∀ stack, owner a = .fiber stack →
    (s.fiber a).stack = stack ∧ stack < s.created
  unfinished : ∀ stack ∈ s.finished, stack < s.created ∧ .fiber stack ∉ ring.map owner

/-- What holds at each control point. -/
inductive Turn (s : State Func Data) (owner : Addr → Thread) : List Addr → Prop where
  | before {ring : List Addr} (hfirst : s.first = false) (hcontrol : s.control = .user .main)
      (hring : ∀ a ∈ ring, Ready s owner a ∧ owner a ≠ .main) : Turn s owner ring
  | user {head : Addr} {rest : List Addr} (hcontrol : s.control = .user (owner head))
      (hmain : .main ∈ (head :: rest).map owner)
      (hown : owner head = .main → (s.fiber head).done = false ∧ Saved s owner head)
      (hrest : ∀ a ∈ rest, Ready s owner a) : Turn s owner (head :: rest)
  | afterSave {head : Addr} {rest : List Addr} (hcontrol : s.control = .afterSave (owner head))
      (hmain : .main ∈ (head :: rest).map owner) (hsaved : Saved s owner head)
      (hrest : ∀ a ∈ rest, Ready s owner a) : Turn s owner (head :: rest)
  | returning {head : Addr} {rest : List Addr} (hcontrol : s.control = .resume (owner head))
      (hmain : .main ∈ (head :: rest).map owner) (hsaved : Saved s owner head)
      (hdone : (s.fiber head).done = true)
      (hrest : ∀ a ∈ rest, Ready s owner a) : Turn s owner (head :: rest)
  | switching {head : Addr} {rest : List Addr} (thread : Thread)
      (hcontrol : s.control = .resume thread) (hmain : .main ∈ (head :: rest).map owner)
      (hring : ∀ a ∈ head :: rest, Ready s owner a) : Turn s owner (head :: rest)
  | starting {head : Addr} {rest : List Addr} (stack : Nat)
      (hcontrol : s.control = .startFunc stack) (howner : owner head = .fiber stack)
      (hmain : .main ∈ (head :: rest).map owner)
      (hrest : ∀ a ∈ rest, Ready s owner a) : Turn s owner (head :: rest)

/-- The process has halted, or it is about to go through a context of main that main has returned
from. -/
def Stuck (s : State Func Data) : Prop :=
  (∃ halt, s.control = .halted halt) ∨
  s.control = .resume .main ∧ ∃ head call site, s.fibers = some head ∧
    (s.fiber head).done = false ∧ (s.fiber head).ctx = .saved .main call site ∧
    call ≠ s.calls .main

def RingInv (s : State Func Data) : Prop :=
  ∃ ring, Wired s ring ∧ (Stuck s ∨ ∃ owner, Slots s owner ring ∧ Turn s owner ring)

theorem RingInv.of_turn (hslots : Slots s owner ring) (hturn : Turn s owner ring) : RingInv s :=
  ⟨ring, hslots.toWired, .inr ⟨owner, hslots, hturn⟩⟩

theorem Wired.halted (hwired : Wired s ring) (halt : Halt) :
    RingInv { s with control := .halted halt } :=
  ⟨ring, ⟨hwired.isRing, hwired.fibers, hwired.live⟩, .inl (.inl ⟨halt, rfl⟩)⟩

/-! ### Changes that leave the owners alone -/

theorem Saved.congr (hsaved : Saved s owner a) (hctx : (s'.fiber a).ctx = (s.fiber a).ctx)
    (hcalls : s'.calls (owner a) = s.calls (owner a)) : Saved s' owner a := by
  unfold Saved at hsaved ⊢
  rwa [hctx, hcalls]

theorem Ready.congr (hready : Ready s owner a) {owner' : Addr → Thread}
    (howner : owner' a = owner a) (hfiber : s'.fiber a = s.fiber a)
    (hcalls : s'.calls (owner a) = s.calls (owner a)) : Ready s' owner' a := by
  obtain ⟨hdone, hresumes⟩ := hready
  refine ⟨by rw [hfiber, hdone], ?_⟩
  unfold Unstarted Saved at hresumes ⊢
  rwa [howner, hfiber, hcalls]

theorem Slots.congr (hslots : Slots s owner ring)
    (hheap : s'.links = s.links ∧ s'.live = s.live ∧ s'.fibers = s.fibers)
    (hstacks : s'.created = s.created ∧ s'.finished = s.finished)
    (hfiber : ∀ a, (s'.fiber a).stack = (s.fiber a).stack) : Slots s' owner ring := by
  obtain ⟨hlinks, hlive, hfibers⟩ := hheap
  obtain ⟨hcreated, hfinished⟩ := hstacks
  refine ⟨⟨?_, ?_, ?_⟩, hslots.owners, ?_, ?_⟩
  · rw [hlinks]
    exact hslots.isRing
  · rw [hfibers]
    exact hslots.fibers
  · rw [hlive]
    exact hslots.live
  · intro a ha
    rw [hfiber, hcreated]
    exact hslots.stack a ha
  · rw [hfinished, hcreated]
    exact hslots.unfinished

theorem Slots.modify (hslots : Slots s owner ring) (a : Addr)
    (store : Fiber Func Data → Fiber Func Data)
    (hstore : ∀ fiber, (store fiber).stack = fiber.stack) :
    Slots (s.modify a store) owner ring := by
  refine hslots.congr ⟨rfl, rfl, rfl⟩ ⟨rfl, rfl⟩ fun b => ?_
  by_cases hb : b = a
  · rw [hb, State.modify_fiber_self, hstore]
  · rw [State.modify_fiber_of_ne s hb]

theorem Slots.moveTo (hslots : Slots s owner ring) (control : Control) :
    Slots { s with control := control } owner ring :=
  hslots.congr ⟨rfl, rfl, rfl⟩ ⟨rfl, rfl⟩ fun _ => rfl

theorem Slots.called (hslots : Slots s owner ring) (thread : Thread) :
    Slots (s.called thread) owner ring :=
  hslots.congr ⟨rfl, rfl, rfl⟩ ⟨rfl, rfl⟩ fun _ => rfl

theorem Slots.ne_of_mem (hslots : Slots s owner (head :: rest)) (ha : a ∈ rest) : a ≠ head := by
  rintro rfl
  exact (List.nodup_cons.mp hslots.isRing.nodup).1 ha

theorem Slots.owner_ne (hslots : Slots s owner (head :: rest)) (ha : a ∈ rest) :
    owner a ≠ owner head := by
  intro heq
  have hnodup := hslots.owners
  rw [List.map_cons, List.nodup_cons] at hnodup
  exact hnodup.1 (heq ▸ List.mem_map_of_mem ha)

theorem Slots.rotate (hslots : Slots s owner (head :: rest)) :
    Slots { s with fibers := some (s.links.next head) } owner (rest ++ [head]) := by
  have hperm : (rest ++ [head]).Perm (head :: rest) := List.perm_append_singleton head rest
  exact {
    toWired := hslots.toWired.rotate
    owners := (hperm.map owner).nodup_iff.mpr hslots.owners
    stack := fun a ha => hslots.stack a (hperm.mem_iff.mp ha)
    unfinished := fun stack hmem => by
      obtain ⟨hlt, hnot⟩ := hslots.unfinished stack hmem
      exact ⟨hlt, mt (hperm.map owner).mem_iff.mp hnot⟩ }

/-- Main takes a node, which had another owner. -/
theorem Slots.take (hslots : Slots s owner (head :: rest))
    (hmain : ∀ a ∈ head :: rest, owner a ≠ .main) :
    Slots s (Function.update owner head .main) (head :: rest) := by
  have hrest : rest.map (Function.update owner head .main) = rest.map owner :=
    List.map_congr_left fun a ha => Function.update_of_ne (hslots.ne_of_mem ha) _ _
  have howners := hslots.owners
  rw [List.map_cons, List.nodup_cons] at howners
  have hnot : Thread.main ∉ rest.map owner := by
    intro hmem
    obtain ⟨a, ha, heq⟩ := List.mem_map.mp hmem
    exact hmain a (List.mem_cons_of_mem head ha) heq
  refine ⟨hslots.toWired, ?_, ?_, ?_⟩
  · rw [List.map_cons, Function.update_self, hrest]
    exact List.nodup_cons.mpr ⟨hnot, howners.2⟩
  · intro a ha stack hstack
    by_cases hahead : a = head
    · rw [hahead, Function.update_self] at hstack
      exact Thread.noConfusion hstack
    · rw [Function.update_of_ne hahead] at hstack
      exact hslots.stack a ha stack hstack
  · intro stack hmem
    obtain ⟨hlt, hunfinished⟩ := hslots.unfinished stack hmem
    refine ⟨hlt, ?_⟩
    rw [List.map_cons, Function.update_self, hrest, List.mem_cons, not_or]
    exact ⟨Thread.noConfusion, fun hslot => hunfinished (List.mem_cons_of_mem _ hslot)⟩

/-- A new node gets an owner that has no node yet. -/
theorem Slots.extend (hslots : Slots s owner ring) (hextends : Extends s s' ring addr)
    (hfresh : addr ∉ ring) (howner : thread ∉ ring.map owner)
    (hstack : ∀ stack, thread = .fiber stack → stack = s.created) :
    Slots s' (Function.update owner addr thread) (ring ++ [addr]) := by
  have hold : ∀ a ∈ ring, Function.update owner addr thread a = owner a := fun a ha =>
    Function.update_of_ne (ne_of_mem_of_not_mem ha hfresh) _ _
  have howners : (ring ++ [addr]).map (Function.update owner addr thread)
      = ring.map owner ++ [thread] := by
    rw [List.map_append, List.map_singleton, Function.update_self, List.map_congr_left hold]
  refine ⟨hextends.wired, ?_, ?_, ?_⟩
  · rw [howners, List.nodup_append]
    refine ⟨hslots.owners, List.nodup_singleton _, ?_⟩
    rintro other hmem _ hnew rfl
    exact howner (List.mem_singleton.mp hnew ▸ hmem)
  · intro a ha stack hfiber
    rw [hextends.created]
    rcases List.mem_append.mp ha with ha | ha
    · rw [hold a ha] at hfiber
      rw [hextends.fiber a ha]
      obtain ⟨heq, hlt⟩ := hslots.stack a ha stack hfiber
      exact ⟨heq, Nat.lt_succ_of_lt hlt⟩
    · rw [List.mem_singleton.mp ha, Function.update_self] at hfiber
      rw [List.mem_singleton.mp ha, hextends.stack, hstack stack hfiber]
      exact ⟨rfl, Nat.lt_succ_self _⟩
  · intro stack hmem
    rw [hextends.finished] at hmem
    obtain ⟨hlt, hunfinished⟩ := hslots.unfinished stack hmem
    refine ⟨hextends.created ▸ Nat.lt_succ_of_lt hlt, ?_⟩
    rw [howners, List.mem_append, not_or, List.mem_singleton]
    exact ⟨hunfinished, fun heq => hlt.ne (hstack stack heq.symm)⟩

theorem Slots.removed (hslots : Slots s owner (head :: rest)) (hrest : rest ≠ [])
    (howner : owner head = .fiber stack) : Slots (s.removed stack head) owner rest := by
  have howners := hslots.owners
  rw [List.map_cons, List.nodup_cons, howner] at howners
  refine ⟨hslots.toWired.removed hrest stack, howners.2, ?_, ?_⟩
  · exact fun a ha => hslots.stack a (List.mem_cons_of_mem head ha)
  · intro other hmem
    rcases Finset.mem_insert.mp hmem with rfl | hmem
    · exact ⟨(hslots.stack head List.mem_cons_self other howner).2, howners.1⟩
    · obtain ⟨hlt, hunfinished⟩ := hslots.unfinished other hmem
      exact ⟨hlt, fun hslot => hunfinished (List.mem_cons_of_mem _ hslot)⟩

/-! ## The functions of the library -/

theorem Turn.extend (hturn : Turn s owner ring) (hslots : Slots s owner ring)
    (hextends : Extends s s' ring addr) (hfresh : addr ∉ ring) (hcontrol : s'.control = s.control)
    (hcalls : s'.calls = s.calls) (hfirst : s'.first = s.first) (huser : s.control = .user thread)
    (hnew : Ready s' (Function.update owner addr (.fiber s.created)) addr) :
    Turn s' (Function.update owner addr (.fiber s.created)) (ring ++ [addr]) := by
  have hold : ∀ a ∈ ring, Function.update owner addr (.fiber s.created) a = owner a := fun a ha =>
    Function.update_of_ne (ne_of_mem_of_not_mem ha hfresh) _ _
  have hready : ∀ a ∈ ring, Ready s owner a →
      Ready s' (Function.update owner addr (.fiber s.created)) a := fun a ha hready =>
    hready.congr (hold a ha) (hextends.fiber a ha) (by rw [hcalls])
  cases hturn with
  | before hbefore hmain hring =>
      refine .before (hfirst.trans hbefore) (hcontrol.trans hmain) fun a ha => ?_
      rcases List.mem_append.mp ha with ha | ha
      · rw [hold a ha]
        exact ⟨hready a ha (hring a ha).1, (hring a ha).2⟩
      · rw [List.mem_singleton.mp ha, Function.update_self]
        exact ⟨hnew, Thread.noConfusion⟩
  | @user head rest hhead hmain hown hrest =>
      have hmem : head ∈ head :: rest := List.mem_cons_self
      refine .user ?_ ?_ ?_ ?_
      · rw [hcontrol, hhead, hold head hmem]
      · obtain ⟨a, ha, heq⟩ := List.mem_map.mp hmain
        exact List.mem_map.mpr ⟨a, List.mem_append_left _ ha, (hold a ha).trans heq⟩
      · intro heq
        rw [hold head hmem] at heq
        obtain ⟨hdone, site, hctx⟩ := hown heq
        rw [hextends.fiber head hmem]
        refine ⟨hdone, site, ?_⟩
        rw [hextends.fiber head hmem, hold head hmem, hcalls, hctx]
      · intro a ha
        rcases List.mem_append.mp ha with ha | ha
        · exact hready a (List.mem_cons_of_mem head ha) (hrest a ha)
        · exact List.mem_singleton.mp ha ▸ hnew
  | afterSave hother | returning hother => simp [huser] at hother
  | switching _ hother | starting _ hother => simp [huser] at hother

theorem fiberSpawn_ring (hslots : Slots s owner ring) (hturn : Turn s owner ring)
    (hcontrol : s.control = .user thread) {alloc : Except AllocFailure Addr}
    (havailable : Available s alloc) (func : Func) (data : Option Data) :
    RingInv (s.settle (fiberSpawn func data alloc s)) := by
  cases alloc with
  | error failure => exact hslots.toWired.halted (.exit failure)
  | ok addr =>
      have hfresh := hslots.toWired.not_mem_of_available havailable
      obtain ⟨links, hspawn, hextends⟩ := fiberSpawn_ok hslots.toWired hfresh func data
      rw [hspawn, State.settle_ok]
      have hnot : Thread.fiber s.created ∉ ring.map owner := by
        intro hmem
        obtain ⟨a, ha, heq⟩ := List.mem_map.mp hmem
        exact (hslots.stack a ha _ heq).2.ne rfl
      refine .of_turn (hslots.extend hextends hfresh hnot fun _ heq => (Thread.fiber.inj heq).symm)
        (hturn.extend hslots hextends hfresh rfl rfl rfl hcontrol
          ⟨?_, .inl ⟨⟨s.created, ?_, ?_⟩, ?_⟩⟩)
      · simp [State.spawnedAt, State.extended, State.modify, Fiber.setJob, Fiber.new]
      · exact Function.update_self ..
      · simp [State.spawnedAt, State.extended, State.modify, Fiber.setJob, Fiber.new]
      · simp [State.spawnedAt, State.extended, State.modify, Fiber.setJob, Fiber.new]

/-- The caller saves its context in the node at `fibers`, which is its own. -/
theorem saveCurrent_ring (hslots : Slots s owner (head :: rest))
    (hmain : .main ∈ (head :: rest).map owner) (hrest : ∀ a ∈ rest, Ready s owner a) :
    RingInv (s.savedAt (owner head) head) := by
  refine .of_turn ((hslots.modify head (Fiber.setCtx _) fun _ => rfl).moveTo _)
    (.afterSave rfl hmain ⟨.current, ?_⟩ fun a ha => (hrest a ha).congr rfl ?_ rfl)
  · change ((s.modify head _).fiber head).ctx = _
    rw [State.modify_fiber_self]
    rfl
  · exact State.modify_fiber_of_ne s (hslots.ne_of_mem ha) _

/-- The first yield of main, if it meets one node. -/
theorem saveNewFiber_ring (hslots : Slots s owner [head]) (hready : Ready s owner head)
    (howner : owner head ≠ .main) (hfresh : addr ∉ [head]) {links : Links Addr}
    (hextends : Extends s (s.settledAt .main head addr links) [head] addr) :
    RingInv (s.settledAt .main head addr links) := by
  have hne : head ≠ addr := fun heq => hfresh (heq ▸ List.mem_singleton_self head)
  have hhead : Function.update owner addr .main head = owner head := Function.update_of_ne hne _ _
  have hfiber : (s.settledAt .main head addr links).fiber addr =
      ⟨none, none, s.created, .saved .main (s.calls .main) .newFiber, false, false⟩ := by
    simp [State.settledAt, State.extended, State.modify, Fiber.new, Fiber.setJob,
      Fiber.setRepeats, Fiber.setCtx]
  have hnot : Thread.main ∉ [head].map owner := by
    rw [List.map_singleton, List.mem_singleton]
    exact howner.symm
  refine .of_turn (hslots.extend hextends hfresh hnot fun _ => Thread.noConfusion)
    (.switching .main rfl ?_ fun a ha => ?_)
  · exact List.mem_map.mpr ⟨addr, by simp, Function.update_self ..⟩
  · rcases List.mem_cons.mp ha with rfl | ha
    · exact hready.congr hhead (hextends.fiber a (List.mem_singleton_self a)) rfl
    · rw [List.mem_singleton.mp ha]
      refine ⟨by rw [hfiber], .inr ⟨⟨.newFiber, ?_⟩, by rw [hfiber]⟩⟩
      rw [hfiber, Function.update_self]
      rfl

/-- Main gets a second node while it is alone in the ring: the context in its first node is that of
an earlier call. -/
theorem saveNewFiber_stuck (hdone : (s.fiber head).done = false)
    {call : Nat} {site : Site} (hctx : (s.fiber head).ctx = .saved .main call site)
    (hcall : call ≠ s.calls .main) {links : Links Addr}
    (hextends : Extends s (s.settledAt .main head addr links) [head] addr) :
    RingInv (s.settledAt .main head addr links) := by
  have hfiber := hextends.fiber head (List.mem_singleton_self head)
  refine ⟨[head] ++ [addr], hextends.wired, .inl (.inr ⟨rfl, head, call, site, rfl, ?_, ?_, hcall⟩)⟩
  · rw [hfiber, hdone]
  · rw [hfiber, hctx]

/-- A yield of main before it has a node of its own. -/
theorem firstYield_ring (hslots : Slots s owner ring) (hfirst : s.first = false)
    (hmain : s.control = .user .main) (hring : ∀ a ∈ ring, Ready s owner a ∧ owner a ≠ .main)
    {alloc : Except AllocFailure Addr} (havailable : Available s alloc) :
    RingInv (s.settle (fiberYield .main alloc s)) := by
  have hcalled : ∀ a ∈ ring, Ready (s.called .main) owner a := fun a ha =>
    (hring a ha).1.congr rfl rfl (Function.update_of_ne (hring a ha).2 _ _)
  cases ring with
  | nil =>
      rw [fiberYield_nil hslots.toWired, State.settle_ok]
      exact .of_turn (hslots.called .main) (.before hfirst hmain fun _ ha =>
        absurd ha List.not_mem_nil)
  | cons head rest =>
      rw [fiberYield_cons hslots.toWired]
      split_ifs with hbranch
      · cases hslots.isRing.next_eq_self_iff.mp hbranch.2
        cases alloc with
        | error failure => exact hslots.toWired.halted (.exit failure)
        | ok addr =>
            have hfresh := hslots.toWired.not_mem_of_available havailable
            have hmem : head ∈ [head] := List.mem_singleton_self head
            obtain ⟨links, hsave, hextends⟩ :=
              saveNewFiber_ok (hslots.toWired.called .main) .main hfresh
            rw [hsave]
            exact saveNewFiber_ring (hslots.called .main) (hcalled head hmem)
              (hring head hmem).2 hfresh hextends
      · -- the node at `fibers` changes its owner
        rw [saveCurrent_ok (hslots.toWired.called .main), State.settle_ok]
        have htake := (hslots.called .main).take fun a ha => (hring a ha).2
        have hresult := saveCurrent_ring htake
          (List.mem_map.mpr ⟨head, List.mem_cons_self, Function.update_self ..⟩) fun a ha =>
            (hcalled a (List.mem_cons_of_mem head ha)).congr
              (Function.update_of_ne (hslots.ne_of_mem ha) _ _) rfl rfl
        rwa [Function.update_self] at hresult

/-- A yield of the thread whose node is at `fibers`. -/
theorem laterYield_ring (hslots : Slots s owner (head :: rest))
    (hmain : .main ∈ (head :: rest).map owner)
    (hown : owner head = .main → (s.fiber head).done = false ∧ Saved s owner head)
    (hrest : ∀ a ∈ rest, Ready s owner a) {alloc : Except AllocFailure Addr}
    (havailable : Available s alloc) :
    RingInv (s.settle (fiberYield (owner head) alloc s)) := by
  rw [fiberYield_cons hslots.toWired]
  split_ifs with hbranch
  · cases hslots.isRing.next_eq_self_iff.mp hbranch.2
    rw [List.map_singleton, List.mem_singleton] at hmain
    obtain ⟨hdone, site, hctx⟩ := hown hmain.symm
    rw [← hmain] at hctx ⊢
    cases alloc with
    | error failure => exact hslots.toWired.halted (.exit failure)
    | ok addr =>
        have hfresh := hslots.toWired.not_mem_of_available havailable
        obtain ⟨links, hsave, hextends⟩ :=
          saveNewFiber_ok (hslots.toWired.called .main) .main hfresh
        rw [hsave]
        refine saveNewFiber_stuck (s := s.called .main) hdone hctx ?_ hextends
        simp [State.called]
  · rw [saveCurrent_ok (hslots.toWired.called _), State.settle_ok]
    exact saveCurrent_ring (hslots.called _) hmain fun a ha =>
      (hrest a ha).congr rfl rfl (Function.update_of_ne (hslots.owner_ne ha) _ _)

theorem fiberYield_ring (hslots : Slots s owner ring) (hturn : Turn s owner ring)
    (hcontrol : s.control = .user thread) {alloc : Except AllocFailure Addr}
    (havailable : Available s alloc) :
    RingInv (s.settle (fiberYield thread alloc s)) := by
  cases hturn with
  | before hfirst hmain hring =>
      cases hcontrol.symm.trans hmain
      exact firstYield_ring hslots hfirst hmain hring havailable
  | user hhead hmain hown hrest =>
      cases hcontrol.symm.trans hhead
      exact laterYield_ring hslots hmain hown hrest havailable
  | afterSave hother | returning hother => simp [hcontrol] at hother
  | switching _ hother | starting _ hother => simp [hcontrol] at hother

theorem afterSave_ring (hslots : Slots s owner ring) (hturn : Turn s owner ring)
    (hcontrol : s.control = .afterSave thread) :
    RingInv (s.settle (afterSave thread s)) := by
  cases hturn with
  | @afterSave head rest hhead hmain hsaved hrest =>
      cases hcontrol.symm.trans hhead
      rw [afterSave_ok hslots.toWired, State.settle_ok]
      set s' := s.modify head (Fiber.setRepeats false) with hs'
      have hslots' : Slots s' owner (head :: rest) := hslots.modify head _ fun _ => rfl
      have hfiber : s'.fiber head = (s.fiber head).setRepeats false := by simp [hs']
      have hsaved' : Saved s' owner head := hsaved.congr (by rw [hfiber]; rfl) rfl
      have hrest' : ∀ a ∈ rest, Ready s' owner a := fun a ha =>
        (hrest a ha).congr rfl (State.modify_fiber_of_ne s (hslots.ne_of_mem ha) _) rfl
      have hsame : (s'.fiber head).done = (s.fiber head).done :=
        (congrArg Fiber.done hfiber).trans rfl
      by_cases hdone : (s.fiber head).done = true
      · rw [if_pos hdone]
        exact .of_turn (hslots'.moveTo _) (.returning rfl hmain hsaved' (hsame.trans hdone)
          fun a ha => (hrest' a ha).congr rfl rfl rfl)
      · rw [if_neg hdone]
        have hready : ∀ a ∈ rest ++ [head], Ready s' owner a := by
          intro a ha
          rcases List.mem_append.mp ha with ha | ha
          · exact hrest' a ha
          · rw [List.mem_singleton.mp ha]
            exact ⟨by simpa [hsame] using hdone, .inr ⟨hsaved', by rw [hfiber]; rfl⟩⟩
        have hrotate := hslots'.rotate.moveTo (.resume (owner head))
        have hmain' : .main ∈ (rest ++ [head]).map owner :=
          ((List.perm_append_singleton head rest).map owner).mem_iff.mpr hmain
        obtain ⟨next, others, hring⟩ : ∃ next others, rest ++ [head] = next :: others :=
          List.exists_cons_of_ne_nil (by simp)
        rw [hring] at hready hrotate hmain'
        exact .of_turn hrotate (.switching (owner head) rfl hmain' fun a ha =>
          (hready a ha).congr rfl rfl rfl)
  | before _ hother => simp [hcontrol] at hother
  | user hother | returning hother => simp [hcontrol] at hother
  | switching _ hother | starting _ hother => simp [hcontrol] at hother

/-- A switch to the node at the head succeeds, and it arrives in the owner of this node. -/
theorem getContext_ring (hslots : Slots s owner (head :: rest))
    (hmain : .main ∈ (head :: rest).map owner)
    (hresumes : Unstarted s owner head ∨ Saved s owner head ∧ (s.fiber head).done = true)
    (hrest : ∀ a ∈ rest, Ready s owner a) :
    getContext (s.fiber head).ctx s = .ok { s with control := (s.fiber head).ctx.target } ∧
      Turn { s with control := (s.fiber head).ctx.target } owner (head :: rest) := by
  have hrest' : ∀ control, ∀ a ∈ rest, Ready { s with control := control } owner a :=
    fun control a ha => (hrest a ha).congr rfl rfl rfl
  rcases hresumes with ⟨stack, howner, hctx⟩ | ⟨⟨site, hctx⟩, hdone⟩
  · refine ⟨if_pos (by rw [hctx]; trivial), ?_⟩
    exact .starting stack (congrArg Context.target hctx) howner hmain (hrest' _)
  · have hvalid : (s.fiber head).ctx.Valid s := by
      rw [hctx]
      refine ⟨rfl, fun stack hmem heq => (hslots.unfinished stack hmem).2 ?_⟩
      exact heq ▸ List.mem_map_of_mem List.mem_cons_self
    refine ⟨if_pos hvalid, ?_⟩
    cases site with
    | newFiber =>
        exact .returning (congrArg Context.target hctx) hmain ⟨.newFiber, hctx⟩ hdone (hrest' _)
    | current =>
        exact .afterSave (congrArg Context.target hctx) hmain ⟨.current, hctx⟩ (hrest' _)

/-- The node at the head is marked and switched to. -/
theorem getContext_marked (hslots : Slots s owner (head :: rest))
    (hmain : .main ∈ (head :: rest).map owner)
    (hresumes : Unstarted s owner head ∨ Saved s owner head)
    (hrest : ∀ a ∈ rest, Ready s owner a) :
    ∃ control, (∀ halt, control ≠ .halted halt) ∧
      getContext ((s.modify head (Fiber.setDone true)).fiber head).ctx
          (s.modify head (Fiber.setDone true))
        = .ok { s.modify head (Fiber.setDone true) with control := control } ∧
      Slots { s.modify head (Fiber.setDone true) with control := control } owner (head :: rest) ∧
      Turn { s.modify head (Fiber.setDone true) with control := control } owner (head :: rest) := by
  have hslots' := hslots.modify head (Fiber.setDone true) fun _ => rfl
  have hfiber : (s.modify head (Fiber.setDone true)).fiber head = (s.fiber head).setDone true :=
    s.modify_fiber_self head _
  obtain ⟨hget, hturn⟩ := getContext_ring hslots' hmain
    (by
      unfold Unstarted Saved at hresumes ⊢
      rw [hfiber]
      exact hresumes.imp_right fun hsaved => ⟨hsaved, rfl⟩)
    fun a ha => (hrest a ha).congr rfl (State.modify_fiber_of_ne s (hslots.ne_of_mem ha) _) rfl
  refine ⟨_, ?_, hget, hslots'.moveTo _, hturn⟩
  intro halt
  cases ((s.modify head (Fiber.setDone true)).fiber head).ctx with
  | start => exact Control.noConfusion
  | saved _ _ site => cases site <;> exact Control.noConfusion

theorem resume_ring (hslots : Slots s owner ring) (hturn : Turn s owner ring)
    (hcontrol : s.control = .resume thread) :
    RingInv (s.settle (resume thread s)) := by
  cases hturn with
  | @returning head rest hhead hmain hsaved hdone hrest =>
      cases hcontrol.symm.trans hhead
      rw [resume_of_done hslots.toWired _ hdone, State.settle_ok]
      have hfiber := s.modify_fiber_self head (Fiber.setDone false)
      refine .of_turn ((hslots.modify head (Fiber.setDone false) fun _ => rfl).moveTo _)
        (.user rfl hmain (fun _ => ⟨?_, hsaved.congr ?_ rfl⟩) fun a ha =>
          (hrest a ha).congr rfl ?_ rfl)
      · exact congrArg Fiber.done hfiber
      · exact (congrArg Fiber.ctx hfiber).trans rfl
      · exact State.modify_fiber_of_ne s (hslots.ne_of_mem ha) _
  | @switching head rest other hhead hmain hring =>
      obtain ⟨hdone, hresumes⟩ := hring head List.mem_cons_self
      have hrest : ∀ a ∈ rest, Ready s owner a := fun a ha => hring a (List.mem_cons_of_mem head ha)
      rw [resume_of_not_done hslots.toWired thread hdone]
      rcases hresumes with ⟨hstart, hrepeats⟩ | ⟨hsaved, hrepeats⟩
      · obtain ⟨hget, hturn⟩ := getContext_ring hslots hmain (.inl hstart) hrest
        rw [if_pos hrepeats, hget, State.settle_ok]
        exact .of_turn (hslots.moveTo _) hturn
      · obtain ⟨control, _, hget, hslots', hturn⟩ :=
          getContext_marked hslots hmain (.inr hsaved) hrest
        rw [if_neg (by simp [hrepeats]), hget, State.settle_ok]
        exact .of_turn hslots' hturn
  | before _ hother => simp [hcontrol] at hother
  | user hother | afterSave hother => simp [hcontrol] at hother
  | starting _ hother => simp [hcontrol] at hother

theorem resume_stuck (hwired : Wired s ring) {call : Nat} {site : Site}
    (hfibers : s.fibers = some head) (hdone : (s.fiber head).done = false)
    (hctx : (s.fiber head).ctx = .saved .main call site) (hcall : call ≠ s.calls .main) :
    RingInv (s.settle (resume thread s)) := by
  obtain ⟨rest, rfl⟩ : ∃ rest, ring = head :: rest := by
    cases ring with
    | nil => exact absurd (hfibers.symm.trans hwired.fibers) (Option.some_ne_none head)
    | cons first rest =>
        cases Option.some.inj (hfibers.symm.trans hwired.fibers)
        exact ⟨rest, rfl⟩
  have hget : ∀ s' : State Func Data, s'.calls = s.calls →
      (s'.fiber head).ctx = (s.fiber head).ctx →
      getContext (s'.fiber head).ctx s' = .error .undefined := by
    intro s' hcalls hsame
    refine if_neg fun hvalid => ?_
    rw [hsame, hctx] at hvalid
    exact hcall (hcalls ▸ hvalid.1)
  have heq : resume thread s = .error .undefined := by
    rw [resume_of_not_done hwired thread hdone]
    split_ifs
    · exact hget s rfl rfl
    · exact hget _ rfl ((congrArg Fiber.ctx (s.modify_fiber_self head _)).trans rfl)
  rw [heq]
  exact hwired.halted .undefined

theorem startFunc_ring (hslots : Slots s owner ring) (hturn : Turn s owner ring)
    (hcontrol : s.control = .startFunc stack) :
    RingInv (s.settle (startFunc stack s)) := by
  cases hturn with
  | @starting head rest other hhead howner hmain hrest =>
      cases hcontrol.symm.trans hhead
      cases hfunc : (s.fiber head).func with
      | none =>
          have heq : startFunc stack s = .error .undefined := by
            unfold startFunc
            rw [hslots.toWired.current]
            simp only [bind, Except.bind, hfunc]
          rw [heq]
          exact hslots.toWired.halted .undefined
      | some func =>
          rw [startFunc_ok hslots.toWired stack hfunc, State.settle_ok]
          refine .of_turn (hslots.congr ⟨rfl, rfl, rfl⟩ ⟨rfl, rfl⟩ fun _ => rfl)
            (.user (congrArg Control.user howner.symm) hmain ?_ fun a ha =>
              (hrest a ha).congr rfl rfl rfl)
          intro hother
          exact Thread.noConfusion (howner.symm.trans hother)
  | before _ hother => simp [hcontrol] at hother
  | user hother | afterSave hother | returning hother => simp [hcontrol] at hother
  | switching _ hother => simp [hcontrol] at hother

/-- What a fiber that finishes does to the ring. -/
structure Leaves (s s' : State Func Data) (stack : Nat) (ring : List Addr) : Prop where
  split : ∃ head rest, ring = head :: rest ∧ rest ≠ [] ∧ (s.fiber head).stack = stack ∧
    Wired s' rest ∧ s'.fibers = some (s.links.next head) ∧ s.links.next head ∈ s'.live
  goesOn : ∀ halt, s'.control ≠ .halted halt

theorem finish_ring (hslots : Slots s owner ring) (hturn : Turn s owner ring)
    (hcontrol : s.control = .user (.fiber stack)) :
    RingInv (s.settle (finish stack s)) ∧ Leaves s (s.settle (finish stack s)) stack ring := by
  cases hturn with
  | @user head rest hhead hmain _ hrest =>
      have howner : owner head = .fiber stack :=
        (Control.user.inj (hcontrol.symm.trans hhead)).symm
      -- the node of main is another one
      have hmain' : Thread.main ∈ rest.map owner := by
        rcases List.mem_cons.mp hmain with heq | hmem
        · exact Thread.noConfusion (heq.trans howner)
        · exact hmem
      have hne : rest ≠ [] := by
        rintro rfl
        exact absurd hmain' List.not_mem_nil
      have hremoved := hslots.removed hne howner
      obtain ⟨nxt, others, rfl⟩ := List.exists_cons_of_ne_nil hne
      have hnext : s.links.next head = nxt := Option.some.inj hremoved.fibers
      have hready : ∀ a ∈ nxt :: others, Ready (s.removed stack head) owner a := fun a ha =>
        (hrest a ha).congr rfl rfl rfl
      obtain ⟨control, hgoes, hget, hslots', hturn'⟩ := getContext_marked hremoved hmain'
        ((hready nxt List.mem_cons_self).resumes.imp And.left And.left)
        fun a ha => hready a (List.mem_cons_of_mem nxt ha)
      rw [finish_eq hslots.toWired hne, hnext]
      simp only [hget, State.settle_ok]
      refine ⟨.of_turn hslots' hturn', ⟨head, nxt :: others, rfl, hne, ?_, hslots'.toWired, ?_, ?_⟩,
        hgoes⟩
      · exact (hslots.stack head List.mem_cons_self stack howner).1
      · exact hslots'.fibers.trans (congrArg some hnext.symm)
      · exact (hslots'.live _).mpr (hnext ▸ List.mem_cons_self)
  | before _ hother => simp [hcontrol] at hother
  | afterSave hother | returning hother => simp [hcontrol] at hother
  | switching _ hother | starting _ hother => simp [hcontrol] at hother

theorem fiberTryJoin_ring (hinv : RingInv s) :
    RingInv (s.settle ((fiberTryJoin s).map fun _ => s)) := by
  cases hjoin : fiberTryJoin s with
  | error halt =>
      obtain ⟨ring, hwired, _⟩ := hinv
      exact hwired.halted halt
  | ok result => exact hinv

/-! ## Whole runs -/

theorem RingInv.init (s : State Func Data) (hinit : (fiberSystem Func Data).init s) :
    RingInv s := by
  have hwired : Wired s [] := ⟨trivial, hinit.fibers, fun a => by simp [hinit.live]⟩
  have hslots : Slots s (fun _ => .main) [] := by
    refine ⟨hwired, List.nodup_nil, fun a ha => absurd ha List.not_mem_nil, ?_⟩
    intro stack hmem
    rw [hinit.finished] at hmem
    exact absurd hmem (Finset.notMem_empty stack)
  exact .of_turn hslots
    (.before hinit.first hinit.control fun a ha => absurd ha List.not_mem_nil)

theorem RingInv.turn (hinv : RingInv s) (hhalted : ∀ halt, s.control ≠ .halted halt)
    (hresume : s.control ≠ .resume .main) :
    ∃ ring owner, Slots s owner ring ∧ Turn s owner ring := by
  obtain ⟨ring, _, (⟨halt, hstuck⟩ | ⟨hstuck, _⟩) | ⟨owner, hslots, hturn⟩⟩ := hinv
  · exact absurd hstuck (hhalted halt)
  · exact absurd hstuck hresume
  · exact ⟨ring, owner, hslots, hturn⟩

theorem RingInv.step (action : Action Func Data) (s s' : State Func Data) (hinv : RingInv s)
    (hstep : (fiberSystem Func Data).step action s s') : RingInv s' := by
  change perform action s = some s' at hstep
  unfold perform at hstep
  split at hstep
  case h_1 thread func data alloc hcontrol =>
      obtain ⟨havailable, hsettle⟩ := Option.ite_none_right_eq_some.mp hstep
      cases hsettle
      obtain ⟨ring, owner, hslots, hturn⟩ := hinv.turn (by simp [hcontrol]) (by simp [hcontrol])
      exact fiberSpawn_ring hslots hturn hcontrol havailable func data
  case h_2 thread alloc hcontrol =>
      obtain ⟨havailable, hsettle⟩ := Option.ite_none_right_eq_some.mp hstep
      cases hsettle
      obtain ⟨ring, owner, hslots, hturn⟩ := hinv.turn (by simp [hcontrol]) (by simp [hcontrol])
      exact fiberYield_ring hslots hturn hcontrol havailable
  case h_3 => exact Option.some.inj hstep ▸ fiberTryJoin_ring hinv
  case h_4 stack hcontrol =>
      cases hstep
      obtain ⟨ring, owner, hslots, hturn⟩ := hinv.turn (by simp [hcontrol]) (by simp [hcontrol])
      exact (finish_ring hslots hturn hcontrol).1
  case h_5 thread hcontrol =>
      cases hstep
      obtain ⟨ring, owner, hslots, hturn⟩ := hinv.turn (by simp [hcontrol]) (by simp [hcontrol])
      exact afterSave_ring hslots hturn hcontrol
  case h_6 thread hcontrol =>
      cases hstep
      obtain ⟨ring, hwired, (⟨halt, hstuck⟩ | hstuck) | ⟨owner, hslots, hturn⟩⟩ := hinv
      · simp [hcontrol] at hstuck
      · obtain ⟨_, head, call, site, hfibers, hdone, hctx, hcall⟩ := hstuck
        exact resume_stuck hwired hfibers hdone hctx hcall
      · exact resume_ring hslots hturn hcontrol
  case h_7 stack hcontrol =>
      cases hstep
      obtain ⟨ring, owner, hslots, hturn⟩ := hinv.turn (by simp [hcontrol]) (by simp [hcontrol])
      exact startFunc_ring hslots hturn hcontrol
  case h_8 => exact absurd hstep.symm (Option.some_ne_none s')

/-- The nodes reached from `fibers` are those that are allocated. -/
theorem Wired.reached_iff (hwired : Wired s ring) (hfibers : s.fibers = some head) :
    (∃ j, s.links.next^[j] head = a) ↔ a ∈ s.live := by
  have hring := hwired.isRing
  have hhead : head ∈ ring := List.mem_of_mem_head? (hwired.fibers ▸ hfibers)
  rw [hwired.live]
  constructor
  · rintro ⟨j, rfl⟩
    induction j with
    | zero => exact hhead
    | succ j ih =>
        rw [Function.iterate_succ_apply']
        exact (hring.next_linked ih).1
  · intro ha
    cases ring with
    | nil => exact absurd ha List.not_mem_nil
    | cons first rest =>
        cases Option.some.inj (hfibers.symm.trans hwired.fibers)
        exact hring.exists_iterate ha

theorem perform_finish (hfinish : perform .finish s = some s') :
    ∃ stack, s.control = .user (.fiber stack) ∧ s' = s.settle (finish stack s) := by
  unfold perform at hfinish
  cases hcontrol : s.control with
  | user thread =>
      cases thread with
      | main => simp [hcontrol] at hfinish
      | fiber stack =>
          simp only [hcontrol, Option.some.injEq] at hfinish
          exact ⟨stack, rfl, hfinish.symm⟩
  | afterSave | resume | startFunc | halted => simp [hcontrol] at hfinish

theorem perform_spawn {func : Func} {data : Option Data} {alloc : Except AllocFailure Addr}
    (hspawn : perform (.fiberSpawn func data alloc) s = some s') :
    Available s alloc ∧ s' = s.settle (fiberSpawn func data alloc s) := by
  unfold perform at hspawn
  cases hcontrol : s.control with
  | user thread =>
      simp only [hcontrol] at hspawn
      obtain ⟨havailable, hsettle⟩ := Option.ite_none_right_eq_some.mp hspawn
      exact ⟨havailable, (Option.some.inj hsettle).symm⟩
  | afterSave | resume | startFunc | halted => simp [hcontrol] at hspawn

/-- **The ring.** In every reachable state of every program, the allocated nodes are one ring that
starts at `fibers`. A spawn puts its node at the end of it. A fiber that finishes takes its own
node out of it, which is at `fibers` and not the only one, and `fibers` moves on to the next. -/
theorem fibers_form_ring (hreach : Reachable (fiberSystem Func Data) s) :
    ∃ ring, Wired s ring ∧
      (∀ head, s.fibers = some head → ∀ a, (∃ j, s.links.next^[j] head = a) ↔ a ∈ s.live) ∧
      (∀ a ∈ s.live, s.links.prev (s.links.next a) = a ∧ s.links.next (s.links.prev a) = a) ∧
      (∀ func data addr s', perform (.fiberSpawn func data (.ok addr)) s = some s' →
        addr ∉ ring ∧ Wired s' (ring ++ [addr])) ∧
      ∀ s', perform .finish s = some s' →
        ∃ stack, s.control = .user (.fiber stack) ∧ Leaves s s' stack ring := by
  obtain ⟨ring, hwired, hturn⟩ : RingInv s := hreach.invariant RingInv.init RingInv.step
  refine ⟨ring, hwired, fun head hhead a => hwired.reached_iff hhead, ?_, ?_, ?_⟩
  · intro a ha
    have hmem := (hwired.live a).mp ha
    exact ⟨(hwired.isRing.next_linked hmem).2, (hwired.isRing.prev_linked hmem).2⟩
  · intro func data addr s' hspawn
    obtain ⟨havailable, hsettle⟩ := perform_spawn hspawn
    have hfresh := hwired.not_mem_of_available havailable
    obtain ⟨links, hok, hextends⟩ := fiberSpawn_ok hwired hfresh func data
    rw [hok, State.settle_ok] at hsettle
    exact ⟨hfresh, hsettle ▸ hextends.wired⟩
  · intro s' hfinish
    obtain ⟨stack, hcontrol, rfl⟩ := perform_finish hfinish
    refine ⟨stack, hcontrol, ?_⟩
    rcases hturn with (⟨halt, hstuck⟩ | ⟨hstuck, _⟩) | ⟨owner, hslots, hturn⟩
    · simp [hcontrol] at hstuck
    · simp [hcontrol] at hstuck
    · exact (finish_ring hslots hturn hcontrol).2

/-- Main has taken the node of the first fiber, and the second fiber finishes. -/
theorem fibers_form_ring_displaced :
    ∃ s s' : State Nat Nat, Reachable (fiberSystem Nat Nat) s ∧ perform .finish s = some s' ∧
      s.started = [(1, 20, none)] ∧ s.fibers = some 2 ∧
      ∃ ring, Wired s ring ∧ ∃ stack, s.control = .user (.fiber stack) ∧
        Leaves s s' stack ring := by
  let run : Run (fiberSystem Nat Nat) :=
    .ofExecute (freshState Nat Nat) freshState_initial
      [.fiberSpawn 10 none (.ok 1), .fiberSpawn 20 none (.ok 2), .fiberYield (.ok 3),
        .internal, .internal, .internal, .finish] .internal
      (by decide +kernel)
  have hreach := run.reachable 6 (by decide)
  have hfinish : perform .finish (run.state 6) = some (run.state 7) := run.steps 6 (by decide)
  obtain ⟨ring, hwired, _, _, _, hleaves⟩ := fibers_form_ring hreach
  exact ⟨run.state 6, run.state 7, hreach, hfinish, by decide +kernel, by decide +kernel, ring,
    hwired, hleaves _ hfinish⟩

end Acos.Fibers
