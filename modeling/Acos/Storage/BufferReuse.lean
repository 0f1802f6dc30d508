import Acos.Storage.BufferCoherence

/-!
# Which buffer is reused, and when there is none

The list of the buffers is kept in the order of the last release, and `bget` looks for a free buffer
from its end. The checks of the cache and of the driver never fail; the kernel stops when all the
buffers are in use or dirty, when the disk is not there, or for a block behind its end.
-/

namespace Acos.Storage.Bio

open Transition LinkedRing

section Frame

variable {U : Type} {c c' : Cache U} {i : Fin NBUF}

/-- The list is unchanged, and the buffers are those of the same blocks. -/
structure Cache.Keeps (c c' : Cache U) : Prop where
  links : c'.links = c.links
  havedisk1 : c'.havedisk1 = c.havedisk1
  block : ∀ i, (c'.buf i).dev = (c.buf i).dev ∧ (c'.buf i).blockno = (c.buf i).blockno

theorem Cache.Keeps.refl (c : Cache U) : c.Keeps c := ⟨rfl, rfl, fun _ => ⟨rfl, rfl⟩⟩

theorem Cache.keeps_set {buffer : Buffer U}
    (hsame : buffer.dev = (c.buf i).dev ∧ buffer.blockno = (c.buf i).blockno) :
    c.Keeps (c.set i buffer) := by
  refine ⟨rfl, rfl, fun j => ?_⟩
  by_cases hj : j = i
  · rw [hj, Cache.set_buf_self]
    exact hsame
  · rw [Cache.set_buf_of_ne _ _ hj]
    exact ⟨rfl, rfl⟩

theorem Cache.keeps_idestart (hidestart : c.idestart i = .ok c') : c.Keeps c' := by
  unfold Cache.idestart at hidestart
  split_ifs at hidestart
  cases hidestart
  exact ⟨rfl, rfl, fun _ => ⟨rfl, rfl⟩⟩

theorem Cache.keeps_iderw (hiderw : c.iderw i = .ok c') : c.Keeps c' := by
  unfold Cache.iderw at hiderw
  dsimp only at hiderw
  split_ifs at hiderw
  · obtain ⟨hlinks, hdisk, hblock⟩ := Cache.keeps_idestart hiderw
    exact ⟨hlinks, hdisk, hblock⟩
  · cases hiderw
    exact ⟨rfl, rfl, fun _ => ⟨rfl, rfl⟩⟩

theorem Cache.keeps_ideintr {ready : Bool} (hideintr : c.ideintr ready = .ok c') : c.Keeps c' := by
  unfold Cache.ideintr at hideintr
  split at hideintr
  · cases hideintr
    exact .refl c
  · rename_i i queue hqueue
    obtain ⟨hlinks, hdisk, hblock⟩ : c.Keeps (c.set i (c.finished i ready)) := Cache.keeps_set ⟨rfl, rfl⟩
    dsimp only at hideintr
    split at hideintr
    · cases hideintr
      exact ⟨hlinks, hdisk, hblock⟩
    · obtain ⟨hlinks', hdisk', hblock'⟩ := Cache.keeps_idestart hideintr
      exact ⟨hlinks'.trans hlinks, hdisk'.trans hdisk, fun j =>
        ⟨(hblock' j).1.trans (hblock j).1, (hblock' j).2.trans (hblock j).2⟩⟩

theorem Cache.block_brelse (c : Cache U) (i j : Fin NBUF) :
    ((c.brelse i).buf j).dev = (c.buf j).dev ∧
      ((c.brelse i).buf j).blockno = (c.buf j).blockno := by
  have hkeeps : c.Keeps (c.set i { c.buf i with refcnt := (c.buf i).refcnt - 1 }) :=
    Cache.keeps_set ⟨rfl, rfl⟩
  unfold Cache.brelse
  dsimp only
  split_ifs <;> exact hkeeps.block j

variable [DecidableEq U] {s s' : State U} {label : Label U} {u : U} {pc : Pc}

theorem Cache.Keeps.advance {r : Except Panic (Cache U)} (hkeeps : ∀ c, r = .ok c → s.cache.Keeps c) :
    s.cache.Keeps (s.advance u pc r).cache := by
  cases r with
  | ok c => exact hkeeps c rfl
  | error panic => exact .refl s.cache

theorem Cache.Keeps.ok (hkeeps : s.cache.Keeps c) : s.cache.Keeps (s.advance u pc (.ok c)).cache :=
  hkeeps

/-- Only `bget` gives a buffer to another block, and only `brelse` changes the list. -/
theorem Move.keeps (hmove : Move s label s') :
    (s.cache.Keeps s'.cache ∧ ∀ u, label ≠ .brelse u) ∨
    (∃ u b i, label = .bread u b ∧ s.cache.lookup ROOTDEV b = none ∧ s.cache.victim = some i ∧
      s'.cache = s.cache.recycle i ROOTDEV b) ∨
    ∃ u b i, label = .brelse u ∧ s.session u = .releasing b i ∧ s'.cache = s.cache.brelse i := by
  cases hmove with
  | hit | acquiresleep | logWrite =>
      exact .inl ⟨Cache.Keeps.ok (Cache.keeps_set ⟨rfl, rfl⟩), nofun⟩
  | @recycle u b i _ hlookup hvictim =>
      exact .inr (.inl ⟨u, b, i, rfl, hlookup, hvictim, rfl⟩)
  | noBuffers | valid | invalid | done | ideintrPanics => exact .inl ⟨.refl s.cache, nofun⟩
  | iderw => exact .inl ⟨.advance fun c hc => Cache.keeps_iderw hc, nofun⟩
  | ideintr hcache => exact .inl ⟨Cache.keeps_ideintr hcache, nofun⟩
  | bwrite =>
      refine .inl ⟨.advance fun c hc => ?_, nofun⟩
      unfold Cache.bwrite at hc
      split_ifs at hc
      cases hc
      exact Cache.keeps_set ⟨rfl, rfl⟩
  | releasesleep =>
      refine .inl ⟨.advance fun c hc => ?_, nofun⟩
      unfold Cache.unlock at hc
      split_ifs at hc
      cases hc
      exact Cache.keeps_set ⟨rfl, rfl⟩
  | @brelse u b i hpc => exact .inr (.inr ⟨u, b, i, rfl, hpc, rfl⟩)

/-- Only `ideinit` looks for the disk. -/
theorem Move.havedisk1 (hmove : Move s label s') : s'.cache.havedisk1 = s.cache.havedisk1 := by
  rcases hmove.keeps with ⟨hkeeps, -⟩ | ⟨u, b, i, -, -, -, hcache⟩ | ⟨u, b, i, -, -, hcache⟩
  · exact hkeeps.havedisk1
  · rw [hcache]
    rfl
  · rw [hcache, Cache.brelse]
    dsimp only
    split_ifs <;> rfl

end Frame

section Reuse

variable {U : Type} [DecidableEq U] {s s' : State U} {label : Label U}

/-- The buffer that the step releases for the last of its sessions. -/
def released (s : State U) : Label U → Option (Fin NBUF)
  | .brelse u =>
      match s.session u with
      | .releasing _ i => if (s.cache.buf i).refcnt - 1 = 0 then some i else none
      | _ => none
  | _ => none

/-- The number of the step that last released the buffer, or zero. -/
def lastReleased (run : Run (system (U := U))) : Nat → Fin NBUF → Nat
  | 0, _ => 0
  | k + 1, i =>
      if released (run.state k) (run.label k) = some i then k + 1 else lastReleased run k i

theorem lastReleased_le (run : Run (system (U := U))) (k : Nat) (i : Fin NBUF) :
    lastReleased run k i ≤ k := by
  induction k with
  | zero => exact Nat.le_refl 0
  | succ k ih =>
      rw [lastReleased]
      split_ifs
      · exact Nat.le_refl _
      · exact Nat.le_succ_of_le ih

omit [DecidableEq U] in
theorem released_eq_none (hlabel : ∀ u, label ≠ .brelse u) : released s label = none := by
  cases label with
  | brelse u => exact absurd rfl (hlabel u)
  | bread | acquiresleep | test | iderw | ideintr | done | logWrite | bwrite | releasesleep => rfl

/-- What a step does to the list: the buffer it releases comes to the front. -/
theorem Move.ordered (hmove : Move s label s') {order : List (Fin NBUF)}
    (horder : Ordered s.cache.links order) :
    (released s label = none ∧ Ordered s'.cache.links order) ∨
      ∃ i, released s label = some i ∧ Ordered s'.cache.links (i :: order.erase i) := by
  rcases hmove.keeps with ⟨hkeeps, hlabel⟩ | ⟨u, b, i, rfl, -, -, hcache⟩ | ⟨u, b, i, rfl, hpc, hcache⟩
  · exact .inl ⟨released_eq_none hlabel, hkeeps.links ▸ horder⟩
  · exact .inl ⟨rfl, hcache ▸ horder⟩
  · simp only [released, hpc, hcache, Cache.brelse, Cache.set_buf_self]
    split_ifs
    · exact .inr ⟨i, rfl, horder.moveToFront i⟩
    · exact .inl ⟨rfl, horder⟩

/-- The list is in the order of the last release. -/
theorem ordered_run (run : Run (system (U := U))) :
    ∀ k, k ≤ run.length → ∃ order, Ordered (run.state k).cache.links order ∧
      order.Pairwise fun i j => lastReleased run k j ≤ lastReleased run k i := by
  refine run.induction ?_ fun k hk ih => ?_
  · obtain ⟨havedisk1, disk, hstart⟩ := run.starts
    refine ⟨_, by rw [hstart]; exact ordered_binit, ?_⟩
    exact List.pairwise_of_forall fun _ _ => Nat.le_refl 0
  · obtain ⟨order, horder, hsorted⟩ := ih
    obtain ⟨-, hmove⟩ := step_move (run.steps k hk)
    rcases hmove.ordered horder with ⟨hnone, horder'⟩ | ⟨i, hsome, horder'⟩
    · refine ⟨order, horder', hsorted.imp fun hle => ?_⟩
      simpa [lastReleased, hnone] using hle
    · refine ⟨_, horder', List.pairwise_cons.mpr ⟨fun j _ => ?_, ?_⟩⟩
      · have hnow : lastReleased run (k + 1) i = k + 1 := by rw [lastReleased, if_pos hsome]
        rw [hnow]
        exact lastReleased_le run (k + 1) j
      · have hother : ∀ j ∈ order.erase i, lastReleased run (k + 1) j = lastReleased run k j := by
          intro j hj
          have hne : i ≠ j := fun heq => horder.nodup.not_mem_erase (heq ▸ hj)
          rw [lastReleased, if_neg]
          rw [hsome]
          exact fun heq => hne (Option.some.inj heq)
        refine (hsorted.sublist List.erase_sublist).imp_of_mem fun hj hl hle => ?_
        rwa [hother _ hj, hother _ hl]

/-- A buffer is given to another block only for a block that is in no buffer. No session refers to it,
it is not dirty, and no such buffer was released before it. -/
theorem bget_reuses_lru [Fintype U] (hcard : Fintype.card U < 2 ^ 32) (run : Run (system (U := U)))
    (k : Nat) (hk : k < run.length) (i : Fin NBUF)
    (hchanged : (((run.state (k + 1)).cache.buf i).dev, ((run.state (k + 1)).cache.buf i).blockno)
      ≠ (((run.state k).cache.buf i).dev, ((run.state k).cache.buf i).blockno)) :
    (∃ u b, run.label k = .bread u b ∧ ∀ j, ((run.state k).cache.buf j).caches ROOTDEV b = false) ∧
    (run.state k).Unused i ∧
    ∀ j, (run.state k).Unused j → lastReleased run k i ≤ lastReleased run k j := by
  have hs := sound_run hcard run k hk.le
  obtain ⟨order, horder, hsorted⟩ := ordered_run run k hk.le
  obtain ⟨-, hmove⟩ := step_move (run.steps k hk)
  rcases hmove.keeps with ⟨hkeeps, -⟩ | ⟨u, b, i', hlabel, hlookup, hvictim, hcache⟩ |
    ⟨u, b, i', -, -, hcache⟩
  · exact absurd (Prod.ext (hkeeps.block i).1 (hkeeps.block i).2) hchanged
  · have hi : i = i' := by
      by_contra hne
      rw [hcache, Cache.recycle, Cache.set_buf_of_ne _ _ hne] at hchanged
      exact hchanged rfl
    subst hi
    refine ⟨⟨u, b, hlabel, horder.lookup_eq_none hlookup⟩,
      hs.free_iff.mp (horder.free_of_victim hvictim), ?_⟩
    intro j hj
    rw [horder.victim_eq, List.find?_eq_some_iff_append] at hvictim
    obtain ⟨-, back, front, hreverse, hback⟩ := hvictim
    have hsplit : order = front.reverse ++ i :: back.reverse := by
      rw [← List.reverse_inj, hreverse]
      simp
    rw [hsplit, List.pairwise_append] at hsorted
    have hmem := horder.mem j
    rw [hsplit, List.mem_append, List.mem_cons] at hmem
    rcases hmem with hmem | rfl | hmem
    · exact hsorted.2.2 j hmem i List.mem_cons_self
    · exact Nat.le_refl _
    · have hbusy := hback j (List.mem_reverse.mp hmem)
      rw [hs.free_iff.mpr hj] at hbusy
      cases hbusy
  · have hblock := (run.state k).cache.block_brelse i' i
    rw [← hcache] at hblock
    exact absurd (Prod.ext hblock.1 hblock.2) hchanged

/-- A block is read and released, and then another one is read. -/
def readTwice : Run (system (U := Unit)) :=
  .ofExecute (start true fun _ _ => 0) (init_start _ _)
    [.bread () 5, .acquiresleep (), .test (), .iderw (), .ideintr true, .done (), .releasesleep (),
      .brelse (), .bread () 6] (.ideintr true) (by decide +kernel)

/-- The second block gets another buffer than the one that has just been released. -/
theorem bget_reuses_lru_after_release :
    lastReleased readTwice 8 0 = 8 ∧ (readTwice.state 8).Unused 0 ∧
      (readTwice.state 9).session () = .locking 6 1 ∧ (readTwice.state 8).Unused 1 ∧
      ∀ j, (readTwice.state 8).Unused j → lastReleased readTwice 8 1 ≤ lastReleased readTwice 8 j := by
  obtain ⟨-, hunused, holdest⟩ :=
    bget_reuses_lru (by decide) readTwice 8 (by decide) 1 (by decide +kernel)
  have hidle : (readTwice.state 8).session () = .idle := by decide +kernel
  refine ⟨by decide +kernel, ⟨fun _ b => ?_, by decide +kernel⟩, by decide +kernel, hunused, holdest⟩
  rw [hidle]
  exact nofun

theorem havedisk1_run (run : Run (system (U := U))) :
    ∀ k, k ≤ run.length → (run.state k).cache.havedisk1 = (run.state 0).cache.havedisk1 :=
  run.induction rfl fun k hk ih => (step_move (run.steps k hk)).2.havedisk1.trans ih

theorem stopped_run [Fintype U] (hcard : Fintype.card U < 2 ^ 32) (run : Run (system (U := U))) :
    ∀ k, k ≤ run.length → ∀ panic, (run.state k).panic = some panic →
      (run.state k).Stopped panic := by
  refine run.induction ?_ fun k hk _ panic hpanic => ?_
  · obtain ⟨havedisk1, disk, hstart⟩ := run.starts
    rw [hstart]
    exact nofun
  · obtain ⟨hup, hmove⟩ := step_move (run.steps k hk)
    exact (sound_run hcard run k hk.le).stopped hup hmove hpanic

/-- The checks of the cache and of the driver never fail: the kernel stops only when every buffer is
referred to or dirty, when there is no second disk, or for a block that the disk does not have. -/
theorem bcache_panics [Fintype U] (hcard : Fintype.card U < 2 ^ 32) (run : Run (system (U := U)))
    (k : Nat) (hk : k ≤ run.length) (panic : Panic) (hpanic : (run.state k).panic = some panic) :
    (panic = .noBuffers ∧ ∀ i, (∃ u b, ((run.state k).session u).on = some (b, i)) ∨
      ((run.state k).cache.buf i).dirty = true) ∨
    (panic = .diskNotPresent ∧ (run.state 0).cache.havedisk1 = false) ∨
    (panic = .incorrectBlockno ∧
      ∃ u b i, ((run.state k).session u).on = some (b, i) ∧ FSSIZE ≤ b) := by
  have hdisk := havedisk1_run run k hk
  rcases stopped_run hcard run k hk panic hpanic with ⟨rfl, hbusy⟩ | ⟨rfl, hnone⟩ | hlarge
  · refine .inl ⟨rfl, fun i => ?_⟩
    by_contra hunused
    simp only [not_or, not_exists, Bool.not_eq_true] at hunused
    exact hbusy i hunused
  · exact .inr (.inl ⟨rfl, hdisk ▸ hnone⟩)
  · exact .inr (.inr hlarge)

/-- A block behind the end of the disk. -/
def beyond : Run (system (U := Bool)) :=
  .ofExecute (start true fun b _ => b) (init_start _ _)
    [.bread true 1000, .acquiresleep true, .test true, .iderw true] (.ideintr true)
    (by decide +kernel)

theorem bcache_panics_beyond :
    (beyond.state 4).panic = some .incorrectBlockno ∧
      ∃ u b i, ((beyond.state 4).session u).on = some (b, i) ∧ FSSIZE ≤ b := by
  have hpanic : (beyond.state 4).panic = some .incorrectBlockno := by decide +kernel
  refine ⟨hpanic, ?_⟩
  rcases bcache_panics (by decide) beyond 4 (by decide) _ hpanic with
    ⟨hno, -⟩ | ⟨hno, -⟩ | ⟨-, hlarge⟩
  · cases hno
  · cases hno
  · exact hlarge

end Reuse

end Acos.Storage.Bio
