import Acos.Storage.BufferCache
import Mathlib.Tactic.IntervalCases

/-!
# The buffer cache is coherent

However the sessions interleave, there is at most one buffer for a block, a buffer is used by one
session at a time, and it is recycled only when no session refers to it and its data are on the
disk. So whoever uses a block sees what was last written to it, unless the disk has failed to deliver
a block: the driver then marks a buffer as valid that it has not read.
-/

namespace Acos.Storage.Bio

open Transition LinkedRing Interleaving

/-! ### The list of the buffers -/

section Order

variable {U : Type} {c : Cache U} {order : List (Fin NBUF)}

/-- The buffers in the order of the list that starts at `bcache.head`. -/
structure Ordered (links : Links (Option (Fin NBUF))) (order : List (Fin NBUF)) : Prop where
  ring : IsRing links (none :: order.map some)
  mem : ∀ i, i ∈ order

theorem Ordered.nodup {links : Links (Option (Fin NBUF))} (hc : Ordered links order) :
    order.Nodup :=
  (List.nodup_cons.mp hc.ring.nodup).2.of_map

theorem Ordered.length_lt {links : Links (Option (Fin NBUF))} (hc : Ordered links order) :
    (order.map some).length < NBUF + 1 := by
  rw [List.length_map, Nat.lt_succ_iff]
  simpa using hc.nodup.length_le_card

theorem join_find?_map_some {α : Type} (p : α → Bool) (l : List α) :
    ((l.map some).find? (Option.any p)).join = l.find? p := by
  rw [List.find?_map]
  change ((l.find? p).map some).join = _
  cases l.find? p <;> rfl

theorem Ordered.lookup_eq (hc : Ordered c.links order) (dev blockno : Word) :
    c.lookup dev blockno = order.find? fun i => (c.buf i).caches dev blockno := by
  rw [Cache.lookup, hc.ring.search_next _ hc.length_lt, join_find?_map_some]

theorem Ordered.victim_eq (hc : Ordered c.links order) :
    c.victim = order.reverse.find? fun i => (c.buf i).free := by
  rw [Cache.victim, hc.ring.search_prev _ hc.length_lt, ← List.map_reverse, join_find?_map_some]

theorem Ordered.lookup_eq_none (hc : Ordered c.links order) {dev blockno : Word}
    (hlookup : c.lookup dev blockno = none) (i : Fin NBUF) :
    (c.buf i).caches dev blockno = false := by
  rw [hc.lookup_eq, List.find?_eq_none] at hlookup
  exact Bool.eq_false_iff.mpr (hlookup i (hc.mem i))

theorem Ordered.caches_of_lookup (hc : Ordered c.links order) {dev blockno : Word} {i : Fin NBUF}
    (hlookup : c.lookup dev blockno = some i) : (c.buf i).caches dev blockno = true := by
  rw [hc.lookup_eq] at hlookup
  have hfound := List.find?_some hlookup
  exact hfound

theorem Ordered.victim_eq_none (hc : Ordered c.links order) (hvictim : c.victim = none)
    (i : Fin NBUF) : (c.buf i).free = false := by
  rw [hc.victim_eq, List.find?_eq_none] at hvictim
  exact Bool.eq_false_iff.mpr (hvictim i (List.mem_reverse.mpr (hc.mem i)))

theorem Ordered.free_of_victim (hc : Ordered c.links order) {i : Fin NBUF}
    (hvictim : c.victim = some i) : (c.buf i).free = true := by
  rw [hc.victim_eq] at hvictim
  have hfound := List.find?_some hvictim
  exact hfound

/-- `brelse` moves the buffer to the front. -/
theorem Ordered.moveToFront {links : Links (Option (Fin NBUF))} (hc : Ordered links order)
    (i : Fin NBUF) :
    Ordered ((links.detach (some i)).insertAfter none (some i)) (i :: order.erase i) := by
  obtain ⟨front, back, hfresh, hsplit, herase⟩ := List.exists_erase_eq (hc.mem i)
  have hring := hc.ring
  rw [hsplit, List.map_append, List.map_cons] at hring
  refine ⟨?_, fun j => ?_⟩
  · rw [herase, List.map_cons, List.map_append]
    exact hring.moveToFront
  · by_cases hj : j = i
    · exact hj ▸ List.mem_cons_self
    · exact List.mem_cons_of_mem i ((List.mem_erase_of_ne hj).mpr (hc.mem j))

theorem isRing_foldl_insertAfter (bufs : List (Fin NBUF)) {links : Links (Option (Fin NBUF))}
    {ring : List (Fin NBUF)} (hring : IsRing links (none :: ring.map some))
    (hnodup : (bufs.reverse ++ ring).Nodup) :
    IsRing (bufs.foldl (fun links b => links.insertAfter none (some b)) links)
      (none :: (bufs.reverse ++ ring).map some) := by
  induction bufs generalizing links ring with
  | nil => exact hring
  | cons b bufs ih =>
      rw [List.reverse_cons, List.append_assoc, List.singleton_append] at hnodup ⊢
      refine ih (hring.insertAfter ?_) hnodup
      have hfresh : b ∉ ring :=
        (List.nodup_cons.mp (List.nodup_append.mp hnodup).2.1).1
      simpa using hfresh

theorem ordered_binit : Ordered Cache.binitLinks (List.finRange NBUF).reverse := by
  refine ⟨?_, fun i => by simp⟩
  have hhead : IsRing (Links.single ⟨id, id⟩ none) (none :: ([] : List (Fin NBUF)).map some) :=
    isRing_single _ none
  have hring := isRing_foldl_insertAfter (List.finRange NBUF) hhead
    (by simpa using List.nodup_finRange NBUF)
  rwa [List.append_nil] at hring

end Order

/-! ### What every state has -/

/-- The block and the buffer of a session. -/
def Pc.on : Pc → Option (Word × Fin NBUF)
  | .idle => none
  | .locking b i | .locked b i | .iderw b i | .waiting b i | .inUse b i | .releasing b i => some (b, i)

def Pc.refers (i : Fin NBUF) (pc : Pc) : Bool := pc.on.any fun r => r.2 == i

/-- The buffer whose sleep lock the session has. -/
def Pc.holds : Pc → Option (Fin NBUF)
  | .locked _ i | .iderw _ i | .waiting _ i | .inUse _ i => some i
  | .idle | .locking _ _ | .releasing _ _ => none

section Invariant

variable {U : Type} {s s' : State U}

@[simp]
theorem Buffer.caches_iff (b : Buffer U) (dev blockno : Word) :
    b.caches dev blockno = true ↔ b.dev = dev ∧ b.blockno = blockno := by
  simp [Buffer.caches]

/-- The buffer has something to transfer. -/
def Buffer.Pending (b : Buffer U) : Prop := b.valid = true → b.dirty = true

/-- What a session relies on in its buffer. -/
def Pc.Fits (u : U) (buf : Fin NBUF → Buffer U) : Pc → Prop
  | .idle => True
  | .locking b i | .releasing b i => (buf i).caches ROOTDEV b = true
  | .locked b i | .waiting b i => (buf i).caches ROOTDEV b = true ∧ (buf i).lock = some u
  | .iderw b i => (buf i).caches ROOTDEV b = true ∧ (buf i).lock = some u ∧ (buf i).Pending
  | .inUse b i =>
      (buf i).caches ROOTDEV b = true ∧ (buf i).lock = some u ∧ (buf i).valid = true

/-- There is one buffer for a block, its counter is right and its lock is held by one session. The
requests of the driver are those of the sessions that wait. -/
structure Sound [Fintype U] (s : State U) : Prop where
  ordered : ∃ order, Ordered s.cache.links order
  unique : ∀ i j b, (s.cache.buf i).caches ROOTDEV b = true →
    (s.cache.buf j).caches ROOTDEV b = true → i = j
  device : ∀ i, (s.cache.buf i).valid = true → (s.cache.buf i).dev = ROOTDEV
  loaded : ∀ i, (s.cache.buf i).dirty = true → (s.cache.buf i).valid = true
  refs : ∀ i, (s.cache.buf i).refcnt.toNat = count (Pc.refers i) s.session
  fits : ∀ u, (s.session u).Fits u s.cache.buf
  owner : ∀ i u, (s.cache.buf i).lock = some u → (s.session u).holds = some i
  nodup : s.cache.idequeue.Nodup
  queued : ∀ i, i ∈ s.cache.idequeue ↔
    (∃ u b, s.session u = .waiting b i) ∧ (s.cache.buf i).Pending

/-- No session refers to the buffer, and its data are on the disk. -/
def State.Unused (s : State U) (i : Fin NBUF) : Prop :=
  (∀ v b, (s.session v).on ≠ some (b, i)) ∧ (s.cache.buf i).dirty = false

section Sessions

variable {u : U} {buf : Fin NBUF → Buffer U} {pc : Pc} {b : Word} {i j : Fin NBUF}

theorem Pc.Fits.caches (hfits : pc.Fits u buf) (hon : pc.on = some (b, i)) :
    (buf i).caches ROOTDEV b = true := by
  cases pc <;> cases hon
  · exact hfits
  · exact hfits.1
  · exact hfits.1
  · exact hfits.1
  · exact hfits.1
  · exact hfits

theorem Pc.Fits.lock (hfits : pc.Fits u buf) (hholds : pc.holds = some i) :
    (buf i).lock = some u := by
  cases pc <;> cases hholds
  · exact hfits.2
  · exact hfits.2.1
  · exact hfits.2
  · exact hfits.2.1

theorem Pc.on_of_holds (hholds : pc.holds = some i) : ∃ b, pc.on = some (b, i) := by
  cases pc <;> cases hholds <;> exact ⟨_, rfl⟩

theorem Pc.refers_iff : pc.refers i = true ↔ ∃ b, pc.on = some (b, i) := by
  simp [Pc.refers, Option.any_eq_true]

/-- The session refers to no buffer but `i`. -/
def Pc.Only (i : Fin NBUF) (pc : Pc) : Prop := ∀ b j, pc.on = some (b, j) → j = i

theorem Pc.Only.refers (honly : pc.Only i) (hj : j ≠ i) : pc.refers j = false := by
  refine Bool.eq_false_iff.mpr fun hrefers => ?_
  obtain ⟨b, hb⟩ := Pc.refers_iff.mp hrefers
  exact hj (honly b j hb)

theorem Pc.Only.ne_waiting (honly : pc.Only i) (hj : j ≠ i) : pc ≠ .waiting b j := by
  rintro rfl
  exact hj (honly b j rfl)

theorem Pc.only_of_on (hon : pc.on = some (b, i)) : pc.Only i := by
  intro b' j hj
  rw [hon] at hj
  exact (congrArg Prod.snd (Option.some.inj hj)).symm

theorem Pc.Fits.congr {buf' : Fin NBUF → Buffer U} (hfits : pc.Fits u buf)
    (hbuf : ∀ b j, pc.on = some (b, j) → buf' j = buf j) : pc.Fits u buf' := by
  cases pc with
  | idle => trivial
  | locking b j | locked b j | iderw b j | waiting b j | inUse b j | releasing b j =>
      simp only [Pc.Fits, hbuf b j rfl]
      exact hfits

theorem Pc.Fits.of_on_eq_none (hon : pc.on = none) : pc.Fits u buf := by
  cases pc with
  | idle => trivial
  | locking | locked | iderw | waiting | inUse | releasing => cases hon

/-- A session that does not hold its buffer only relies on its block. -/
theorem Pc.Fits.of_caches {buffer : Buffer U} (hon : pc.on = some (b, i))
    (hholds : pc.holds ≠ some i) (hcaches : buffer.caches ROOTDEV b = true) :
    pc.Fits u fun _ => buffer := by
  cases pc with
  | idle => trivial
  | locking | releasing =>
      cases hon
      exact hcaches
  | locked | iderw | waiting | inUse =>
      cases hon
      exact absurd rfl hholds

/-- No session relies on the number of the sessions. -/
theorem Pc.Fits.refcnt (hfits : pc.Fits u buf) (hon : pc.on = some (b, i)) (refcnt : Word) :
    pc.Fits u fun _ => { buf i with refcnt := refcnt } := by
  cases pc <;> cases hon <;> exact hfits

variable [DecidableEq U]

theorem exists_waiting_update {session : U → Pc} (hbefore : ∀ b, session u ≠ .waiting b i)
    (hafter : ∀ b, pc ≠ .waiting b i) :
    (∃ v b, Function.update session u pc v = .waiting b i) ↔ ∃ v b, session v = .waiting b i := by
  constructor
  · rintro ⟨v, b, hv⟩
    by_cases huv : v = u
    · rw [huv, Function.update_self] at hv
      exact absurd hv (hafter b)
    · rw [Function.update_of_ne huv] at hv
      exact ⟨v, b, hv⟩
  · rintro ⟨v, b, hv⟩
    have huv : v ≠ u := fun heq => hbefore b (heq ▸ hv)
    exact ⟨v, b, by rw [Function.update_of_ne huv, hv]⟩

end Sessions

section Steps

variable [Fintype U] {u : U} {pc : Pc} {b : Word} {i : Fin NBUF}

theorem Sound.eq_of_holds (hs : Sound s) {u v : U} (hu : (s.session u).holds = some i)
    (hv : (s.session v).holds = some i) : u = v := by
  have hlock := (hs.fits u).lock hu
  rw [(hs.fits v).lock hv] at hlock
  exact (Option.some.inj hlock).symm

/-- The buffer stays the one of its block. -/
theorem Sound.unique_of_same (hs : Sound s) {buffer : Buffer U}
    (hsame : buffer.dev = (s.cache.buf i).dev ∧ buffer.blockno = (s.cache.buf i).blockno) :
    ∀ b j, j ≠ i → buffer.caches ROOTDEV b = true → (s.cache.buf j).caches ROOTDEV b = false := by
  intro b j hj hcaches
  refine Bool.eq_false_iff.mpr fun hcaches' => hj (hs.unique j i b hcaches' ?_)
  rw [Buffer.caches_iff] at hcaches ⊢
  rwa [hsame.1, hsame.2] at hcaches

variable [DecidableEq U]

/-- One session moves, and one buffer is replaced by another one: what has to be known of this
buffer. -/
structure Replaces (s : State U) (u : U) (pc : Pc) (i : Fin NBUF) (buffer : Buffer U)
    (queue : List (Fin NBUF)) : Prop where
  only : (s.session u).Only i
  only' : pc.Only i
  unique : ∀ b j, j ≠ i → buffer.caches ROOTDEV b = true →
    (s.cache.buf j).caches ROOTDEV b = false
  device : buffer.valid = true → buffer.dev = ROOTDEV
  loaded : buffer.dirty = true → buffer.valid = true
  refs : buffer.refcnt.toNat = count (Pc.refers i) (Function.update s.session u pc)
  fits : ∀ v b, (Function.update s.session u pc v).on = some (b, i) →
    (Function.update s.session u pc v).Fits v fun _ => buffer
  owner : ∀ v, buffer.lock = some v → (Function.update s.session u pc v).holds = some i
  nodup : queue.Nodup
  others : ∀ j, j ≠ i → (j ∈ queue ↔ j ∈ s.cache.idequeue)
  queued : i ∈ queue ↔
    (∃ v b, Function.update s.session u pc v = .waiting b i) ∧ buffer.Pending

theorem Sound.replace (hs : Sound s) {buffer : Buffer U} {c : Cache U} {panic : Option Panic}
    (hr : Replaces s u pc i buffer c.idequeue)
    (hbuf : c.buf = Function.update s.cache.buf i buffer)
    (hordered : ∃ order, Ordered c.links order) :
    Sound ⟨c, Function.update s.session u pc, panic⟩ := by
  have hself : c.buf i = buffer := by rw [hbuf, Function.update_self]
  have hne : ∀ {j}, j ≠ i → c.buf j = s.cache.buf j := fun hj => by
    rw [hbuf, Function.update_of_ne hj]
  refine ⟨hordered, ?_, ?_, ?_, ?_, ?_, ?_, hr.nodup, ?_⟩ <;> dsimp only
  · intro j k b hj hk
    by_cases hji : j = i <;> by_cases hki : k = i
    · rw [hji, hki]
    · rw [hji, hself] at hj
      rw [hne hki, hr.unique b k hki hj] at hk
      cases hk
    · rw [hki, hself] at hk
      rw [hne hji, hr.unique b j hji hk] at hj
      cases hj
    · rw [hne hji] at hj
      rw [hne hki] at hk
      exact hs.unique j k b hj hk
  · intro j
    by_cases hj : j = i
    · rw [hj, hself]
      exact hr.device
    · rw [hne hj]
      exact hs.device j
  · intro j
    by_cases hj : j = i
    · rw [hj, hself]
      exact hr.loaded
    · rw [hne hj]
      exact hs.loaded j
  · intro j
    by_cases hj : j = i
    · rw [hj, hself]
      exact hr.refs
    · have hcount := count_update (Pc.refers j) s.session u pc
      rw [hr.only.refers hj, hr.only'.refers hj] at hcount
      rw [hne hj, hs.refs j]
      exact (Nat.add_right_cancel hcount).symm
  · intro v
    by_cases hon : ∃ b, (Function.update s.session u pc v).on = some (b, i)
    · obtain ⟨b, hb⟩ := hon
      refine (hr.fits v b hb).congr fun b' j hj => ?_
      rw [Pc.only_of_on hb b' j hj, hself]
    · by_cases hv : v = u
      · subst hv
        rw [Function.update_self] at hon ⊢
        cases hpc : pc.on with
        | none => exact .of_on_eq_none hpc
        | some r => exact absurd ⟨r.1, hr.only' r.1 r.2 hpc ▸ hpc⟩ hon
      · rw [Function.update_of_ne hv] at hon ⊢
        exact (hs.fits v).congr fun b j hj => hne fun heq => hon ⟨b, heq ▸ hj⟩
  · intro j v hv
    by_cases hj : j = i
    · rw [hj, hself] at hv
      exact hj ▸ hr.owner v hv
    · rw [hne hj] at hv
      have hheld := hs.owner j v hv
      have huv : v ≠ u := by
        rintro rfl
        obtain ⟨b, hb⟩ := Pc.on_of_holds hheld
        exact hj (hr.only b j hb)
      rwa [Function.update_of_ne huv]
  · intro j
    by_cases hj : j = i
    · rw [hj, hself]
      exact hr.queued
    · rw [hne hj, hr.others j hj, exists_waiting_update (fun _ => hr.only.ne_waiting hj)
        fun _ => hr.only'.ne_waiting hj]
      exact hs.queued j

/-- A session changes a buffer that nobody else has locked. -/
theorem Sound.touch (hs : Sound s) {buffer : Buffer U} {queue : List (Fin NBUF)}
    (hon : (s.session u).on = some (b, i)) (hon' : pc.on = some (b, i))
    (hsame : buffer.dev = (s.cache.buf i).dev ∧ buffer.blockno = (s.cache.buf i).blockno)
    (hrefcnt : buffer.refcnt = (s.cache.buf i).refcnt)
    (hlock : ∀ v, (s.cache.buf i).lock = some v → v = u)
    (hlock' : ∀ v, buffer.lock = some v → v = u ∧ pc.holds = some i)
    (hloaded : buffer.dirty = true → buffer.valid = true)
    (hfits : pc.Fits u fun _ => buffer) (hnodup : queue.Nodup)
    (hothers : ∀ j, j ≠ i → (j ∈ queue ↔ j ∈ s.cache.idequeue))
    (hqueued : i ∈ queue ↔ pc = .waiting b i ∧ buffer.Pending) :
    Replaces s u pc i buffer queue := by
  have hfree : ∀ v, v ≠ u → (s.session v).holds ≠ some i := fun v hv hheld =>
    hv (hlock v ((hs.fits v).lock hheld))
  have hcaches := (hs.fits u).caches hon
  rw [Buffer.caches_iff] at hcaches
  refine ⟨Pc.only_of_on hon, Pc.only_of_on hon', hs.unique_of_same hsame, ?_, hloaded, ?_, ?_, ?_,
    hnodup, hothers, ?_⟩
  · intro _
    rw [hsame.1, hcaches.1]
  · have hcount := count_update (Pc.refers i) s.session u pc
    rw [Pc.refers_iff.mpr ⟨b, hon⟩, Pc.refers_iff.mpr ⟨b, hon'⟩] at hcount
    rw [hrefcnt, hs.refs i]
    exact (Nat.add_right_cancel hcount).symm
  · intro v b' hv
    by_cases huv : v = u
    · rw [huv, Function.update_self]
      exact hfits
    · rw [Function.update_of_ne huv] at hv ⊢
      refine .of_caches hv (hfree v huv) ?_
      have hcaches' := (hs.fits v).caches hv
      rw [Buffer.caches_iff] at hcaches' ⊢
      rwa [hsame.1, hsame.2]
  · intro v hv
    obtain ⟨rfl, hholds⟩ := hlock' v hv
    rwa [Function.update_self]
  · rw [hqueued]
    refine and_congr_left' ⟨fun hpc => ⟨u, b, by rw [Function.update_self, hpc]⟩, ?_⟩
    rintro ⟨v, b', hv⟩
    by_cases huv : v = u
    · rw [huv, Function.update_self] at hv
      rw [hv] at hon' ⊢
      cases hon'
      rfl
    · rw [Function.update_of_ne huv] at hv
      exact absurd (by rw [hv]; rfl) (hfree v huv)

omit [DecidableEq U] in
/-- Nobody else waits for a buffer that the session has locked or that is not locked. -/
theorem Sound.notMem_queue (hs : Sound s) (hlock : ∀ v, (s.cache.buf i).lock = some v → v = u)
    (hwait : ∀ b, s.session u = .waiting b i → ¬(s.cache.buf i).Pending) :
    i ∉ s.cache.idequeue := by
  intro hmem
  obtain ⟨⟨v, b, hv⟩, hpending⟩ := (hs.queued i).mp hmem
  cases hlock v ((hs.fits v).lock (by rw [hv]; rfl))
  exact hwait b hv hpending

/-- The same, if the session does not wait for the buffer. -/
theorem Sound.touchAway (hs : Sound s) {buffer : Buffer U} (hon : (s.session u).on = some (b, i))
    (hon' : pc.on = some (b, i))
    (hsame : buffer.dev = (s.cache.buf i).dev ∧ buffer.blockno = (s.cache.buf i).blockno)
    (hrefcnt : buffer.refcnt = (s.cache.buf i).refcnt)
    (hlock : ∀ v, (s.cache.buf i).lock = some v → v = u)
    (hwait : ∀ b, s.session u = .waiting b i → ¬(s.cache.buf i).Pending)
    (hlock' : ∀ v, buffer.lock = some v → v = u ∧ pc.holds = some i)
    (hloaded : buffer.dirty = true → buffer.valid = true)
    (hfits : pc.Fits u fun _ => buffer) (hwait' : pc ≠ .waiting b i) :
    Replaces s u pc i buffer s.cache.idequeue :=
  hs.touch hon hon' hsame hrefcnt hlock hlock' hloaded hfits hs.nodup (fun _ _ => Iff.rfl)
    (iff_of_false (hs.notMem_queue hlock hwait) fun h => hwait' h.1)

/-- The session begins to wait for its buffer. -/
theorem Sound.enqueue (hs : Sound s) (hpc : s.session u = .iderw b i) :
    i ∉ s.cache.idequeue ∧
      Replaces s u (.waiting b i) i (s.cache.buf i) (s.cache.idequeue ++ [i]) := by
  have hfits := hs.fits u
  rw [hpc] at hfits
  obtain ⟨hcaches, hlock, hpending⟩ := hfits
  have hown : ∀ v, (s.cache.buf i).lock = some v → v = u := fun v hv =>
    (Option.some.inj (hlock.symm.trans hv)).symm
  have hout : i ∉ s.cache.idequeue := by
    refine hs.notMem_queue hown fun b' hb' => ?_
    rw [hpc] at hb'
    cases hb'
  refine ⟨hout, hs.touch (by rw [hpc]; rfl) rfl ⟨rfl, rfl⟩ rfl hown
    (fun v hv => ⟨hown v hv, rfl⟩) (hs.loaded i) ⟨hcaches, hlock⟩ ?_ ?_ ?_⟩
  · rw [List.nodup_append]
    refine ⟨hs.nodup, List.nodup_singleton i, ?_⟩
    rintro j hj k hk rfl
    cases List.mem_singleton.mp hk
    exact hout hj
  · intro j hj
    simp [hj]
  · exact iff_of_true (by simp) ⟨rfl, hpending⟩

/-- The first request is done. -/
theorem Sound.dequeue (hs : Sound s) (ready : Bool) {queue : List (Fin NBUF)}
    (hqueue : s.cache.idequeue = i :: queue) :
    ∃ u b, s.session u = .waiting b i ∧
      Replaces s u (.waiting b i) i (s.cache.finished i ready) queue := by
  obtain ⟨⟨u, b, hu⟩, -⟩ := (hs.queued i).mp (by simp [hqueue])
  have hnodup := hs.nodup
  rw [hqueue, List.nodup_cons] at hnodup
  have hfits := hs.fits u
  rw [hu] at hfits
  obtain ⟨hcaches, hlock⟩ := hfits
  have hown : ∀ v, (s.cache.buf i).lock = some v → v = u := fun v hv =>
    (Option.some.inj (hlock.symm.trans hv)).symm
  refine ⟨u, b, hu, hs.touch (by rw [hu]; rfl) rfl ⟨rfl, rfl⟩ rfl hown
    (fun v hv => ⟨hown v hv, rfl⟩) (fun _ => rfl) ⟨hcaches, hlock⟩ hnodup.2 ?_ ?_⟩
  · intro j hj
    simp [hqueue, hj]
  · refine iff_of_false hnodup.1 ?_
    rintro ⟨-, hpending⟩
    cases hpending rfl

/-- A session that does not hold the buffer begins or ceases to refer to it. -/
theorem Sound.recount (hs : Sound s) {refcnt : Word} (honly : (s.session u).Only i)
    (honly' : pc.Only i) (hout : (s.session u).holds = none) (hout' : pc.holds = none)
    (hfits : pc.Fits u s.cache.buf)
    (hrefcnt : refcnt.toNat = count (Pc.refers i) (Function.update s.session u pc)) :
    Replaces s u pc i { s.cache.buf i with refcnt := refcnt } s.cache.idequeue := by
  have hwaiting : ∀ {pc : Pc}, pc.holds = none → ∀ b, pc ≠ .waiting b i := by
    rintro _ hholds b rfl
    cases hholds
  refine ⟨honly, honly', hs.unique_of_same ⟨rfl, rfl⟩, hs.device i, hs.loaded i, hrefcnt, ?_, ?_,
    hs.nodup, fun _ _ => Iff.rfl, ?_⟩
  · intro v b' hv
    by_cases huv : v = u
    · rw [huv, Function.update_self] at hv ⊢
      exact hfits.refcnt hv refcnt
    · rw [Function.update_of_ne huv] at hv ⊢
      exact (hs.fits v).refcnt hv refcnt
  · intro v hv
    have hheld := hs.owner i v hv
    have huv : v ≠ u := by
      rintro rfl
      rw [hout] at hheld
      cases hheld
    rwa [Function.update_of_ne huv]
  · rw [exists_waiting_update (hwaiting hout) (hwaiting hout')]
    exact hs.queued i

omit [DecidableEq U] in
/-- A free buffer is one that no session refers to and that is not dirty. -/
theorem Sound.free_iff (hs : Sound s) : (s.cache.buf i).free = true ↔ s.Unused i := by
  have hrefcnt : (s.cache.buf i).refcnt = 0 ↔ ∀ v b, (s.session v).on ≠ some (b, i) := by
    rw [← BitVec.toNat_inj, hs.refs i]
    refine count_eq_zero_iff.trans (forall_congr' fun v => ?_)
    rw [Bool.eq_false_iff, ne_eq, Pc.refers_iff, not_exists]
  rw [Buffer.free, Bool.and_eq_true, beq_iff_eq, Bool.not_eq_true', hrefcnt]
  rfl

/-- Nobody refers to the buffer, and it is given to a block that has none. -/
theorem Sound.recycle (hs : Sound s) (hidle : s.session u = .idle)
    (hmiss : ∀ j, (s.cache.buf j).caches ROOTDEV b = false)
    (hfree : (s.cache.buf i).free = true) :
    Replaces s u (.locking b i) i { s.cache.buf i with
      dev := ROOTDEV, blockno := b, valid := false, dirty := false, refcnt := 1 }
      s.cache.idequeue := by
  have hnobody := (hs.free_iff.mp hfree).1
  have hcount : count (Pc.refers i) s.session = 0 := by
    refine count_eq_zero_iff.mpr fun v => Bool.eq_false_iff.mpr fun hrefers => ?_
    obtain ⟨b', hon⟩ := Pc.refers_iff.mp hrefers
    exact hnobody v b' hon
  have honly : (Pc.locking b i).on = some (b, i) := rfl
  refine ⟨?_, Pc.only_of_on honly, ?_, nofun, nofun, ?_, ?_, ?_, hs.nodup, fun _ _ => Iff.rfl, ?_⟩
  · rw [hidle]
    exact nofun
  · intro b' j _ hcaches
    cases ((Buffer.caches_iff ..).mp hcaches).2
    exact hmiss j
  · have hupdate := count_update (Pc.refers i) s.session u (.locking b i)
    rw [hidle, Pc.refers_iff.mpr ⟨b, honly⟩, hcount] at hupdate
    exact hupdate.symm
  · intro v b' hv
    by_cases huv : v = u
    · rw [huv, Function.update_self]
      exact (Buffer.caches_iff ..).mpr ⟨rfl, rfl⟩
    · rw [Function.update_of_ne huv] at hv
      exact absurd hv (hnobody v b')
  · intro v hv
    obtain ⟨b', hb'⟩ := Pc.on_of_holds (hs.owner i v hv)
    exact absurd hb' (hnobody v b')
  · refine iff_of_false ?_ ?_
    · intro hmem
      obtain ⟨⟨v, b', hv⟩, -⟩ := (hs.queued i).mp hmem
      exact hnobody v b' (by rw [hv]; rfl)
    · rintro ⟨⟨v, b', hv⟩, -⟩
      by_cases huv : v = u
      · rw [huv, Function.update_self] at hv
        cases hv
      · rw [Function.update_of_ne huv] at hv
        exact hnobody v b' (by rw [hv]; rfl)

end Steps

/-! ### What the blocks contain -/

/-- The blocks contain what was last written to them: the valid buffers have it, and so has the
disk unless a buffer is dirty and its transfer has not started. -/
structure Coherent (buf : Fin NBUF → Buffer U) (disk : Word → Block) (started : Option (Fin NBUF))
    (contents : Word → Block) : Prop where
  copy : ∀ i, (buf i).valid = true → (buf i).data = contents (buf i).blockno
  disk : ∀ b, (∀ i, (buf i).caches ROOTDEV b = true → (buf i).dirty = true → started = some i) →
    disk b = contents b

section Contents

variable {buf : Fin NBUF → Buffer U} {disk contents : Word → Block} {started : Option (Fin NBUF)}
  {i : Fin NBUF}

/-- The locks and the counters do not matter. -/
theorem Coherent.set (hc : Coherent buf disk started contents) (lock : Option U) (refcnt : Word) :
    Coherent (Function.update buf i { buf i with lock := lock, refcnt := refcnt }) disk started
      contents := by
  have hbuf : ∀ j, ∃ lock' refcnt', Function.update buf i
      { buf i with lock := lock, refcnt := refcnt } j
        = { buf j with lock := lock', refcnt := refcnt' } := by
    intro j
    by_cases hj : j = i
    · exact ⟨lock, refcnt, by rw [hj, Function.update_self]⟩
    · exact ⟨(buf j).lock, (buf j).refcnt, Function.update_of_ne hj ..⟩
  refine ⟨fun j => ?_, fun b hb => hc.disk b fun j hcaches hdirty => hb j ?_ ?_⟩
  · obtain ⟨_, _, hj⟩ := hbuf j
    rw [hj]
    exact hc.copy j
  · obtain ⟨_, _, hj⟩ := hbuf j
    rw [hj]
    exact hcaches
  · obtain ⟨_, _, hj⟩ := hbuf j
    rw [hj]
    exact hdirty

/-- A buffer that is not dirty can be dropped. -/
theorem Coherent.drop (hc : Coherent buf disk started contents) (hclean : (buf i).dirty = false)
    {buffer : Buffer U} (hinvalid : buffer.valid = false) :
    Coherent (Function.update buf i buffer) disk started contents := by
  refine ⟨fun j => ?_, fun b hb => hc.disk b fun j hcaches hdirty => hb j ?_ ?_⟩
  · by_cases hj : j = i
    · rw [hj, Function.update_self, hinvalid]
      exact nofun
    · rw [Function.update_of_ne hj]
      exact hc.copy j
  all_goals
    have hj : j ≠ i := by
      rintro rfl
      rw [hclean] at hdirty
      cases hdirty
    rwa [Function.update_of_ne hj]

/-- The only buffer of the block is changed and marked. -/
theorem Coherent.write (hc : Coherent buf disk started contents)
    (honly : ∀ j, (buf j).valid = true → (buf j).blockno = (buf i).blockno → j = i)
    (hdev : (buf i).dev = ROOTDEV) (hstarted : started ≠ some i) (data : Block) :
    Coherent (Function.update buf i { buf i with data := data, dirty := true }) disk started
      (Function.update contents (buf i).blockno data) := by
  refine ⟨fun j hvalid => ?_, fun b hb => ?_⟩
  · by_cases hj : j = i
    · rw [hj, Function.update_self, Function.update_self]
    · rw [Function.update_of_ne hj] at hvalid ⊢
      rw [Function.update_of_ne fun heq => hj (honly j hvalid heq)]
      exact hc.copy j hvalid
  · have hne : b ≠ (buf i).blockno := by
      rintro rfl
      refine hstarted (hb i ?_ ?_) <;> rw [Function.update_self]
      exact (Buffer.caches_iff ..).mpr ⟨hdev, rfl⟩
    rw [Function.update_of_ne hne]
    refine hc.disk b fun j hcaches hdirty => hb j ?_ ?_
    all_goals
      have hj : j ≠ i := by
        rintro rfl
        exact hne ((Buffer.caches_iff ..).mp hcaches).2.symm
      rwa [Function.update_of_ne hj]

/-- The transfer of a buffer starts when no other one is under way. -/
theorem Coherent.transfer {c : Cache U} (hc : Coherent c.buf c.disk none contents)
    (hvalid : (c.buf i).dirty = true → (c.buf i).valid = true) :
    Coherent c.buf (c.transfer i) (some i) contents := by
  refine ⟨hc.copy, fun b hb => ?_⟩
  unfold Cache.transfer
  by_cases hdirty : (c.buf i).dirty = true
  · rw [if_pos hdirty]
    by_cases hbi : b = (c.buf i).blockno
    · rw [hbi, Function.update_self]
      exact hc.copy i (hvalid hdirty)
    · rw [Function.update_of_ne hbi]
      refine hc.disk b fun j hcaches hdirty' => ?_
      cases hb j hcaches hdirty'
      exact absurd ((Buffer.caches_iff ..).mp hcaches).2.symm hbi
  · rw [if_neg hdirty]
    refine hc.disk b fun j hcaches hdirty' => ?_
    cases hb j hcaches hdirty'
    exact absurd hdirty' hdirty

/-- The transfer is over. -/
theorem Coherent.finish {c : Cache U} (hc : Coherent c.buf c.disk (some i) contents)
    (honly : ∀ j, (c.buf j).caches ROOTDEV (c.buf i).blockno = true → j = i)
    (hvalid : (c.buf i).dirty = true → (c.buf i).valid = true) :
    Coherent (Function.update c.buf i (c.finished i true)) c.disk none contents := by
  have hdisk : c.disk (c.buf i).blockno = contents (c.buf i).blockno :=
    hc.disk _ fun j hcaches _ => by rw [honly j hcaches]
  refine ⟨fun j hj => ?_, fun b hb => hc.disk b fun j hcaches hdirty => ?_⟩
  · by_cases hji : j = i
    · rw [hji, Function.update_self]
      change (if _ then _ else (c.buf i).data) = contents (c.buf i).blockno
      split_ifs with hread
      · exact hdisk
      · exact hc.copy i (hvalid (by simpa using hread))
    · rw [Function.update_of_ne hji] at hj ⊢
      exact hc.copy j hj
  · by_contra hj
    have hji : j ≠ i := fun heq => hj (congrArg some heq.symm)
    refine nomatch hb j ?_ ?_ <;> rwa [Function.update_of_ne hji]

end Contents

end Invariant

/-! ### Every step -/

section System

variable {U : Type} [Fintype U] {s s' : State U} {label : Label U} {contents : Word → Block}
  {u : U} {b : Word} {i : Fin NBUF}

theorem Sound.stop (hs : Sound s) (panic : Panic) : Sound { s with panic := some panic } := by
  obtain ⟨hordered, hunique, hdevice, hloaded, hrefs, hfits, howner, hnodup, hqueued⟩ := hs
  exact ⟨hordered, hunique, hdevice, hloaded, hrefs, hfits, howner, hnodup, hqueued⟩

theorem Sound.fits_of_eq (hs : Sound s) {pc : Pc} (hpc : s.session u = pc) :
    pc.Fits u s.cache.buf := hpc ▸ hs.fits u

/-- The session has the lock of its buffer. -/
theorem Sound.lock_eq (hs : Sound s) (hholds : (s.session u).holds = some i) :
    (s.cache.buf i).lock = some u ∧ ∀ v, (s.cache.buf i).lock = some v → v = u := by
  have hlock := (hs.fits u).lock hholds
  exact ⟨hlock, fun v hv => (Option.some.inj (hlock.symm.trans hv)).symm⟩

variable [DecidableEq U]

theorem Sound.advance {pc : Pc} {buffer : Buffer U} {c : Cache U} (hs : Sound s)
    (hr : Replaces s u pc i buffer c.idequeue)
    (hbuf : c.buf = Function.update s.cache.buf i buffer)
    (hordered : ∃ order, Ordered c.links order) : Sound (s.advance u pc (.ok c)) :=
  hs.replace hr hbuf hordered

theorem Sound.hit (hcard : Fintype.card U < 2 ^ 32) (hs : Sound s) (hpc : s.session u = .idle)
    (hlookup : s.cache.lookup ROOTDEV b = some i) :
    Sound (s.advance u (.locking b i) (.ok (s.cache.ref i))) := by
  obtain ⟨order, horder⟩ := hs.ordered
  have hrefcnt : ((s.cache.buf i).refcnt + 1).toNat
      = count (Pc.refers i) (Function.update s.session u (.locking b i)) := by
    have hcount := count_update (Pc.refers i) s.session u (.locking b i)
    have hle := count_le_card (Pc.refers i) (Function.update s.session u (.locking b i))
    have hafter : (Pc.locking b i).refers i = true := Pc.refers_iff.mpr ⟨b, rfl⟩
    rw [hpc, hafter] at hcount
    change count _ _ + 0 = count _ _ + 1 at hcount
    have hone : (1 : Word).toNat = 1 := rfl
    rw [BitVec.toNat_add, hs.refs i, hone]
    omega
  have hr : Replaces s u (.locking b i) i _ s.cache.idequeue :=
    hs.recount (by rw [hpc]; exact nofun) (Pc.only_of_on rfl) (by rw [hpc]; rfl) rfl
      (horder.caches_of_lookup hlookup) hrefcnt
  exact hs.advance (c := s.cache.ref i) hr rfl hs.ordered

theorem Sound.recycled (hs : Sound s) (hpc : s.session u = .idle)
    (hlookup : s.cache.lookup ROOTDEV b = none) (hvictim : s.cache.victim = some i) :
    Sound (s.advance u (.locking b i) (.ok (s.cache.recycle i ROOTDEV b))) := by
  obtain ⟨order, horder⟩ := hs.ordered
  have hr := hs.recycle hpc (horder.lookup_eq_none hlookup) (horder.free_of_victim hvictim)
  exact hs.advance (c := s.cache.recycle i ROOTDEV b) hr rfl hs.ordered

theorem Sound.acquiresleep (hs : Sound s) (hpc : s.session u = .locking b i)
    (hlock : (s.cache.buf i).lock = none) :
    Sound (s.advance u (.locked b i) (.ok (s.cache.acquiresleep i u))) := by
  have hfits := hs.fits_of_eq hpc
  have hr : Replaces s u (.locked b i) i { s.cache.buf i with lock := some u }
      s.cache.idequeue := by
    refine hs.touchAway (by rw [hpc]; rfl) rfl ⟨rfl, rfl⟩ rfl ?_ ?_ ?_ (hs.loaded i) ⟨hfits, rfl⟩
      nofun
    · intro v hv
      rw [hlock] at hv
      cases hv
    · intro b' hb'
      rw [hpc] at hb'
      cases hb'
    · intro v hv
      exact ⟨(Option.some.inj hv).symm, rfl⟩
  exact hs.advance (c := s.cache.acquiresleep i u) hr rfl hs.ordered

/-- The session goes on with the same buffer. -/
theorem Sound.goOn {pc : Pc} (hs : Sound s) (hholds : (s.session u).holds = some i)
    (hon : (s.session u).on = some (b, i)) (hon' : pc.on = some (b, i)) (hholds' : pc.holds = some i)
    (hwait : ∀ b, s.session u = .waiting b i → ¬(s.cache.buf i).Pending)
    (hfits : pc.Fits u fun _ => s.cache.buf i) (hwait' : pc ≠ .waiting b i) :
    Sound (s.advance u pc (.ok s.cache)) := by
  obtain ⟨hlock, hown⟩ := hs.lock_eq hholds
  have hr : Replaces s u pc i (s.cache.buf i) s.cache.idequeue :=
    hs.touchAway hon hon' ⟨rfl, rfl⟩ rfl hown hwait (fun v hv => ⟨hown v hv, hholds'⟩)
      (hs.loaded i) hfits hwait'
  exact hs.advance hr (Function.update_eq_self i _).symm hs.ordered

theorem Sound.write {pc : Pc} (hs : Sound s) (hpc : s.session u = .inUse b i)
    (hon' : pc.on = some (b, i)) (hholds' : pc.holds = some i) (data : Block)
    (hfits : pc.Fits u fun _ => { s.cache.buf i with data := data, dirty := true })
    (hwait' : pc ≠ .waiting b i) : Sound (s.advance u pc (.ok (s.cache.logWrite i data))) := by
  obtain ⟨-, hown⟩ := hs.lock_eq (u := u) (i := i) (by rw [hpc]; rfl)
  obtain ⟨-, -, hvalid⟩ := hs.fits_of_eq hpc
  have hr : Replaces s u pc i { s.cache.buf i with data := data, dirty := true }
      s.cache.idequeue := by
    refine hs.touchAway (by rw [hpc]; rfl) hon' ⟨rfl, rfl⟩ rfl hown ?_
      (fun v hv => ⟨hown v hv, hholds'⟩) (fun _ => hvalid) hfits hwait'
    rw [hpc]
    exact nofun
  exact hs.advance (c := s.cache.logWrite i data) hr rfl hs.ordered

theorem Sound.releasesleep (hs : Sound s) (hpc : s.session u = .inUse b i) :
    Sound (s.advance u (.releasing b i) (.ok (s.cache.releasesleep i))) := by
  obtain ⟨-, hown⟩ := hs.lock_eq (u := u) (i := i) (by rw [hpc]; rfl)
  have hinUse := hs.fits_of_eq hpc
  have hr : Replaces s u (.releasing b i) i { s.cache.buf i with lock := none }
      s.cache.idequeue := by
    refine hs.touchAway (by rw [hpc]; rfl) rfl ⟨rfl, rfl⟩ rfl hown ?_ nofun (hs.loaded i) hinUse.1
      nofun
    rw [hpc]
    exact nofun
  exact hs.advance (c := s.cache.releasesleep i) hr rfl hs.ordered

theorem Sound.brelse (hs : Sound s) (hpc : s.session u = .releasing b i) :
    Sound (s.advance u .idle (.ok (s.cache.brelse i))) := by
  obtain ⟨order, horder⟩ := hs.ordered
  have hrefcnt : ((s.cache.buf i).refcnt - 1).toNat
      = count (Pc.refers i) (Function.update s.session u .idle) := by
    have hcount := count_update (Pc.refers i) s.session u .idle
    have hlt := (s.cache.buf i).refcnt.isLt
    have hbefore : (Pc.releasing b i).refers i = true := Pc.refers_iff.mpr ⟨b, rfl⟩
    rw [hpc, hbefore] at hcount
    change count _ _ + 1 = count _ _ + 0 at hcount
    have hone : (1 : Word).toNat = 1 := rfl
    rw [hs.refs i] at hlt
    rw [BitVec.toNat_sub, hs.refs i, hone]
    omega
  have hfits : Pc.idle.Fits u s.cache.buf := trivial
  have hr : Replaces s u .idle i _ s.cache.idequeue :=
    hs.recount (by rw [hpc]; exact Pc.only_of_on rfl) nofun (by rw [hpc]; rfl) rfl hfits hrefcnt
  unfold Cache.brelse
  dsimp only
  split_ifs
  · exact hs.advance (c := { s.cache.set i _ with links := _ }) hr rfl ⟨_, horder.moveToFront i⟩
  · exact hs.advance (c := s.cache.set i _) hr rfl hs.ordered

omit [DecidableEq U] in
/-- What `iderw` does for a session: the two checks of the buffer are passed, and the request is
queued, behind others or as the one that is started. -/
theorem Sound.iderw_eq (hs : Sound s) (hpc : s.session u = .iderw b i) :
    s.cache.iderw i = if s.cache.havedisk1 = false then .error .diskNotPresent
      else if s.cache.idequeue = [] then
        if FSSIZE ≤ b then .error .incorrectBlockno
        else .ok { s.cache with idequeue := [i], disk := s.cache.transfer i }
      else .ok { s.cache with idequeue := s.cache.idequeue ++ [i] } := by
  obtain ⟨hcaches, hlock, hpending⟩ := hs.fits_of_eq hpc
  obtain ⟨hdev, hblockno⟩ := (Buffer.caches_iff ..).mp hcaches
  have hout : i ∉ s.cache.idequeue := by
    refine hs.notMem_queue (u := u) (fun v hv => (Option.some.inj (hlock.symm.trans hv)).symm) ?_
    rw [hpc]
    exact nofun
  have hcheck : ((s.cache.buf i).valid && !(s.cache.buf i).dirty) = false := by
    cases hvalid : (s.cache.buf i).valid with
    | false => rfl
    | true => rw [hpending hvalid]; rfl
  have hholding : (s.cache.buf i).holdingsleep = true := by rw [Buffer.holdingsleep, hlock]; rfl
  have hdevice : (s.cache.buf i).dev ≠ 0 ∧ s.cache.havedisk1 = false
      ↔ s.cache.havedisk1 = false := by
    rw [hdev]
    exact and_iff_right (by decide)
  simp only [Cache.iderw, hholding, hcheck, Bool.not_true, Bool.false_eq_true, if_false, hdevice]
  refine if_congr Iff.rfl rfl ?_
  cases hqueue : s.cache.idequeue with
  | nil =>
      rw [List.nil_append, List.head?_cons, if_pos rfl, if_pos rfl, Cache.idestart, hblockno]
      rfl
  | cons j queue =>
      rw [hqueue] at hout
      have hj : j ≠ i := fun heq => hout (heq ▸ List.mem_cons_self)
      rw [List.cons_append, List.head?_cons, if_neg fun heq => hj (Option.some.inj heq),
        if_neg (List.cons_ne_nil _ _)]

theorem Sound.iderw (hs : Sound s) (hpc : s.session u = .iderw b i) :
    Sound (s.advance u (.waiting b i) (s.cache.iderw i)) := by
  obtain ⟨-, hr⟩ := hs.enqueue hpc
  have hsame : s.cache.buf = Function.update s.cache.buf i (s.cache.buf i) :=
    (Function.update_eq_self i _).symm
  rw [hs.iderw_eq hpc]
  split_ifs with hdisk hqueue hlarge
  · exact hs.stop _
  · exact hs.stop _
  · rw [hqueue] at hr
    exact hs.advance (c := { s.cache with idequeue := [i], disk := _ }) hr hsame hs.ordered
  · exact hs.advance (c := { s.cache with idequeue := _ }) hr hsame hs.ordered

omit [Fintype U] in
/-- An interrupt moves no session. -/
theorem State.advance_self {pc : Pc} (hpc : s.session u = pc) (c : Cache U) :
    s.advance u pc (.ok c) = { s with cache := c } := by
  rw [State.advance, ← hpc, Function.update_eq_self]

theorem Sound.ideintr (hs : Sound s) {ready : Bool} {c : Cache U}
    (hideintr : s.cache.ideintr ready = .ok c) : Sound { s with cache := c } := by
  unfold Cache.ideintr at hideintr
  split at hideintr
  · cases hideintr
    exact hs
  · rename_i i queue hqueue
    obtain ⟨u, b, hu, hr⟩ := hs.dequeue ready hqueue
    rw [← State.advance_self hu]
    dsimp only at hideintr
    split at hideintr
    · cases hideintr
      exact hs.advance (c := { s.cache.set i _ with idequeue := [] }) hr rfl hs.ordered
    · rename_i next rest
      unfold Cache.idestart at hideintr
      split_ifs at hideintr
      cases hideintr
      exact hs.advance (c := { s.cache.set i _ with idequeue := next :: rest, disk := _ }) hr rfl
        hs.ordered

omit [DecidableEq U] in
/-- The driver stops only for a block that the disk does not have. -/
theorem Sound.ideintr_panics (hs : Sound s) {ready : Bool} {panic : Panic}
    (hideintr : s.cache.ideintr ready = .error panic) :
    panic = .incorrectBlockno ∧ ∃ u b i, (s.session u).on = some (b, i) ∧ FSSIZE ≤ b := by
  unfold Cache.ideintr at hideintr
  split at hideintr
  · cases hideintr
  · rename_i i queue hqueue
    dsimp only at hideintr
    split at hideintr
    · cases hideintr
    · rename_i next rest
      have hnext : next ≠ i := by
        have hnodup := hs.nodup
        rw [hqueue] at hnodup
        rintro rfl
        exact (List.nodup_cons.mp hnodup).1 List.mem_cons_self
      unfold Cache.idestart at hideintr
      split_ifs at hideintr with hlarge
      cases hideintr
      obtain ⟨⟨v, b, hv⟩, -⟩ := (hs.queued next).mp (by simp [hqueue])
      refine ⟨rfl, v, b, next, by rw [hv]; rfl, ?_⟩
      have hcaches := (hs.fits v).caches (i := next) (b := b) (by rw [hv]; rfl)
      dsimp only at hlarge
      rwa [Cache.set_buf_of_ne _ _ hnext, ((Buffer.caches_iff ..).mp hcaches).2] at hlarge

/-- Why the kernel has stopped: there was no buffer left, `ideinit` has not found the disk, or a
block was asked for that the disk does not have. -/
def State.Stopped (s : State U) (panic : Panic) : Prop :=
  (panic = .noBuffers ∧ ∀ i, ¬s.Unused i) ∨
    (panic = .diskNotPresent ∧ s.cache.havedisk1 = false) ∨
    (panic = .incorrectBlockno ∧ ∃ u b i, (s.session u).on = some (b, i) ∧ FSSIZE ≤ b)

theorem Sound.move (hcard : Fintype.card U < 2 ^ 32) (hs : Sound s) (hmove : Move s label s') :
    Sound s' := by
  cases hmove with
  | hit hpc hlookup => exact hs.hit hcard hpc hlookup
  | recycle hpc hlookup hvictim => exact hs.recycled hpc hlookup hvictim
  | noBuffers | ideintrPanics => exact hs.stop _
  | acquiresleep hpc hlock => exact hs.acquiresleep hpc hlock
  | valid hpc hvalid =>
      obtain ⟨hcaches, hlock⟩ := hs.fits_of_eq hpc
      refine hs.goOn (by rw [hpc]; rfl) (by rw [hpc]; rfl) rfl rfl ?_ ⟨hcaches, hlock, hvalid⟩ nofun
      rw [hpc]
      exact nofun
  | invalid hpc hvalid =>
      obtain ⟨hcaches, hlock⟩ := hs.fits_of_eq hpc
      refine hs.goOn (by rw [hpc]; rfl) (by rw [hpc]; rfl) rfl rfl ?_
        ⟨hcaches, hlock, fun hvalid' => ?_⟩ nofun
      · rw [hpc]
        exact nofun
      · rw [hvalid] at hvalid'
        cases hvalid'
  | iderw hpc => exact hs.iderw hpc
  | ideintr hcache => exact hs.ideintr hcache
  | done hpc hvalid hdirty =>
      obtain ⟨hcaches, hlock⟩ := hs.fits_of_eq hpc
      refine hs.goOn (by rw [hpc]; rfl) (by rw [hpc]; rfl) rfl rfl ?_ ⟨hcaches, hlock, hvalid⟩ nofun
      intro _ _ hpending
      rw [hpending hvalid] at hdirty
      cases hdirty
  | logWrite hpc =>
      obtain ⟨hcaches, hlock, hvalid⟩ := hs.fits_of_eq hpc
      exact hs.write hpc rfl rfl _ ⟨hcaches, hlock, hvalid⟩ nofun
  | bwrite hpc =>
      obtain ⟨hcaches, hlock, hvalid⟩ := hs.fits_of_eq hpc
      rw [Cache.bwrite, Buffer.holdingsleep, hlock]
      exact hs.write hpc rfl rfl _ ⟨hcaches, hlock, fun _ => rfl⟩ nofun
  | releasesleep hpc =>
      obtain ⟨hcaches, hlock, hvalid⟩ := hs.fits_of_eq hpc
      rw [Cache.unlock, Buffer.holdingsleep, hlock]
      exact hs.releasesleep hpc
  | brelse hpc => exact hs.brelse hpc

/-- The checks of `bwrite`, `brelse` and `iderw` are passed. -/
theorem Sound.stopped (hs : Sound s) (hup : s.panic = none) (hmove : Move s label s') {panic : Panic}
    (hpanic : s'.panic = some panic) : s'.Stopped panic := by
  have hrunning : ∀ {u pc c}, (s.advance u pc (.ok c)).panic ≠ some panic := by
    intro u pc c hpanic
    rw [State.advance, hup] at hpanic
    cases hpanic
  cases hmove with
  | hit | recycle | acquiresleep | valid | invalid | done | logWrite | brelse =>
      exact absurd hpanic hrunning
  | noBuffers hpc hlookup hvictim =>
      obtain ⟨order, horder⟩ := hs.ordered
      refine .inl ⟨(Option.some.inj hpanic).symm, fun i hunused => ?_⟩
      have hbusy := horder.victim_eq_none hvictim i
      rw [hs.free_iff.mpr hunused] at hbusy
      cases hbusy
  | @iderw u b i hpc =>
      rw [hs.iderw_eq hpc] at hpanic ⊢
      split_ifs at hpanic ⊢ with hdisk hqueue hlarge
      · exact .inr (.inl ⟨(Option.some.inj hpanic).symm, hdisk⟩)
      · exact .inr (.inr ⟨(Option.some.inj hpanic).symm, u, b, i, by rw [State.advance, hpc]; rfl,
          hlarge⟩)
      · exact absurd hpanic hrunning
      · exact absurd hpanic hrunning
  | ideintr hcache =>
      rw [hup] at hpanic
      cases hpanic
  | ideintrPanics hideintr =>
      cases hpanic
      exact .inr (.inr (hs.ideintr_panics hideintr))
  | bwrite hpc =>
      obtain ⟨-, hlock, -⟩ := hs.fits_of_eq hpc
      rw [Cache.bwrite, Buffer.holdingsleep, hlock] at hpanic
      exact absurd hpanic hrunning
  | releasesleep hpc =>
      obtain ⟨-, hlock, -⟩ := hs.fits_of_eq hpc
      rw [Cache.unlock, Buffer.holdingsleep, hlock] at hpanic
      exact absurd hpanic hrunning

/-! ### What a step does to the contents -/

/-- The block that a step writes. -/
def written (s : State U) : Label U → Option (Word × Block)
  | .logWrite u data | .bwrite u data => (s.session u).on.map fun r => (r.1, data)
  | _ => none

def record (contents : Word → Block) : Option (Word × Block) → Word → Block
  | some (b, data) => Function.update contents b data
  | none => contents

/-- The cache has the contents. -/
def State.Keeps (s : State U) (contents : Word → Block) : Prop :=
  Coherent s.cache.buf s.cache.disk s.cache.idequeue.head? contents

theorem Sound.keeps_iderw (hs : Sound s) (hc : s.Keeps contents) (hpc : s.session u = .iderw b i) :
    (s.advance u (.waiting b i) (s.cache.iderw i)).Keeps contents := by
  rw [hs.iderw_eq hpc]
  split_ifs with hdisk hqueue hlarge
  · exact hc
  · exact hc
  · rw [State.Keeps, hqueue] at hc
    exact hc.transfer (hs.loaded i)
  · obtain ⟨j, queue, hqueue⟩ := List.exists_cons_of_ne_nil hqueue
    rw [State.Keeps, hqueue] at hc
    rw [hqueue]
    exact hc

omit [DecidableEq U] in
/-- A read that has not failed fills the buffer with the contents of its block. -/
theorem Sound.keeps_ideintr (hs : Sound s) (hc : s.Keeps contents) {c : Cache U}
    (hideintr : s.cache.ideintr true = .ok c) : ({ s with cache := c } : State U).Keeps contents := by
  unfold Cache.ideintr at hideintr
  split at hideintr
  · cases hideintr
    exact hc
  · rename_i i queue hqueue
    obtain ⟨⟨u, b, hu⟩, -⟩ := (hs.queued i).mp (by simp [hqueue])
    have hcaches := (hs.fits u).caches (i := i) (b := b) (by rw [hu]; rfl)
    obtain ⟨hdev, -⟩ := (Buffer.caches_iff ..).mp hcaches
    rw [State.Keeps, hqueue] at hc
    have hfinish := hc.finish (fun j hj => hs.unique j i _ hj
      ((Buffer.caches_iff ..).mpr ⟨hdev, rfl⟩)) (hs.loaded i)
    dsimp only at hideintr
    split at hideintr
    · cases hideintr
      exact hfinish
    · rename_i next rest
      have hnext : next ≠ i := by
        have hnodup := hs.nodup
        rw [hqueue] at hnodup
        rintro rfl
        exact (List.nodup_cons.mp hnodup).1 List.mem_cons_self
      unfold Cache.idestart at hideintr
      split_ifs at hideintr
      cases hideintr
      refine Coherent.transfer (c := { s.cache.set i _ with idequeue := next :: rest }) hfinish ?_
      rw [Cache.set_buf_of_ne _ _ hnext]
      exact hs.loaded next

omit [DecidableEq U] in
theorem sound_start (havedisk1 : Bool) (disk : Word → Block) :
    Sound (start havedisk1 disk : State U) := by
  refine ⟨⟨_, ordered_binit⟩, nofun, nofun, nofun, fun i => ?_, fun _ => trivial, nofun,
    List.nodup_nil, fun i => ?_⟩
  · exact (count_eq_zero_iff.mpr fun _ => rfl).symm
  · exact iff_of_false List.not_mem_nil fun h => nomatch h.1

theorem sound_run (hcard : Fintype.card U < 2 ^ 32) (run : Run (system (U := U))) :
    ∀ k, k ≤ run.length → Sound (run.state k) := by
  refine run.induction ?_ fun k hk ih => ?_
  · obtain ⟨havedisk1, disk, hstart⟩ := run.starts
    rw [hstart]
    exact sound_start havedisk1 disk
  · exact ih.move hcard (step_move (run.steps k hk)).2

/-- Two sessions of the same block, one of which changes it. -/
def shared : Run (system (U := Bool)) :=
  .ofExecute (start true fun _ _ => 0) (init_start _ _)
    [.bread false 5, .acquiresleep false, .test false, .iderw false, .bread true 5, .ideintr true,
      .done false, .logWrite false (fun _ => 7), .releasesleep false, .acquiresleep true, .test true]
    (.ideintr true) (by decide +kernel)

/-- A session goes on with a block that could not be read. -/
example :
    (execute step [.bread () 5, .acquiresleep (), .test (), .iderw (), .ideintr false, .done ()]
      (start true fun _ _ => 1)).map (fun s => (s.session (), (s.cache.buf 0).data 3))
      = some (.inUse 5 0, 0) := by
  decide +kernel

end System

end Acos.Storage.Bio
