import Acos.Storage.Recovery

/-!
# Who uses the log, and what is reserved in it

`begin_op` lets an operation in only if the log has room for all the blocks that the operations in
progress may still record. `log_write` looks for room without the lock, so that other processes may
record blocks before it does; what has been reserved is there nevertheless.
-/

namespace Acos.Storage

open Transition Interleaving

/-! ### One task at a time -/

section Tasks

variable {l : Layout} {s s' : Store} {task next : Task}

/-- The tasks of a recovery. -/
def Task.recovers : Task → Bool
  | .writeLog _ | .writeHead => false
  | _ => true

theorem Task.recovers_turn (hrecovers : task.recovers = true) (hturn : task.Turn l s s' next) :
    next.recovers = true := by
  cases hturn with
  | writeLog | logged | writeHead => cases hrecovers
  | readHead | install | installed | eraseHead => rfl

theorem Task.turn_ne_readHead (hturn : task.Turn l s s' next) : next ≠ .readHead := by
  cases hturn <;> exact nofun

/-- The log in memory is empty from the end of the installation on. -/
theorem Task.erased_turn (hturn : task.Turn l s s' next) (hlh : task = .eraseHead → s.lh = [])
    (hnext : next = .eraseHead ∨ next = .finish) : s'.lh = [] := by
  cases hturn with
  | installed => rfl
  | eraseHead => exact hlh rfl
  | writeLog | logged | writeHead | readHead | install =>
      rcases hnext with hnext | hnext <;> cases hnext

theorem Task.short_turn (hturn : task.Turn l s s' next) (hshort : s.lh.length ≤ LOGSIZE) :
    s'.lh.length ≤ LOGSIZE := by
  cases hturn with
  | writeLog | install => rwa [Store.bwrite_lh, Store.fill_lh]
  | logged | writeHead | eraseHead => exact hshort
  | readHead hhead => exact readHead_short hhead
  | installed => exact Nat.zero_le _

end Tasks

section Processes

variable {P : Type}

/-- At most one task is under way, and a commit excludes operations. -/
inductive At (s : State P) : Option Task → Prop where
  | boot {task : Task} (hboot : s.boot = some task) (hrecovers : task.recovers = true)
      (hpanicked : s.panicked = false) (hcommitting : s.committing = false)
      (hidle : ∀ p, s.proc p = .idle) : At s (some task)
  | commit {p : P} {task : Task} (hboot : s.boot = none) (hp : s.proc p = .commit task)
      (htask : task ≠ .readHead) (hcommitting : s.committing = true)
      (hquiet : ∀ q, (s.proc q).isActive = false)
      (hothers : ∀ q, q ≠ p → ∀ task, s.proc q ≠ .commit task) : At s (some task)
  | quiet (hboot : s.boot = none) (hcommitting : s.committing = false)
      (hothers : ∀ q task, s.proc q ≠ .commit task) : At s none

variable {s s' : State P} {p : P} {task : Option Task} {t : Task}

theorem At.of_boot (hat : At s task) (hboot : s.boot = some t) :
    task = some t ∧ t.recovers = true ∧ s.panicked = false ∧ s.committing = false ∧
      ∀ q, s.proc q = .idle := by
  cases hat with
  | boot hsome hrecovers hpanicked hcommitting hidle =>
      cases hboot.symm.trans hsome
      exact ⟨rfl, hrecovers, hpanicked, hcommitting, hidle⟩
  | commit hnone | quiet hnone => exact absurd (hnone.symm.trans hboot) nofun

theorem At.of_commit (hat : At s task) (hboot : s.boot = none) (hp : s.proc p = .commit t) :
    task = some t ∧ t ≠ .readHead ∧ s.committing = true ∧ (∀ q, (s.proc q).isActive = false) ∧
      ∀ q, q ≠ p → ∀ t, s.proc q ≠ .commit t := by
  cases hat with
  | boot hsome => exact absurd (hboot.symm.trans hsome) nofun
  | @commit q _ _ hq htask hcommitting hquiet hothers =>
      have hpq : p = q := by
        by_contra hne
        exact hothers p hne t hp
      subst hpq
      cases hp.symm.trans hq
      exact ⟨rfl, htask, hcommitting, hquiet, hothers⟩
  | quiet _ _ hothers => exact absurd hp (hothers p t)

/-- While an operation is in progress there is no task. -/
theorem At.of_active (hat : At s task) (hp : (s.proc p).isActive = true) :
    task = none ∧ s.boot = none ∧ s.committing = false ∧ ∀ q t, s.proc q ≠ .commit t := by
  cases hat with
  | boot _ _ _ _ hidle => simp [hidle p, Pc.isActive] at hp
  | commit _ _ _ _ hquiet => simp [hquiet p] at hp
  | quiet hboot hcommitting hothers => exact ⟨rfl, hboot, hcommitting, hothers⟩

theorem At.of_quiet (hat : At s task) (hboot : s.boot = none) (hcommitting : s.committing = false) :
    task = none ∧ ∀ q t, s.proc q ≠ .commit t := by
  cases hat with
  | boot hsome => exact absurd (hboot.symm.trans hsome) nofun
  | commit _ _ _ htrue => exact absurd (hcommitting.symm.trans htrue) Bool.false_ne_true
  | quiet _ _ hothers => exact ⟨rfl, hothers⟩

/-- Sleeping, waking up and looking for room do not matter. -/
theorem At.congr (hat : At s task) (hboot : s.boot = none) (hboot' : s'.boot = none)
    (hcommitting : s'.committing = s.committing)
    (hactive : ∀ q, (s'.proc q).isActive = (s.proc q).isActive)
    (hcommit : ∀ q t, s'.proc q = .commit t ↔ s.proc q = .commit t) : At s' task := by
  cases hat with
  | boot hsome => exact absurd (hboot.symm.trans hsome) nofun
  | commit _ hp htask htrue hquiet hothers =>
      exact .commit hboot' ((hcommit _ _).mpr hp) htask (hcommitting.trans htrue)
        (fun q => (hactive q).trans (hquiet q))
        fun q hq t ht => hothers q hq t ((hcommit q t).mp ht)
  | quiet _ hfalse hothers =>
      exact .quiet hboot' (hcommitting.trans hfalse) fun q t ht => hothers q t ((hcommit q t).mp ht)

theorem Pc.wake_isActive (pc : Pc) : pc.wake.isActive = pc.isActive := by
  cases pc <;> rfl

theorem Pc.wake_eq_commit_iff {pc : Pc} {task : Task} :
    pc.wake = .commit task ↔ pc = .commit task := by
  cases pc <;> simp [Pc.wake]

section Moves

variable [DecidableEq P] {pc : Pc} {q : P}

theorem State.setProc_store (s : State P) (p : P) (pc : Pc) : (s.setProc p pc).store = s.store :=
  rfl

theorem State.setProc_self (s : State P) (p : P) (pc : Pc) : (s.setProc p pc).proc p = pc :=
  Function.update_self ..

theorem State.setProc_of_ne (s : State P) (hq : q ≠ p) (pc : Pc) :
    (s.setProc p pc).proc q = s.proc q :=
  Function.update_of_ne hq ..

/-- A process other than the one that moves is where it was. -/
theorem State.of_setProc {pc' : Pc} (hq : (s.setProc p pc).proc q = pc') :
    q = p ∧ pc = pc' ∨ s.proc q = pc' := by
  by_cases hqp : q = p
  · subst hqp
    exact .inl ⟨rfl, (s.setProc_self q pc).symm.trans hq⟩
  · exact .inr ((s.setProc_of_ne hqp pc).symm.trans hq)

theorem State.setProc_ne_commit (hpc : ∀ t, pc ≠ .commit t)
    (hothers : ∀ q, q ≠ p → ∀ t, s.proc q ≠ .commit t) (q : P) (t : Task) :
    (s.setProc p pc).proc q ≠ .commit t := by
  by_cases hq : q = p
  · rw [hq, State.setProc_self]
    exact hpc t
  · rw [s.setProc_of_ne hq]
    exact hothers q hq t

theorem State.setProc_isActive (hpc : pc.isActive = (s.proc p).isActive) (q : P) :
    ((s.setProc p pc).proc q).isActive = (s.proc q).isActive := by
  by_cases hq : q = p
  · rw [hq, State.setProc_self, hpc]
  · rw [s.setProc_of_ne hq]

theorem State.setProc_commit_iff (hpc : ∀ t, pc ≠ .commit t) (hp : ∀ t, s.proc p ≠ .commit t) (q : P)
    (t : Task) : (s.setProc p pc).proc q = .commit t ↔ s.proc q = .commit t := by
  by_cases hq : q = p
  · rw [hq, State.setProc_self]
    exact ⟨fun h => absurd h (hpc t), fun h => absurd h (hp t)⟩
  · rw [s.setProc_of_ne hq]

end Moves

variable [Fintype P]

/-- The operations in progress are counted, and there is one task at a time. -/
structure Ordered (s : State P) : Prop where
  outstanding : s.outstanding = count Pc.isActive s.proc
  task : ∃ task, At s task
  erased : At s (some .eraseHead) ∨ At s (some .finish) → s.store.lh = []

theorem Ordered.outstanding_eq_zero (hs : Ordered s) (hquiet : ∀ q, (s.proc q).isActive = false) :
    s.outstanding = 0 :=
  hs.outstanding.trans (count_eq_zero_iff.mpr hquiet)

theorem Ordered.booting (hs : Ordered s) (hboot : s.boot = some t) :
    At s (some t) ∧ t.recovers = true ∧ s.panicked = false ∧ s.committing = false ∧
      ∀ q, s.proc q = .idle := by
  obtain ⟨task, hat⟩ := hs.task
  obtain ⟨rfl, hrest⟩ := hat.of_boot hboot
  exact ⟨hat, hrest⟩

theorem Ordered.committing (hs : Ordered s) (hup : s.Up) (hp : s.proc p = .commit t) :
    At s (some t) ∧ t ≠ .readHead ∧ s.committing = true ∧ (∀ q, (s.proc q).isActive = false) ∧
      ∀ q, q ≠ p → ∀ t, s.proc q ≠ .commit t := by
  obtain ⟨task, hat⟩ := hs.task
  obtain ⟨rfl, hrest⟩ := hat.of_commit hup.2 hp
  exact ⟨hat, hrest⟩

theorem Ordered.busy (hs : Ordered s) (hp : (s.proc p).isActive = true) :
    At s none ∧ 0 < s.outstanding ∧ s.boot = none ∧ s.committing = false ∧
      ∀ q t, s.proc q ≠ .commit t := by
  obtain ⟨task, hat⟩ := hs.task
  obtain ⟨rfl, hrest⟩ := hat.of_active hp
  exact ⟨hat, hs.outstanding ▸ count_pos_of_mem hp, hrest⟩

/-- There is no commit while an operation is in progress. -/
theorem Ordered.not_committing (hs : Ordered s) {blocks : List Word}
    (hp : s.proc p = .active blocks) : s.committing ≠ true := by
  obtain ⟨-, -, -, hfalse, -⟩ := hs.busy (congrArg Pc.isActive hp)
  rw [hfalse]
  exact Bool.false_ne_true

theorem Ordered.of_quiet (houtstanding : s.outstanding = count Pc.isActive s.proc)
    (hboot : s.boot = none) (hcommitting : s.committing = false)
    (hothers : ∀ q t, s.proc q ≠ .commit t) : Ordered s := by
  refine ⟨houtstanding, ⟨none, .quiet hboot hcommitting hothers⟩, ?_⟩
  rintro (hat | hat) <;> cases (hat.of_quiet hboot hcommitting).1

theorem Ordered.restart (disk : Word → Block) : Ordered (Storage.restart disk : State P) :=
  ⟨(count_eq_zero_iff.mpr fun _ => rfl).symm, ⟨_, .boot rfl rfl rfl rfl fun _ => rfl⟩, fun _ => rfl⟩

theorem Ordered.procs (hs : Ordered s) (hboot : s.boot = none) (hboot' : s'.boot = none)
    (hlh : s'.store.lh = s.store.lh) (hcommitting : s'.committing = s.committing)
    (houtstanding : s'.outstanding = s.outstanding)
    (hactive : ∀ q, (s'.proc q).isActive = (s.proc q).isActive)
    (hcommit : ∀ q t, s'.proc q = .commit t ↔ s.proc q = .commit t) : Ordered s' := by
  have hback : ∀ {task}, At s' task → At s task := fun hat =>
    hat.congr hboot' hboot hcommitting.symm (fun q => (hactive q).symm) fun q t => (hcommit q t).symm
  obtain ⟨task, hat⟩ := hs.task
  refine ⟨?_, ⟨task, hat.congr hboot hboot' hcommitting hactive hcommit⟩, fun herased => ?_⟩
  · rw [houtstanding, hs.outstanding, count, count]
    simp only [hactive]
  · rw [hlh]
    exact hs.erased (herased.imp hback hback)

variable [DecidableEq P]

/-- A process changes between being in an operation and not being in one. -/
theorem State.count_setProc (s : State P) (p : P) (pc : Pc) :
    count Pc.isActive (s.setProc p pc).proc + ((s.proc p).isActive).toNat
      = count Pc.isActive s.proc + pc.isActive.toNat :=
  count_update Pc.isActive s.proc p pc

/-- One process begins, goes on with or ends an operation while there is no commit. -/
theorem Ordered.moves (hs : Ordered s) (hboot : s.boot = none) (hcommitting : s.committing = false)
    (hothers : ∀ q t, s.proc q ≠ .commit t) (pc : Pc) (hpc : ∀ t, pc ≠ .commit t)
    {outstanding : Nat} (houtstanding : outstanding + ((s.proc p).isActive).toNat
      = s.outstanding + pc.isActive.toNat) (store : Store) :
    Ordered { s.setProc p pc with outstanding := outstanding, store := store } := by
  refine .of_quiet ?_ hboot hcommitting (State.setProc_ne_commit hpc fun q _ => hothers q)
  have hcount := s.count_setProc p pc
  rw [← hs.outstanding] at hcount
  change outstanding = count Pc.isActive (s.setProc p pc).proc
  omega

/-- The last operation ends, and its process begins the commit. -/
theorem Ordered.endsLast (hs : Ordered s) {blocks : List Word} (hp : s.proc p = .active blocks)
    (hlast : s.outstanding - 1 = 0) :
    (∀ q, ((s.setProc p (.commit (commit s.store))).proc q).isActive = false) ∧
      Ordered { s.setProc p (.commit (commit s.store)) with
        outstanding := s.outstanding - 1, committing := true } := by
  have hactive : (s.proc p).isActive = true := congrArg Pc.isActive hp
  obtain ⟨-, hpos, hboot, -, hothers⟩ := hs.busy hactive
  have hcount := s.count_setProc p (.commit (commit s.store))
  rw [← hs.outstanding, hactive, Bool.toNat_true] at hcount
  have hzero : count Pc.isActive (s.setProc p (.commit (commit s.store))).proc = 0 := by
    simp only [Pc.isActive, Bool.toNat_false] at hcount
    omega
  have hquiet := count_eq_zero_iff.mp hzero
  have hself := s.setProc_self p (.commit (commit s.store))
  have hfirst : commit s.store ≠ .readHead ∧ commit s.store ≠ .eraseHead ∧
      (commit s.store = .finish → s.store.lh = []) := by
    unfold commit
    split_ifs with hsome
    · exact ⟨nofun, nofun, nofun⟩
    · exact ⟨nofun, nofun, fun _ => List.length_eq_zero_iff.mp (Nat.eq_zero_of_not_pos hsome)⟩
  refine ⟨hquiet, hlast.trans hzero.symm,
    ⟨_, .commit (p := p) hboot hself hfirst.1 rfl hquiet fun q hq t => ?_⟩, ?_⟩
  · exact (s.setProc_of_ne hq _).trans_ne (hothers q t)
  · rintro (hat | hat)
    · exact absurd (Option.some.inj (hat.of_commit hboot hself).1).symm hfirst.2.1
    · exact hfirst.2.2 (Option.some.inj (hat.of_commit hboot hself).1).symm

theorem Ordered.commits {l : Layout} {next : Task} {store : Store} (hs : Ordered s) (hup : s.Up)
    (hp : s.proc p = .commit t) (hturn : t.Turn l s.store store next) :
    Ordered { s.setProc p (.commit next) with store := store } := by
  obtain ⟨hat, -, hcommitting, hquiet, hothers⟩ := hs.committing hup hp
  have hself := s.setProc_self p (.commit next)
  have hquiet' : ∀ q, ((s.setProc p (.commit next)).proc q).isActive = false := fun q => by
    rw [State.setProc_isActive (by rw [hp]; rfl), hquiet]
  refine ⟨?_, ⟨_, .commit (p := p) hup.2 hself (Task.turn_ne_readHead hturn) hcommitting hquiet'
    fun q hq t => ?_⟩, fun hnext => ?_⟩
  · exact (hs.outstanding_eq_zero hquiet).trans (count_eq_zero_iff.mpr hquiet').symm
  · exact (s.setProc_of_ne hq _).trans_ne (hothers q hq t)
  · refine Task.erased_turn hturn (fun heq => hs.erased (.inl (heq ▸ hat))) ?_
    exact hnext.imp (fun h => (Option.some.inj (h.of_commit hup.2 hself).1).symm)
      fun h => (Option.some.inj (h.of_commit hup.2 hself).1).symm

theorem Ordered.committed (hs : Ordered s) (hup : s.Up) (hp : s.proc p = .commit .finish) :
    (∀ q, ((endCommit p s).proc q).isActive = (s.proc q).isActive) ∧ Ordered (endCommit p s) := by
  obtain ⟨-, -, -, -, hothers⟩ := hs.committing hup hp
  have hactive : ∀ q, ((endCommit p s).proc q).isActive = (s.proc q).isActive := by
    intro q
    change (((s.setProc p .idle).proc q).wake).isActive = _
    rw [Pc.wake_isActive, State.setProc_isActive (by rw [hp]; rfl)]
  refine ⟨hactive, .of_quiet ?_ hup.2 rfl fun q t => ?_⟩
  · change s.outstanding = _
    rw [hs.outstanding, count, count]
    simp only [hactive]
  · change ((s.setProc p .idle).proc q).wake ≠ _
    rw [Ne, Pc.wake_eq_commit_iff]
    exact State.setProc_ne_commit (fun _ => Pc.noConfusion) hothers q t

variable {l : Layout} {label : Label P}

theorem Ordered.move (hs : Ordered s) (hmove : Move l label s s') : Ordered s' := by
  cases hmove with
  | crash => exact .restart _
  | booted hboot =>
      obtain ⟨-, -, -, hcommitting, hidle⟩ := hs.booting hboot
      exact .of_quiet hs.outstanding rfl hcommitting fun q t => by simp [hidle q]
  | recover hboot hturn =>
      obtain ⟨hat, hrecovers, hpanicked, hcommitting, hidle⟩ := hs.booting hboot
      refine ⟨hs.outstanding, ⟨_, .boot rfl (Task.recovers_turn hrecovers hturn) hpanicked
        hcommitting hidle⟩, fun hnext => ?_⟩
      refine Task.erased_turn hturn (fun heq => hs.erased (.inl (heq ▸ hat))) ?_
      exact hnext.imp (fun h => (Option.some.inj (h.of_boot rfl).1).symm)
        fun h => (Option.some.inj (h.of_boot rfl).1).symm
  | sleeps hup hp =>
      refine hs.procs hup.2 hup.2 rfl rfl rfl (State.setProc_isActive ?_)
        (State.setProc_commit_iff (fun _ => Pc.noConfusion) ?_)
      · rcases hp with hp | hp <;> rw [hp] <;> rfl
      · intro t
        rcases hp with hp | hp <;> rw [hp] <;> exact Pc.noConfusion
  | begins hup hp hfull =>
      have hcommitting := Bool.eq_false_iff.mpr (not_or.mp hfull).1
      obtain ⟨task, hat⟩ := hs.task
      obtain ⟨-, hothers⟩ := hat.of_quiet hup.2 hcommitting
      refine hs.moves hup.2 hcommitting hothers (.active []) (fun _ => Pc.noConfusion) ?_ s.store
      rcases hp with hp | hp <;> rw [hp] <;> rfl
  | overflows hup => exact hs.procs hup.2 hup.2 rfl rfl rfl (fun _ => rfl) fun _ _ => Iff.rfl
  | checks hup hp =>
      refine hs.procs hup.2 hup.2 rfl rfl rfl (State.setProc_isActive ?_)
        (State.setProc_commit_iff (fun _ => Pc.noConfusion) fun t => ?_)
      · rw [hp]
        rfl
      · rw [hp]
        exact Pc.noConfusion
  | records hup hp =>
      obtain ⟨-, -, hboot, hcommitting, hothers⟩ := hs.busy (congrArg Pc.isActive hp)
      refine hs.moves hboot hcommitting hothers (.active _) (fun _ => Pc.noConfusion) ?_ _
      rw [hp]
      rfl
  | disturbs _ hp hcommitting => exact absurd hcommitting (hs.not_committing hp)
  | endsLast _ hp _ hlast => exact (hs.endsLast hp hlast).2
  | ends hup hp =>
      obtain ⟨-, hpos, hboot, hcommitting, hothers⟩ := hs.busy (congrArg Pc.isActive hp)
      have hidle := hs.moves hboot hcommitting hothers .idle (fun _ => Pc.noConfusion)
        (by rw [hp]; exact Nat.sub_add_cancel hpos) s.store
      exact hidle.procs hup.2 hup.2 rfl rfl rfl (fun _ => Pc.wake_isActive _)
        fun _ _ => Pc.wake_eq_commit_iff
  | commits hup hp hturn => exact hs.commits hup hp hturn
  | committed hup hp => exact (hs.committed hup hp).2
  | bread hup b =>
      exact hs.procs hup.2 hup.2 (s.store.fill_lh b) rfl rfl (fun _ => rfl) fun _ _ => Iff.rfl
  | evict hup => exact hs.procs hup.2 hup.2 rfl rfl rfl (fun _ => rfl) fun _ _ => Iff.rfl

/-! ### What is reserved -/

/-- The blocks that an operation has recorded. -/
def Pc.recorded : Pc → List Word
  | .active blocks | .writing blocks _ _ => blocks
  | _ => []

/-- The blocks that an operation may still record. -/
def Pc.reserve (budget : Nat) : Pc → Nat
  | .active blocks | .writing blocks _ _ => budget - blocks.length
  | _ => 0

theorem Pc.reserve_le (budget : Nat) (pc : Pc) :
    pc.reserve budget ≤ pc.isActive.toNat * budget := by
  cases pc with
  | active blocks | writing blocks =>
      rw [Pc.isActive, Bool.toNat_true, one_mul]
      exact Nat.sub_le ..
  | idle | asleep | woken | commit => exact Nat.zero_le _

theorem Pc.wake_reserve (budget : Nat) (pc : Pc) : pc.wake.reserve budget = pc.reserve budget := by
  cases pc <;> rfl

theorem Pc.wake_recorded (pc : Pc) : pc.wake.recorded = pc.recorded := by
  cases pc <;> rfl

theorem Pc.recorded_eq_nil {pc : Pc} (hpc : pc.isActive = false) : pc.recorded = [] := by
  cases pc with
  | active | writing => cases hpc
  | idle | asleep | woken | commit => rfl

omit [DecidableEq P] in
theorem total_reserve_wake (budget : Nat) (proc : P → Pc) :
    total (Pc.reserve budget) (fun q => (proc q).wake) = total (Pc.reserve budget) proc :=
  Finset.sum_congr rfl fun q _ => (proc q).wake_reserve budget

theorem State.total_setProc (s : State P) (f : Pc → Nat) (p : P) (pc : Pc) :
    total f (s.setProc p pc).proc + f (s.proc p) = total f s.proc + f pc :=
  total_update f s.proc p pc

/-- The log is empty when nobody uses it. -/
def State.Unused (s : State P) : Prop :=
  s.boot = none → s.committing = false → s.outstanding = 0 → s.store.lh = []

/-- What an operation has recorded stays in the log until the operation ends. -/
def State.Kept (s : State P) : Prop := ∀ p, ∀ b ∈ (s.proc p).recorded, b ∈ s.store.lh

/-- A call of `log_write` that has found room is about a block that the operation may record. -/
def State.Allowed (l : Layout) (s : State P) : Prop :=
  ∀ p blocks b data, s.proc p = .writing blocks b data →
    (blocks.insert b).length ≤ l.budget ∧ l.Home b

/-- Nobody sleeps while there is room: no `wakeup` gets lost. -/
def State.Awake (s : State P) : Prop := ∀ p, s.proc p = .asleep → s.Full

/-- The blocks in the log and the blocks that may still come. -/
def State.claimed (budget : Nat) (s : State P) : Nat :=
  s.store.lh.length + total (Pc.reserve budget) s.proc

/-- `begin_op` reckons with `MAXOPBLOCKS` for each operation, so that the log has at most
`MAXOPBLOCKS` blocks when the second of two operations begins, and none when the third one does. -/
def Layout.peak (l : Layout) : Nat := MAXOPBLOCKS + 2 * l.budget

theorem unused_move (hs : Ordered s) (hunused : s.Unused) (hmove : Move l label s s') :
    s'.Unused := by
  intro hboot hcommitting houtstanding
  cases hmove with
  | crash => rfl
  | booted hfinish => exact hs.erased (.inr (hs.booting hfinish).1)
  | recover => cases hboot
  | sleeps | overflows | checks | evict => exact hunused hboot hcommitting houtstanding
  | begins => cases houtstanding
  | records _ hp =>
      obtain ⟨-, hpos, -⟩ := hs.busy (congrArg Pc.isActive hp)
      exact absurd houtstanding hpos.ne'
  | disturbs _ _ htrue => exact absurd (htrue.symm.trans hcommitting) Bool.false_ne_true.symm
  | endsLast => cases hcommitting
  | ends _ _ _ hmore => exact absurd houtstanding hmore
  | commits hup hp =>
      obtain ⟨-, -, htrue, -⟩ := hs.committing hup hp
      exact absurd (htrue.symm.trans hcommitting) Bool.false_ne_true.symm
  | committed hup hp => exact hs.erased (.inr (hs.committing hup hp).1)
  | bread =>
      rw [Store.fill_lh]
      exact hunused hboot hcommitting houtstanding

omit [DecidableEq P] [Fintype P] in
theorem kept_of_quiet (hquiet : ∀ q, (s.proc q).isActive = false) : s.Kept := by
  intro q b hb
  rw [Pc.recorded_eq_nil (hquiet q)] at hb
  cases hb

omit [Fintype P] in
/-- One process moves, and what it has recorded is in the log. -/
theorem State.Kept.setProc (hkept : s.Kept) (pc : Pc) {store : Store}
    (hlh : ∀ b ∈ s.store.lh, b ∈ store.lh) (hpc : ∀ b ∈ pc.recorded, b ∈ store.lh) (q : P) :
    ∀ b ∈ ((s.setProc p pc).proc q).recorded, b ∈ store.lh := by
  by_cases hq : q = p
  · rw [hq, State.setProc_self]
    exact hpc
  · rw [s.setProc_of_ne hq]
    exact fun b hb => hlh b (hkept q b hb)

theorem kept_move (hs : Ordered s) (hkept : s.Kept) (hmove : Move l label s s') : s'.Kept := by
  cases hmove with
  | crash => exact nofun
  | booted | overflows | disturbs | evict => exact hkept
  | recover hboot =>
      obtain ⟨-, -, -, -, hidle⟩ := hs.booting hboot
      exact kept_of_quiet fun q => congrArg Pc.isActive (hidle q)
  | sleeps | begins | endsLast => exact hkept.setProc _ (fun _ => id) nofun
  | @checks _ p _ _ _ _ hp =>
      refine hkept.setProc _ (fun _ => id) fun b hb => hkept p b ?_
      rwa [hp]
  | @records _ p blocks b data _ hp =>
      refine hkept.setProc _ (fun c hc => mem_record_lh.mpr (.inl hc)) fun c hc => ?_
      rcases List.mem_insert_iff.mp hc with rfl | hc
      · exact mem_record_lh.mpr (.inr rfl)
      · exact mem_record_lh.mpr (.inl (hkept p c (by rwa [hp])))
  | @ends _ p =>
      intro q b hb
      change b ∈ ((s.setProc p .idle).proc q).wake.recorded at hb
      rw [Pc.wake_recorded] at hb
      exact hkept.setProc .idle (fun _ => id) nofun q b hb
  | commits hup hp =>
      obtain ⟨-, -, -, hquiet, -⟩ := hs.committing hup hp
      refine kept_of_quiet fun q => ?_
      exact (State.setProc_isActive (by rw [hp]; rfl) q).trans (hquiet q)
  | committed hup hp =>
      obtain ⟨-, -, -, hquiet, -⟩ := hs.committing hup hp
      exact kept_of_quiet fun q => ((hs.committed hup hp).1 q).trans (hquiet q)
  | bread =>
      intro q b hb
      rw [Store.fill_lh]
      exact hkept q b hb

omit [Fintype P] in
theorem allowed_move (hallowed : s.Allowed l) (hmove : Move l label s s') : s'.Allowed l := by
  intro q blocks b data hq
  -- a process that does not look for room now has done so before
  have hbefore : ∀ (p : P) (pc : Pc), (s.setProc p pc).proc q = .writing blocks b data →
      pc ≠ .writing blocks b data → (blocks.insert b).length ≤ l.budget ∧ l.Home b := by
    intro p pc hq hpc
    exact hallowed q blocks b data ((State.of_setProc hq).resolve_left fun h => hpc h.2)
  have hwake : ∀ {pc : Pc}, pc.wake = .writing blocks b data → pc = .writing blocks b data := by
    intro pc hpc
    cases pc with
    | asleep => cases hpc
    | idle | woken | active | writing | commit => exact hpc
  cases hmove with
  | crash => cases hq
  | booted | recover | overflows | disturbs | bread | evict => exact hallowed q blocks b data hq
  | sleeps | begins | records | endsLast | commits => exact hbefore _ _ hq nofun
  | checks _ _ hbudget hhome =>
      rcases State.of_setProc hq with ⟨-, hpc⟩ | hq
      · cases hpc
        exact ⟨hbudget, hhome⟩
      · exact hallowed q blocks b data hq
  | @ends _ p | @committed _ p => exact hbefore p .idle (hwake hq) nofun

theorem Pc.wake_ne_asleep (pc : Pc) : pc.wake ≠ .asleep := by
  cases pc <;> exact nofun

theorem length_le_record (s : Store) (b : Word) (data : Block) :
    s.lh.length ≤ (record s b data).lh.length := by
  unfold record
  dsimp only
  split_ifs
  · exact le_rfl
  · rw [List.length_append]
    exact Nat.le_add_right ..

theorem awake_move (hs : Ordered s) (hawake : s.Awake) (hmove : Move l label s s') :
    s'.Awake := by
  intro q hq
  -- a process other than the one that moves was asleep before
  have hbefore : ∀ {p : P} {pc : Pc}, (s.setProc p pc).proc q = .asleep → pc ≠ .asleep → s.Full := by
    intro p pc hq hpc
    exact hawake q ((State.of_setProc hq).resolve_left fun h => hpc h.2)
  cases hmove with
  | crash => cases hq
  | booted hboot | recover hboot =>
      obtain ⟨-, -, -, -, hidle⟩ := hs.booting hboot
      exact absurd ((hidle q).symm.trans hq) nofun
  | sleeps _ _ hfull => exact hfull
  | begins _ _ hfull => exact absurd (hbefore hq nofun) hfull
  | overflows | evict => exact hawake q hq
  | checks => exact hbefore hq nofun
  | records =>
      refine (hbefore hq nofun).imp id fun hfull => hfull.trans_le ?_
      exact Nat.add_le_add_right (length_le_record ..) _
  | disturbs _ _ hcommitting => exact .inl hcommitting
  | endsLast => exact .inl rfl
  | ends => exact absurd hq (Pc.wake_ne_asleep _)
  | commits hup hp =>
      obtain ⟨-, -, hcommitting, -⟩ := hs.committing hup hp
      exact .inl hcommitting
  | committed => exact absurd hq (Pc.wake_ne_asleep _)
  | bread =>
      refine (hawake q hq).imp id fun hfull => ?_
      change LOGSIZE < (s.store.fill _).lh.length + _
      rwa [Store.fill_lh]

theorem claimed_begins (hbudget : l.budget ≤ MAXOPBLOCKS) (hs : Ordered s) (hunused : s.Unused)
    (hup : s.Up) (hfull : ¬s.Full) :
    ({ s.setProc p (.active []) with outstanding := s.outstanding + 1 } : State P).claimed l.budget
      ≤ l.peak := by
  have htotal := s.total_setProc (Pc.reserve l.budget) p (.active [])
  have hreserved := total_le_count_mul (Pc.reserve_le l.budget) s.proc
  rw [← hs.outstanding] at hreserved
  obtain ⟨hcommitting, hroom⟩ := not_or.mp hfull
  have hempty : s.outstanding = 0 → s.store.lh.length = 0 := fun hzero => by
    rw [hunused hup.2 (Bool.eq_false_iff.mpr hcommitting) hzero, List.length_nil]
  have hthree : s.outstanding = 0 ∨ s.outstanding = 1 ∨ s.outstanding = 2 := by
    simp only [LOGSIZE, MAXOPBLOCKS] at hroom
    omega
  simp only [State.claimed, State.setProc_store, Pc.reserve, List.length_nil, Layout.peak,
    LOGSIZE, MAXOPBLOCKS] at htotal hroom hbudget ⊢
  rcases hthree with hk | hk | hk <;> rw [hk] at hreserved hroom <;> omega

/-- A block that is not yet in the log takes the place of one that has been reserved. -/
theorem claimed_records {blocks : List Word} {b : Word} {data : Block} (hkept : s.Kept)
    (hallowed : s.Allowed l) (hp : s.proc p = .writing blocks b data) :
    ({ s.setProc p (.active (blocks.insert b)) with
        store := record s.store b data } : State P).claimed l.budget ≤ s.claimed l.budget := by
  have htotal := s.total_setProc (Pc.reserve l.budget) p (.active (blocks.insert b))
  rw [hp] at htotal
  by_cases hb : b ∈ s.store.lh
  · have hsame : (record s.store b data).lh = s.store.lh := if_pos hb
    have hgrows := (List.sublist_insert b blocks).length_le
    simp only [State.claimed, Pc.reserve, hsame] at htotal ⊢
    omega
  · have hnew : b ∉ blocks := fun hmem => hb (hkept p b (by rwa [hp]))
    have hlength : (record s.store b data).lh.length = s.store.lh.length + 1 := by
      rw [record, if_neg hb, List.length_append, List.length_singleton]
    have hbudget := (hallowed p blocks b data hp).1
    rw [List.insert_of_not_mem hnew, List.length_cons] at hbudget
    simp only [State.claimed, Pc.reserve, hlength, List.insert_of_not_mem hnew, List.length_cons]
      at htotal ⊢
    omega

theorem claimed_move (hbudget : l.budget ≤ MAXOPBLOCKS) (hs : Ordered s) (hunused : s.Unused)
    (hkept : s.Kept) (hallowed : s.Allowed l)
    (hle : s.outstanding ≠ 0 → s.claimed l.budget ≤ l.peak) (hmove : Move l label s s') :
    s'.outstanding ≠ 0 → s'.claimed l.budget ≤ l.peak := by
  intro hsome
  cases hmove with
  | crash => exact absurd rfl hsome
  | booted | overflows | evict => exact hle hsome
  | disturbs _ hp hcommitting => exact absurd hcommitting (hs.not_committing hp)
  | recover hboot =>
      obtain ⟨-, -, -, -, hidle⟩ := hs.booting hboot
      exact absurd (hs.outstanding_eq_zero fun q => congrArg Pc.isActive (hidle q)) hsome
  | @sleeps _ p hup hp hfull =>
      have htotal := s.total_setProc (Pc.reserve l.budget) p .asleep
      have hnothing : (s.proc p).reserve l.budget = 0 := by
        rcases hp with hp | hp <;> rw [hp] <;> rfl
      rw [hnothing] at htotal
      exact (congrArg (s.store.lh.length + ·) htotal).trans_le (hle hsome)
  | begins hup _ hfull => exact claimed_begins hbudget hs hunused hup hfull
  | @checks _ p blocks b data hup hp =>
      have htotal := s.total_setProc (Pc.reserve l.budget) p (.writing blocks b data)
      rw [hp] at htotal
      exact (congrArg (s.store.lh.length + ·) (Nat.add_right_cancel htotal)).trans_le (hle hsome)
  | records _ hp => exact (claimed_records hkept hallowed hp).trans (hle hsome)
  | @endsLast _ p _ hup hp =>
      have htotal := s.total_setProc (Pc.reserve l.budget) p (.commit (commit s.store))
      obtain ⟨-, hpos, -⟩ := hs.busy (congrArg Pc.isActive hp)
      have hclaimed := hle hpos.ne'
      simp only [State.claimed, State.setProc_store, Pc.reserve] at htotal hclaimed ⊢
      omega
  | @ends _ p _ hup hp =>
      have htotal := s.total_setProc (Pc.reserve l.budget) p .idle
      have hwake := total_reserve_wake l.budget (s.setProc p .idle).proc
      obtain ⟨-, hpos, -⟩ := hs.busy (congrArg Pc.isActive hp)
      have hclaimed := hle hpos.ne'
      simp only [State.claimed, State.wakeup, State.setProc_store, hwake, Pc.reserve]
        at htotal hclaimed ⊢
      omega
  | commits hup hp | committed hup hp =>
      obtain ⟨-, -, -, hquiet, -⟩ := hs.committing hup hp
      exact absurd (hs.outstanding_eq_zero hquiet) hsome
  | bread =>
      rw [State.claimed, Store.fill_lh]
      exact hle hsome

/-- What holds in every reachable state. -/
structure Admitted (l : Layout) (s : State P) : Prop where
  ordered : Ordered s
  unused : s.Unused
  kept : s.Kept
  allowed : s.Allowed l
  awake : s.Awake
  claimed : l.budget ≤ MAXOPBLOCKS → s.outstanding ≠ 0 → s.claimed l.budget ≤ l.peak
  short : l.budget ≤ MAXOPBLOCKS → s.store.lh.length ≤ LOGSIZE

omit [DecidableEq P] in
/-- What has been reserved is there when `log_write` has the lock. -/
theorem Admitted.length_lt_peak (h : Admitted l s) (hbudget : l.budget ≤ MAXOPBLOCKS)
    {blocks : List Word} {b : Word} {data : Block} (hp : s.proc p = .writing blocks b data)
    (hb : b ∉ s.store.lh) : s.store.lh.length < l.peak := by
  obtain ⟨-, hpos, -⟩ := h.ordered.busy (congrArg Pc.isActive hp)
  have hclaimed := h.claimed hbudget hpos.ne'
  have hreserve := le_total (Pc.reserve l.budget) s.proc p
  have hnew : b ∉ blocks := fun hmem => hb (h.kept p b (by rwa [hp]))
  have hallowed := (h.allowed p blocks b data hp).1
  rw [List.insert_of_not_mem hnew, List.length_cons] at hallowed
  rw [hp] at hreserve
  simp only [State.claimed, Pc.reserve] at hclaimed hreserve
  omega

theorem Layout.peak_le (hbudget : l.budget ≤ MAXOPBLOCKS) : l.peak ≤ LOGSIZE := by
  simp only [Layout.peak, LOGSIZE, MAXOPBLOCKS] at hbudget ⊢
  omega

theorem Admitted.short_move (h : Admitted l s) (hbudget : l.budget ≤ MAXOPBLOCKS)
    (hmove : Move l label s s') : s'.store.lh.length ≤ LOGSIZE := by
  have hshort := h.short hbudget
  cases hmove with
  | crash => exact Nat.zero_le _
  | booted | sleeps | begins | overflows | checks | disturbs | endsLast | ends | committed | evict =>
      exact hshort
  | recover _ hturn | commits _ _ hturn => exact Task.short_turn hturn hshort
  | @records _ p blocks b data _ hp =>
      change (record s.store b data).lh.length ≤ LOGSIZE
      unfold record
      dsimp only
      split_ifs with hb
      · exact hshort
      · rw [List.length_append, List.length_singleton]
        exact (h.length_lt_peak hbudget hp hb).trans_le (Layout.peak_le hbudget)
  | bread => rwa [Store.fill_lh]

theorem Admitted.move (h : Admitted l s) (hmove : Move l label s s') : Admitted l s' where
  ordered := h.ordered.move hmove
  unused := unused_move h.ordered h.unused hmove
  kept := kept_move h.ordered h.kept hmove
  allowed := allowed_move h.allowed hmove
  awake := awake_move h.ordered h.awake hmove
  claimed hbudget :=
    claimed_move hbudget h.ordered h.unused h.kept h.allowed (h.claimed hbudget) hmove
  short hbudget := h.short_move hbudget hmove

theorem Admitted.reachable (hreach : Reachable (logSystem l) s) : Admitted l s := by
  refine hreach.invariant (fun s hinit => ?_) fun _ _ _ h hstep => h.move (perform_move hstep)
  obtain ⟨disk, -, rfl⟩ := hinit
  exact ⟨.restart disk, fun _ _ _ => rfl, nofun, nofun, fun _ => nofun,
    fun _ hsome => absurd rfl hsome, fun _ => Nat.zero_le _⟩

end Processes

end Acos.Storage
