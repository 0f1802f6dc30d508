import Acos.Storage.LogReserve
import Acos.Lib.Journal

/-!
# The log survives crashes

The log refines a store with transactions: the write of the header is the moment of the commit, and
everything else is invisible. A crash may come at any time, also during the recovery from an earlier
one.
-/

namespace Acos.Storage

open Transition Interleaving

/-! ### The simulation -/

section Processes

variable {P : Type} {s s' : State P} {p : P}

/-- The state of the log and the store with transactions that it stands for. -/
structure Rel (l : Layout) (s : State P) (a : Journal.State (HomeBlock l) Block P) : Prop where
  listed : Listed l s.store.lh
  active : ∀ p, p ∈ a.active ↔ (s.proc p).isActive = true
  view : s.boot = none → ∀ b : HomeBlock l, s.store.bread b = a.volatile b
  phase : ∀ task, At s task → Phase l s.store a.durable a.volatile task

section Simulation

variable {l : Layout} {a : Journal.State (HomeBlock l) Block P}

/-- A change of the cache that cannot be seen. -/
theorem Rel.store (hrel : Rel l s a) (hboot : s.boot = none) {store : Store}
    (hdisk : store.disk = s.store.disk) (hlh : store.lh = s.store.lh)
    (hbread : ∀ b, store.bread b = s.store.bread b)
    (hcoherent : ∀ pinned, Coherent s.store pinned → Coherent store pinned) :
    Rel l { s with store := store } a := by
  refine ⟨hlh.symm ▸ hrel.listed, hrel.active, fun _ b => ?_, fun task hat => ?_⟩
  · rw [hbread]
    exact hrel.view hboot b
  · have hphase := hrel.phase task (hat.congr hboot hboot rfl (fun _ => rfl) fun _ _ => Iff.rfl)
    exact hphase.congr hdisk hlh hbread hcoherent

/-- A change that leaves every process inside or outside of its operation. -/
theorem Rel.procs (hrel : Rel l s a) (hboot : s.boot = none) (hboot' : s'.boot = none)
    (hstore : s'.store = s.store) (hcommitting : s'.committing = s.committing)
    (hactive : ∀ q, (s'.proc q).isActive = (s.proc q).isActive)
    (hcommit : ∀ q t, s'.proc q = .commit t ↔ s.proc q = .commit t) : Rel l s' a := by
  refine ⟨hstore ▸ hrel.listed, fun q => ?_, fun _ => ?_, fun task hat => ?_⟩
  · rw [hactive]
    exact hrel.active q
  · rw [hstore]
    exact hrel.view hboot
  · rw [hstore]
    exact hrel.phase task (hat.congr hboot' hboot hcommitting.symm (fun q => (hactive q).symm)
      fun q t => (hcommit q t).symm)

/-- A machine that has been switched on, with a disk that determines the contents. -/
theorem Rel.restart {disk : Word → Block} {durable : Contents l}
    (hrecoverable : Recoverable l disk durable) :
    Rel l (Storage.restart disk : State P) ⟨durable, durable, ∅⟩ := by
  refine ⟨listed_nil l, fun q => ?_, nofun, fun task hat => ?_⟩
  · simp [Storage.restart, Pc.isActive]
  · obtain ⟨rfl, -⟩ := hat.of_boot rfl
    refine ⟨fun b buf hcache => ?_, rfl, hrecoverable⟩
    cases hcache

variable [Fintype P]

theorem Rel.crash (hs : Ordered s) (hrel : Rel l s a) :
    Rel l (Storage.restart s.store.disk : State P)
      { a with volatile := a.durable, active := ∅ } := by
  obtain ⟨task, hat⟩ := hs.task
  exact .restart ((hrel.phase task hat).recoverable hrel.listed)

theorem Rel.booted (hs : Ordered s) (hrel : Rel l s a) (hboot : s.boot = some .finish) :
    Rel l { s with boot := none } a := by
  obtain ⟨hat, -, -, hcommitting, -⟩ := hs.booting hboot
  have hphase := hrel.phase _ hat
  refine ⟨hrel.listed, hrel.active, fun _ => hphase.bread_eq, fun task hat' => ?_⟩
  obtain ⟨rfl, -⟩ := hat'.of_quiet rfl hcommitting
  exact hphase.2.2

theorem Rel.recover (hfits : l.Fits) (hs : Ordered s) (hrel : Rel l s a) {task next : Task}
    {store : Store} (hboot : s.boot = some task) (hturn : task.Turn l s.store store next) :
    Rel l { s with store := store, boot := some next } a := by
  obtain ⟨hat, hrecovers, -⟩ := hs.booting hboot
  have hdurable : task.commits a.durable a.volatile = a.durable := by
    cases task with
    | writeHead => cases hrecovers
    | writeLog | readHead | install | eraseHead | finish => rfl
  obtain ⟨hlisted, hphase⟩ := (hrel.phase _ hat).turn hfits hrel.listed
    (fun heq => by rw [heq] at hrecovers; cases hrecovers) hturn
  rw [hdurable] at hphase
  refine ⟨hlisted, hrel.active, nofun, fun task' hat' => ?_⟩
  obtain ⟨rfl, -⟩ := hat'.of_boot rfl
  exact hphase

variable [DecidableEq P]

omit [Fintype P] in
/-- One process begins, goes on with or ends an operation while there is no commit. -/
theorem Rel.moves (hrel : Rel l s a) (hboot : s.boot = none) (hcommitting : s.committing = false)
    (pc : Pc) {active : Set P}
    (hactive : ∀ q, q ∈ active ↔ if q = p then pc.isActive = true else q ∈ a.active)
    (outstanding : Nat) {store : Store} {volatile : Contents l} (hlisted : Listed l store.lh)
    (hview : ∀ b : HomeBlock l, store.bread b = volatile b)
    (hsettled : Settled l store a.durable) :
    Rel l { s.setProc p pc with outstanding := outstanding, store := store }
      ⟨a.durable, volatile, active⟩ := by
  refine ⟨hlisted, fun q => ?_, fun _ => hview, fun task hat => ?_⟩
  · rw [hactive q]
    change _ ↔ ((s.setProc p pc).proc q).isActive = true
    split_ifs with hq
    · rw [hq, State.setProc_self]
    · rw [s.setProc_of_ne hq]
      exact hrel.active q
  · obtain ⟨rfl, -⟩ := hat.of_quiet hboot hcommitting
    exact hsettled

theorem Rel.begins (hs : Ordered s) (hrel : Rel l s a) (hup : s.Up)
    (hp : s.proc p = .idle ∨ s.proc p = .woken) (hfull : ¬s.Full) :
    p ∉ a.active ∧ Rel l { s.setProc p (.active []) with outstanding := s.outstanding + 1 }
      { a with active := insert p a.active } := by
  have hcommitting := Bool.eq_false_iff.mpr (not_or.mp hfull).1
  obtain ⟨task, hat⟩ := hs.task
  obtain ⟨rfl, -⟩ := hat.of_quiet hup.2 hcommitting
  refine ⟨fun hmem => ?_, hrel.moves hup.2 hcommitting (.active []) (fun q => ?_) _ hrel.listed
    (hrel.view hup.2) (hrel.phase none hat)⟩
  · rw [hrel.active] at hmem
    rcases hp with hp | hp <;> rw [hp] at hmem <;> cases hmem
  · split_ifs with hq
    · simp [hq, Pc.isActive]
    · simp [hq]

theorem Rel.records (hs : Ordered s) (hrel : Rel l s a) {blocks : List Word} {b : Word}
    {data : Block} (hp : s.proc p = .writing blocks b data) (hhome : l.Home b)
    (hroom : b ∉ s.store.lh → s.store.lh.length < LOGSIZE ∧ s.store.lh.length + 1 < l.size) :
    p ∈ a.active ∧
      Rel l { s.setProc p (.active (blocks.insert b)) with store := record s.store b data }
        { a with volatile := Function.update a.volatile ⟨b, hhome⟩ data } := by
  have hactive : (s.proc p).isActive = true := congrArg Pc.isActive hp
  obtain ⟨hat, -, hboot, hcommitting, -⟩ := hs.busy hactive
  have hphase := hrel.phase none hat
  have hmem := (hrel.active p).mpr hactive
  refine ⟨hmem, hrel.moves hboot hcommitting (.active (blocks.insert b)) (fun q => ?_) _
    (hrel.listed.record hhome hroom data) (fun c => ?_)
    ⟨hphase.head, hphase.coherent.record b data, hphase.disk⟩⟩
  · split_ifs with hq
    · simp [hq, hmem, Pc.isActive]
    · exact Iff.rfl
  · by_cases hc : c = ⟨b, hhome⟩
    · subst hc
      rw [Function.update_self, Store.bread_record_self]
    · rw [Function.update_of_ne hc, Store.bread_record_of_ne _ fun heq => hc (Subtype.ext heq)]
      exact hrel.view hboot c

/-- The end of an operation that is not the last one. -/
theorem Rel.ends (hs : Ordered s) (hrel : Rel l s a) {blocks : List Word}
    (hp : s.proc p = .active blocks) :
    p ∈ a.active ∧ Rel l { s.setProc p .idle with outstanding := s.outstanding - 1 }
      { a with active := a.active \ {p} } := by
  have hactive : (s.proc p).isActive = true := congrArg Pc.isActive hp
  obtain ⟨hat, -, hboot, hcommitting, -⟩ := hs.busy hactive
  refine ⟨(hrel.active p).mpr hactive, hrel.moves hboot hcommitting .idle (fun q => ?_) _
    hrel.listed (hrel.view hboot) (hrel.phase none hat)⟩
  split_ifs with hq
  · simp [hq, Pc.isActive]
  · simp [hq]

/-- The last operation ends, and the commit begins. -/
theorem Rel.endsLast (hs : Ordered s) (hrel : Rel l s a) {blocks : List Word}
    (hp : s.proc p = .active blocks) (hlast : s.outstanding - 1 = 0) :
    Rel l { s.setProc p (.commit (commit s.store)) with
        outstanding := s.outstanding - 1, committing := true }
      { a with active := a.active \ {p} } := by
  obtain ⟨hat, -, hboot, -⟩ := hs.busy (congrArg Pc.isActive hp)
  have hsettled : Settled l s.store a.durable := hrel.phase none hat
  obtain ⟨hquiet, -⟩ := hs.endsLast hp hlast
  refine ⟨hrel.listed, fun q => ?_, fun _ => hrel.view hboot, fun task hat' => ?_⟩
  · refine ⟨fun hq => ?_, fun hq => absurd ((hquiet q).symm.trans hq) Bool.false_ne_true⟩
    have hbefore := (hrel.active q).mp hq.1
    rw [← s.setProc_of_ne hq.2 (.commit (commit s.store)), hquiet q] at hbefore
    cases hbefore
  · obtain ⟨rfl, -⟩ := hat'.of_commit (p := p) hboot (s.setProc_self p _)
    unfold commit
    split_ifs with hpos
    · exact ⟨hsettled, Nat.zero_le _, fun i b hi => by simp at hi⟩
    · have hlh : s.store.lh = [] := List.length_eq_zero_iff.mp (by omega)
      refine ⟨funext fun b => ?_, hlh, hsettled⟩
      have hcoherent := hsettled.coherent
      rw [hlh] at hcoherent
      change a.volatile b = a.durable b
      rw [← hrel.view hboot b, hcoherent.bread_eq List.not_mem_nil, hsettled.disk]

theorem Rel.commits (hfits : l.Fits) (hs : Ordered s) (hrel : Rel l s a) (hup : s.Up)
    {task next : Task} {store : Store} (hp : s.proc p = .commit task)
    (hturn : task.Turn l s.store store next) :
    Rel l { s.setProc p (.commit next) with store := store }
      { a with durable := task.commits a.durable a.volatile } := by
  obtain ⟨hat, -⟩ := hs.committing hup hp
  have hphase := hrel.phase _ hat
  have hview := hrel.view hup.2
  obtain ⟨hlisted, hphase'⟩ := hphase.turn hfits hrel.listed (fun _ => hview) hturn
  refine ⟨hlisted, fun q => ?_, fun _ => hphase.view_turn hfits hrel.listed hview hturn,
    fun task' hat' => ?_⟩
  · have hsame : ((s.setProc p (.commit next)).proc q).isActive = (s.proc q).isActive :=
      State.setProc_isActive (by rw [hp]; rfl) q
    rw [hrel.active q, ← hsame]
  · obtain ⟨rfl, -⟩ := hat'.of_commit (p := p) hup.2 (s.setProc_self p _)
    exact hphase'

theorem Rel.committed (hs : Ordered s) (hrel : Rel l s a) (hup : s.Up)
    (hp : s.proc p = .commit .finish) : Rel l (endCommit p s) a := by
  obtain ⟨hat, -⟩ := hs.committing hup hp
  refine ⟨hrel.listed, fun q => ?_, hrel.view, fun task hat' => ?_⟩
  · rw [(hs.committed hup hp).1]
    exact hrel.active q
  · obtain ⟨rfl, -⟩ := hat'.of_quiet hup.2 rfl
    exact (hrel.phase _ hat).2.2

end Simulation

theorem Rel.init [DecidableEq P] {l : Layout} (hinit : (logSystem l).init s) :
    Rel l s ⟨fun b => s.store.disk b, fun b => s.store.disk b, ∅⟩ := by
  obtain ⟨disk, hhead, rfl⟩ := hinit
  exact .restart ⟨[], listed_nil l, hhead, fun i b hi => by simp at hi, fun b _ => rfl⟩

end Processes

/-! ### Whole runs -/

section Runs

variable {P : Type} [DecidableEq P] [Fintype P] {l : Layout}

end Runs

/-- One block is given to `log_write` by this process. -/
def recordLabels (p : Bool) (blockno : Word) : List (Label Bool) :=
  [.logWrite p blockno fun _ => 7, .record p]

/-- One process is in an operation while the other one goes through ten, and then both record blocks
until they find room for the last one at the same time. -/
def overflowLabels : List (Label Bool) :=
  List.replicate 4 .recover ++ [.beginOp false]
    ++ (List.range 10).flatMap (fun i => .beginOp true :: recordLabels true (.ofNat 32 (100 + i))
      ++ [.endOp true])
    ++ [.beginOp true]
    ++ (List.range 9).flatMap (fun i => recordLabels true (.ofNat 32 (110 + i)))
    ++ (List.range 9).flatMap (fun i => recordLabels false (.ofNat 32 (120 + i)))
    ++ [.logWrite true 130 fun _ => 7, .logWrite false 131 fun _ => 7, .record true, .record false,
      .endOp true, .endOp false]
    ++ List.replicate 30 (.commit false)

-- the log of `mkfs` is too short for operations of ten blocks: the commit writes to a block behind it
example : (mkfsLog MAXOPBLOCKS).Home 32 ∧
    (execute (perform (mkfsLog MAXOPBLOCKS)) overflowLabels (restart fun _ _ => 0)).map
      (fun s => s.store.disk 32 0) = some 7 := by decide +kernel

end Acos.Storage
