import Acos.Shell.Reentry

/-!
# Lines do not disturb each other

The processes of a session are nested, as each one waits for its child. All but the youngest ones
wait for their last child, so that only these can start commands or read lines.
-/

namespace Acos.Shell.Pipe.Session

open Program Descriptors Processes Transition

/-! ### The invariant -/

/-- The process waits for its last child. -/
def WaitsLast (s : State) (pid : Nat) : Prop :=
  ∃ parent g p, s.processes[pid]? = some (inShell parent g.fds p) ∧
    Right (s.work pid).tokens p g ∧ g.role = .waits true

/-- No command of a line behind that of the process has been started. -/
structure Current (s : State) (pid : Nat) : Prop where
  started_le : ∀ n ∈ s.started, n ≤ (s.work pid).number
  number_lt : (s.work pid).number < s.log.length

/-- A child on its way to its command, in its command, and behind it. -/
inductive ChildOk (tokens : List Token) (last : Bool) : Fds → Life (Code Unit) → Prop where
  | program {g : Ghost} {p : Prog Reply Unit} (hrole : g.role = .child last)
      (hright : Right tokens p g) : ChildOk tokens last g.fds (.running (.program p))
  | command {fds : Fds} : ChildOk tokens last fds (.running (.other ()))
  | exited {fds : Fds} : ChildOk tokens last fds .exited

/-- The youngest processes: one without a child, one with a child that is not back in `main`, or one
that has read all lines. -/
inductive Upper (s : State) : List Nat → Prop where
  | alone {pid : Nat} {parent : Option Nat} {g : Ghost} {p : Prog Reply Unit}
      (hprocess : s.processes[pid]? = some (inShell parent g.fds p))
      (hright : Right (s.work pid).tokens p g)
      (hrole : g.role = .shell ∧ Current s pid ∨ g.role = .done) : Upper s [pid]
  | forked {child pid : Nat} {parent : Option Nat} {g : Ghost} {p : Prog Reply Unit} {fds : Fds}
      {life : Life (Code Unit)} {last : Bool}
      (hprocess : s.processes[pid]? = some (inShell parent g.fds p))
      (hright : Right (s.work pid).tokens p g) (hrole : g.role = .waits last)
      (hcurrent : Current s pid) (hwork : s.work child = s.work pid)
      (hchild : s.processes[child]? = some ⟨some pid, fds, life⟩)
      (hok : ChildOk (s.work pid).tokens last fds life) : Upper s [child, pid]
  | ended {pid : Nat} {parent : Option Nat} {fds : Fds}
      (hprocess : s.processes[pid]? = some ⟨parent, fds, .exited⟩) (hremaining : s.remaining = []) :
      Upper s [pid]

/-- What has been read and started so far. -/
structure Recorded (lines : List Line) (s : State) : Prop where
  lines : s.log.map Entry.line ++ s.remaining = lines
  stdin : ∀ entry ∈ s.log, entry.stdin = some (.inherited 0)
  stdout : ∀ entry ∈ s.log, entry.stdout = some (.inherited 1)
  order : s.started.Pairwise (· ≤ ·)
  started_lt : ∀ n ∈ s.started, n < s.log.length

structure Layers (s : State) (upper below : List Nat) : Prop where
  nested : Nested s.processes (upper ++ below)
  upper : Upper s upper
  below : ∀ pid ∈ below, WaitsLast s pid

/-! ### What a program may do -/

section Right

variable {tokens : List Token} {g : Ghost}

theorem Right.call {c : Call} {next : Reply c → Prog Reply Unit} {ok : Bool}
    (hright : Right tokens (.perform c next) g) (hallowed : Allowed tokens ok c)
    {result : Reply c × Fds} (hresult : effect ok c g.fds = some result) :
    Right tokens (next result.1) { g with fds := result.2 } := by
  cases c with
  | pipe | fork | wait | execvp | nullDereference => exact nomatch hresult
  | _ => exact hright ok result hallowed hresult

theorem Right.pipe {next : Option (Int × Int) → Prog Reply Unit}
    (hright : Right tokens (.perform .pipe next) g) (pipe : Nat) :
    Right tokens (next (some (openPipe pipe g.fds).1))
      { g with fds := (openPipe pipe g.fds).2 } := hright pipe

theorem Right.fork {next : Fork → Prog Reply Unit} (hright : Right tokens (.perform .fork next) g) :
    g.role = .shell ∧ ∃ last, Right tokens (next .parent) { g with role := .waits last } ∧
      Right tokens (next .child) { g with role := .child last } := hright

theorem Right.wait {next : Unit → Prog Reply Unit} (hright : Right tokens (.perform .wait next) g) :
    ∃ last, g.role = .waits last ∧
      Right tokens (next ()) { g with role := if last then .done else .shell } := hright

/-- A process without a child does not wait. -/
theorem Right.not_wait {next : Unit → Prog Reply Unit} {P : Prop}
    (hright : Right tokens (.perform .wait next) g)
    (hrole : g.role = .shell ∧ P ∨ g.role = .done) : False := by
  obtain ⟨last, hwaits, -⟩ := hright.wait
  rcases hrole with ⟨hshell, -⟩ | hdone
  · exact nomatch hshell.symm.trans hwaits
  · exact nomatch hdone.symm.trans hwaits

theorem Right.execvp {argv : List Text} {next : Unit → Prog Reply Unit}
    (hright : Right tokens (.perform (.execvp argv) next) g) :
    (∃ last, g.role = .child last) ∧ (Plain tokens → Right tokens (next ()) g) := hright

theorem Right.not_nullDereference {next : Empty → Prog Reply Unit} :
    ¬Right tokens (.perform .nullDereference next) g := id

theorem Right.pure {value : Unit} (hright : Right tokens (.pure value) g) : g.Reads := hright

end Right

/-! ### Who runs a program -/

section Actors

variable {s s' : State} {pid : Nat} {upper below : List Nat} {p : Prog Reply Unit}

theorem WaitsLast.congr (hwaits : WaitsLast s pid)
    (hprocess : s'.processes[pid]? = s.processes[pid]?) (hwork : s'.work pid = s.work pid) :
    WaitsLast s' pid := by
  unfold WaitsLast
  rw [hprocess, hwork]
  exact hwaits

theorem Layers.ne (hlayers : Layers s upper below) {other : Nat} (hpid : pid ∈ upper)
    (hother : other ∈ below) : pid ≠ other :=
  (List.nodup_append.mp hlayers.nested.nodup).2.2 pid hpid other hother

/-- A step of the younger processes. -/
theorem Layers.belowCongr (hlayers : Layers s upper below)
    (hprocesses : ∀ pid, pid ∉ upper → pid < s.processes.length →
      s'.processes[pid]? = s.processes[pid]? ∧ s'.work pid = s.work pid) :
    ∀ pid ∈ below, WaitsLast s' pid := by
  intro pid hpid
  have hnot : pid ∉ upper := fun hupper => hlayers.ne hupper hpid rfl
  have hlt := hlayers.nested.lt_length (List.mem_append_right upper hpid)
  obtain ⟨hprocess, hwork⟩ := hprocesses pid hnot hlt
  exact (hlayers.below pid hpid).congr hprocess hwork

theorem Upper.congr (hupper : Upper s upper) {ps : List (Proc Unit)}
    (hprocesses : ∀ pid ∈ upper, ps[pid]? = s.processes[pid]?) (pipes : Nat) :
    Upper { s with processes := ps, pipes := pipes } upper := by
  cases hupper with
  | alone hprocess hright hrole =>
      refine .alone ((hprocesses _ List.mem_cons_self).trans hprocess) hright ?_
      exact hrole.imp_left (And.imp_right fun hcurrent => ⟨hcurrent.1, hcurrent.2⟩)
  | forked hprocess hright hrole hcurrent hwork hchild hok =>
      exact .forked ((hprocesses _ (List.mem_cons_of_mem _ List.mem_cons_self)).trans hprocess)
        hright hrole ⟨hcurrent.1, hcurrent.2⟩ hwork
        ((hprocesses _ List.mem_cons_self).trans hchild) hok
  | ended hprocess hremaining =>
      exact .ended ((hprocesses _ List.mem_cons_self).trans hprocess) hremaining

section GoOn

variable {parent : Option Nat} {fds fds' : Fds} {p' : Prog Reply Unit}

/-- A program of the younger processes goes on in the same role. -/
theorem Upper.goOn (hupper : Upper s upper) (hnodup : upper.Nodup) (hpid : pid ∈ upper)
    (hprocess : s.processes[pid]? = some (inShell parent fds p))
    (hnext : ∀ g, g.fds = fds → Right (s.work pid).tokens p g →
      Right (s.work pid).tokens p' { g with fds := fds' }) (pipes : Nat) :
    Upper { s with processes := s.processes.set pid (inShell parent fds' p'), pipes := pipes }
      upper := by
  have hself := getElem?_set_of_some hprocess (inShell parent fds' p')
  cases hupper with
  | @alone _ _ g _ hprocess' hright hrole =>
      obtain rfl := List.mem_singleton.mp hpid
      cases hprocess'.symm.trans hprocess
      refine .alone (g := { g with fds := fds' }) hself (hnext g rfl hright) ?_
      exact hrole.imp_left (And.imp_right fun hcurrent => ⟨hcurrent.1, hcurrent.2⟩)
  | @forked child top _ g _ _ _ _ hprocess' hright hrole hcurrent hwork hchild hok =>
      have hne : child ≠ top := by
        rintro rfl
        simp at hnodup
      rcases List.mem_pair.mp hpid with rfl | rfl
      · cases hchild.symm.trans hprocess
        cases hok with
        | @program g' _ hrole' hright' =>
            refine .forked ((List.getElem?_set_ne hne).trans hprocess') hright hrole
              ⟨hcurrent.1, hcurrent.2⟩ hwork hself ?_
            rw [hwork] at hnext
            exact .program (g := { g' with fds := fds' }) hrole' (hnext g' rfl hright')
      · cases hprocess'.symm.trans hprocess
        exact .forked (g := { g with fds := fds' }) hself (hnext g rfl hright) hrole
          ⟨hcurrent.1, hcurrent.2⟩ hwork ((List.getElem?_set_ne hne.symm).trans hchild) hok
  | ended hprocess' =>
      obtain rfl := List.mem_singleton.mp hpid
      cases hprocess'.symm.trans hprocess

/-- A process that runs a program goes on with it, in the same role. -/
theorem Layers.goOn (hlayers : Layers s upper below)
    (hprocess : s.processes[pid]? = some (inShell parent fds p))
    (hnext : ∀ g, g.fds = fds → Right (s.work pid).tokens p g →
      Right (s.work pid).tokens p' { g with fds := fds' }) (pipes : Nat) :
    Layers { s with processes := s.processes.set pid (inShell parent fds' p'), pipes := pipes }
      upper below := by
  have hother {other : Nat} (hne : pid ≠ other) :
      (s.processes.set pid (inShell parent fds' p'))[other]? = s.processes[other]? :=
    List.getElem?_set_ne hne
  have hnested : Nested (s.processes.set pid (inShell parent fds' p')) (upper ++ below) :=
    hlayers.nested.set hprocess rfl rfl rfl
  rcases List.mem_append.mp (hlayers.nested.mem hprocess rfl) with hupper | hbelow
  · refine ⟨hnested, ?_, ?_⟩
    · have hnodup := (List.nodup_append.mp hlayers.nested.nodup).1
      exact hlayers.upper.goOn hnodup hupper hprocess hnext pipes
    · refine hlayers.belowCongr fun other hnot _ => ⟨hother ?_, rfl⟩
      rintro rfl
      exact hnot hupper
  · refine ⟨hnested, ?_, fun other hmem => ?_⟩
    · exact hlayers.upper.congr (fun other hmem => hother (hlayers.ne hmem hbelow).symm) pipes
    · by_cases heq : pid = other
      · subst heq
        obtain ⟨_, g, _, hprocess', hright, hrole⟩ := hlayers.below pid hmem
        cases hprocess'.symm.trans hprocess
        exact ⟨parent, { g with fds := fds' }, p', getElem?_set_of_some hprocess _,
          hnext g rfl hright, hrole⟩
      · exact (hlayers.below other hmem).congr (hother heq) rfl

end GoOn

/-- Who runs a program. -/
inductive Actor (s : State) (below : List Nat) (p : Prog Reply Unit) :
    List Nat → Nat → Option Nat → Fds → Prop where
  | alone {pid : Nat} {parent : Option Nat} {g : Ghost} (hright : Right (s.work pid).tokens p g)
      (hrole : g.role = .shell ∧ Current s pid ∨ g.role = .done) :
      Actor s below p [pid] pid parent g.fds
  | child {child pid : Nat} {parent : Option Nat} {g g' : Ghost} {p' : Prog Reply Unit}
      {last : Bool}
      (hprocess : s.processes[pid]? = some (inShell parent g'.fds p'))
      (hright' : Right (s.work pid).tokens p' g') (hrole' : g'.role = .waits last)
      (hcurrent : Current s pid) (hwork : s.work child = s.work pid) (hrole : g.role = .child last)
      (hright : Right (s.work pid).tokens p g) : Actor s below p [child, pid] child (some pid) g.fds
  | parent {child pid : Nat} {parent : Option Nat} {g : Ghost} {fds : Fds} {life : Life (Code Unit)}
      {last : Bool} (hright : Right (s.work pid).tokens p g) (hrole : g.role = .waits last)
      (hcurrent : Current s pid) (hchild : s.processes[child]? = some ⟨some pid, fds, life⟩)
      (hok : ChildOk (s.work pid).tokens last fds life) :
      Actor s below p [child, pid] pid parent g.fds
  | below {upper : List Nat} {pid : Nat} {parent : Option Nat} {g : Ghost} (hpid : pid ∈ below)
      (hright : Right (s.work pid).tokens p g) (hrole : g.role = .waits true) :
      Actor s below p upper pid parent g.fds

theorem Layers.actor (hlayers : Layers s upper below) {parent : Option Nat} {fds : Fds}
    (hprocess : s.processes[pid]? = some (inShell parent fds p)) :
    Actor s below p upper pid parent fds := by
  rcases List.mem_append.mp (hlayers.nested.mem hprocess rfl) with hupper | hbelow
  · cases hlayers.upper with
    | alone hprocess' hright hrole =>
        obtain rfl := List.mem_singleton.mp hupper
        cases hprocess'.symm.trans hprocess
        exact .alone hright hrole
    | forked hprocess' hright hrole hcurrent hwork hchild hok =>
        rcases List.mem_pair.mp hupper with rfl | rfl
        · cases hchild.symm.trans hprocess
          cases hok with
          | program hrole' hright' =>
              exact .child hprocess' hright hrole hcurrent hwork hrole' hright'
        · cases hprocess'.symm.trans hprocess
          exact .parent hright hrole hcurrent hchild hok
    | ended hprocess' =>
        obtain rfl := List.mem_singleton.mp hupper
        cases hprocess'.symm.trans hprocess
  · obtain ⟨_, g, _, hprocess', hright, hrole⟩ := hlayers.below pid hbelow
    cases hprocess'.symm.trans hprocess
    exact .below hbelow hright hrole

theorem Layers.fork (hlayers : Layers s upper below) {ps : List (Proc Unit)}
    (hstep : forkStep pid s.processes = some ps) :
    ∃ upper', Layers { s with
      processes := ps, work := Function.update s.work s.processes.length (s.work pid) }
      upper' below := by
  obtain ⟨parent, fds, next, hprocess, rfl⟩ := forkStep_eq_some hstep
  cases hlayers.actor hprocess with
  | @alone _ _ g hright hrole =>
      obtain ⟨hshell, last, hparent, hchild⟩ := hright.fork
      have hcurrent : Current s pid := by
        rcases hrole with ⟨-, hcurrent⟩ | hdone
        · exact hcurrent
        · exact nomatch hshell.symm.trans hdone
      have hlt := (List.getElem?_eq_some_iff.mp hprocess).1
      have hwork : Function.update s.work s.processes.length (s.work pid) pid = s.work pid :=
        Function.update_of_ne hlt.ne _ _
      have hnested : Nested (s.processes.set pid (inShell parent g.fds (next .parent)) ++
          [inShell (some pid) g.fds (next .child)]) (s.processes.length :: pid :: below) :=
        hlayers.nested.set_fork hprocess rfl rfl rfl rfl rfl
      rw [← hwork] at hparent hchild
      refine ⟨[s.processes.length, pid], hnested, ?_, ?_⟩
      · refine .forked (g := { g with role := .waits last })
          (getElem?_set_append_self hprocess _ _) hparent rfl ?_ ?_
          (getElem?_set_append_length _ _ _ _)
          (.program (g := { g with role := .child last }) rfl hchild)
        · refine ⟨fun n hn => ?_, ?_⟩
          · exact (hcurrent.started_le n hn).trans_eq (congrArg Work.number hwork.symm)
          · exact (congrArg Work.number hwork).trans_lt hcurrent.number_lt
        · exact (Function.update_self ..).trans hwork.symm
      · refine hlayers.belowCongr fun other hnot hother => ⟨?_, ?_⟩
        · rw [List.getElem?_append_left (List.length_set.symm ▸ hother), List.getElem?_set_ne]
          rintro rfl
          exact hnot (List.mem_singleton_self _)
        · exact Function.update_of_ne hother.ne _ _
  | child _ _ _ _ _ hrole hright => exact nomatch hrole.symm.trans hright.fork.1
  | parent hright hrole => exact nomatch hrole.symm.trans hright.fork.1
  | below _ hright hrole => exact nomatch hrole.symm.trans hright.fork.1

/-- Only the youngest process can have exited. -/
theorem Layers.exited (hlayers : Layers s upper below) {child : Nat} {parent : Option Nat}
    {fds : Fds} (hexited : s.processes[child]? = some ⟨parent, fds, .exited⟩) :
    (∃ pid, upper = [child, pid] ∧ parent = some pid) ∨ upper = [child] ∧ s.remaining = [] := by
  rcases List.mem_append.mp (hlayers.nested.mem hexited rfl) with hupper | hbelow
  · cases hlayers.upper with
    | alone hprocess =>
        obtain rfl := List.mem_singleton.mp hupper
        cases hprocess.symm.trans hexited
    | @forked _ pid _ _ _ _ _ _ hprocess _ _ _ _ hchild =>
        rcases List.mem_pair.mp hupper with rfl | rfl
        · cases hchild.symm.trans hexited
          exact .inl ⟨pid, rfl, rfl⟩
        · cases hprocess.symm.trans hexited
    | ended hprocess hremaining =>
        obtain rfl := List.mem_singleton.mp hupper
        exact .inr ⟨rfl, hremaining⟩
  · obtain ⟨_, _, _, hprocess, -⟩ := hlayers.below child hbelow
    cases hprocess.symm.trans hexited

/-- A process whose wait ends is right below the youngest one. -/
theorem Layers.waiting (hlayers : Layers s upper below) {child : Nat} {parent : Option Nat}
    {fds fds' : Fds} {next : Unit → Prog Reply Unit}
    (hprocess : s.processes[pid]? = some (inShell parent fds (.perform .wait next)))
    (hexited : s.processes[child]? = some ⟨some pid, fds', .exited⟩) :
    ∃ g behind, fds = g.fds ∧ Right (s.work pid).tokens (next ()) g ∧
      (g.role = .shell ∧ Current s pid ∨ g.role = .done) ∧
      Nested s.processes (child :: pid :: behind) ∧ ∀ other ∈ behind, WaitsLast s other := by
  cases hlayers.actor hprocess with
  | alone hright hrole => exact (hright.not_wait hrole).elim
  | child _ _ _ _ _ hrole hright =>
      obtain ⟨last, hwaits, -⟩ := hright.wait
      exact nomatch hrole.symm.trans hwaits
  | @parent youngest _ _ g _ _ last hright hrole hcurrent =>
      obtain ⟨last', hwaits, hnext⟩ := hright.wait
      cases hrole.symm.trans hwaits
      rcases hlayers.exited hexited with ⟨_, heq, -⟩ | ⟨heq, -⟩
      · cases heq
        refine ⟨{ g with role := if last then .done else .shell }, below, rfl, hnext, ?_,
          hlayers.nested, hlayers.below⟩
        cases last with
        | false => exact .inl ⟨rfl, hcurrent⟩
        | true => exact .inr rfl
      · exact nomatch heq
  | @below _ _ _ g hpid hright hrole =>
      obtain ⟨last, hwaits, hnext⟩ := hright.wait
      cases hrole.symm.trans hwaits
      rcases hlayers.exited hexited with ⟨_, rfl, hparent⟩ | ⟨rfl, -⟩
      · cases hparent
        exact absurd rfl (hlayers.ne (List.mem_cons_of_mem _ List.mem_cons_self) hpid)
      · obtain ⟨before, behind, heq⟩ := hlayers.nested.exists_of_parent hexited rfl rfl
        cases before with
        | nil =>
            cases heq
            exact ⟨{ g with role := .done }, behind, rfl, hnext, .inr rfl, hlayers.nested,
              fun other hother => hlayers.below other (List.mem_cons_of_mem _ hother)⟩
        | cons first before =>
            cases heq
            exact absurd rfl (hlayers.ne List.mem_cons_self
              (List.mem_append_right before List.mem_cons_self))

theorem Layers.wait (hlayers : Layers s upper below) {child : Nat} {ps : List (Proc Unit)}
    (hstep : waitStep child pid s.processes = some ps) :
    ∃ upper' below', Layers { s with processes := ps } upper' below' := by
  obtain ⟨parent, fds, next, fds', hprocess, hexited, rfl⟩ := waitStep_eq_some hstep
  obtain ⟨g, behind, rfl, hright, hrole, hnested, hbehind⟩ := hlayers.waiting hprocess hexited
  have hnodup := List.nodup_cons.mp hnested.nodup
  have hne : child ≠ pid := fun heq => hnodup.1 (heq ▸ List.mem_cons_self)
  have hshell := (List.getElem?_set_ne (a := ⟨some pid, fds', .reaped⟩) hne).trans hprocess
  refine ⟨[pid], behind, (hnested.reap rfl).set hshell rfl rfl rfl, ?_, fun other hother => ?_⟩
  · refine .alone (getElem?_set_of_some hshell _) hright ?_
    exact hrole.imp_left (And.imp_right fun hcurrent => ⟨hcurrent.1, hcurrent.2⟩)
  · have hchild : child ≠ other := fun heq => hnodup.1 (List.mem_cons_of_mem _ (heq ▸ hother))
    have hpid : pid ≠ other := fun heq => (List.nodup_cons.mp hnodup.2).1 (heq ▸ hother)
    refine (hbehind other hother).congr ?_ rfl
    exact (List.getElem?_set_ne hpid).trans (List.getElem?_set_ne hchild)

/-- A process waits only while it has a child. -/
theorem Layers.not_childless (hlayers : Layers s upper below) {ps : List (Proc Unit)} :
    childlessStep pid s.processes ≠ some ps := by
  intro hstep
  obtain ⟨parent, fds, next, hprocess, hreaped, -⟩ := childlessStep_eq_some hstep
  have htail : pid ∈ (upper ++ below).tail := by
    cases hlayers.actor hprocess with
    | alone hright hrole => exact (hright.not_wait hrole).elim
    | child _ _ _ _ _ hrole hright =>
        obtain ⟨last, hwaits, -⟩ := hright.wait
        exact nomatch hrole.symm.trans hwaits
    | parent => exact List.mem_cons_self
    | below hpid =>
        cases hlayers.upper with
        | alone | ended => exact hpid
        | forked => exact List.mem_cons_of_mem _ hpid
  obtain ⟨child, process, hchild, hlife, hparent⟩ := hlayers.nested.exists_child htail
  have hchildReaped := hreaped process (List.mem_of_getElem? hchild) hparent
  rw [hlife] at hchildReaped
  exact nomatch hchildReaped

/-- No process follows a null pointer. -/
theorem Layers.not_crash (hlayers : Layers s upper below) {ps : List (Proc Unit)} :
    crashStep pid s.processes ≠ some ps := by
  intro hstep
  obtain ⟨parent, fds, next, hprocess, -⟩ := crashStep_eq_some hstep
  cases hlayers.actor hprocess with
  | alone hright | child _ _ _ _ _ _ hright | parent hright | below _ hright =>
      exact hright.not_nullDereference

/-- The child of the youngest process becomes its command. -/
theorem Layers.found (hlayers : Layers s upper below) {ps : List (Proc Unit)}
    (hstep : execvpStep () pid s.processes = some ps) :
    Current s pid ∧
      Layers { s with processes := ps, started := s.started ++ [(s.work pid).number] } upper
        below := by
  obtain ⟨parent, fds, argv, next, hprocess, rfl⟩ := execvpStep_eq_some hstep
  cases hlayers.actor hprocess with
  | alone hright hrole =>
      obtain ⟨⟨last, hchild⟩, -⟩ := hright.execvp
      rcases hrole with ⟨hshell, -⟩ | hdone
      · exact nomatch hshell.symm.trans hchild
      · exact nomatch hdone.symm.trans hchild
  | parent hright hrole =>
      obtain ⟨⟨last, hchild⟩, -⟩ := hright.execvp
      exact nomatch hrole.symm.trans hchild
  | below _ hright hrole =>
      obtain ⟨⟨last, hchild⟩, -⟩ := hright.execvp
      exact nomatch hrole.symm.trans hchild
  | @child _ top _ _ _ _ _ hprocess' hright' hrole' hcurrent hwork =>
      have hne : pid ≠ top := by
        rintro rfl
        simpa using (List.nodup_append.mp hlayers.nested.nodup).1
      refine ⟨⟨by rw [hwork]; exact hcurrent.1, by rw [hwork]; exact hcurrent.2⟩,
        hlayers.nested.set hprocess rfl rfl rfl, ?_, ?_⟩
      · refine .forked ((List.getElem?_set_ne hne).trans hprocess') hright' hrole' ⟨?_, hcurrent.2⟩
          hwork (getElem?_set_of_some hprocess _) .command
        intro n hn
        rcases List.mem_append.mp hn with hn | hn
        · exact hcurrent.started_le n hn
        · rw [List.mem_singleton.mp hn, hwork]
      · refine hlayers.belowCongr fun other hnot _ => ⟨List.getElem?_set_ne ?_, rfl⟩
        rintro rfl
        exact hnot List.mem_cons_self

theorem exitStep_eq_some {ps ps' : List (Proc Unit)} (hstep : exitStep pid ps = some ps') :
    ∃ parent fds, ps[pid]? = some ⟨parent, fds, .running (.other ())⟩ ∧
      ps' = ps.set pid ⟨parent, fds, .exited⟩ := by
  unfold exitStep at hstep
  split at hstep
  · rename_i parent fds hprocess
    exact ⟨parent, fds, hprocess, (Option.some.inj hstep).symm⟩
  · exact nomatch hstep

theorem Layers.exit (hlayers : Layers s upper below) {ps : List (Proc Unit)}
    (hstep : exitStep pid s.processes = some ps) :
    Layers { s with processes := ps } upper below := by
  obtain ⟨parent, fds, hprocess, rfl⟩ := exitStep_eq_some hstep
  have hnested : Nested (s.processes.set pid ⟨parent, fds, .exited⟩) (upper ++ below) :=
    hlayers.nested.set hprocess rfl rfl rfl
  rcases List.mem_append.mp (hlayers.nested.mem hprocess rfl) with hupper | hbelow
  · refine ⟨hnested, ?_, ?_⟩
    · have hnodup := (List.nodup_append.mp hlayers.nested.nodup).1
      cases hlayers.upper with
      | alone hprocess' | ended hprocess' =>
          obtain rfl := List.mem_singleton.mp hupper
          cases hprocess'.symm.trans hprocess
      | @forked child top _ _ _ _ _ _ hprocess' hright hrole hcurrent hwork hchild hok =>
          have hne : child ≠ top := by
            rintro rfl
            simp at hnodup
          rcases List.mem_pair.mp hupper with rfl | rfl
          · cases hchild.symm.trans hprocess
            exact .forked ((List.getElem?_set_ne hne).trans hprocess') hright hrole
              ⟨hcurrent.1, hcurrent.2⟩ hwork (getElem?_set_of_some hprocess _) .exited
          · cases hprocess'.symm.trans hprocess
    · refine hlayers.belowCongr fun other hnot _ => ⟨List.getElem?_set_ne ?_, rfl⟩
      rintro rfl
      exact hnot hupper
  · obtain ⟨_, _, _, hprocess', -⟩ := hlayers.below pid hbelow
    cases hprocess'.symm.trans hprocess

/-- A process that reads the next line is the youngest one, with the standard input and output of
the shell. -/
theorem Layers.idle (hlayers : Layers s upper below) {parent : Option Nat} {fds : Fds}
    (hprocess : s.processes[pid]? = some (inShell parent fds (.pure ()))) :
    Base fds ∧ ∃ others, Nested s.processes (pid :: others)
      ∧ ∀ other ∈ others, WaitsLast s other := by
  cases hlayers.actor hprocess with
  | alone hright => exact ⟨hright.pure.base, below, hlayers.nested, hlayers.below⟩
  | @child _ top _ _ _ _ _ hprocess' hright' hrole' _ _ hrole hright =>
      refine ⟨hright.pure.base, top :: below, hlayers.nested, fun other hother => ?_⟩
      rcases List.mem_cons.mp hother with rfl | hother
      · rcases hright.pure.role with hshell | hdone | hlast
        · exact nomatch hrole.symm.trans hshell
        · exact nomatch hrole.symm.trans hdone
        · cases hrole.symm.trans hlast
          exact ⟨_, _, _, hprocess', hright', hrole'⟩
      · exact hlayers.below other hother
  | parent hright hrole | below _ hright hrole =>
      rcases hright.pure.role with hshell | hdone | hchild
      · exact nomatch hrole.symm.trans hshell
      · exact nomatch hrole.symm.trans hdone
      · exact nomatch hrole.symm.trans hchild

end Actors

/-! ### Runs -/

structure Inv (lines : List Line) (s : State) : Prop where
  layers : ∃ upper below, Layers s upper below
  recorded : Recorded lines s

section Runs

variable {contents : Text → List Line} {lines : List Line} {s s' : State} {pid : Nat}

theorem Recorded.begin (hrecorded : Recorded lines s) {line : Line} {rest : List Line}
    (hremaining : s.remaining = line :: rest) {fds : Fds} (hbase : Base fds)
    (parent : Option Nat) : Recorded lines (s.begin pid parent fds line rest) where
  lines := by
    rw [State.begin, List.map_append, List.append_assoc, ← hrecorded.lines, hremaining]
    rfl
  stdin entry hentry := by
    rcases List.mem_append.mp hentry with hentry | hentry
    · exact hrecorded.stdin entry hentry
    · rw [List.mem_singleton.mp hentry]
      exact hbase.stdin
  stdout entry hentry := by
    rcases List.mem_append.mp hentry with hentry | hentry
    · exact hrecorded.stdout entry hentry
    · rw [List.mem_singleton.mp hentry]
      exact hbase.stdout
  order := hrecorded.order
  started_lt n hn := by
    rw [State.begin, List.length_append]
    exact (hrecorded.started_lt n hn).trans (Nat.lt_succ_self _)

theorem Inv.main (hinv : Inv lines s) {choice : Option Line}
    (hproper : ∀ line ∈ s.remaining.head?, Proper line)
    (hstep : mainStep contents choice pid s = some s') : Inv lines s' := by
  obtain ⟨⟨upper, below, hlayers⟩, hrecorded⟩ := hinv
  unfold mainStep at hstep
  split at hstep
  · rename_i parent fds hprocess
    obtain ⟨hbase, others, hnested, hothers⟩ := hlayers.idle hprocess
    have hbelow {other : Nat} (hother : other ∈ others) : pid ≠ other :=
      fun heq => (List.nodup_cons.mp hnested.nodup).1 (heq ▸ hother)
    rw [hbase.stdin] at hstep
    cases hremaining : s.remaining with
    | nil =>
        simp only [State.getline, hremaining, List.head?_nil] at hstep
        cases hstep
        refine ⟨⟨[pid], others, hnested.set hprocess rfl rfl rfl, ?_, fun other hother => ?_⟩, ?_⟩
        · exact .ended (getElem?_set_of_some hprocess _) rfl
        · exact (hothers other hother).congr (List.getElem?_set_ne (hbelow hother)) rfl
        · refine ⟨?_, hrecorded.stdin, hrecorded.stdout, hrecorded.order, hrecorded.started_lt⟩
          rw [← hrecorded.lines, hremaining]
          rfl
    | cons line rest =>
        obtain ⟨hpositive, hleading⟩ := hproper line (hremaining ▸ rfl)
        simp only [State.getline, hremaining, List.head?_cons, List.tail_cons] at hstep
        rw [if_pos hpositive] at hstep
        cases hstep
        have hwork : (s.begin pid parent fds line rest).work pid =
            ⟨s.log.length, (tokenizerInit line).tokens⟩ := Function.update_self ..
        refine ⟨⟨[pid], others, hnested.set hprocess rfl rfl rfl, ?_, fun other hother => ?_⟩,
          hrecorded.begin hremaining hbase parent⟩
        · refine .alone (g := ⟨fds, .shell⟩) (getElem?_set_of_some hprocess _) ?_
            (.inl ⟨rfl, fun n hn => ?_, ?_⟩)
          · rw [hwork]
            exact exec_ensures _ hleading hbase
          · rw [hwork]
            exact (hrecorded.started_lt n hn).le
          · rw [hwork, State.begin, List.length_append]
            exact Nat.lt_succ_self _
        · refine (hothers other hother).congr (List.getElem?_set_ne (hbelow hother)) ?_
          exact Function.update_of_ne (hbelow hother).symm _ _
  · exact nomatch hstep

/-- The part of the state that only `main` and the start of a command change. -/
theorem Recorded.congr (hrecorded : Recorded lines s) (ps : List (Proc Unit)) (work : Nat → Work)
    (pipes : Nat) :
    Recorded lines { s with processes := ps, work := work, pipes := pipes } :=
  ⟨hrecorded.lines, hrecorded.stdin, hrecorded.stdout, hrecorded.order, hrecorded.started_lt⟩

theorem Inv.perform {label : Nat × Action} (hinv : Inv lines s) (hharmless : Harmless label s)
    (hstep : Session.perform contents label s = some s') : Inv lines s' := by
  obtain ⟨pid, action⟩ := label
  obtain ⟨upper, below, hlayers⟩ := hinv.layers
  cases action with
  | main choice => exact hinv.main hharmless hstep
  | call ok =>
      obtain ⟨ps, hps, rfl⟩ := Option.map_eq_some_iff.mp hstep
      obtain ⟨parent, fds, c, next, result, hprocess, hresult, rfl⟩ := callStep_eq_some hps
      refine ⟨⟨upper, below, hlayers.goOn hprocess ?_ s.pipes⟩, hinv.recorded.congr _ _ _⟩
      rintro g rfl hright
      refine hright.call (fun hok hopens => hharmless hok ?_) hresult
      rw [State.opens, hprocess]
      rcases hopens with ⟨name, rfl⟩ | ⟨name, rfl⟩ <;> rfl
  | pipe =>
      obtain ⟨ps, hps, rfl⟩ := Option.map_eq_some_iff.mp hstep
      obtain ⟨parent, fds, next, hprocess, rfl⟩ := pipeStep_eq_some hps
      refine ⟨⟨upper, below, hlayers.goOn hprocess ?_ (s.pipes + 1)⟩, hinv.recorded.congr _ _ _⟩
      rintro g rfl hright
      exact hright.pipe s.pipes
  | fork =>
      obtain ⟨ps, hps, rfl⟩ := Option.map_eq_some_iff.mp hstep
      obtain ⟨upper', hlayers'⟩ := hlayers.fork hps
      exact ⟨⟨upper', below, hlayers'⟩, hinv.recorded.congr _ _ _⟩
  | wait child =>
      obtain ⟨ps, hps, rfl⟩ := Option.map_eq_some_iff.mp hstep
      exact ⟨hlayers.wait hps, hinv.recorded.congr _ _ _⟩
  | childless =>
      obtain ⟨ps, hps, rfl⟩ := Option.map_eq_some_iff.mp hstep
      exact absurd hps hlayers.not_childless
  | found =>
      obtain ⟨ps, hps, rfl⟩ := Option.map_eq_some_iff.mp hstep
      obtain ⟨hcurrent, hlayers'⟩ := hlayers.found hps
      have hrecorded := hinv.recorded
      refine ⟨⟨upper, below, hlayers'⟩, hrecorded.lines, hrecorded.stdin, hrecorded.stdout, ?_, ?_⟩
      · refine List.pairwise_append.mpr ⟨hrecorded.order, List.pairwise_singleton _ _, ?_⟩
        intro n hn m hm
        rw [List.mem_singleton.mp hm]
        exact hcurrent.started_le n hn
      · intro n hn
        rcases List.mem_append.mp hn with hn | hn
        · exact hrecorded.started_lt n hn
        · rw [List.mem_singleton.mp hn]
          exact hcurrent.number_lt
  | notFound =>
      obtain ⟨ps, hps, rfl⟩ := Option.map_eq_some_iff.mp hstep
      obtain ⟨parent, fds, argv, next, hprocess, rfl⟩ := notFoundStep_eq_some hps
      refine ⟨⟨upper, below, hlayers.goOn hprocess ?_ s.pipes⟩, hinv.recorded.congr _ _ _⟩
      rintro g rfl hright
      exact hright.execvp.2 hharmless
  | crash =>
      obtain ⟨ps, hps, rfl⟩ := Option.map_eq_some_iff.mp hstep
      exact absurd hps hlayers.not_crash
  | exit =>
      obtain ⟨ps, hps, rfl⟩ := Option.map_eq_some_iff.mp hstep
      exact ⟨⟨upper, below, hlayers.exit hps⟩, hinv.recorded.congr _ _ _⟩

theorem Inv.isolated (hinv : Inv lines s) : Isolated lines s := by
  obtain ⟨⟨upper, below, hlayers⟩, hrecorded⟩ := hinv
  refine ⟨hrecorded.lines, hrecorded.stdin, hrecorded.stdout, hrecorded.order, ?_⟩
  intro pid fds hexited
  rcases hlayers.exited hexited with ⟨_, -, hparent⟩ | ⟨-, hremaining⟩
  · exact nomatch hparent
  · exact hremaining

theorem inv_start {fds : Fds} (hbase : Base fds) : Inv lines (start lines fds) where
  layers := ⟨[0], [], .single rfl rfl,
    .alone (g := ⟨fds, .done⟩) rfl ⟨hbase, .inr (.inl rfl)⟩ (.inr rfl),
    fun _ hother => absurd hother List.not_mem_nil⟩
  recorded := ⟨rfl, nofun, nofun, .nil, nofun⟩

end Runs

end Acos.Shell.Pipe.Session
