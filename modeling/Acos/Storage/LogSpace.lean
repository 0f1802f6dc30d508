import Acos.Storage.LogReserve

/-!
# The room in the log, and who waits for it

The log does not overflow, provided that it is long enough for the header as well, and who waits for
room gets it.
-/

namespace Acos.Storage

open Transition Interleaving

/-! ### The log does not overflow -/

/-- `log_write` finds room for as many blocks as there can be. -/
structure Layout.Roomy (l : Layout) : Prop where
  budget : l.budget < MAXOPBLOCKS
  size : l.peak + 1 < l.size

theorem Admitted.not_panicked {P : Type} [Fintype P] [DecidableEq P] {l : Layout} {s s' : State P}
    {label : Label P} (hroomy : l.Roomy) (h : Admitted l s) (hpanicked : s.panicked = false)
    (hmove : Move l label s s') : s'.panicked = false := by
  cases hmove with
  | crash => rfl
  | booted | recover | sleeps | begins | checks | records | endsLast | ends | commits | committed
  | bread | evict => exact hpanicked
  | overflows hup hp hbudget htoo =>
      obtain ⟨hbelow, hsize⟩ := hroomy
      obtain ⟨-, hpos, -⟩ := h.ordered.busy (congrArg Pc.isActive hp)
      have hclaimed := h.claimed hbelow.le hpos.ne'
      simp only [State.claimed, Layout.peak, LOGSIZE, MAXOPBLOCKS] at hclaimed hsize htoo hbelow
      omega
  | disturbs _ hp hcommitting => exact absurd hcommitting (h.ordered.not_committing hp)

section Overflow

/-- The blocks behind the log. -/
def Layout.behind (l : Layout) (i : Nat) : Word := l.start + .ofNat 32 (l.size + i)

/-- `log_write` finds room when the log has `k` blocks. -/
def Layout.Room (l : Layout) (k : Nat) : Prop := k < LOGSIZE ∧ k + 1 < l.size

instance (l : Layout) (k : Nat) : Decidable (l.Room k) := inferInstanceAs (Decidable (_ ∧ _))

variable {l : Layout}

theorem Layout.offset_inj {i j : Nat} (hi : i < 2 ^ 32) (hj : j < 2 ^ 32)
    (heq : l.start + BitVec.ofNat 32 i = l.start + BitVec.ofNat 32 j) : i = j := by
  have hval := congrArg BitVec.toNat ((BitVec.add_right_inj l.start).mp heq)
  rwa [BitVec.toNat_ofNat, BitVec.toNat_ofNat, Nat.mod_eq_of_lt hi, Nat.mod_eq_of_lt hj] at hval

theorem Layout.Fits.spare (hfits : l.Fits) : l.size + LOGSIZE ≤ 2 ^ 32 :=
  (Nat.add_le_add_right hfits.2.le _).trans (by decide)

theorem Layout.home_behind (hspare : l.size + LOGSIZE ≤ 2 ^ 32) {i : Nat} (hi : i < LOGSIZE) :
    l.Home (l.behind i) := by
  intro j hj heq
  have hsame := Layout.offset_inj (by omega) (by omega) heq
  omega

theorem Layout.behind_notMem (hspare : l.size + LOGSIZE ≤ 2 ^ 32) {k : Nat} (hk : k < LOGSIZE) :
    l.behind k ∉ (List.range k).map l.behind := by
  intro hmem
  obtain ⟨i, hi, heq⟩ := List.mem_map.mp hmem
  rw [List.mem_range] at hi
  have hsame := Layout.offset_inj (by omega) (by omega) heq
  omega

theorem length_insert_le (b : Word) (blocks : List Word) :
    (blocks.insert b).length ≤ blocks.length + 1 := by
  by_cases hb : b ∈ blocks
  · rw [List.insert_of_mem hb]
    exact Nat.le_succ _
  · rw [List.insert_of_not_mem hb, List.length_cons]

variable {P : Type} {s : State P}

/-- The log has `k` blocks, and no commit is under way. -/
structure Filled (l : Layout) (k : Nat) (s : State P) : Prop where
  up : s.Up
  committing : s.committing = false
  lh : s.store.lh = (List.range k).map l.behind

theorem Filled.length_lh {k : Nat} (h : Filled l k s) : s.store.lh.length = k := by
  rw [h.lh, List.length_map, List.length_range]

/-- One process is in an operation and has recorded nothing, the other one is outside. -/
structure Alone (l : Layout) (p q : P) (k : Nat) (s : State P) : Prop extends Filled l k s where
  outstanding : s.outstanding = 1
  proc : s.proc p = .active []
  other : s.proc q = .idle

/-- Both processes are in operations, and have recorded so many blocks. -/
structure Both (l : Layout) (p q : P) (k n j : Nat) (s : State P) : Prop extends Filled l k s where
  outstanding : s.outstanding = 2
  proc : ∃ blocks, s.proc p = .active blocks ∧ blocks.length ≤ n ∧ (0 < n → blocks ≠ [])
  other : ∃ blocks, s.proc q = .active blocks ∧ blocks.length ≤ j

variable [DecidableEq P] {p q : P}

theorem perform_logWrite {blocks : List Word} {b : Word} (hup : s.Up)
    (hp : s.proc p = .active blocks) (hbudget : (blocks.insert b).length ≤ l.budget)
    (hhome : l.Home b) (data : Block) :
    perform l (.logWrite p b data) s = some (logWrite l p blocks b data s) := by
  unfold perform
  rw [hup.1, hup.2]
  dsimp only
  rw [hp]
  exact if_pos ⟨hbudget, hhome⟩

theorem perform_record {blocks : List Word} {b : Word} {data : Block} (hup : s.Up)
    (hp : s.proc p = .writing blocks b data) :
    perform l (.record p) s = some
      { s.setProc p (.active (blocks.insert b)) with store := record s.store b data } := by
  unfold perform
  rw [hup.1, hup.2]
  dsimp only
  rw [hp]

theorem perform_beginOp (hup : s.Up) (hp : s.proc p = .idle ∨ s.proc p = .woken) :
    perform l (.beginOp p) s = some (beginOp p s) := by
  unfold perform
  rw [hup.1, hup.2]
  dsimp only
  rcases hp with hp | hp <;> rw [hp]

theorem perform_endOp {blocks : List Word} (hup : s.Up) (hp : s.proc p = .active blocks) :
    perform l (.endOp p) s = some (endOp p s) := by
  unfold perform
  rw [hup.1, hup.2]
  dsimp only
  rw [hp]

theorem perform_committed (hup : s.Up) (hp : s.proc p = .commit .finish) :
    perform l (.commit p) s = some (endCommit p s) := by
  unfold perform
  rw [hup.1, hup.2]
  dsimp only
  rw [hp]

theorem perform_commit {task next : Task} {store : Store} (hup : s.Up)
    (hp : s.proc p = .commit task) (hstep : task.step l s.store = some (store, next)) :
    perform l (.commit p) s = some { s.setProc p (.commit next) with store := store } := by
  unfold perform
  rw [hup.1, hup.2]
  dsimp only
  rw [hp]
  cases task with
  | finish => cases hstep
  | writeLog | writeHead | readHead | install | eraseHead => simp only [hstep, Option.map_some]

/-- There is room for another operation as long as the log has at most `MAXOPBLOCKS` blocks. -/
theorem Filled.begins {k : Nat} (h : Filled l k s) (hreach : Reachable (logSystem l) s)
    (hout : s.outstanding ≤ 1) (hk : k ≤ MAXOPBLOCKS) (hp : s.proc p = .idle) :
    ∃ s', Reachable (logSystem l) s' ∧ Filled l k s' ∧ s'.outstanding = s.outstanding + 1 ∧
      s'.proc = Function.update s.proc p (.active []) := by
  have hroom : ¬s.Full := by
    rintro (hcommitting | hfull)
    · rw [h.committing] at hcommitting
      cases hcommitting
    · rw [h.length_lh] at hfull
      simp only [LOGSIZE, MAXOPBLOCKS] at hfull hk
      omega
  have hperform := perform_beginOp (l := l) h.up (.inl hp)
  rw [beginOp, if_neg hroom] at hperform
  exact ⟨_, .step _ hreach hperform, ⟨h.up, h.committing, h.lh⟩, rfl, rfl⟩

/-- An operation records a block that is not yet in the log. -/
theorem Filled.records (hspare : l.size + LOGSIZE ≤ 2 ^ 32) {k : Nat} (h : Filled l k s)
    (hreach : Reachable (logSystem l) s) (hroom : l.Room k) (hout : 0 < s.outstanding)
    {blocks : List Word} (hp : s.proc p = .active blocks) (hbudget : blocks.length < l.budget) :
    ∃ s', Reachable (logSystem l) s' ∧ Filled l (k + 1) s' ∧ s'.outstanding = s.outstanding ∧
      s'.proc = Function.update s.proc p (.active (blocks.insert (l.behind k))) := by
  have hperform := perform_logWrite h.up hp ((length_insert_le _ blocks).trans hbudget)
    (Layout.home_behind hspare hroom.1) (fun _ => 0)
  have hfits : ¬(LOGSIZE ≤ s.store.lh.length ∨ l.size ≤ s.store.lh.length + 1 ∨
      s.outstanding < 1) := by
    rw [h.length_lh]
    have hlog := hroom.1
    have hsize := hroom.2
    omega
  rw [logWrite, if_neg hfits] at hperform
  have hrecord := perform_record (l := l) (s := s.setProc p (.writing blocks (l.behind k) fun _ => 0))
    h.up (s.setProc_self p _)
  refine ⟨_, .step _ (.step _ hreach hperform) hrecord, ⟨h.up, h.committing, ?_⟩, rfl,
    Function.update_idem ..⟩
  change (record s.store _ _).lh = _
  rw [record, h.lh]
  dsimp only
  rw [if_neg (Layout.behind_notMem hspare hroom.1), List.range_succ, List.map_append,
    List.map_singleton]

/-- Another block makes the kernel panic if there is no room for it. -/
theorem Filled.panics {k : Nat} (h : Filled l k s) (hreach : Reachable (logSystem l) s)
    (hroom : ¬l.Room k) {blocks : List Word} {b : Word} (hp : s.proc p = .active blocks)
    (hbudget : (blocks.insert b).length ≤ l.budget) (hhome : l.Home b) :
    ∃ s' : State P, Reachable (logSystem l) s' ∧ s'.panicked = true := by
  have hperform := perform_logWrite h.up hp hbudget hhome (fun _ => 0)
  have htoo : LOGSIZE ≤ s.store.lh.length ∨ l.size ≤ s.store.lh.length + 1 ∨
      s.outstanding < 1 := by
    rw [h.length_lh]
    unfold Layout.Room at hroom
    omega
  rw [logWrite, if_pos htoo] at hperform
  exact ⟨_, .step _ hreach hperform, rfl⟩

/-- The second process records one block in an operation of its own. -/
theorem Alone.succ (hspare : l.size + LOGSIZE ≤ 2 ^ 32) (hpq : p ≠ q) (hbudget : 0 < l.budget)
    {k : Nat} (hk : k < MAXOPBLOCKS) (hroom : l.Room k) (h : Alone l p q k s)
    (hreach : Reachable (logSystem l) s) :
    ∃ s', Reachable (logSystem l) s' ∧ Alone l p q (k + 1) s' := by
  obtain ⟨s₁, hreach₁, h₁, hout₁, hproc₁⟩ :=
    h.toFilled.begins hreach h.outstanding.le hk.le h.other
  rw [h.outstanding] at hout₁
  have hq₁ : s₁.proc q = .active [] := by rw [hproc₁, Function.update_self]
  obtain ⟨s₂, hreach₂, h₂, hout₂, hproc₂⟩ :=
    h₁.records hspare hreach₁ hroom (by omega) hq₁ hbudget
  rw [hout₁] at hout₂
  have hperform := perform_endOp (l := l) (p := q) h₂.up (by rw [hproc₂, Function.update_self])
  rw [endOp, if_neg (by simp [h₂.committing]), if_neg (by simp [hout₂])] at hperform
  refine ⟨_, .step _ hreach₂ hperform, ⟨h₂.up, h₂.committing, h₂.lh⟩, ?_, ?_, ?_⟩
  · change s₂.outstanding - 1 = 1
    rw [hout₂]
  · change (Function.update s₂.proc q .idle p).wake = .active []
    rw [Function.update_of_ne hpq, hproc₂, Function.update_of_ne hpq, hproc₁,
      Function.update_of_ne hpq, h.proc]
    rfl
  · change (Function.update s₂.proc q .idle q).wake = .idle
    rw [Function.update_self]
    rfl

theorem Alone.both (hpq : p ≠ q) (h : Alone l p q MAXOPBLOCKS s)
    (hreach : Reachable (logSystem l) s) :
    ∃ s', Reachable (logSystem l) s' ∧ Both l p q MAXOPBLOCKS 0 0 s' := by
  obtain ⟨s', hreach', h', hout, hproc⟩ :=
    h.toFilled.begins hreach h.outstanding.le le_rfl h.other
  rw [h.outstanding] at hout
  refine ⟨s', hreach', h', hout, ⟨[], ?_, le_rfl, nofun⟩, [], ?_, le_rfl⟩
  · rw [hproc, Function.update_of_ne hpq, h.proc]
  · rw [hproc, Function.update_self]

theorem Both.second (hspare : l.size + LOGSIZE ≤ 2 ^ 32) (hpq : p ≠ q) {k n j : Nat}
    (hroom : l.Room k) (hj : j < l.budget) (h : Both l p q k n j s)
    (hreach : Reachable (logSystem l) s) :
    ∃ s', Reachable (logSystem l) s' ∧ Both l p q (k + 1) n (j + 1) s' := by
  obtain ⟨blocks, hq, hlength⟩ := h.other
  obtain ⟨s', hreach', h', hout, hproc⟩ := h.toFilled.records hspare hreach hroom
    (by rw [h.outstanding]; exact Nat.two_pos) hq (hlength.trans_lt hj)
  obtain ⟨blocks', hp, hrest⟩ := h.proc
  refine ⟨s', hreach', h', hout.trans h.outstanding, ⟨blocks', ?_, hrest⟩, _,
    by rw [hproc, Function.update_self], ?_⟩
  · rw [hproc, Function.update_of_ne hpq, hp]
  · exact (length_insert_le _ blocks).trans (Nat.succ_le_succ hlength)

theorem Both.first (hspare : l.size + LOGSIZE ≤ 2 ^ 32) (hpq : p ≠ q) {k n j : Nat}
    (hroom : l.Room k) (hn : n < l.budget) (h : Both l p q k n j s)
    (hreach : Reachable (logSystem l) s) :
    ∃ s', Reachable (logSystem l) s' ∧ Both l p q (k + 1) (n + 1) j s' := by
  obtain ⟨blocks, hp, hlength, -⟩ := h.proc
  obtain ⟨s', hreach', h', hout, hproc⟩ := h.toFilled.records hspare hreach hroom
    (by rw [h.outstanding]; exact Nat.two_pos) hp (hlength.trans_lt hn)
  obtain ⟨blocks', hq, hrest⟩ := h.other
  refine ⟨s', hreach', h', hout.trans h.outstanding,
    ⟨_, by rw [hproc, Function.update_self], ?_, fun _ => ?_⟩, blocks', ?_, hrest⟩
  · exact (length_insert_le _ blocks).trans (Nat.succ_le_succ hlength)
  · exact List.ne_nil_of_mem List.mem_insert_self
  · rw [hproc, Function.update_of_ne hpq.symm, hq]

/-- A machine is switched on, and nothing has to be recovered. -/
theorem exists_filled : ∃ s : State P, Reachable (logSystem l) s ∧ Filled l 0 s ∧
    s.outstanding = 0 ∧ ∀ p, s.proc p = .idle := by
  have hstart : Reachable (logSystem l) (restart (P := P) fun _ _ => 0) := .init ⟨_, rfl, rfl⟩
  have hexecute : ∃ last, execute (perform l) (List.replicate 4 .recover)
      (restart (P := P) fun _ _ => 0) = some last ∧ Filled l 0 last ∧ last.outstanding = 0 ∧
        ∀ p, last.proc p = .idle :=
    ⟨_, rfl, ⟨⟨rfl, rfl⟩, rfl, rfl⟩, rfl, fun _ => rfl⟩
  obtain ⟨last, hexecute, hlast⟩ := hexecute
  exact ⟨last, hstart.execute hexecute, hlast⟩

/-- While the first process is in its operation, the second one goes through operations of one
block. -/
theorem exists_alone (hspare : l.size + LOGSIZE ≤ 2 ^ 32) (hpq : p ≠ q) (hbudget : 0 < l.budget)
    {k : Nat} (hbefore : ∀ i < k, l.Room i) (hk : k ≤ MAXOPBLOCKS) :
    ∃ s : State P, Reachable (logSystem l) s ∧ Alone l p q k s := by
  induction k with
  | zero =>
      obtain ⟨s, hreach, h, hzero, hidle⟩ := exists_filled (P := P) (l := l)
      obtain ⟨s', hreach', h', hout, hproc⟩ :=
        h.begins hreach (by omega) (Nat.zero_le _) (hidle p)
      rw [hzero] at hout
      refine ⟨s', hreach', h', hout, by rw [hproc, Function.update_self], ?_⟩
      rw [hproc, Function.update_of_ne hpq.symm, hidle]
  | succ k ih =>
      obtain ⟨s, hreach, h⟩ := ih (fun i hi => hbefore i (hi.trans k.lt_succ_self)) (by omega)
      exact h.succ hspare hpq hbudget hk (hbefore k k.lt_succ_self) hreach

/-- Then the second process records blocks. -/
theorem exists_second (hspare : l.size + LOGSIZE ≤ 2 ^ 32) (hpq : p ≠ q) {j : Nat}
    (hbefore : ∀ i < MAXOPBLOCKS + j, l.Room i) (hj : j ≤ l.budget) (hbudget : 0 < l.budget) :
    ∃ s : State P, Reachable (logSystem l) s ∧ Both l p q (MAXOPBLOCKS + j) 0 j s := by
  induction j with
  | zero =>
      obtain ⟨s, hreach, h⟩ := exists_alone hspare hpq hbudget hbefore le_rfl
      exact h.both hpq hreach
  | succ j ih =>
      obtain ⟨s, hreach, h⟩ := ih (fun i hi => hbefore i (hi.trans (Nat.lt_succ_self _))) (by omega)
      exact h.second hspare hpq (hbefore _ (Nat.lt_succ_self _)) hj hreach

/-- Then the first process records blocks, too. -/
theorem exists_first (hspare : l.size + LOGSIZE ≤ 2 ^ 32) (hpq : p ≠ q) {n : Nat}
    (hbefore : ∀ i < MAXOPBLOCKS + l.budget + n, l.Room i) (hn : n ≤ l.budget)
    (hbudget : 0 < l.budget) :
    ∃ s : State P, Reachable (logSystem l) s ∧
      Both l p q (MAXOPBLOCKS + l.budget + n) n l.budget s := by
  induction n with
  | zero => exact exists_second hspare hpq hbefore le_rfl hbudget
  | succ n ih =>
      obtain ⟨s, hreach, h⟩ := ih (fun i hi => hbefore i (hi.trans (Nat.lt_succ_self _))) (by omega)
      exact h.first hspare hpq (hbefore _ (Nat.lt_succ_self _)) hn hreach

variable [Fintype P]

/-- Two processes are enough to fill the log as far as `begin_op` lets them. -/
theorem exists_panicked (hspare : l.size + LOGSIZE ≤ 2 ^ 32) (hpq : p ≠ q)
    (hbudget : 0 < l.budget) {k : Nat} (hk : k ≤ l.peak) (hroom : ¬l.Room k)
    (hbefore : ∀ i < k, l.Room i) :
    ∃ s : State P, Reachable (logSystem l) s ∧ s.panicked = true := by
  have hhome : l.Home (l.behind 0) := Layout.home_behind hspare (by decide)
  -- there is no room any more in the course of one of the three
  rcases Nat.le_total k MAXOPBLOCKS with hsmall | hlarge
  · obtain ⟨s, hreach, h⟩ := exists_alone (P := P) hspare hpq hbudget hbefore hsmall
    exact h.toFilled.panics hreach hroom h.proc hbudget hhome
  rcases Nat.lt_or_ge (MAXOPBLOCKS + l.budget) k with hlarge' | hsmall
  · obtain ⟨n, rfl⟩ := Nat.exists_eq_add_of_lt hlarge'
    obtain ⟨s, hreach, h⟩ := exists_first (P := P) (n := n + 1) hspare hpq hbefore
      (by unfold Layout.peak at hk; omega) hbudget
    obtain ⟨blocks, hp, hlength, hne⟩ := h.proc
    obtain ⟨b, hb⟩ := List.exists_mem_of_ne_nil blocks (hne n.succ_pos)
    have hlh := (Admitted.reachable hreach).kept p b (by rwa [hp])
    rw [h.lh] at hlh
    obtain ⟨i, hi, rfl⟩ := List.mem_map.mp hlh
    refine h.toFilled.panics hreach hroom hp ?_
      (Layout.home_behind hspare (hbefore i (List.mem_range.mp hi)).1)
    rw [List.insert_of_mem hb]
    unfold Layout.peak at hk
    omega
  · obtain ⟨j, rfl⟩ := Nat.exists_eq_add_of_le hlarge
    obtain ⟨s, hreach, h⟩ := exists_second (P := P) hspare hpq hbefore (by omega) hbudget
    obtain ⟨blocks, hp, hlength, -⟩ := h.proc
    cases List.length_eq_zero_iff.mp (Nat.le_zero.mp hlength)
    exact h.toFilled.panics hreach hroom hp hbudget hhome

end Overflow

/-- **Room.** Operations that record at most so many blocks each never make the kernel panic if and
only if they stay below `MAXOPBLOCKS` and the log is long enough for its header, for `MAXOPBLOCKS`
blocks and for two operations. -/
theorem log_never_panics_iff {P : Type} [Fintype P] [DecidableEq P] (htwo : 2 ≤ Fintype.card P)
    (l : Layout) (hfits : l.Fits) (hbudget : 0 < l.budget) :
    (∀ s : State P, Reachable (logSystem l) s → s.panicked = false) ↔
      l.budget < MAXOPBLOCKS ∧ MAXOPBLOCKS + 2 * l.budget + 1 < l.size := by
  constructor
  · intro hnever
    by_contra hnot
    obtain ⟨p, q, hpq⟩ := Fintype.exists_pair_of_one_lt_card htwo
    have hfull : ∃ k, ¬l.Room k := ⟨LOGSIZE, fun h => absurd h.1 (lt_irrefl _)⟩
    have hpeak : ¬l.Room l.peak := by
      intro hroom
      refine hnot ⟨?_, hroom.2⟩
      have hlog := hroom.1
      simp only [Layout.peak, LOGSIZE, MAXOPBLOCKS] at hlog ⊢
      omega
    obtain ⟨s, hreach, hpanicked⟩ := exists_panicked hfits.spare hpq hbudget
      (Nat.find_min' hfull hpeak) (Nat.find_spec hfull)
      fun i hi => not_not.mp (Nat.find_min hfull hi)
    exact absurd ((hnever s hreach).symm.trans hpanicked) Bool.false_ne_true
  · rintro ⟨hbelow, hsize⟩ s hreach
    induction hreach with
    | init hinit =>
        obtain ⟨disk, -, rfl⟩ := hinit
        rfl
    | step label hreach hstep ih =>
        exact (Admitted.reachable hreach).not_panicked ⟨hbelow, hsize⟩ ih (perform_move hstep)

theorem log_never_panics_iff_mkfs :
    (¬∀ s : State Bool, Reachable (logSystem (mkfsLog MAXOPBLOCKS)) s → s.panicked = false) ∧
      ∀ s : State Bool, Reachable (logSystem (mkfsLog (MAXOPBLOCKS - 1))) s → s.panicked = false := by
  have htwo : 2 ≤ Fintype.card Bool := by decide
  constructor
  · rw [log_never_panics_iff htwo (mkfsLog MAXOPBLOCKS) ⟨by decide, by decide⟩ (by decide)]
    decide
  · rw [log_never_panics_iff htwo (mkfsLog (MAXOPBLOCKS - 1)) ⟨by decide, by decide⟩
      (by decide)]
    decide

/-! ### Who waits gets in -/

section Waiting

variable {P : Type} {l : Layout} {s s' : State P} {p : P}

/-- The operations in progress go on, and nobody else begins one. -/
def Label.MakesWay (p : P) : Label P → Prop
  | .beginOp q => q = p
  | .logWrite q _ _ | .record q | .endOp q => q ≠ p
  | .commit _ => True
  | .bread _ | .evict _ | .recover | .crash => False

/-- The calls of `log_write` do not count, since an operation may record a block many times. -/
def Label.counts : Label P → Bool
  | .logWrite _ _ _ | .record _ => false
  | _ => true

/-- The process is in the loop of `begin_op`, or just behind it. -/
def Pc.Waits (pc : Pc) : Prop := pc = .asleep ∨ pc = .woken ∨ pc = .active []

theorem Pc.Waits.wake {pc : Pc} (h : pc.Waits) : pc.wake.Waits := by
  rcases h with rfl | rfl | rfl
  · exact .inr (.inl rfl)
  · exact .inr (.inl rfl)
  · exact .inr (.inr rfl)

def Pc.wait : Pc → Nat
  | .asleep => 91
  | .woken => 92
  | _ => 0

def Pc.left (s : Store) : Pc → Nat
  | .commit task => task.left s
  | _ => 0

theorem Pc.wait_wake_le (pc : Pc) : pc.wake.wait ≤ pc.wait + 1 := by
  cases pc <;> simp [Pc.wake, Pc.wait]

theorem Pc.left_eq_zero {pc : Pc} (hpc : ∀ task, pc ≠ .commit task) (store : Store) :
    pc.left store = 0 := by
  cases pc with
  | commit task => exact absurd rfl (hpc task)
  | idle | asleep | woken | active | writing => rfl

theorem Pc.wake_left (store : Store) (pc : Pc) : pc.wake.left store = pc.left store := by
  cases pc <;> rfl

theorem Task.left_le {store : Store} (hshort : store.lh.length ≤ LOGSIZE) (task : Task) :
    task.left store ≤ 67 := by
  simp only [LOGSIZE, MAXOPBLOCKS] at hshort
  cases task <;> simp only [Task.left, LOGSIZE, MAXOPBLOCKS] <;> omega

variable [Fintype P]

theorem total_left_eq {proc : P → Pc} {task : Task} (hp : proc p = .commit task)
    (hothers : ∀ q, q ≠ p → ∀ task, proc q ≠ .commit task) (store : Store) :
    total (Pc.left store) proc = task.left store := by
  rw [total_eq_single p fun q hq => Pc.left_eq_zero (hothers q hq) store, hp]
  rfl

/-- One process moves while no other one commits. -/
theorem total_left_setProc [DecidableEq P] {q : P}
    (hothers : ∀ r, r ≠ q → ∀ task, s.proc r ≠ .commit task) (pc : Pc) (store : Store) :
    total (Pc.left store) (s.setProc q pc).proc = pc.left store := by
  rw [total_eq_single q fun r hr => ?_, s.setProc_self]
  rw [s.setProc_of_ne hr]
  exact Pc.left_eq_zero (hothers r hr) store

theorem total_left_wake (proc : P → Pc) (store : Store) :
    total (Pc.left store) (fun q => (proc q).wake) = total (Pc.left store) proc :=
  Finset.sum_congr rfl fun q _ => (proc q).wake_left store

/-- What the other processes still have to do. -/
def State.chores (s : State P) : Nat := 80 * s.outstanding + total (Pc.left s.store) s.proc

/-- A bound for what can happen before `p` is in. -/
def State.work (p : P) (s : State P) : Nat := s.chores + (s.proc p).wait

structure Waiting (l : Layout) (p : P) (s : State P) : Prop where
  up : s.Up
  admitted : Admitted l s
  proc : (s.proc p).Waits

/-- Others move, and perhaps wake `p` up. -/
theorem Waiting.others {n : Nat} (h : Waiting l p s) (hup : s'.Up) (hadmitted : Admitted l s')
    (hmoves : s'.proc p = s.proc p ∧ s'.chores + n ≤ s.chores ∨
      s'.proc p = (s.proc p).wake ∧ s'.chores + 1 + n ≤ s.chores) :
    (s'.panicked = true ∨ Waiting l p s') ∧ s'.work p + n ≤ s.work p := by
  rcases hmoves with ⟨hproc, hless⟩ | ⟨hproc, hless⟩
  · refine ⟨.inr ⟨hup, hadmitted, hproc ▸ h.proc⟩, ?_⟩
    rw [State.work, State.work, hproc]
    omega
  · have hwait := (s.proc p).wait_wake_le
    refine ⟨.inr ⟨hup, hadmitted, hproc ▸ h.proc.wake⟩, ?_⟩
    rw [State.work, State.work, hproc]
    omega

variable [DecidableEq P]

omit [Fintype P] in
/-- An operation in progress can end, if need be after the call of `log_write` that it is in. -/
theorem exists_endOp {q : P} (hup : s.Up) (hq : (s.proc q).isActive = true) :
    ∃ mid, (mid = s ∨ perform l (.record q) s = some mid) ∧
      ∃ s', perform l (.endOp q) mid = some s' := by
  cases hpc : s.proc q with
  | active blocks => exact ⟨s, .inl rfl, _, perform_endOp hup hpc⟩
  | writing blocks b data =>
      exact ⟨_, .inr (perform_record hup hpc), _, perform_endOp hup (s.setProc_self q _)⟩
  | idle | asleep | woken | commit => simp [hpc, Pc.isActive] at hq

/-- As long as `p` waits, something can go on. -/
theorem Waiting.exists_step (h : Waiting l p s) (hp : s.proc p ≠ .active []) :
    ∃ mid, (mid = s ∨ ∃ q, q ≠ p ∧ perform l (.record q) s = some mid) ∧
      ∃ label s', label.MakesWay p ∧ label.counts = true ∧ perform l label mid = some s' := by
  rcases h.proc with hasleep | hwoken | hactive
  · obtain ⟨_, hat⟩ := h.admitted.ordered.task
    cases hat with
    | boot hboot => exact absurd (h.up.2.symm.trans hboot) nofun
    | @commit q task _ hq htask =>
        by_cases hfinish : task = .finish
        · subst hfinish
          exact ⟨s, .inl rfl, .commit q, _, trivial, rfl, perform_committed h.up hq⟩
        · obtain ⟨store, next, hstep⟩ := Task.exists_step (l := l) (s := s.store) hfinish
            fun heq => absurd heq htask
          exact ⟨s, .inl rfl, .commit q, _, trivial, rfl, perform_commit h.up hq hstep⟩
    | quiet hboot hcommitting =>
        by_cases hzero : s.outstanding = 0
        · -- nobody uses the log, so there is room in it
          have hempty := h.admitted.unused hboot hcommitting hzero
          rcases h.admitted.awake p hasleep with htrue | hfull
          · exact absurd (hcommitting.symm.trans htrue) Bool.false_ne_true
          · rw [hempty, hzero, List.length_nil] at hfull
            simp [LOGSIZE, MAXOPBLOCKS] at hfull
        · obtain ⟨q, hq⟩ := exists_of_count_ne_zero (h.admitted.ordered.outstanding ▸ hzero)
          have hne : q ≠ p := by
            rintro rfl
            rw [hasleep] at hq
            cases hq
          obtain ⟨mid, hmid, s', hend⟩ := exists_endOp (l := l) h.up hq
          exact ⟨mid, hmid.imp_right fun hrecord => ⟨q, hne, hrecord⟩, .endOp q, s', hne, rfl, hend⟩
  · exact ⟨s, .inl rfl, .beginOp p, _, rfl, rfl, perform_beginOp h.up (.inr hwoken)⟩
  · exact absurd hactive hp

omit [Fintype P] in
theorem Move.up {label : Label P} (hmove : Move l label s s') (hway : label.MakesWay p) : s.Up := by
  cases hmove with
  | crash | booted | recover | bread | evict => exact hway.elim
  | sleeps hup | begins hup | overflows hup | checks hup | records hup | disturbs hup | endsLast hup
  | ends hup | commits hup | committed hup => exact hup

theorem Waiting.move (hbudget : l.budget ≤ MAXOPBLOCKS) (h : Waiting l p s) {label : Label P}
    (hway : label.MakesWay p) (hmove : Move l label s s') :
    (s'.panicked = true ∨ Waiting l p s') ∧ s'.work p + label.counts.toNat ≤ s.work p := by
  have hs := h.admitted.ordered
  have hadmitted := h.admitted.move hmove
  have hother : ∀ {q : P} (pc : Pc), q ≠ p → (s.setProc q pc).proc p = s.proc p :=
    fun pc hq => s.setProc_of_ne hq.symm pc
  -- who moves from `begin_op` has been woken up
  have hwoken : s.proc p = .idle ∨ s.proc p = .woken → s.proc p = .woken := by
    rintro (hp | hp)
    · rcases h.proc with h | h | h <;> cases hp.symm.trans h
    · exact hp
  -- who commits is not in `begin_op`
  have hne : ∀ {q task}, s.proc q = .commit task → q ≠ p := by
    rintro q task hq rfl
    rcases h.proc with h | h | h <;> cases hq.symm.trans h
  cases hmove with
  | crash | booted | recover | bread | evict => exact hway.elim
  | overflows => exact ⟨.inl rfl, le_rfl⟩
  | disturbs _ hp hcommitting => exact absurd hcommitting (hs.not_committing hp)
  | sleeps hup hp hfull =>
      cases hway
      have hself := s.setProc_self p .asleep
      have hleft := s.total_setProc (Pc.left s.store) p .asleep
      rw [hwoken hp] at hleft
      have hchores : (s.setProc p .asleep).chores = s.chores :=
        congrArg (80 * s.outstanding + ·) hleft
      refine ⟨.inr ⟨hup, hadmitted, .inl hself⟩, ?_⟩
      rw [State.work, State.work, hchores, hself, hwoken hp]
      exact le_rfl
  | begins hup hp hfull =>
      cases hway
      have hself := s.setProc_self p (.active [])
      have hleft := s.total_setProc (Pc.left s.store) p (.active [])
      refine ⟨.inr ⟨hup, hadmitted, .inr (.inr hself)⟩, ?_⟩
      simp only [State.work, State.chores, hself, hwoken hp, Pc.wait, Pc.left, State.setProc_store,
        Label.counts, Bool.toNat_true] at hleft ⊢
      omega
  | @checks _ q blocks b data hup hq =>
      refine h.others hup hadmitted (.inl ⟨hother _ hway, ?_⟩)
      obtain ⟨-, -, -, -, hquiet⟩ := hs.busy (congrArg Pc.isActive hq)
      rw [State.chores, total_left_setProc fun r _ => hquiet r]
      exact Nat.add_le_add_left (Nat.zero_le _) _
  | @records _ q blocks b data hup hq =>
      refine h.others hup hadmitted (.inl ⟨hother _ hway, ?_⟩)
      obtain ⟨-, -, -, -, hquiet⟩ := hs.busy (congrArg Pc.isActive hq)
      rw [State.chores, total_left_setProc fun r _ => hquiet r]
      exact Nat.add_le_add_left (Nat.zero_le _) _
  | @endsLast _ q blocks hup hq hcommitting hlast =>
      refine h.others hup hadmitted (.inl ⟨hother _ hway, ?_⟩)
      obtain ⟨-, hpos, -, -, hquiet⟩ := hs.busy (congrArg Pc.isActive hq)
      have hle := Task.left_le (h.admitted.short hbudget) (commit s.store)
      rw [State.chores, State.chores, total_left_setProc fun r _ => hquiet r]
      simp only [Pc.left, State.setProc_store, Label.counts, Bool.toNat_true]
      omega
  | @ends _ q blocks hup hq hcommitting hmore =>
      refine h.others hup hadmitted (.inr ⟨congrArg Pc.wake (hother .idle hway), ?_⟩)
      obtain ⟨-, hpos, -, -, hquiet⟩ := hs.busy (congrArg Pc.isActive hq)
      have hleft := total_left_setProc (q := q) (fun r _ => hquiet r) .idle s.store
      simp only [State.chores, State.wakeup, State.setProc_store, total_left_wake, hleft, Pc.left,
        Label.counts, Bool.toNat_true]
      omega
  | @commits _ q task next store hup hq hturn =>
      obtain ⟨-, -, -, -, hothers⟩ := hs.committing hup hq
      refine h.others hup hadmitted (.inl ⟨hother _ (hne hq), ?_⟩)
      rw [State.chores, State.chores, total_left_eq hq hothers, total_left_setProc hothers]
      exact Nat.add_le_add_left (Task.left_turn hturn) _
  | @committed _ q hup hq =>
      obtain ⟨-, -, -, -, hothers⟩ := hs.committing hup hq
      have hleft := total_left_setProc hothers .idle s.store
      refine h.others hup hadmitted (.inr ⟨congrArg Pc.wake (hother .idle (hne hq)), ?_⟩)
      rw [State.chores, State.chores, total_left_eq hq hothers]
      simp only [endCommit, State.wakeup, State.setProc_store, total_left_wake, hleft]
      exact le_rfl

end Waiting

end Acos.Storage
