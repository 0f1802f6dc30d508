import Acos.Alarm.Restore
import Mathlib.Data.Nat.Count

/-!
# The period of an alarm

From a call of `alarm(n, handler)` on, the ticks that count are those that interrupt user mode while
no handler is active. The counter of the process is their number modulo `n`, and every `n`-th of
them starts the handler. This holds in every run whose deliveries are made with the stack pointer in
the user's half: the return address that a delivery stores may otherwise hit the period itself. Where
the page below the stack pointer is not mapped, the store faults, and the interrupt is never over.
-/

namespace Acos.Alarm

open ByteMemory Transition

/-! ### Every `n`-th occurrence -/

section Counting

variable {p q : Nat → Prop} [DecidablePred p] [DecidablePred q] {n steps : Nat}

theorem succ_mod_of_lt {t : Nat} (hlt : t % n + 1 < n) :
    ¬n ∣ t + 1 ∧ (t + 1) % n = t % n + 1 := by
  have hmod : (t + 1) % n = t % n + 1 := by
    rw [← Nat.mod_add_mod, Nat.mod_eq_of_lt hlt]
  refine ⟨fun hdvd => ?_, hmod⟩
  rw [Nat.mod_eq_zero_of_dvd hdvd] at hmod
  exact absurd hmod.symm (Nat.succ_ne_zero _)

theorem dvd_succ_of_mod_eq {t : Nat} (heq : t % n + 1 = n) : n ∣ t + 1 := by
  refine ⟨t / n + 1, ?_⟩
  calc
    t + 1 = t % n + 1 + n * (t / n) := by rw [Nat.add_right_comm, Nat.mod_add_div]
    _ = n * (t / n + 1) := by rw [heq, Nat.mul_succ, Nat.add_comm]

/-- If `q` picks every `n`-th occurrence of `p`, it is seen once for `n` of them. -/
theorem count_eq_count_div
    (hevery : ∀ m, m < steps → (q m ↔ p m ∧ n ∣ Nat.count p (m + 1))) :
    ∀ m, m ≤ steps → Nat.count q m = Nat.count p m / n := by
  intro m
  induction m with
  | zero => simp
  | succ m ih =>
      intro hm
      have hcount := Nat.count_succ p m
      rw [Nat.count_succ, ih (Nat.le_of_succ_le hm)]
      by_cases hp : p m
      · rw [if_pos hp] at hcount
        rw [hcount, Nat.succ_div]
        exact congrArg _ (if_congr ((hevery m hm).trans (by simp [hp, hcount])) rfl rfl)
      · rw [if_neg hp] at hcount
        rw [hcount, if_neg fun hq => hp ((hevery m hm).mp hq).1]
        rfl

theorem count_between (hevery : ∀ m, m < steps → (q m ↔ p m ∧ n ∣ Nat.count p (m + 1)))
    {j k : Nat} (hjk : j < k) (hk : k < steps) (hj : q j) (hqk : q k)
    (hnone : ∀ i, j < i → i < k → ¬q i) :
    Nat.count p (k + 1) = Nat.count p (j + 1) + n := by
  have hsteady : ∀ i, j + 1 ≤ i → i ≤ k → Nat.count q i = Nat.count q (j + 1) := by
    intro i hji
    induction i, hji using Nat.le_induction with
    | base => exact fun _ => rfl
    | succ i hji ih =>
        intro hik
        rw [Nat.count_succ, if_neg (hnone i hji hik), Nat.add_zero, ih (Nat.le_of_succ_le hik)]
  have hnext : Nat.count q (k + 1) = Nat.count q (j + 1) + 1 := by
    rw [Nat.count_succ, if_pos hqk, hsteady k hjk (le_refl k)]
  rw [count_eq_count_div hevery (k + 1) hk, count_eq_count_div hevery (j + 1) (by omega)] at hnext
  have hfirst := Nat.div_mul_cancel ((hevery j (by omega)).mp hj).2
  have hsecond := Nat.div_mul_cancel ((hevery k hk).mp hqk).2
  calc
    Nat.count p (k + 1) = (Nat.count p (j + 1) / n + 1) * n := by rw [← hnext, hsecond]
    _ = Nat.count p (j + 1) + n := by rw [Nat.succ_mul, hfirst]

end Counting

/-! ### One event -/

def Event.isTimer : Event → Bool
  | .timer _ => true
  | _ => false

/-- A tick in user mode while no handler is active. -/
def Event.Counts (l : Layout) (event : Event) (s : State) : Prop :=
  event.isTimer = true ∧ s.regs TrapFrame.cs &&& 3 = 3 ∧ fieldOf l s.mem .handlingAlarm = 0

instance (l : Layout) (event : Event) (s : State) : Decidable (event.Counts l s) :=
  inferInstanceAs (Decidable (_ ∧ _))

theorem Event.delivers_iff {l : Layout} {event : Event} {s : State} :
    event.Counts l s ∧ (view l s.mem).due ↔ event.Delivers l s := by
  constructor
  · rintro ⟨⟨htimer, hcs, -⟩, hdue⟩
    cases event with
    | timer writable => exact ⟨⟨writable, rfl⟩, hcs, hdue⟩
    | user | kernelTimer | alarm | syscall | pageFault => cases htimer
  · rintro ⟨⟨writable, rfl⟩, hcs, hdue⟩
    exact ⟨⟨rfl, hcs, hdue.1.2⟩, hdue⟩

instance (l : Layout) (event : Event) (s : State) : Decidable (event.Delivers l s) :=
  decidable_of_iff _ Event.delivers_iff

/-- A tick sets the counter back if it delivers, and otherwise counts if it is one to be counted. -/
theorem occur_timer_counter {l : Layout} {writable : Addr → Bool} {s s' : State}
    (hholds : Holds l s.mem) (huser : (Event.timer writable).Delivers l s → StackInUser s)
    (hoccur : occur l (.timer writable) s = some s') :
    (view l s'.mem).alarmpassed
      = if (Event.timer writable).Counts l s ∧ (0 : Word).slt (view l s.mem).alarmtime then
          if (Event.timer writable).Delivers l s then 0 else (view l s.mem).alarmpassed + 1
        else (view l s.mem).alarmpassed := by
  rw [(occur_timer hholds huser hoccur).2]
  by_cases hcs : s.regs TrapFrame.cs &&& 3 = 3
  · rw [if_pos hcs, AlarmState.tick]
    have hcounts : (Event.timer writable).Counts l s ∧ (0 : Word).slt (view l s.mem).alarmtime
        ↔ (view l s.mem).counts :=
      ⟨fun hboth => ⟨hboth.2, hboth.1.2.2⟩, fun hboth => ⟨⟨rfl, hcs, hboth.2⟩, hboth.1⟩⟩
    have hdelivers : (Event.timer writable).Delivers l s ↔ (view l s.mem).due :=
      ⟨fun hdelivers => hdelivers.2.2, fun hdue => ⟨⟨writable, rfl⟩, hcs, hdue⟩⟩
    simp only [hcounts, hdelivers]
    split_ifs with hdue hcounted
    · rfl
    · exact absurd hdue.1 hcounted
    · rfl
    · rfl
  · rw [if_neg hcs, if_neg fun hboth => hcs hboth.1.2.1]

/-- An event other than a call of `alarm` changes the counter exactly if it counts and an alarm is
set. -/
theorem occur_counter {l : Layout} {event : Event} {s s' : State} (hholds : Holds l s.mem)
    (huser : event.Delivers l s → StackInUser s) (halarm : event ≠ .alarm)
    (hoccur : occur l event s = some s') :
    (view l s'.mem).alarmpassed
      = if event.Counts l s ∧ (0 : Word).slt (view l s.mem).alarmtime then
          if event.Delivers l s then 0 else (view l s.mem).alarmpassed + 1
        else (view l s.mem).alarmpassed := by
  have hother : event.isTimer = false → ¬event.Counts l s := fun hfalse hcounts =>
    Bool.noConfusion (hfalse.symm.trans hcounts.1)
  cases event with
  | alarm => exact absurd rfl halarm
  | user regs writes =>
      rw [(occur_user hholds hoccur).2, if_neg fun hboth => hother rfl hboth.1]
  | kernelTimer tf frame =>
      rw [(occur_kernelTimer hholds hoccur).2, if_neg fun hboth => hother rfl hboth.1]
  | syscall writes =>
      rw [(occur_syscall hholds hoccur).2, if_neg fun hboth => hother rfl hboth.1]
  | pageFault err cr2 =>
      have heffect := (occur_pageFault hholds hoccur).2
      rw [if_neg fun hboth => hother rfl hboth.1]
      split_ifs at heffect
      · rw [heffect.1]
        rfl
      · rw [heffect]
  | timer writable => exact occur_timer_counter hholds huser hoccur

/-- The flag is raised by the events that deliver, and only by them. -/
theorem occur_delivers_iff {l : Layout} {event : Event} {s s' : State} (hholds : Holds l s.mem)
    (huser : event.Delivers l s → StackInUser s) (hoccur : occur l event s = some s') :
    event.Delivers l s
      ↔ fieldOf l s.mem .handlingAlarm = 0 ∧ fieldOf l s'.mem .handlingAlarm ≠ 0 := by
  obtain ⟨-, heffect⟩ := occur_effect hholds huser hoccur
  cases heffect with
  | delivers hdelivers hhandling =>
      exact ⟨fun _ => ⟨hdelivers.2.2.1.2, hhandling⟩, fun _ => hdelivers⟩
  | restores hrestores hhandling =>
      refine ⟨fun hdelivers => absurd hrestores hdelivers.not_restores, fun hraised => ?_⟩
      exact absurd hhandling hraised.2
  | keeps hdelivers _ hhandling =>
      refine ⟨fun hboth => absurd hboth hdelivers, fun hraised => ?_⟩
      exact absurd (hhandling.trans hraised.1) hraised.2

/-- The word that a delivery stores lies in the user's half, and the kernel may store to it. -/
def StackReady (writable : Addr → Bool) (s : State) : Prop :=
  StackInUser s ∧ WritableWord ⟨0, writable⟩ (s.regs TrapFrame.esp - 4)

/-- The tick is over and the process goes on in the handler. -/
def EntersHandler (l : Layout) (writable : Addr → Bool) (s : State) (handler : Word) : Prop :=
  ∃ s', occur l (.timer writable) s = some s' ∧ fieldOf l s'.mem .handlingAlarm = 1
    ∧ s'.regs TrapFrame.eip = handler

/-- The tick is over and no handler is active. -/
def PassesBy (l : Layout) (writable : Addr → Bool) (s : State) : Prop :=
  ∃ s', occur l (.timer writable) s = some s' ∧ fieldOf l s'.mem .handlingAlarm = 0

/-! ### Whole runs -/

theorem toInt_of_pos {n : Word} (hpos : (0 : Word).slt n) : 0 < n.toNat ∧ n.toNat < 2 ^ 31 := by
  rw [BitVec.slt_iff_toInt_lt] at hpos
  change 0 < n.toInt at hpos
  have hmsb := BitVec.toInt_eq_toNat_cond n
  split_ifs at hmsb with hlt
  · constructor <;> omega
  · have := n.isLt
    omega

theorem sle_iff_of_lt {x y : Word} (hx : x.toNat < 2 ^ 31) (hy : y.toNat < 2 ^ 31) :
    x.sle y = true ↔ x.toNat ≤ y.toNat := by
  rw [BitVec.sle_iff_toInt_le, BitVec.toInt_eq_toNat_of_lt (by omega),
    BitVec.toInt_eq_toNat_of_lt (by omega), Int.ofNat_le]

/-- With the counter at `t` modulo the period, the next counted tick is due if it is a multiple of
the period. -/
theorem due_iff {a : AlarmState} {t : Nat} (hpos : (0 : Word).slt a.alarmtime)
    (hhandling : a.handling = 0)
    (hpassed : a.alarmpassed = .ofNat 32 (t % a.alarmtime.toNat)) :
    a.due ↔ a.alarmtime.toNat ∣ t + 1 := by
  obtain ⟨hperiod, hbound⟩ := toInt_of_pos hpos
  have hmod := Nat.mod_lt t hperiod
  have hnext : (a.alarmpassed + 1).toNat = t % a.alarmtime.toNat + 1 := by
    rw [hpassed, BitVec.toNat_add, BitVec.toNat_ofNat]
    change (_ + 1) % 2 ^ 32 = _
    omega
  have hdue : a.due ↔ a.alarmtime.toNat ≤ t % a.alarmtime.toNat + 1 := by
    rw [← hnext, ← sle_iff_of_lt hbound (by omega)]
    exact ⟨fun hdue => hdue.2, fun hle => ⟨⟨hpos, hhandling⟩, hle⟩⟩
  rw [hdue]
  constructor
  · exact fun hle => dvd_succ_of_mod_eq (by omega)
  · intro hdvd
    by_contra hlt
    exact (succ_mod_of_lt (by omega)).1 hdvd

section Runs

variable {l : Layout} (run : Run (alarmSystem l))

def CountsAt (i : Nat) : Prop := (run.label i).Counts l (run.state i)

instance (i : Nat) : Decidable (CountsAt run i) :=
  inferInstanceAs (Decidable ((run.label i).Counts l (run.state i)))

instance (i : Nat) : Decidable (DeliversAt run i) :=
  inferInstanceAs (Decidable ((run.label i).Delivers l (run.state i)))

/-- Step `call` is an accepted call of `alarm(n, handler)`, and `steps` more steps are made without
another one. -/
structure AlarmSet (call : Nat) (n handler : Word) (steps : Nat) : Prop where
  label : run.label call = .alarm
  args : (run.state call).AlarmArgs l n handler
  within : call + 1 + steps ≤ run.length
  only : ∀ m, m < steps → run.label (call + 1 + m) ≠ .alarm

/-- The counted ticks among the first `m` steps after the call. -/
def ticks (call m : Nat) : Nat := Nat.count (fun k => CountsAt run (call + 1 + k)) m

/-- The deliveries among the first `m` steps after the call. -/
def deliveries (call m : Nat) : Nat := Nat.count (fun k => DeliversAt run (call + 1 + k)) m

variable {run} {call steps : Nat} {n handler : Word}

theorem holds_of_stackInUser
    (huser : ∀ i, i < run.length → DeliversAt run i → StackInUser (run.state i)) :
    ∀ i, i ≤ run.length → Holds l (run.state i).mem := fun i hi =>
  (run.induction (tracks_zero run) (fun i hi => tracks_succ run hi (huser i hi)) i hi).1

/-- The period and the handler are those that were set. -/
theorem AlarmSet.settings (hset : AlarmSet run call n handler steps)
    (huser : ∀ i, i < run.length → DeliversAt run i → StackInUser (run.state i)) :
    ∀ m, m ≤ steps → (view l (run.state (call + 1 + m)).mem).alarmtime = n
      ∧ (view l (run.state (call + 1 + m)).mem).handler = handler := by
  have hlength := hset.within
  have hholds := holds_of_stackInUser huser
  intro m
  induction m with
  | zero =>
      intro _
      have hcall := run.steps call (by omega)
      rw [hset.label] at hcall
      rw [Nat.add_zero, occur_alarm_args (hholds call (by omega)) hset.args hcall]
      exact ⟨rfl, rfl⟩
  | succ m ih =>
      intro hm
      obtain ⟨htime, hhandler⟩ := ih (Nat.le_of_succ_le hm)
      have hi : call + 1 + m < run.length := by omega
      rcases occur_settings (hholds _ hi.le) (huser _ hi) (run.steps _ hi) with hkept | ⟨halarm, -⟩
      · exact ⟨hkept.1.trans htime, hkept.2.trans hhandler⟩
      · exact absurd halarm (hset.only m hm)

/-- With the counter at the number of counted ticks, the counted ticks that deliver are those whose
number is a multiple of the period. -/
theorem AlarmSet.delivers_iff_of_counter (hset : AlarmSet run call n handler steps)
    (huser : ∀ i, i < run.length → DeliversAt run i → StackInUser (run.state i))
    (hpos : (0 : Word).slt n) {m t : Nat} (hm : m ≤ steps)
    (hpassed : (view l (run.state (call + 1 + m)).mem).alarmpassed = .ofNat 32 (t % n.toNat))
    {event : Event} (hcounts : event.Counts l (run.state (call + 1 + m))) :
    event.Delivers l (run.state (call + 1 + m)) ↔ n.toNat ∣ t + 1 := by
  have htime := (hset.settings huser m hm).1
  have hdue := due_iff (by rwa [htime]) hcounts.2.2 (by rwa [htime])
  rw [← Event.delivers_iff, and_iff_right hcounts, hdue, htime]

/-- The counter is the number of counted ticks modulo the period. -/
theorem AlarmSet.counter (hset : AlarmSet run call n handler steps)
    (huser : ∀ i, i < run.length → DeliversAt run i → StackInUser (run.state i))
    (hpos : (0 : Word).slt n) :
    ∀ m, m ≤ steps → (view l (run.state (call + 1 + m)).mem).alarmpassed
      = .ofNat 32 (ticks run call m % n.toNat) := by
  have hlength := hset.within
  have hholds := holds_of_stackInUser huser
  intro m
  induction m with
  | zero =>
      intro _
      have hcall := run.steps call (by omega)
      rw [hset.label] at hcall
      have hview := occur_alarm_args (hholds call (by omega)) hset.args hcall
      rw [Nat.add_zero, hview, ticks, Nat.count_zero, Nat.zero_mod]
      rfl
  | succ m ih =>
      intro hm
      have hpassed := ih (Nat.le_of_succ_le hm)
      have htime := (hset.settings huser m (Nat.le_of_succ_le hm)).1
      have hi : call + 1 + m < run.length := by omega
      rw [← Nat.add_assoc, occur_counter (hholds _ hi.le) (huser _ hi) (hset.only m hm)
        (run.steps _ hi), ticks, Nat.count_succ, ← ticks]
      by_cases hcounts : CountsAt run (call + 1 + m)
      · -- the counter wraps around at a delivery and goes up by one at the other counted ticks
        have hdelivers := hset.delivers_iff_of_counter huser hpos (Nat.le_of_succ_le hm) hpassed hcounts
        rw [if_pos ⟨hcounts, by rwa [htime]⟩, if_pos hcounts, hpassed]
        split_ifs with hdelivered
        · rw [Nat.mod_eq_zero_of_dvd (hdelivers.mp hdelivered)]
          rfl
        · have hmod := Nat.mod_lt (ticks run call m) (toInt_of_pos hpos).1
          have hnot : ticks run call m % n.toNat + 1 ≠ n.toNat := fun heq =>
            hdelivered (hdelivers.mpr (dvd_succ_of_mod_eq heq))
          rw [(succ_mod_of_lt (by omega)).2, BitVec.ofNat_add]
          rfl
      · rw [if_neg fun hboth => hcounts hboth.1, if_neg hcounts, hpassed]
        rfl

/-- The ticks that deliver are the counted ones whose number is a multiple of the period. -/
theorem AlarmSet.delivers_iff (hset : AlarmSet run call n handler steps)
    (huser : ∀ i, i < run.length → DeliversAt run i → StackInUser (run.state i))
    (hpos : (0 : Word).slt n) {m : Nat} (hm : m < steps) :
    DeliversAt run (call + 1 + m)
      ↔ CountsAt run (call + 1 + m) ∧ n.toNat ∣ ticks run call (m + 1) := by
  rw [ticks, Nat.count_succ, ← ticks]
  by_cases hcounts : CountsAt run (call + 1 + m)
  · rw [and_iff_right hcounts, if_pos hcounts]
    exact hset.delivers_iff_of_counter huser hpos hm.le (hset.counter huser hpos m hm.le) hcounts
  · exact iff_of_false (fun hdelivers => hcounts (Event.delivers_iff.mpr hdelivers).1)
      fun hboth => hcounts hboth.1

/-- No tick delivers if the period is not positive. -/
theorem AlarmSet.not_delivers (hset : AlarmSet run call n handler steps)
    (huser : ∀ i, i < run.length → DeliversAt run i → StackInUser (run.state i))
    (hnot : ¬(0 : Word).slt n) {m : Nat} (hm : m ≤ steps) (event : Event) :
    ¬event.Delivers l (run.state (call + 1 + m)) := by
  intro hdelivers
  have hdue := hdelivers.2.2.1.1
  rw [(hset.settings huser m hm).1] at hdue
  exact hnot hdue

/-- A tick is over without a handler, or in a handler. -/
theorem AlarmSet.next_tick (hset : AlarmSet run call n handler steps)
    (huser : ∀ i, i < run.length → DeliversAt run i → StackInUser (run.state i)) {m : Nat}
    (hm : m ≤ steps) {writable : Addr → Bool}
    (hcounts : (Event.timer writable).Counts l (run.state (call + 1 + m)))
    (halive : fieldOf l (run.state (call + 1 + m)).mem .killed = 0) :
    ((Event.timer writable).Delivers l (run.state (call + 1 + m)) →
        StackReady writable (run.state (call + 1 + m)) →
        EntersHandler l writable (run.state (call + 1 + m)) handler)
      ∧ (¬(Event.timer writable).Delivers l (run.state (call + 1 + m)) →
        PassesBy l writable (run.state (call + 1 + m))) := by
  have hlength := hset.within
  have hholds := holds_of_stackInUser huser (call + 1 + m) (by omega)
  constructor
  · intro hdelivers hready
    obtain ⟨s', hoccur⟩ := occur_timer_returns hholds halive fun _ => hready
    have hflag := (occur_timer hholds (fun _ => hready.1) hoccur).2
    rw [if_pos hdelivers.2.1, AlarmState.tick, if_pos hdelivers.2.2] at hflag
    refine ⟨s', hoccur, congrArg AlarmState.handling hflag, ?_⟩
    rw [occur_delivers_eip hholds hdelivers hready.1 hoccur, (hset.settings huser m hm).2]
  · intro hnot
    obtain ⟨s', hoccur⟩ := occur_timer_returns hholds halive fun hdelivers => absurd hdelivers hnot
    refine ⟨s', hoccur, ?_⟩
    have hraised := occur_delivers_iff hholds (fun hdelivers => absurd hdelivers hnot) hoccur
    by_contra hhandling
    exact hnot (hraised.mpr ⟨hcounts.2.2, hhandling⟩)

/-- **The period is exact.** After a call of `alarm(n, handler)` with a positive `n`, the counter
stays below `n`, the counted ticks that start the handler are every `n`-th of them, and there has
been one delivery for `n` counted ticks. With any other `n` no handler is started. A delivery is
the raising of the flag. Whatever tick comes next, it enters the handler if it is an `n`-th one and
its stack word can be stored, and it is over without a handler otherwise. -/
theorem alarm_period_exact
    (huser : ∀ i, i < run.length → DeliversAt run i → StackInUser (run.state i))
    (hset : AlarmSet run call n handler steps) :
    (∀ m, m < steps → (DeliversAt run (call + 1 + m)
        ↔ fieldOf l (run.state (call + 1 + m)).mem .handlingAlarm = 0
          ∧ fieldOf l (run.state (call + 1 + m + 1)).mem .handlingAlarm ≠ 0))
      ∧ ((0 : Word).slt n →
        (∀ m, m ≤ steps →
          0 ≤ (fieldOf l (run.state (call + 1 + m)).mem .alarmpassed).toInt
            ∧ (fieldOf l (run.state (call + 1 + m)).mem .alarmpassed).toInt < n.toInt)
        ∧ (∀ m, m < steps → (DeliversAt run (call + 1 + m)
            ↔ CountsAt run (call + 1 + m) ∧ n.toNat ∣ ticks run call (m + 1)))
        ∧ (∀ j k, j < k → k < steps → DeliversAt run (call + 1 + j) →
            DeliversAt run (call + 1 + k) →
            (∀ i, j < i → i < k → ¬DeliversAt run (call + 1 + i)) →
            ticks run call (k + 1) = ticks run call (j + 1) + n.toNat)
        ∧ (∀ m, m ≤ steps → deliveries run call m = ticks run call m / n.toNat)
        ∧ ∀ m, m ≤ steps → ∀ writable,
          (Event.timer writable).Counts l (run.state (call + 1 + m)) →
          fieldOf l (run.state (call + 1 + m)).mem .killed = 0 →
          (n.toNat ∣ ticks run call m + 1 → StackReady writable (run.state (call + 1 + m)) →
              EntersHandler l writable (run.state (call + 1 + m)) handler)
            ∧ (¬n.toNat ∣ ticks run call m + 1 → PassesBy l writable (run.state (call + 1 + m))))
      ∧ (¬(0 : Word).slt n →
        (∀ m, m < steps → ¬DeliversAt run (call + 1 + m))
        ∧ ∀ m, m ≤ steps → ∀ writable,
          (Event.timer writable).Counts l (run.state (call + 1 + m)) →
          fieldOf l (run.state (call + 1 + m)).mem .killed = 0 →
          PassesBy l writable (run.state (call + 1 + m))) := by
  have hlength := hset.within
  refine ⟨fun m hm => ?_, fun hpos => ⟨fun m hm => ?_, fun m hm => ?_, ?_, ?_, ?_⟩, fun hnot => ⟨?_, ?_⟩⟩
  · have hi : call + 1 + m < run.length := by omega
    exact occur_delivers_iff (holds_of_stackInUser huser _ hi.le) (huser _ hi) (run.steps _ hi)
  · obtain ⟨hperiod, hbound⟩ := toInt_of_pos hpos
    have hmod := Nat.mod_lt (ticks run call m) hperiod
    have hpassed := hset.counter huser hpos m hm
    have hvalue : (fieldOf l (run.state (call + 1 + m)).mem .alarmpassed).toNat
        = ticks run call m % n.toNat := by
      change (view l (run.state (call + 1 + m)).mem).alarmpassed.toNat = _
      rw [hpassed, BitVec.toNat_ofNat, Nat.mod_eq_of_lt (by omega)]
    rw [BitVec.toInt_eq_toNat_of_lt (by omega), BitVec.toInt_eq_toNat_of_lt (by omega), hvalue]
    omega
  · exact hset.delivers_iff huser hpos hm
  · intro j k hjk hk hj hqk hnone
    exact count_between (fun m hm => hset.delivers_iff huser hpos hm) hjk hk hj hqk hnone
  · exact count_eq_count_div fun m hm => hset.delivers_iff huser hpos hm
  · intro m hm writable hcounts halive
    rw [← hset.delivers_iff_of_counter huser hpos hm (hset.counter huser hpos m hm) hcounts]
    exact hset.next_tick huser hm hcounts halive
  · exact fun m hm => hset.not_delivers huser hnot hm.le _
  · intro m hm writable hcounts halive
    exact (hset.next_tick huser hm hcounts halive).2 (hset.not_delivers huser hnot hm _)

end Runs

/-- The process calls `alarm(1, 0x80)`, is interrupted, returns from the handler and is interrupted
again. -/
def twoTicks (esp : Word) : List Event := sampleEvents esp ++ [.timer fun _ => true]

/-- With the stack pointer behind the period, the return address replaces it by -1: the second
counted tick starts no handler. -/
theorem alarm_period_overwritten :
    ∃ run : Run (alarmSystem sampleLayout), AlarmSet run 0 1 0x80 4
      ∧ ticks run 0 4 = 2 ∧ deliveries run 0 4 = 1
      ∧ fieldOf sampleLayout (run.state 5).mem .alarmtime = -1 := by
  let run : Run (alarmSystem sampleLayout) :=
    .ofExecute sampleStart sampleStart_started (twoTicks (sampleLayout.proc + 132)) .alarm
      (by decide +kernel)
  refine ⟨run, ⟨rfl, ⟨by decide +kernel, by decide +kernel⟩, le_refl 5, ?_⟩, by decide +kernel,
    by decide +kernel, by decide +kernel⟩
  intro m hm
  interval_cases m <;> exact Event.noConfusion

theorem alarm_period_exact_twice :
    ∃ run : Run (alarmSystem sampleLayout),
      (∀ i, i < run.length → DeliversAt run i → StackInUser (run.state i))
      ∧ AlarmSet run 0 1 0x80 4 ∧ ticks run 0 4 = 2 ∧ deliveries run 0 4 = 2 / 1
      ∧ EntersHandler sampleLayout (fun _ => true) (run.state 2) 0x80 := by
  let run : Run (alarmSystem sampleLayout) :=
    .ofExecute sampleStart sampleStart_started (twoTicks 0x3000) .alarm (by decide +kernel)
  have huser : ∀ i, i < run.length → DeliversAt run i → StackInUser (run.state i) := by
    rintro i hi ⟨⟨writable, htimer⟩, -⟩
    have hi : i < 5 := hi
    interval_cases i
    · cases htimer
    · cases htimer
    · decide +kernel
    · cases htimer
    · decide +kernel
  have hset : AlarmSet run 0 1 0x80 4 := by
    refine ⟨rfl, ⟨by decide +kernel, by decide +kernel⟩, le_refl 5, fun m hm => ?_⟩
    interval_cases m <;> exact Event.noConfusion
  have hticks : ticks run 0 4 = 2 := by decide +kernel
  obtain ⟨-, -, -, hexact, hnext⟩ := (alarm_period_exact huser hset).2.1 (by decide)
  have hdeliveries := hexact 4 (le_refl 4)
  rw [hticks] at hdeliveries
  have hcounts : (Event.timer fun _ => true).Counts sampleLayout (run.state 2) := by decide +kernel
  have hready : StackReady (fun _ => true) (run.state 2) := ⟨by decide +kernel, fun _ => rfl⟩
  have henters := (hnext 1 (by decide) _ hcounts (by decide +kernel)).1 (Nat.one_dvd _) hready
  exact ⟨run, huser, hset, hticks, hdeliveries, henters⟩

end Acos.Alarm
