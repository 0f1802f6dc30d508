import Mathlib.Data.Finset.Insert
import Mathlib.Data.List.Nodup

/-!
# Round robin over a queue

The members of a queue take turns. The one at the head has the turn; when it gives the turn away it
moves to the end. A switch takes some steps of the scheduler's own code: the head is *leaving* until
the queue has turned, and then the new head is *arriving*.

Two liberties are taken with the textbook scheduler, since real ones take them. The first member to
give its turn away may not be in the queue yet, and a head may be *marked*: then its next attempt to
give the turn away only clears the mark.

The law of round robin is that a member which has left gets the turn back only after everyone who
was in the queue with it has had a turn.
-/

namespace RoundRobin

inductive Status where
  /-- Nobody has given a turn away yet. -/
  | before
  | running (marked : Bool)
  | leaving
  /-- At most this many steps of the scheduler are left. -/
  | arriving (left : Nat)
  | stopped
deriving DecidableEq

@[ext]
structure Queue (α : Type) where
  status : Status
  members : List α
  begun : List α
  finished : Finset α

inductive Event where
  | spawn
  | yield
  | query
  | finish
  | internal

variable {α : Type} [DecidableEq α]

inductive Step : Event → Queue α → Queue α → Prop where
  | spawn {q : Queue α} (x : α)
      (hstatus : q.status = .before ∨ ∃ marked, q.status = .running marked) :
      Step .spawn q { q with members := q.members ++ [x] }
  | query {q : Queue α} : Step .query q q
  | idle {q : Queue α} (hstatus : q.status = .before) (hmembers : q.members = []) : Step .yield q q
  /-- The first turn is given away by somebody who enters the queue with it. -/
  | enter {q : Queue α} {y : α} (x : α) (left : Nat) (hstatus : q.status = .before)
      (hmembers : q.members = [y]) :
      Step .yield q { q with status := .arriving left, members := q.members ++ [x] }
  | leave {q : Queue α} (hstatus : q.status = .running false) :
      Step .yield q { q with status := .leaving }
  | keep {q : Queue α} (left : Nat) (hstatus : q.status = .running true) :
      Step .yield q { q with status := .arriving left }
  | rotate {q : Queue α} {x : α} {others : List α} (left : Nat) (hstatus : q.status = .leaving)
      (hmembers : q.members = x :: others) :
      Step .internal q { q with status := .arriving left, members := others ++ [x] }
  | pass {q : Queue α} {left : Nat} (left' : Nat) (hstatus : q.status = .arriving left)
      (hless : left' < left) : Step .internal q { q with status := .arriving left' }
  | resume {q : Queue α} {x : α} {others : List α} {left : Nat}
      (hstatus : q.status = .arriving left) (hmembers : q.members = x :: others)
      (hbegun : x ∈ q.begun) :
      Step .internal q { q with status := .running false }
  | start {q : Queue α} {x : α} {others : List α} {left : Nat} (marked : Bool)
      (hstatus : q.status = .arriving left) (hmembers : q.members = x :: others)
      (hbegun : x ∉ q.begun) :
      Step .internal q { q with status := .running marked, begun := q.begun ++ [x] }
  | finish {q : Queue α} {x : α} {others : List α} {marked : Bool} (left : Nat)
      (hstatus : q.status = .running marked) (hmembers : q.members = x :: others) :
      Step .finish q
        { q with status := .arriving left, members := others, finished := insert x q.finished }
  | stop {q : Queue α} {event : Event}
      (hevent : event = .spawn ∨ event = .yield ∧ q.status = .before) :
      Step event q { q with status := .stopped }

variable {q q' : Queue α} {event : Event} {x : α} {others : List α}

/-- Nobody finishes before the first turn has been given away. -/
theorem Step.finished_of_before (hstep : Step event q q') (hstatus : q'.status = .before) :
    q.status = .before ∧ q'.finished = q.finished := by
  cases hstep with
  | spawn x _ | query | idle => exact ⟨hstatus, rfl⟩
  | enter | leave | keep | rotate | pass | resume | start | finish | stop => exact nomatch hstatus

/-- Whoever has been in the queue is in it or has finished. -/
def Queue.Knows (q : Queue α) (x : α) : Prop := x ∈ q.members ∨ x ∈ q.finished

theorem Step.knows (hstep : Step event q q') (hx : q.Knows x) : q'.Knows x := by
  cases hstep with
  | spawn y | enter y => exact hx.imp_left (List.mem_append_left [y])
  | query | idle | leave | keep | pass | resume | start | stop => exact hx
  | rotate left _ hmembers => exact hx.imp_left fun h => by simp_all [or_comm]
  | finish left _ hmembers =>
      rcases hx with hx | hx
      · rw [hmembers] at hx
        rcases List.mem_cons.mp hx with rfl | hx
        · exact .inr (Finset.mem_insert_self _ _)
        · exact .inl hx
      · exact .inr (Finset.mem_insert_of_mem hx)

/-- When the first turn is given away, somebody is there to take it. -/
theorem Step.exists_member (hstep : Step event q q') (hbefore : q.status = .before) :
    q'.status = .before ∨ q'.status = .stopped ∨ ∃ y, y ∈ q.members := by
  cases hstep with
  | spawn | query | idle => exact .inl hbefore
  | @enter _ y _ _ _ hmembers => exact .inr (.inr ⟨y, by simp [hmembers]⟩)
  | stop => exact .inr (.inl rfl)
  | leave hother | keep _ hother | rotate _ hother | pass _ hother | resume hother
  | start _ hother | finish _ hother => exact absurd (hother.symm.trans hbefore) nofun

/-- An unmarked head leaves. -/
theorem Step.of_running_false (hstep : Step .yield q q') (hstatus : q.status = .running false) :
    q' = { q with status := .leaving } := by
  cases hstep with
  | leave => rfl
  | idle hother | enter _ _ hother | keep _ hother => exact absurd (hother.symm.trans hstatus) nofun
  | stop hevent => simp [hstatus] at hevent

/-- A marked head keeps the turn. -/
theorem Step.of_running_true (hstep : Step .yield q q') (hstatus : q.status = .running true) :
    ∃ left, q' = { q with status := .arriving left } := by
  cases hstep with
  | keep left => exact ⟨left, rfl⟩
  | idle hother | enter _ _ hother | leave hother => exact absurd (hother.symm.trans hstatus) nofun
  | stop hevent => simp [hstatus] at hevent

theorem Step.of_leaving (hstep : Step .internal q q') (hstatus : q.status = .leaving)
    (hmembers : q.members = x :: others) :
    ∃ left, q' = { q with status := .arriving left, members := others ++ [x] } := by
  cases hstep with
  | rotate left _ hhead =>
      cases hhead.symm.trans hmembers
      exact ⟨left, rfl⟩
  | pass _ hother | resume hother | start _ hother => exact absurd (hother.symm.trans hstatus) nofun
  | stop hevent => simp at hevent

/-- A step of the scheduler while the head is arriving. -/
theorem Step.of_arriving {left : Nat} (hstep : Step .internal q q')
    (hstatus : q.status = .arriving left) (hmembers : q.members = x :: others) :
    q'.members = q.members ∧
      ((∃ left', left' < left ∧ q'.status = .arriving left' ∧ q'.begun = q.begun) ∨
        ((∃ marked, q'.status = .running marked) ∧
          (x ∈ q.begun ∧ q'.begun = q.begun ∨ x ∉ q.begun ∧ q'.begun = q.begun ++ [x]))) := by
  cases hstep with
  | rotate left' hleaving => exact absurd (hleaving.symm.trans hstatus) nofun
  | pass left' harriving hless =>
      cases harriving.symm.trans hstatus
      exact ⟨rfl, .inl ⟨left', hless, rfl, rfl⟩⟩
  | resume _ hhead hbegun =>
      cases hhead.symm.trans hmembers
      exact ⟨rfl, .inr ⟨⟨false, rfl⟩, .inl ⟨hbegun, rfl⟩⟩⟩
  | start marked _ hhead hbegun =>
      cases hhead.symm.trans hmembers
      exact ⟨rfl, .inr ⟨⟨marked, rfl⟩, .inr ⟨hbegun, rfl⟩⟩⟩
  | stop hevent => simp at hevent

/-! ### The law of round robin -/

/-- The member has the turn and executes code of its own. -/
def Queue.Runs (q : Queue α) (x : α) : Prop :=
  (∃ marked, q.status = .running marked) ∧ q.members.head? = some x

/-- The member `x` has left, and of those who were in the queue with it the ones that have not had
a turn since are still ahead of it. -/
inductive Behind (x : α) (others : List α) (had : α → Prop) (q : Queue α) : Prop where
  | stopped (hstatus : q.status = .stopped)
  | all (hall : ∀ y ∈ others, had y)
  | leaving (hstatus : q.status = .leaving) (hmembers : q.members = x :: others)
  | waiting (ahead rest : List α) (hmembers : q.members = ahead ++ x :: rest)
      (hahead : ∀ y ∈ others, y ∉ ahead → had y)
      (hhead : (∀ left, q.status ≠ .arriving left) → ∀ y, ahead.head? = some y → had y)

section Behind

variable {had had' : α → Prop}

omit [DecidableEq α] in
/-- The head has had its turn and goes away from there. -/
theorem Behind.of_tail {y : α} {tail ahead rest : List α} (hq : q.members = ahead ++ x :: rest)
    (hq' : q.members = y :: tail) (hahead : ∀ y ∈ others, y ∉ ahead → had y)
    (hhead : ∀ y, ahead.head? = some y → had y) {extra : List α}
    (hmembers : q'.members = tail ++ extra) {left : Nat} (hstatus : q'.status = .arriving left) :
    Behind x others had q' := by
  cases ahead with
  | nil => exact .all fun z hz => hahead z hz List.not_mem_nil
  | cons first ahead =>
      cases hq'.symm.trans hq
      refine .waiting ahead (rest ++ extra) (by simp [hmembers]) ?_ ?_
      · intro z hz hnot
        by_cases hzy : z = y
        · exact hzy ▸ hhead y rfl
        · exact hahead z hz fun hmem => (List.mem_cons.mp hmem).elim hzy hnot
      · exact fun hother => absurd hstatus (hother left)

theorem Behind.waiting_step (hstep : Step event q q') (hruns : ∀ y, q'.Runs y → had y)
    {ahead rest : List α} (hmembers : q.members = ahead ++ x :: rest)
    (hahead : ∀ y ∈ others, y ∉ ahead → had y)
    (hhead : (∀ left, q.status ≠ .arriving left) → ∀ y, ahead.head? = some y → had y) :
    Behind x others had q' := by
  have hfirst : ∀ y, ahead.head? = some y → q.members.head? = some y := by
    intro y hy
    obtain ⟨tail, rfl⟩ := List.head?_eq_some_iff.mp hy
    rw [hmembers]
    rfl
  cases hstep with
  | spawn y => exact .waiting ahead (rest ++ [y]) (by simp [hmembers]) hahead hhead
  | query | idle => exact .waiting ahead rest hmembers hahead hhead
  | enter y left =>
      exact .waiting ahead (rest ++ [y]) (by simp [hmembers]) hahead fun hother =>
        absurd rfl (hother left)
  | leave hstatus =>
      exact .waiting ahead rest hmembers hahead fun _ => hhead (by simp [hstatus])
  | keep left | pass left =>
      exact .waiting ahead rest hmembers hahead fun hother => absurd rfl (hother left)
  | rotate left hstatus hq =>
      exact .of_tail hmembers hq hahead (hhead (by simp [hstatus])) rfl rfl
  | resume =>
      exact .waiting ahead rest hmembers hahead fun _ y hy => hruns y ⟨⟨false, rfl⟩, hfirst y hy⟩
  | start marked =>
      exact .waiting ahead rest hmembers hahead fun _ y hy => hruns y ⟨⟨marked, rfl⟩, hfirst y hy⟩
  | finish left hstatus hq =>
      exact .of_tail hmembers hq hahead (hhead (by simp [hstatus])) (List.append_nil _).symm rfl
  | stop => exact .stopped rfl

theorem Step.stopped (hstep : Step event q q') (hstatus : q.status = .stopped) :
    q'.status = .stopped := by
  cases hstep <;> simp_all

theorem Behind.step (hbehind : Behind x others had q) (hstep : Step event q q')
    (hmono : ∀ y, had y → had' y) (hruns : ∀ y, q'.Runs y → had' y) :
    Behind x others had' q' := by
  cases hbehind with
  | stopped hstatus => exact .stopped (hstep.stopped hstatus)
  | all hall => exact .all fun y hy => hmono y (hall y hy)
  | leaving hstatus hmembers =>
      cases hstep with
      | query => exact .leaving hstatus hmembers
      | rotate left _ hq =>
          cases hq.symm.trans hmembers
          exact .waiting others [] rfl (fun y hy hnot => absurd hy hnot) fun hother =>
            absurd rfl (hother left)
      | stop => exact .stopped rfl
      | spawn | idle | enter | leave | keep | pass | resume | start | finish => simp_all
  | waiting ahead rest hmembers hahead hhead =>
      exact waiting_step hstep hruns hmembers (fun y hy hnot => hmono y (hahead y hy hnot))
        fun hother y hy => hmono y (hhead hother y hy)

omit [DecidableEq α] in
/-- Whoever gets the turn back has everyone else's turn behind it. -/
theorem Behind.all_of_runs (hbehind : Behind x others had q) (hnodup : q.members.Nodup)
    (hruns : q.Runs x) : ∀ y ∈ others, had y := by
  obtain ⟨⟨marked, hstatus⟩, hhead⟩ := hruns
  cases hbehind with
  | stopped hstopped => exact absurd (hstopped.symm.trans hstatus) nofun
  | all hall => exact hall
  | leaving hleaving => exact absurd (hleaving.symm.trans hstatus) nofun
  | waiting ahead rest hmembers hahead =>
      cases ahead with
      | nil => exact fun y hy => hahead y hy List.not_mem_nil
      | cons first ahead =>
          rw [hmembers] at hhead hnodup
          cases hhead
          simp at hnodup

end Behind

/-- **Round robin.** A member that leaves does not have the turn again before each of the others
has had it. -/
theorem runs_between {q : Nat → Queue α} {i j : Nat}
    (hsteps : ∀ k, i < k → k < j → ∃ event, Step event (q k) (q (k + 1)))
    (hleaving : (q (i + 1)).status = .leaving) (hmembers : (q (i + 1)).members = x :: others)
    (hx : x ∉ others) (hij : i < j) (hnodup : (q j).members.Nodup) (hruns : (q j).Runs x) :
    ∀ y ∈ others, ∃ k, i < k ∧ k < j ∧ (q k).Runs y := by
  have hbehind : ∀ m, i + 1 + m ≤ j →
      Behind x others (fun y => ∃ k, i < k ∧ k ≤ i + 1 + m ∧ (q k).Runs y) (q (i + 1 + m)) := by
    intro m
    induction m with
    | zero => exact fun _ => .leaving hleaving hmembers
    | succ m ih =>
        intro hm
        obtain ⟨event, hstep⟩ := hsteps (i + 1 + m) (by omega) (by omega)
        apply (ih (by omega)).step hstep
        · rintro y ⟨k, hik, hkm, hk⟩
          exact ⟨k, hik, by omega, hk⟩
        · exact fun y hy => ⟨i + 1 + (m + 1), by omega, le_rfl, hy⟩
  intro y hy
  have hj : i + 1 + (j - (i + 1)) = j := by omega
  have hlast := hbehind (j - (i + 1)) (by omega)
  rw [hj] at hlast
  obtain ⟨k, hik, hkj, hk⟩ := hlast.all_of_runs hnodup hruns y hy
  refine ⟨k, hik, lt_of_le_of_ne hkj ?_, hk⟩
  rintro rfl
  exact hx (Option.some.inj (hk.2.symm.trans hruns.2) ▸ hy)

end RoundRobin
