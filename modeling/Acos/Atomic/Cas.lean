import Acos.Lib.Interleaving
import Acos.Atomic.SpinLock
import Mathlib.Data.Nat.Bitwise

/-!
# A retry loop around compare-and-swap

The threads of `CasFunc`. Each of them loads the shared cell, computes a new value from what it has
loaded and tries to put it in place; a failed attempt hands back the value that was in the way. The
new value depends on the parity of the old one, so the order of the threads matters for what each
of them adds, but not for the sum: the cell has been moved once for every thread that is done,
each time from the value it had.
-/

namespace Acos.Atomic.Cas

open Transition Interleaving

/-- The value that `CasFunc` computes from `expected`. -/
def casValue (expected : Word) : Word := expected + 1 + 2 * (expected &&& 1)

/-- The next access of a thread to the cell, with the local variable it uses. -/
inductive Pc where
  /-- `expected = *atomic`. -/
  | load
  /-- `AtomicCas(atomic, &expected, value)`. -/
  | cas (expected : Word)
  | done
  deriving DecidableEq

def next (pc : Pc) (cell : Word) : Option (Pc × Word) :=
  match pc with
  | .load => some (.cas cell, cell)
  | .cas expected =>
      let (cell', expected', flag) := atomicCas cell expected (casValue expected)
      some (if flag then .done else .cas expected', cell')
  | .done => none

structure State (ι : Type) where
  cell : Word
  threads : ι → Pc

variable {ι : Type} [DecidableEq ι] {start : Word}

def advance (t : ι) (state : State ι) : Option (State ι) :=
  (next (state.threads t) state.cell).map fun moved =>
    { cell := moved.2, threads := Function.update state.threads t moved.1 }

def Initial (start : Word) (state : State ι) : Prop :=
  state.cell = start ∧ ∀ t, state.threads t = .load

def system (ι : Type) [DecidableEq ι] (start : Word) : System (State ι) ι :=
  .ofFunction (Initial start) advance

def Pc.isDone : Pc → Bool
  | .done => true
  | _ => false

/-- An access finishes its thread exactly if it moves the cell, and then it moves it from the value
it has. -/
theorem next_cases {pc pc' : Pc} {cell cell' : Word} (hnext : next pc cell = some (pc', cell')) :
    pc.isDone = false
      ∧ (pc'.isDone = false ∧ cell' = cell ∨ pc'.isDone = true ∧ cell' = casValue cell) := by
  cases pc with
  | load =>
      obtain ⟨rfl, rfl⟩ := hnext
      exact ⟨rfl, .inl ⟨rfl, rfl⟩⟩
  | cas expected =>
      refine ⟨rfl, ?_⟩
      by_cases heq : cell = expected
      · simp only [next, atomicCas, if_pos heq] at hnext
        obtain ⟨rfl, rfl⟩ := hnext
        exact .inr ⟨rfl, congrArg casValue heq.symm⟩
      · simp only [next, atomicCas, if_neg heq] at hnext
        obtain ⟨rfl, rfl⟩ := hnext
        exact .inl ⟨rfl, rfl⟩
  | done => cases hnext

section Inv

variable [Fintype ι]

/-- The cell has been moved once for every thread that is done. -/
def Inv (start : Word) (state : State ι) : Prop :=
  state.cell = casValue^[count Pc.isDone state.threads] start

theorem Inv.init (state : State ι) (hinit : (system ι start).init state) : Inv start state := by
  obtain ⟨hcell, hthreads⟩ := hinit
  have hnone : count Pc.isDone state.threads = 0 :=
    count_eq_zero_iff.mpr fun t => by rw [hthreads t]; rfl
  rw [Inv, hnone, hcell]
  rfl

theorem Inv.step (t : ι) (state state' : State ι) (hinv : Inv start state)
    (hstep : (system ι start).step t state state') : Inv start state' := by
  obtain ⟨⟨pc, cell⟩, hnext, rfl⟩ := Option.map_eq_some_iff.mp hstep
  obtain ⟨hbefore, hmove⟩ := next_cases hnext
  have hcount := count_update Pc.isDone state.threads t pc
  rw [hbefore, Bool.toNat_false, Nat.add_zero] at hcount
  unfold Inv at hinv ⊢
  -- a load or a failed attempt changes neither side, a successful one both by one
  rcases hmove with ⟨hafter, rfl⟩ | ⟨hafter, rfl⟩
  · rw [hcount, hafter]
    exact hinv
  · rw [hcount, hafter, Bool.toNat_true, Function.iterate_succ_apply', hinv]

end Inv

/-! ### From the value one -/

theorem casValue_ofNat (n : Nat) :
    casValue (.ofNat 64 n) = .ofNat 64 (n + 1 + 2 * (n % 2)) := by
  have hparity : BitVec.ofNat 64 n &&& 1 = .ofNat 64 (n % 2) := by
    apply BitVec.eq_of_toNat_eq
    rw [BitVec.toNat_and, BitVec.toNat_ofNat, BitVec.toNat_ofNat]
    change n % 2 ^ 64 &&& 1 = _
    rw [Nat.and_one_is_mod]
    omega
  rw [casValue, hparity, BitVec.ofNat_add, BitVec.ofNat_add, BitVec.ofNat_mul]
  rfl

theorem casValue_iterate_one (n : Nat) :
    casValue^[n] 1 = .ofNat 64 (if n % 2 = 0 then 2 * n + 1 else 2 * n + 2) := by
  induction n with
  | zero => rfl
  | succ n ih =>
      rw [Function.iterate_succ_apply', ih, casValue_ofNat]
      refine congrArg _ ?_
      split_ifs <;> omega

/-- **No lost update.** When all threads are done, the cell has been moved once by every one of
them, whatever their accesses were interleaved like. -/
theorem cas_no_lost_update [Fintype ι] {state : State ι}
    (hreach : Reachable (system ι start) state) (hdone : ∀ t, state.threads t = .done) :
    state.cell = casValue^[Fintype.card ι] start
      ∧ (start = 1 → state.cell = .ofNat 64 (if Fintype.card ι % 2 = 0
          then 2 * Fintype.card ι + 1 else 2 * Fintype.card ι + 2)) := by
  have hinv : Inv start state := hreach.invariant Inv.init Inv.step
  have hall : count Pc.isDone state.threads = Fintype.card ι := by
    rw [count, Finset.filter_true_of_mem fun t _ => by rw [hdone t]; rfl, Finset.card_univ]
  have hcell : state.cell = casValue^[Fintype.card ι] start := hall ▸ hinv
  refine ⟨hcell, ?_⟩
  rintro rfl
  rw [hcell, casValue_iterate_one]

/-- Two threads load the same value; the first attempt of the second one fails. -/
theorem cas_no_lost_update_two :
    ∃ state : State (Fin 2), Reachable (system (Fin 2) 1) state
      ∧ (∀ t, state.threads t = .done) ∧ state.cell = 5 := by
  have hsome : (execute advance [0, 1, 0, 1, 1]
      (⟨1, fun _ => .load⟩ : State (Fin 2))).isSome = true := by decide
  have hall : ∀ hsome t, ((execute advance [0, 1, 0, 1, 1]
      (⟨1, fun _ => .load⟩ : State (Fin 2))).get hsome).threads t = .done := by decide
  have hreach : Reachable (system (Fin 2) 1) _ :=
    Reachable.execute (.init ⟨rfl, fun _ => rfl⟩) (Option.some_get hsome).symm
  exact ⟨_, hreach, hall hsome, (cas_no_lost_update hreach (hall hsome)).2 rfl⟩

end Acos.Atomic.Cas
