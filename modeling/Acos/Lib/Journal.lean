import Mathlib.Data.Set.Insert
import Mathlib.Logic.Function.Basic

/-!
# A store with transactions

What a journal is for. Processes write to the store inside of operations. A commit makes everything
that has been written durable at once, at a moment at which no operation is in progress, and a crash
brings back what is durable. So the durable contents are always those of one moment between
operations, and never older than the last commit.
-/

namespace Journal

variable {Key Value Proc : Type}

structure State (Key Value Proc : Type) where
  durable : Key → Value
  volatile : Key → Value
  active : Set Proc

inductive Event (Key Value Proc : Type) where
  | begin (p : Proc)
  | write (p : Proc) (key : Key) (value : Value)
  | finish (p : Proc)
  | commit
  | crash
  | silent

inductive Step [DecidableEq Key] : Event Key Value Proc → State Key Value Proc →
    State Key Value Proc → Prop where
  | begin {s : State Key Value Proc} {p : Proc} (hidle : p ∉ s.active) :
      Step (.begin p) s { s with active := insert p s.active }
  | write {s : State Key Value Proc} {p : Proc} (hactive : p ∈ s.active) (key : Key)
      (value : Value) :
      Step (.write p key value) s { s with volatile := Function.update s.volatile key value }
  | finish {s : State Key Value Proc} {p : Proc} (hactive : p ∈ s.active) :
      Step (.finish p) s { s with active := s.active \ {p} }
  | commit {s : State Key Value Proc} (hnone : s.active = ∅) :
      Step .commit s { s with durable := s.volatile }
  | crash (s : State Key Value Proc) :
      Step .crash s { s with volatile := s.durable, active := ∅ }
  | silent (s : State Key Value Proc) : Step .silent s s

variable [DecidableEq Key]

end Journal
