import Mathlib.Algebra.BigOperators.Group.List.Basic
import Mathlib.Algebra.Ring.Defs
import Mathlib.Order.Defs.LinearOrder
import Mathlib.Tactic.Ring

/-!
# The plain and the vectorised model evaluator

The arithmetic is exact: thresholds, values and sums live in any ring with a linear order, so that
the conversions between `double` and `float` change nothing. An access outside a vector or an array
is undefined in the source and has no result here.
-/

namespace Acos.Sse

structure Rule (K : Type) where
  index : Int
  threshold : K
  value : K

abbrev Model (K : Type) := List (Rule K)

/-- `features[index]`. -/
def element {α : Type} (vector : List α) (index : Int) : Option α :=
  if 0 ≤ index then vector[index.toNat]? else none

section Plain

variable {K : Type} [Zero K] [Add K] [LinearOrder K]

/-- The body of the loop of `ApplyModel`. -/
def applyRule (features : List K) (result : K) (rule : Rule K) : Option K := do
  let feature ← element features rule.index
  if feature > rule.threshold then pure (result + rule.value) else pure result

def applyModel (model : Model K) (features : List K) : Option K :=
  model.foldlM (applyRule features) 0

end Plain

structure OptimizedModel (K : Type) where
  indices : List Int
  thresholds : List K
  values : List K
  size : Nat

/-- A 128-bit register of four lanes, lane 0 first. -/
structure M128 (K : Type) where
  lane0 : K
  lane1 : K
  lane2 : K
  lane3 : K

namespace M128

variable {K : Type}

/-- `_mm_setzero_ps`. -/
def setzero [Zero K] : M128 K := ⟨0, 0, 0, 0⟩

/-- `_mm_loadu_ps` and `_mm_loadu_si128` at element `i` of an array. -/
def loadu (array : List K) (i : Nat) : Option (M128 K) := do
  pure ⟨← array[i]?, ← array[i + 1]?, ← array[i + 2]?, ← array[i + 3]?⟩

/-- `_mm_set_ps`, whose arguments come highest lane first. -/
def setPs (e3 e2 e1 e0 : K) : M128 K := ⟨e0, e1, e2, e3⟩

/-- `_mm_cmpgt_ps`: each lane all ones or all zeros. -/
def cmpgt [LinearOrder K] (a b : M128 K) : M128 Bool :=
  ⟨decide (a.lane0 > b.lane0), decide (a.lane1 > b.lane1), decide (a.lane2 > b.lane2),
    decide (a.lane3 > b.lane3)⟩

/-- `_mm_and_ps` with a mask of whole lanes. -/
def andMask [Zero K] (a : M128 K) (mask : M128 Bool) : M128 K :=
  ⟨if mask.lane0 then a.lane0 else 0, if mask.lane1 then a.lane1 else 0,
    if mask.lane2 then a.lane2 else 0, if mask.lane3 then a.lane3 else 0⟩

/-- `_mm_add_ps`. -/
def addPs [Add K] (a b : M128 K) : M128 K :=
  ⟨a.lane0 + b.lane0, a.lane1 + b.lane1, a.lane2 + b.lane2, a.lane3 + b.lane3⟩

/-- `_mm_movehl_ps`. -/
def movehl (a b : M128 K) : M128 K := ⟨b.lane2, b.lane3, a.lane2, a.lane3⟩

/-- `_mm_shuffle_ps` with the selector 1. -/
def shuffle1 (a b : M128 K) : M128 K := ⟨a.lane1, a.lane0, b.lane0, b.lane0⟩

/-- `_mm_add_ss`. -/
def addSs [Add K] (a b : M128 K) : M128 K := { a with lane0 := a.lane0 + b.lane0 }

end M128

section Optimized

variable {K : Type} [CommRing K] [LinearOrder K]

def optimize (model : Model K) : OptimizedModel K :=
  let size := (model.length + 1) / 4 * 4
  { indices := model.map (·.index) ++ List.replicate (size - model.length) 0
    thresholds := model.map (·.threshold) ++ List.replicate (size - model.length) (-1)
    values := model.map (·.value) ++ List.replicate (size - model.length) 0
    size }

/-- The body of the loop of `ApplyOptimizedModel`. -/
def applyBlock (model : OptimizedModel K) (features : List K) (result : M128 K) (i : Nat) :
    Option (M128 K) := do
  let indices ← M128.loadu model.indices i
  let thresholds ← M128.loadu model.thresholds i
  let values ← M128.loadu model.values i
  let featureValues := M128.setPs
    (← element features indices.lane3) (← element features indices.lane2)
    (← element features indices.lane1) (← element features indices.lane0)
  let mask := M128.cmpgt featureValues thresholds
  pure (M128.addPs result (M128.andMask values mask))

/-- The loop runs at `i = 0, 4, 8, …` below `size`. -/
def applyOptimizedModel (model : OptimizedModel K) (features : List K) : Option K := do
  let result ← (List.range ((model.size + 3) / 4)).foldlM
    (fun result block => applyBlock model features result (4 * block)) M128.setzero
  let tmp := M128.addPs result (M128.movehl result result)
  let sum := M128.addSs tmp (M128.shuffle1 tmp tmp)
  pure sum.lane0

end Optimized

end Acos.Sse
