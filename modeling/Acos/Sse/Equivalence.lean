import Acos.Sse.Model

/-!
# When the vectorised evaluator agrees with the plain one

The vectorised loop consumes the rules four at a time, so it adds up the contributions of the first
`size` rules of the padded model. `Optimize` computes `size` as `(n + 1) / 4 * 4`: this rounds up
only when `n` leaves the remainder 3, and cuts off the last rules when it leaves 1 or 2.
-/

namespace Acos.Sse

variable {K : Type} [CommRing K] [LinearOrder K]

/-- The index of the rule lies within the feature vector. -/
def Rule.InRange (features : List K) (rule : Rule K) : Prop :=
  0 ≤ rule.index ∧ rule.index.toNat < features.length

/-- What a rule adds to the plain sum. -/
def contribution (features : List K) (rule : Rule K) : K :=
  match element features rule.index with
  | some feature => if feature > rule.threshold then rule.value else 0
  | none => 0

def total (features : List K) (rules : List (Rule K)) : K :=
  (rules.map (contribution features)).sum

omit [CommRing K] [LinearOrder K] in
theorem element_of_inRange {features : List K} {rule : Rule K} (hrange : rule.InRange features) :
    ∃ feature, element features rule.index = some feature := by
  refine ⟨features.get ⟨rule.index.toNat, hrange.2⟩, ?_⟩
  rw [element, if_pos hrange.1, List.getElem?_eq_getElem hrange.2]
  rfl

theorem total_cons (features : List K) (rule : Rule K) (rules : List (Rule K)) :
    total features (rule :: rules) = contribution features rule + total features rules := by
  simp [total]

theorem total_append (features : List K) (first second : List (Rule K)) :
    total features (first ++ second) = total features first + total features second := by
  simp [total]

theorem applyRule_eq_contribution {features : List K} {rule : Rule K}
    (hrange : rule.InRange features) (result : K) :
    applyRule features result rule = some (result + contribution features rule) := by
  obtain ⟨feature, hfeature⟩ := element_of_inRange hrange
  rw [applyRule, contribution, hfeature]
  by_cases hgt : feature > rule.threshold <;> simp [hgt]

theorem applyModel_eq_total {model : Model K} {features : List K}
    (hrange : ∀ rule ∈ model, rule.InRange features) :
    applyModel model features = some (total features model) := by
  suffices hfold : ∀ result : K,
      model.foldlM (applyRule features) result = some (result + total features model) by
    rw [applyModel, hfold, zero_add]
  induction model with
  | nil => simp [total]
  | cons rule model ih =>
      intro result
      have hrest := ih fun rule hmem => hrange rule (List.mem_cons_of_mem _ hmem)
      rw [List.foldlM_cons, applyRule_eq_contribution (hrange rule List.mem_cons_self),
        total_cons, ← add_assoc]
      exact hrest _

/-! ### The vectorised loop -/

/-- The three parallel arrays of a list of rules. -/
def arrays (rules : List (Rule K)) (size : Nat) : OptimizedModel K :=
  { indices := rules.map (·.index)
    thresholds := rules.map (·.threshold)
    values := rules.map (·.value)
    size }

/-- The rule that fills up the arrays. -/
def padding : Rule K := { index := 0, threshold := -1, value := 0 }

def padded (model : Model K) : List (Rule K) :=
  model ++ List.replicate ((model.length + 1) / 4 * 4 - model.length) padding

omit [LinearOrder K] in
theorem optimize_eq_arrays (model : Model K) :
    optimize model = arrays (padded model) ((model.length + 1) / 4 * 4) := by
  simp [optimize, arrays, padded, padding]

/-- The horizontal sum that ends `ApplyOptimizedModel`. -/
def M128.total (a : M128 K) : K := a.lane0 + a.lane2 + (a.lane1 + a.lane3)

theorem M128.andMask_cmpgt (values features thresholds : M128 K) :
    M128.andMask values (M128.cmpgt features thresholds)
      = ⟨if features.lane0 > thresholds.lane0 then values.lane0 else 0,
          if features.lane1 > thresholds.lane1 then values.lane1 else 0,
          if features.lane2 > thresholds.lane2 then values.lane2 else 0,
          if features.lane3 > thresholds.lane3 then values.lane3 else 0⟩ := by
  simp [M128.andMask, M128.cmpgt]

/-- One turn of the loop adds the contributions of four consecutive rules. -/
theorem applyBlock_arrays {rules : List (Rule K)} {features : List K} (size : Nat)
    (hrange : ∀ rule ∈ rules, rule.InRange features) (result : M128 K) {i : Nat}
    (hi : i + 4 ≤ rules.length) :
    ∃ result', applyBlock (arrays rules size) features result i = some result'
      ∧ result'.total = result.total + total features ((rules.drop i).take 4) := by
  have hget : ∀ k, k < 4 → ∃ rule ∈ rules, rules[i + k]? = some rule := fun k hk =>
    ⟨_, List.getElem_mem (by omega), List.getElem?_eq_getElem (by omega)⟩
  obtain ⟨r0, hmem0, hr0⟩ := hget 0 (by omega)
  obtain ⟨r1, hmem1, hr1⟩ := hget 1 (by omega)
  obtain ⟨r2, hmem2, hr2⟩ := hget 2 (by omega)
  obtain ⟨r3, hmem3, hr3⟩ := hget 3 (by omega)
  have htake : (rules.drop i).take 4 = [r0, r1, r2, r3] := by
    apply List.ext_getElem?
    intro k
    rw [List.getElem?_take, List.getElem?_drop]
    rcases k with _ | _ | _ | _ | k <;> simp_all
  obtain ⟨f0, hf0⟩ := element_of_inRange (hrange r0 hmem0)
  obtain ⟨f1, hf1⟩ := element_of_inRange (hrange r1 hmem1)
  obtain ⟨f2, hf2⟩ := element_of_inRange (hrange r2 hmem2)
  obtain ⟨f3, hf3⟩ := element_of_inRange (hrange r3 hmem3)
  rw [Nat.add_zero] at hr0
  refine ⟨M128.addPs result (M128.andMask ⟨r0.value, r1.value, r2.value, r3.value⟩
    (M128.cmpgt (M128.setPs f3 f2 f1 f0)
      ⟨r0.threshold, r1.threshold, r2.threshold, r3.threshold⟩)), ?_, ?_⟩
  · simp only [applyBlock, arrays, M128.loadu, List.getElem?_map, hr0, hr1, hr2, hr3,
      Option.map_some, hf0, hf1, hf2, hf3, Option.bind_eq_bind, Option.bind_some, Option.pure_def]
  · have hmasked : M128.andMask ⟨r0.value, r1.value, r2.value, r3.value⟩
          (M128.cmpgt (M128.setPs f3 f2 f1 f0)
            ⟨r0.threshold, r1.threshold, r2.threshold, r3.threshold⟩)
        = ⟨contribution features r0, contribution features r1, contribution features r2,
            contribution features r3⟩ := by
      simp only [M128.andMask_cmpgt, contribution, hf0, hf1, hf2, hf3]
      rfl
    rw [htake, hmasked]
    simp only [M128.total, M128.addPs, total, List.map_cons, List.map_nil, List.sum_cons,
      List.sum_nil]
    ring

/-- The loop invariant: after `blocks` turns the lanes hold the first `4 * blocks` rules. -/
theorem foldlM_applyBlock {rules : List (Rule K)} {features : List K} (size : Nat)
    (hrange : ∀ rule ∈ rules, rule.InRange features) {blocks : Nat}
    (hblocks : 4 * blocks ≤ rules.length) :
    ∃ result, (List.range blocks).foldlM
          (fun result block => applyBlock (arrays rules size) features result (4 * block))
          M128.setzero = some result
      ∧ result.total = total features (rules.take (4 * blocks)) := by
  induction blocks with
  | zero => exact ⟨M128.setzero, rfl, by simp [M128.total, M128.setzero, total]⟩
  | succ blocks ih =>
      obtain ⟨before, hbefore, htotal⟩ := ih (by omega)
      obtain ⟨after, hafter, hblock⟩ := applyBlock_arrays size hrange before
        (by omega : 4 * blocks + 4 ≤ rules.length)
      refine ⟨after, ?_, ?_⟩
      · rw [List.range_succ, List.foldlM_append, hbefore]
        simpa using hafter
      · rw [hblock, htotal, ← total_append, Nat.mul_add, Nat.mul_one, ← List.take_add]

theorem applyOptimizedModel_arrays {rules : List (Rule K)} {features : List K} {blocks : Nat}
    (hrange : ∀ rule ∈ rules, rule.InRange features) (hblocks : 4 * blocks ≤ rules.length) :
    applyOptimizedModel (arrays rules (4 * blocks)) features
      = some (total features (rules.take (4 * blocks))) := by
  obtain ⟨result, hresult, htotal⟩ := foldlM_applyBlock (4 * blocks) hrange hblocks
  have hcount : ((arrays rules (4 * blocks)).size + 3) / 4 = blocks := by
    simp only [arrays]
    omega
  rw [applyOptimizedModel, hcount, hresult, ← htotal]
  rfl

theorem contribution_padding (features : List K) :
    contribution features (padding : Rule K) = 0 := by
  rw [contribution]
  cases element features (padding : Rule K).index with
  | none => rfl
  | some feature => simp [padding]

/-- The padding rules contribute nothing. -/
theorem total_padded (features : List K) (model : Model K) :
    total features (padded model) = total features model := by
  rw [padded, total_append]
  simp [total, contribution_padding]

omit [LinearOrder K] in
theorem inRange_padded {model : Model K} {features : List K} (hfeatures : features ≠ [])
    (hrange : ∀ rule ∈ model, rule.InRange features) :
    ∀ rule ∈ padded model, rule.InRange features := by
  intro rule hmem
  rcases List.mem_append.mp hmem with hmodel | hpad
  · exact hrange rule hmodel
  · obtain rfl := List.eq_of_mem_replicate hpad
    exact ⟨le_rfl, List.length_pos_of_ne_nil hfeatures⟩

/-- The vectorised evaluator adds up the rules below `size`. -/
theorem applyOptimizedModel_optimize {model : Model K} {features : List K}
    (hfeatures : features ≠ []) (hrange : ∀ rule ∈ model, rule.InRange features) :
    applyOptimizedModel (optimize model) features
      = some (total features ((padded model).take (4 * ((model.length + 1) / 4)))) := by
  have hlength : 4 * ((model.length + 1) / 4) ≤ (padded model).length := by
    simp only [padded, List.length_append, List.length_replicate]
    omega
  rw [optimize_eq_arrays, Nat.mul_comm _ 4]
  exact applyOptimizedModel_arrays (inRange_padded hfeatures hrange) hlength

/-- **Agreement.** The two evaluators agree exactly when the number of rules leaves the remainder 0
or 3 modulo 4, or the rules that are cut off happen to contribute nothing in sum. -/
theorem applyOptimizedModel_eq_applyModel_iff {model : Model K} {features : List K}
    (hfeatures : features ≠ []) (hrange : ∀ rule ∈ model, rule.InRange features) :
    applyOptimizedModel (optimize model) features = applyModel model features ↔
      model.length % 4 = 0 ∨ model.length % 4 = 3 ∨
        ((model.drop (model.length - model.length % 4)).map (contribution features)).sum = 0 := by
  rw [applyOptimizedModel_optimize hfeatures hrange, applyModel_eq_total hrange, Option.some.injEq]
  by_cases hround : model.length ≤ 4 * ((model.length + 1) / 4)
  · have hlength : (padded model).length = 4 * ((model.length + 1) / 4) := by
      simp only [padded, List.length_append, List.length_replicate]
      omega
    rw [← hlength, List.take_length, total_padded]
    simp only [true_iff]
    omega
  · have hpadded : padded model = model := by
      rw [padded, show (model.length + 1) / 4 * 4 - model.length = 0 by omega]
      simp
    have hcut : 4 * ((model.length + 1) / 4) = model.length - model.length % 4 := by omega
    rw [hpadded, hcut]
    conv_lhs =>
      rhs
      rw [← List.take_append_drop (model.length - model.length % 4) model, total_append]
    rw [left_eq_add]
    simp only [total, show ¬model.length % 4 = 0 by omega, show ¬model.length % 4 = 3 by omega,
      false_or]

/-- One rule that fires is one rule too few for the vectorised evaluator. -/
theorem applyOptimizedModel_ne_applyModel_single :
    applyOptimizedModel (optimize [{ index := 0, threshold := 0, value := (1 : Int) }]) [5]
      ≠ applyModel [{ index := 0, threshold := 0, value := (1 : Int) }] [5] := by
  decide

/-- Three rules are padded to four and evaluated alike. -/
theorem applyOptimizedModel_eq_applyModel_three :
    applyOptimizedModel (optimize
        [{ index := 0, threshold := 0, value := (1 : Int) },
          { index := 1, threshold := 0, value := 2 }, { index := 0, threshold := 4, value := 4 }])
        [5, -1]
      = applyModel [{ index := 0, threshold := 0, value := (1 : Int) },
          { index := 1, threshold := 0, value := 2 }, { index := 0, threshold := 4, value := 4 }]
          [5, -1] := by
  refine (applyOptimizedModel_eq_applyModel_iff (by decide) ?_).mpr (by decide)
  simp [Rule.InRange]

end Acos.Sse
