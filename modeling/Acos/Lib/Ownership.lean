import Mathlib.Logic.Function.Basic

/-!
# Units that belong to places

A place of a data structure may refer to a unit of a resource. The account of the units in use is
exact if they are the reserved ones and those that some place refers to, and no two places refer to
the same unit. Taking a free unit for an empty place and giving one back keep the account exact.
-/

namespace Ownership

variable {Place Unit : Type}

structure Exact (Reserved Used : Unit → Prop) (holds : Place → Option Unit) : Prop where
  used_iff : ∀ u, Used u ↔ Reserved u ∨ ∃ p, holds p = some u
  single : ∀ p q u, holds p = some u → holds q = some u → p = q
  apart : ∀ p u, holds p = some u → ¬Reserved u

variable {Reserved Used Used' : Unit → Prop} {holds : Place → Option Unit}

theorem Exact.used (h : Exact Reserved Used holds) {p : Place} {u : Unit}
    (hp : holds p = some u) : Used u := (h.used_iff u).mpr (.inr ⟨p, hp⟩)

theorem Exact.not_reserved_of_not_used (h : Exact Reserved Used holds) {u : Unit} (hu : ¬Used u) :
    ¬Reserved u := fun hr => hu ((h.used_iff u).mpr (.inl hr))

theorem Exact.ne_of_not_used (h : Exact Reserved Used holds) {p : Place} {u v : Unit}
    (hu : ¬Used u) (hp : holds p = some v) : v ≠ u := by
  rintro rfl
  exact hu (h.used hp)

variable [DecidableEq Place]

theorem Exact.take (h : Exact Reserved Used holds) {p : Place} {u : Unit} (hfree : ¬Used u)
    (hempty : holds p = none) (hused : ∀ v, Used' v ↔ v = u ∨ Used v) :
    Exact Reserved Used' (Function.update holds p (some u)) := by
  have hold : ∀ q v, Function.update holds p (some u) q = some v ↔
      q = p ∧ v = u ∨ holds q = some v := by
    intro q v
    by_cases hq : q = p
    · subst hq
      rw [Function.update_self, hempty]
      simp [eq_comm]
    · rw [Function.update_of_ne hq]
      simp [hq]
  constructor
  · intro v
    rw [hused, h.used_iff]
    simp only [hold]
    grind
  · intro q r v hq hr
    rcases (hold q v).mp hq with ⟨hqp, hvu⟩ | hq
    · rcases (hold r v).mp hr with ⟨hrp, -⟩ | hr
      · exact hqp.trans hrp.symm
      · exact absurd (hvu ▸ h.used hr) hfree
    · rcases (hold r v).mp hr with ⟨-, hvu⟩ | hr
      · exact absurd (hvu ▸ h.used hq) hfree
      · exact h.single q r v hq hr
  · intro q v hq
    rcases (hold q v).mp hq with ⟨-, rfl⟩ | hq
    · exact h.not_reserved_of_not_used hfree
    · exact h.apart q v hq

theorem Exact.give (h : Exact Reserved Used holds) {p : Place} {u : Unit} (hp : holds p = some u)
    (hused : ∀ v, Used' v ↔ v ≠ u ∧ Used v) :
    Exact Reserved Used' (Function.update holds p none) := by
  have hold : ∀ q v, Function.update holds p none q = some v ↔ q ≠ p ∧ holds q = some v := by
    intro q v
    by_cases hq : q = p
    · subst hq
      simp
    · rw [Function.update_of_ne hq]
      simp [hq]
  constructor
  · intro v
    rw [hused, h.used_iff]
    simp only [hold]
    constructor
    · rintro ⟨hvu, hr | ⟨q, hq⟩⟩
      · exact .inl hr
      · refine .inr ⟨q, ?_, hq⟩
        rintro rfl
        exact hvu (Option.some.inj (hq.symm.trans hp))
    · rintro (hr | ⟨q, hqp, hq⟩)
      · exact ⟨fun hvu => h.apart p u hp (hvu ▸ hr), .inl hr⟩
      · exact ⟨fun hvu => hqp (h.single q p u (hvu ▸ hq) hp), .inr ⟨q, hq⟩⟩
  · intro q r v hq hr
    exact h.single q r v ((hold q v).mp hq).2 ((hold r v).mp hr).2
  · intro q v hq
    exact h.apart q v ((hold q v).mp hq).2

end Ownership
