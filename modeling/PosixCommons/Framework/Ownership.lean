import Mathlib.Data.List.Basic
import Mathlib.Order.Nat

/-!
# Sole ownership of heap blocks

Owners of any type, each holding at most one block, over a heap whose blocks are
numbered in the order of their allocation. `Sole` says that what is held is live
and held once, `Covered` that every live block from some number on is held, so
that none is leaked.

An operation of one owner is judged by what it does to that owner's block and to
the heap: `Sole.update` and `Covered.update` ask that the others keep theirs, that
a block the owner ends with is its old one or a new one, and, for the second, that
the old one is gone or still held.
-/

namespace Framework

variable {ι : Type*}

/-- Every block that an owner holds is live, no other owner holds it, and no block
from `fresh` on is live. -/
structure Sole (owns : ι → Option ℕ) (live : ℕ → Prop) (fresh : ℕ) : Prop where
  live_of_owns : ∀ i b, owns i = some b → live b
  alone : ∀ i j b, owns i = some b → owns j = some b → i = j
  lt_fresh : ∀ b, live b → b < fresh

/-- Every live block from `base` on has an owner. -/
def Covered (owns : ι → Option ℕ) (live : ℕ → Prop) (base : ℕ) : Prop :=
  ∀ b, base ≤ b → live b → ∃ i, owns i = some b

section Update

variable {owns owns' : ι → Option ℕ} {live live' : ℕ → Prop} {fresh fresh' base : ℕ} {i : ι}

/-- **Sole ownership through an operation of one owner.** -/
theorem Sole.update (h : Sole owns live fresh) (hothers : ∀ j, j ≠ i → owns' j = owns j)
    (hkeep : ∀ b, live b → owns i ≠ some b → live' b)
    (hnew : ∀ b, owns' i = some b → live' b ∧ (owns i = some b ∨ fresh ≤ b))
    (hlt : ∀ b, live' b → b < fresh') : Sole owns' live' fresh' := by
  classical
  -- another owner holds neither the old block of `i` nor a new one
  have hother : ∀ j b, j ≠ i → owns' j = some b → live b ∧ owns i ≠ some b ∧ owns' i ≠ some b := by
    intro j b hj hb
    rw [hothers j hj] at hb
    have hlive := h.live_of_owns j b hb
    have hne : owns i ≠ some b := fun hi => hj (h.alone j i b hb hi)
    refine ⟨hlive, hne, fun hi => ?_⟩
    have hold := (hnew b hi).2.resolve_left hne
    exact absurd (h.lt_fresh b hlive) (Nat.not_lt.mpr hold)
  refine ⟨fun j b hb => ?_, fun j k b hj hk => ?_, hlt⟩
  · by_cases hji : j = i
    · exact (hnew b (hji ▸ hb)).1
    · obtain ⟨hlive, hne, -⟩ := hother j b hji hb
      exact hkeep b hlive hne
  · by_cases hji : j = i
    · by_cases hki : k = i
      · rw [hji, hki]
      · exact absurd (hji ▸ hj) (hother k b hki hk).2.2
    · by_cases hki : k = i
      · exact absurd (hki ▸ hk) (hother j b hji hj).2.2
      · rw [hothers j hji] at hj
        rw [hothers k hki] at hk
        exact h.alone j k b hj hk

/-- **No leak through an operation of one owner.** -/
theorem Covered.update (h : Covered owns live base) (hothers : ∀ j, j ≠ i → owns' j = owns j)
    (hlive : ∀ b, base ≤ b → live' b → (live b ∧ owns i ≠ some b) ∨ owns' i = some b) :
    Covered owns' live' base := by
  intro b hb hb'
  rcases hlive b hb hb' with ⟨hold, hne⟩ | hnew
  · -- the block was held before, and not by `i`
    obtain ⟨j, hj⟩ := h b hb hold
    have hji : j ≠ i := by
      rintro rfl
      exact hne hj
    exact ⟨j, (hothers j hji).trans hj⟩
  · exact ⟨i, hnew⟩

end Update

end Framework
