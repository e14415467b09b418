import Mathlib.Data.List.Basic
import Mathlib.Data.List.Infix
import Mathlib.Tactic.Common

/-!
# Directories

A file system as the set of its directories, each the list of the names on the way to it
from the root. Making a directory adds it when the directory that is to contain it is
there, and otherwise changes nothing.

`Extended s s' base cs` says that `s'` is `s` with the directories on the way from `base`
to `base ++ cs`; it is what making them one after the other leads to
(`Extended.mkdir_here` and `Extended.mkdir_below`). A path is read as the names between
its separators (`components`).
-/

namespace Framework

variable {ν α : Type}

/-- The directories that exist. -/
abbrev DirSet (ν : Type) := List ν → Bool

/-- Making the directory `d`. -/
def DirSet.mkdir [DecidableEq ν] (s : DirSet ν) (d : List ν) : DirSet ν :=
  fun q => s q || (decide (q = d) && s d.dropLast)

/-- The directories on the way from `base` to `base ++ cs` are there as well, and no
others. -/
def Extended (s s' : DirSet ν) (base cs : List ν) : Prop :=
  ∀ q, s' q = true ↔ s q = true ∨ ∃ p, p <+: cs ∧ q = base ++ p

section Extended

variable {s s' : DirSet ν} {base cs : List ν} {c : ν}

theorem extended_nil (h : s base = true) : Extended s s base [] := by
  intro q
  rw [or_iff_left_of_imp]
  rintro ⟨p, hp, rfl⟩
  rw [List.prefix_nil.mp hp, List.append_nil]
  exact h

/-- When those that contain `base` are there, so are all that contain the last one. -/
theorem Extended.iff_prefix (h : Extended s s' base cs) (hbase : ∀ q, q <+: base → s q = true)
    (q : List ν) : s' q = true ↔ s q = true ∨ q <+: base ++ cs := by
  rw [h q]
  constructor
  · rintro (hq | ⟨p, hp, rfl⟩)
    · exact .inl hq
    · exact .inr ((List.prefix_append_right_inj _).mpr hp)
  · rintro (hq | hq)
    · exact .inl hq
    -- a directory on the way, or one that contains where it begins
    · rcases List.prefix_or_prefix_of_prefix hq (List.prefix_append _ _) with hbefore | ⟨p, rfl⟩
      · exact .inl (hbase q hbefore)
      · exact .inr ⟨p, (List.prefix_append_right_inj _).mp hq, rfl⟩

theorem Extended.end_exists (h : Extended s s' base cs) : s' (base ++ cs) = true :=
  (h _).mpr (.inr ⟨cs, List.prefix_refl cs, rfl⟩)

variable [DecidableEq ν]

theorem DirSet.mkdir_iff {d q : List ν} :
    s.mkdir d q = true ↔ s q = true ∨ q = d ∧ s d.dropLast = true := by
  simp [DirSet.mkdir]

theorem DirSet.mkdir_of_exists {d : List ν} (h : s d = true) : s.mkdir d = s := by
  funext q
  rw [Bool.eq_iff_iff, DirSet.mkdir_iff, or_iff_left_iff_imp]
  rintro ⟨rfl, -⟩
  exact h

/-- Making the last directory once more. -/
theorem Extended.mkdir_here (h : Extended s s' base cs) :
    Extended s (s'.mkdir (base ++ cs)) base cs := by
  rw [DirSet.mkdir_of_exists h.end_exists]
  exact h

/-- Making a directory in the last one. -/
theorem Extended.mkdir_below (h : Extended s s' base cs) :
    Extended s (s'.mkdir (base ++ (cs ++ [c]))) base (cs ++ [c]) := by
  intro q
  rw [DirSet.mkdir_iff, h q, ← List.append_assoc, List.dropLast_concat, or_assoc]
  refine or_congr_right ⟨?_, ?_⟩
  · rintro (⟨p, hp, rfl⟩ | ⟨rfl, -⟩)
    · exact ⟨p, hp.trans (List.prefix_append cs [c]), rfl⟩
    · exact ⟨cs ++ [c], List.prefix_refl _, List.append_assoc base cs [c]⟩
  · rintro ⟨p, hp, rfl⟩
    -- the whole way, or one that was there before
    rcases List.prefix_concat_iff.mp hp with rfl | hp
    · exact .inr ⟨(List.append_assoc base cs [c]).symm, h.end_exists⟩
    · exact .inl ⟨p, hp, rfl⟩

end Extended

variable [DecidableEq α]

/-- The names in a path. -/
def components (sep : α) (path : List α) : List (List α) :=
  (path.splitOn sep).filter fun c => !c.isEmpty

section Components

variable {sep : α}

theorem components_append_sep (xs ys : List α) :
    components sep (xs ++ sep :: ys) = components sep xs ++ components sep ys := by
  rw [components, List.splitOn_append_cons_self, List.filter_append]
  rfl

@[simp] theorem components_nil : components sep [] = [] := rfl

theorem components_of_not_mem {xs : List α} (h : sep ∉ xs) :
    components sep xs = if xs = [] then [] else [xs] := by
  rw [components, List.splitOn_eq_singleton h]
  cases xs with
  | nil => rfl
  | cons x xs => rfl

/-- A separator at the end counts for nothing. -/
theorem components_concat_sep (xs : List α) : components sep (xs ++ [sep]) = components sep xs := by
  rw [components_append_sep, components_nil, List.append_nil]

/-- What is behind a separator, or is the whole path, adds its names at the end. -/
theorem components_append {xs ys : List α} (hxs : xs = [] ∨ ∃ zs, xs = zs ++ [sep]) :
    components sep (xs ++ ys) = components sep xs ++ components sep ys := by
  rcases hxs with rfl | ⟨zs, rfl⟩
  · rfl
  · rw [List.append_assoc, List.singleton_append, components_append_sep, components_concat_sep]

/-- Making the directory of a path, when the one before its last separator is there. -/
theorem Extended.mkdir_path {s s' : DirSet (List α)} {base : List (List α)} {xs ys : List α}
    (h : Extended s s' base (components sep xs)) (hxs : xs = [] ∨ ∃ zs, xs = zs ++ [sep])
    (hys : sep ∉ ys) :
    Extended s (s'.mkdir (base ++ components sep (xs ++ ys))) base
      (components sep (xs ++ ys)) := by
  rw [components_append hxs, components_of_not_mem hys]
  split_ifs
  · rw [List.append_nil]
    exact h.mkdir_here
  · exact h.mkdir_below

end Components

end Framework
