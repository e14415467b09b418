import Mathlib.Data.List.Infix
import Mathlib.Data.Nat.Find
import Mathlib.Algebra.Order.Ring.Nat
import Mathlib.Tactic.Common

/-!
# Occurrences, borders and shifts

The combinatorics that exact string searching rests on, over lists of any type.

* `OccursAt` is an occurrence at a position, `IsFirst` the leftmost one or its
  absence.
* `overlap p b w` is the longest prefix of `p` of length at most `b` that `w`
  ends with. `matchLen` and `border` are its two uses: how much of the pattern
  the text read so far ends with, and how much of the pattern a prefix of it
  ends with. `Candidate` is the invariant of a walk down the borders: nothing
  longer than the current length can be extended by the next symbol.
* `Compatible q j e` is what a comparison from the right leaves possible after
  it matched `q` beyond index `j` and failed there: an occurrence `e` positions
  further on has to be compatible (`OccursAt.compatible`).
-/

namespace Framework

variable {α : Type}

/-! ### Occurrences -/

/-- `p` occurs in `t` at position `a`. -/
def OccursAt (p t : List α) (a : ℕ) : Prop :=
  a + p.length ≤ t.length ∧ ∀ k, k < p.length → t[a + k]? = p[k]?

/-- `r` is the leftmost position at which `p` occurs in `t`, `none` when there
is no occurrence. -/
def IsFirst (p t : List α) : Option ℕ → Prop
  | none => ∀ a, ¬ OccursAt p t a
  | some a => OccursAt p t a ∧ ∀ b, b < a → ¬ OccursAt p t b

theorem OccursAt.append_eq {p t : List α} {a : ℕ} (h : OccursAt p t a) :
    t.take a ++ p ++ t.drop (a + p.length) = t := by
  -- the part of `t` from `a` on starts with `p`
  have hp : (t.drop a).take p.length = p := by
    apply List.ext_getElem?
    intro k
    rw [List.getElem?_take]
    split
    · next hk => rw [List.getElem?_drop, h.2 k hk]
    · next hk => rw [List.getElem?_eq_none (by omega)]
  calc t.take a ++ p ++ t.drop (a + p.length)
      = t.take a ++ ((t.drop a).take p.length ++ (t.drop a).drop p.length) := by
        rw [hp, List.append_assoc, List.drop_drop]
    _ = t.take a ++ t.drop a := by rw [List.take_append_drop]
    _ = t := List.take_append_drop a t

/-- Occurring somewhere is being a contiguous sublist. -/
theorem infix_iff_exists_occursAt {p t : List α} : p <:+: t ↔ ∃ a, OccursAt p t a := by
  constructor
  · -- `p` occurs where the part before it ends
    rintro ⟨u, v, rfl⟩
    refine ⟨u.length, by simp, fun k hk => ?_⟩
    rw [List.append_assoc, List.getElem?_append_right (by omega),
      List.getElem?_append_left (by omega)]
    congr 1
    omega
  · rintro ⟨a, h⟩
    exact ⟨_, _, h.append_eq⟩

theorem IsFirst.isSome_iff {p t : List α} {r : Option ℕ} (h : IsFirst p t r) :
    r.isSome = true ↔ p <:+: t := by
  rw [infix_iff_exists_occursAt]
  cases r with
  | none => exact ⟨fun hr => by simp at hr, fun ⟨a, ha⟩ => absurd ha (h a)⟩
  | some a => exact ⟨fun _ => ⟨a, h.1⟩, fun _ => rfl⟩

theorem IsFirst.unique {p t : List α} {r r' : Option ℕ} (h : IsFirst p t r)
    (h' : IsFirst p t r') : r = r' := by
  rcases r with _ | a <;> rcases r' with _ | b
  · rfl
  · exact absurd h'.1 (h b)
  · exact absurd h.1 (h' a)
  · -- neither of two leftmost occurrences is left of the other
    rcases lt_trichotomy a b with hlt | rfl | hgt
    · exact absurd h.1 (h'.2 a hlt)
    · rfl
    · exact absurd h'.1 (h.2 b hgt)

theorem isFirst_none {p t : List α} (h : ¬ p <:+: t) : IsFirst p t none :=
  fun a ha => h (infix_iff_exists_occursAt.mpr ⟨a, ha⟩)

/-- A suffix of a prefix of `t` is an occurrence that ends where the prefix does. -/
theorem occursAt_of_suffix_take {p t : List α} {i : ℕ} (hi : i ≤ t.length)
    (h : p <:+ t.take i) : OccursAt p t (i - p.length) := by
  obtain ⟨u, hu⟩ := h
  have hlen : u.length + p.length = i := by
    rw [← List.length_append, hu, List.length_take]
    omega
  refine ⟨by omega, fun k hk => ?_⟩
  have hget : (t.take i)[i - p.length + k]? = t[i - p.length + k]? :=
    List.getElem?_take_of_lt (by omega)
  rw [← hget, ← hu, List.getElem?_append_right (by omega)]
  congr 1
  omega

/-- The leftmost occurrence ends where the first prefix of `t` that contains the
pattern does. -/
theorem isFirst_of_suffix_take {p t : List α} {i : ℕ} (hi : i < t.length)
    (hbefore : ¬ p <:+: t.take i) (h : p <:+ t.take (i + 1)) :
    IsFirst p t (some (i + 1 - p.length)) := by
  refine ⟨occursAt_of_suffix_take (by omega) h, fun b hb hocc => hbefore ?_⟩
  -- an occurrence further left ends within `t.take i`
  rw [infix_iff_exists_occursAt]
  refine ⟨b, by rw [List.length_take]; omega, fun k hk => ?_⟩
  rw [List.getElem?_take_of_lt (by omega)]
  exact hocc.2 k hk

/-! ### Overlaps -/

section Overlap

variable [DecidableEq α]

/-- The length of the longest prefix of `p`, of length at most `b`, that `w`
ends with. -/
def overlap (p : List α) (b : ℕ) (w : List α) : ℕ :=
  Nat.findGreatest (fun k => p.take k <:+ w) b

/-- How much of `p` the list `w` ends with. -/
def matchLen (p w : List α) : ℕ := overlap p p.length w

/-- The length of the longest proper border of the prefix of `p` of length `n`. -/
def border (p : List α) (n : ℕ) : ℕ := overlap p (n - 1) (p.take n)

theorem overlap_le (p : List α) (b : ℕ) (w : List α) : overlap p b w ≤ b :=
  Nat.findGreatest_le b

theorem take_overlap_suffix (p : List α) (b : ℕ) (w : List α) :
    p.take (overlap p b w) <:+ w :=
  Nat.findGreatest_spec (P := fun k => p.take k <:+ w) (Nat.zero_le b)
    (by rw [List.take_zero]; exact List.nil_suffix)

theorem le_overlap {p : List α} {b k : ℕ} {w : List α} (hk : k ≤ b) (h : p.take k <:+ w) :
    k ≤ overlap p b w := Nat.le_findGreatest hk h

theorem border_lt {p : List α} {n : ℕ} (hn : 0 < n) : border p n < n :=
  lt_of_le_of_lt (overlap_le p (n - 1) (p.take n)) (Nat.sub_one_lt hn.ne')

@[simp] theorem border_one (p : List α) : border p 1 = 0 :=
  Nat.lt_one_iff.mp (border_lt Nat.one_pos)

omit [DecidableEq α] in
/-- Two prefixes that a list ends with are nested. -/
theorem take_suffix_take {p w : List α} {m j : ℕ} (hm : p.take m <:+ w)
    (hj : p.take j <:+ w) (hmj : m ≤ j) : p.take m <:+ p.take j :=
  List.suffix_of_suffix_length_le hm hj (by
    rw [List.length_take, List.length_take]
    omega)

omit [DecidableEq α] in
/-- A prefix one longer ends `w ++ [c]` when the prefix ends `w` and `c` comes
next in the pattern. -/
theorem take_succ_suffix_concat {p w : List α} {c : α} {k : ℕ} (hk : k < p.length) :
    p.take (k + 1) <:+ w ++ [c] ↔ p.take k <:+ w ∧ p[k]? = some c := by
  rw [List.take_succ_eq_append_getElem hk, List.getElem?_eq_getElem hk, Option.some.injEq]
  constructor
  · rintro ⟨u, hu⟩
    -- the last symbols agree, and so does what is before them
    rw [← List.append_assoc] at hu
    obtain ⟨h₁, h₂⟩ := List.append_inj' hu rfl
    exact ⟨⟨u, h₁⟩, List.singleton_injective h₂⟩
  · rintro ⟨⟨u, hu⟩, hc⟩
    exact ⟨u, by rw [← List.append_assoc, hu, hc]⟩

omit [DecidableEq α] in
/-- A prefix that a longer one ends with repeats at the distance of the lengths. -/
theorem take_suffix_take_iff {p : List α} {k d : ℕ} (h : k + d ≤ p.length) :
    p.take k <:+ p.take (k + d) ↔ ∀ m, m < k → p[m]? = p[m + d]? := by
  have hk : (p.take k).length = k := List.length_take_of_le (by omega)
  have hkd : (p.take (k + d)).length = k + d := List.length_take_of_le h
  -- the symbol `m` of the suffix is the symbol `m + d` of the whole
  have hat : ∀ m, m < k → (p.take (k + d))[m + (k + d) - k]? = p[m + d]? := by
    intro m hm
    rw [show m + (k + d) - k = m + d by omega, List.getElem?_take_of_lt (by omega)]
  rw [List.suffix_iff_getElem?]
  simp only [hk, hkd]
  constructor
  · intro hsuf m hm
    rw [← hat m hm, hsuf.2 m hm, List.getElem_take, List.getElem?_eq_getElem]
  · intro hper
    refine ⟨by omega, fun m hm => ?_⟩
    rw [hat m hm, ← hper m hm, List.getElem_take, List.getElem?_eq_getElem]

/-- The border of a prefix is at least two shorter exactly when two symbols of it
at the distance two differ. -/
theorem border_add_two_lt_iff {p : List α} {j : ℕ} (h : j + 2 ≤ p.length) :
    border p (j + 2) < j ↔ ∃ k, k < j ∧ p[k]? ≠ p[k + 2]? := by
  rw [← not_iff_not]
  push Not
  rw [← take_suffix_take_iff h]
  constructor
  · intro hle
    have hsuf := take_overlap_suffix p (j + 1) (p.take (j + 2))
    have hlt : border p (j + 2) < j + 2 := border_lt (by omega)
    rcases Nat.lt_or_eq_of_le hle with hgt | heq
    · -- a border one shorter makes all symbols equal
      rw [show overlap p (j + 1) (p.take (j + 2)) = j + 1 by
        exact (show border p (j + 2) = j + 1 by omega)] at hsuf
      have hone := (take_suffix_take_iff (d := 1) (by omega)).mp hsuf
      exact (take_suffix_take_iff h).mpr fun m hm =>
        (hone m (by omega)).trans (hone (m + 1) (by omega))
    · rwa [show overlap p (j + 1) (p.take (j + 2)) = j from heq.symm] at hsuf
  · exact fun hsuf => le_overlap (by omega) hsuf

/-- The invariant of a walk down the borders of `p` while the list read so far
is `w` and the next symbol is `c`: the prefix of length `j` ends `w`, and no
longer prefix, up to the bound `b`, both ends `w` and is continued by `c`. -/
structure Candidate (p w : List α) (b : ℕ) (c : α) (j : ℕ) : Prop where
  le : j ≤ b
  suffix : p.take j <:+ w
  longest : ∀ m, j < m → m ≤ b → p.take m <:+ w → p[m]? ≠ some c

/-- The walk may start at the overlap itself. -/
theorem candidate_overlap (p w : List α) (b : ℕ) (c : α) :
    Candidate p w b c (overlap p b w) where
  le := overlap_le p b w
  suffix := take_overlap_suffix p b w
  longest := fun m hm hb h => absurd (le_overlap hb h) (by omega)

/-- A candidate that `c` does not continue hands over to its border. -/
theorem Candidate.border {p w : List α} {b : ℕ} {c : α} {j : ℕ}
    (h : Candidate p w b c j) (hj : 0 < j) (hc : p[j]? ≠ some c) :
    Candidate p w b c (Framework.border p j) where
  le := (border_lt hj).le.trans h.le
  suffix := (take_overlap_suffix p (j - 1) (p.take j)).trans h.suffix
  longest := by
    intro m hm hb hsuf
    rcases lt_trichotomy m j with hlt | rfl | hgt
    · -- a shorter prefix ending `w` is a border of the one of length `j`
      have hle : m ≤ Framework.border p j :=
        le_overlap (by omega) (take_suffix_take hsuf h.suffix hlt.le)
      omega
    · exact hc
    · exact h.longest m hgt hb hsuf

/-- A candidate that `c` continues gives the overlap one symbol further. -/
theorem Candidate.overlap_concat {p w : List α} {b : ℕ} {c : α} {j : ℕ}
    (h : Candidate p w b c j) (hb : b < p.length) (hc : p[j]? = some c) :
    overlap p (b + 1) (w ++ [c]) = j + 1 := by
  apply le_antisymm
  · -- a longer overlap would be one of `w` that `c` continues
    by_contra hlt
    push Not at hlt
    obtain ⟨k, hk⟩ := Nat.exists_eq_succ_of_ne_zero (by omega : overlap p (b + 1) (w ++ [c]) ≠ 0)
    have hle := overlap_le p (b + 1) (w ++ [c])
    have hsuf := take_overlap_suffix p (b + 1) (w ++ [c])
    rw [hk] at hsuf hle hlt
    obtain ⟨h₁, h₂⟩ := (take_succ_suffix_concat (by omega)).mp hsuf
    exact h.longest k (by omega) (by omega) h₁ h₂
  · -- the candidate itself, one symbol longer
    have hle := h.le
    exact le_overlap (by omega) ((take_succ_suffix_concat (by omega)).mpr ⟨h.suffix, hc⟩)

/-- When the walk ends at the empty prefix and `c` does not start the pattern,
nothing overlaps. -/
theorem Candidate.overlap_concat_zero {p w : List α} {b : ℕ} {c : α}
    (h : Candidate p w b c 0) (hb : b < p.length) (hc : p[0]? ≠ some c) :
    overlap p (b + 1) (w ++ [c]) = 0 := by
  by_contra hne
  -- an overlap of `k + 1` makes `k` a candidate that `c` continues
  obtain ⟨k, hk⟩ := Nat.exists_eq_succ_of_ne_zero hne
  have hle := overlap_le p (b + 1) (w ++ [c])
  have hsuf := take_overlap_suffix p (b + 1) (w ++ [c])
  rw [hk] at hsuf hle
  obtain ⟨h₁, h₂⟩ := (take_succ_suffix_concat (by omega)).mp hsuf
  rcases Nat.eq_zero_or_pos k with rfl | hpos
  · exact hc h₂
  · exact h.longest k hpos (by omega) h₁ h₂

/-- The length after reading `c`, from the length `j` at which a walk stopped. -/
def extend (p : List α) (c : α) (j : ℕ) : ℕ := if p[j]? = some c then j + 1 else j

/-- **One step of the overlap.** A walk that stops, at a length that `c`
continues or at `0`, stops at the overlap one symbol further. -/
theorem Candidate.extend_eq {p w : List α} {b : ℕ} {c : α} {j : ℕ}
    (h : Candidate p w b c j) (hb : b < p.length) (hstop : j = 0 ∨ p[j]? = some c) :
    extend p c j = overlap p (b + 1) (w ++ [c]) := by
  unfold extend
  split
  · next hc => exact (h.overlap_concat hb hc).symm
  · next hc =>
    obtain rfl : j = 0 := hstop.resolve_right hc
    exact (h.overlap_concat_zero hb hc).symm

theorem matchLen_le (p w : List α) : matchLen p w ≤ p.length := overlap_le p _ w

@[simp] theorem matchLen_nil (p : List α) : matchLen p [] = 0 := by
  have h := (take_overlap_suffix p p.length []).length_le
  rw [List.length_take, List.length_nil] at h
  have hle := overlap_le p p.length []
  unfold matchLen
  omega

theorem matchLen_eq_length_iff {p w : List α} : matchLen p w = p.length ↔ p <:+ w := by
  constructor
  · intro h
    have hsuf := take_overlap_suffix p p.length w
    rw [show overlap p p.length w = p.length from h, List.take_length] at hsuf
    exact hsuf
  · intro h
    refine le_antisymm (matchLen_le p w) (le_overlap le_rfl ?_)
    rwa [List.take_length]

theorem matchLen_lt {p w : List α} (h : ¬ p <:+ w) : matchLen p w < p.length :=
  lt_of_le_of_ne (matchLen_le p w) fun he => h (matchLen_eq_length_iff.mp he)

/-- Below a full match, the matched length is the overlap bounded one short. -/
theorem matchLen_eq_overlap {p w : List α} (h : ¬ p <:+ w) :
    matchLen p w = overlap p (p.length - 1) w := by
  have hlt := matchLen_lt h
  refine le_antisymm (le_overlap (by omega) (take_overlap_suffix p _ w)) ?_
  exact le_overlap ((overlap_le p _ w).trans (Nat.sub_le _ _)) (take_overlap_suffix p _ w)

/-- The step of the matched length: it is the extension of the length at which
a walk down from it stops. -/
theorem matchLen_concat {p w : List α} {c : α} {j : ℕ} (hp : p ≠ [])
    (h : Candidate p w (p.length - 1) c j) (hstop : j = 0 ∨ p[j]? = some c) :
    matchLen p (w ++ [c]) = extend p c j := by
  have hpos : 0 < p.length := List.length_pos_iff.mpr hp
  rw [h.extend_eq (by omega) hstop, Nat.sub_add_cancel hpos]
  rfl

end Overlap

/-! ### Shifts -/

/-- What stays possible `e` positions further on, after a comparison from the
right matched `q` beyond index `j` and failed at `j`: the part of the shifted
pattern under the matched suffix agrees with it, and the symbol that comes under
`j` is not the one that just failed. -/
def Compatible (q : List α) (j e : ℕ) : Prop :=
  (∀ k, j < k → k < q.length → e ≤ k → q[k - e]? = q[k]?) ∧
    (e ≤ j → q[j - e]? ≠ q[j]?)

/-- A later occurrence is compatible with the comparison that failed. -/
theorem OccursAt.compatible {q t : List α} {a e j : ℕ} (h : OccursAt q t (a + e))
    (hj : j < q.length) (hmatch : ∀ k, j < k → k < q.length → t[a + k]? = q[k]?)
    (hfail : t[a + j]? ≠ q[j]?) : Compatible q j e := by
  constructor
  · -- the text under the matched suffix is both patterns' symbol
    intro k hjk hk hek
    rw [← hmatch k hjk hk, ← h.2 (k - e) (by omega)]
    congr 1
    omega
  · -- the text under `j` is the shifted pattern's symbol, and not the old one
    intro hej
    rw [← h.2 (j - e) (by omega), show a + e + (j - e) = a + j by omega]
    exact hfail

end Framework
