import Mathlib.Data.List.Basic
import Mathlib.Data.List.Induction
import Mathlib.Logic.Function.Basic
import Mathlib.Algebra.Order.Ring.Int
import Mathlib.Tactic.Common

/-!
# Checked memory

The computations of a C function over arrays, with every access checked. A
`Region` is an array of `len` cells of which some may never have been written,
and `Exec` is the outcome of a computation: a value, or the `Fault` that stopped
it. A loop whose exit depends on the data takes a bound on its iterations and
faults with `Fault.exhausted` when it needs more, so that a computation
*returns* when it succeeds for some bound.

Specifications are read off two shapes: `Exec.bind_eq_ok` peels a `do` block
that succeeded, and `Region.Holds`, an array whose first cells are a given list,
turns a checked read into a list access (`Region.Holds.read`). A sequence of
calls is a `foldlM` over them, and `Exec.foldlM_history` is its induction.
-/

namespace Framework

/-- Why a computation stopped without a value. -/
inductive Fault where
  /-- An access outside the array. -/
  | outOfBounds
  /-- A read of a cell that was never written. -/
  | uninitialised
  /-- An assertion failed. -/
  | aborted
  /-- A loop ran past the iterations it was given. -/
  | exhausted
  deriving DecidableEq

/-- The outcome of a checked computation. -/
abbrev Exec := Except Fault

namespace Exec

variable {α β : Type}

@[simp] theorem ok_bind (a : α) (f : α → Exec β) : (Except.ok a >>= f) = f a := rfl

@[simp] theorem error_bind (e : Fault) (f : α → Exec β) :
    ((Except.error e : Exec α) >>= f) = Except.error e := rfl

@[simp] theorem pure_eq_ok (a : α) : (pure a : Exec α) = Except.ok a := rfl

/-- Peeling a bind that succeeded. -/
theorem bind_eq_ok {x : Exec α} {f : α → Exec β} {b : β} :
    (x >>= f) = .ok b ↔ ∃ a, x = .ok a ∧ f a = .ok b := by
  cases x with
  | error e => simp
  | ok a => simp

/-- A computation whose loops are bounded by `fuel` returns `a`: it succeeds with
`a` from some bound on. -/
def Returns (f : ℕ → Exec α) (a : α) : Prop := ∃ N, ∀ fuel, N ≤ fuel → f fuel = .ok a

/-- What is done with the value at the end does not depend on the bound. -/
theorem Returns.map {f : ℕ → Exec α} {a : α} (h : Returns f a) (g : α → β) :
    Returns (fun fuel => f fuel >>= fun x => pure (g x)) (g a) :=
  h.imp fun N hN fuel hle => by simp only [hN fuel hle, ok_bind, pure_eq_ok]

/-- A computation whose loops are bounded by `fuel` has the outcome `x`, a value
or a fault, from some bound on. -/
def Settles (f : ℕ → Exec α) (x : Exec α) : Prop := ∃ N, ∀ fuel, N ≤ fuel → f fuel = x

theorem Settles.unique {f : ℕ → Exec α} {x y : Exec α} (hx : Settles f x) (hy : Settles f y) :
    x = y := by
  obtain ⟨N, hN⟩ := hx
  obtain ⟨M, hM⟩ := hy
  exact (hN _ (le_max_left N M)).symm.trans (hM _ (le_max_right N M))

/-- The outcome `y` is `x`, unless `x` ran out of iterations. -/
def Extends (x y : Exec α) : Prop := x ≠ .error .exhausted → y = x

theorem Extends.refl (x : Exec α) : Extends x x := fun _ => rfl

theorem Extends.exhausted (y : Exec α) : Extends (.error .exhausted) y := fun h => absurd rfl h

theorem Extends.bind {x y : Exec α} {f g : α → Exec β} (hxy : Extends x y)
    (hfg : ∀ a, Extends (f a) (g a)) : Extends (x >>= f) (y >>= g) := by
  intro h
  cases x with
  | error e =>
    -- a fault other than running out of iterations is the outcome of both
    rw [hxy fun he => h (by rw [he, error_bind])]
    rfl
  | ok a =>
    rw [hxy (by simp)]
    exact hfg a h

/-- More iterations do not change the outcome, once it is not that they ran out. -/
def Growing (f : ℕ → Exec α) : Prop := ∀ m n, m ≤ n → Extends (f m) (f n)

theorem growing_const (x : Exec α) : Growing fun _ => x := fun _ _ _ => Extends.refl x

theorem Growing.bind {f : ℕ → Exec α} {g : α → ℕ → Exec β} (hf : Growing f)
    (hg : ∀ a, Growing (g a)) : Growing fun fuel => f fuel >>= fun a => g a fuel :=
  fun m n hmn => (hf m n hmn).bind fun a => hg a m n hmn

/-- An outcome found with some bound is the outcome from then on. -/
theorem Growing.settles {f : ℕ → Exec α} (hf : Growing f) {m : ℕ} {x : Exec α} (hm : f m = x)
    (hx : x ≠ .error .exhausted) : Settles f x :=
  ⟨m, fun n hmn => (hf m n hmn (hm ▸ hx)).trans hm⟩

/-- Below the bound from which on the outcome stands, the iterations ran out. -/
theorem Growing.eq_or_exhausted {f : ℕ → Exec α} (hf : Growing f) {x : Exec α}
    (hx : Settles f x) (m : ℕ) : f m = .error .exhausted ∨ f m = x := by
  by_cases h : f m = .error .exhausted
  · exact .inl h
  · exact .inr ((hf.settles rfl h).unique hx)

/-- **Sequences of calls.** A property of the calls made so far and the state,
kept by every call that returns, holds after every sequence of calls that all
return; the others run out of the iterations they were given. `W` is what is known
of the calls up to one that does. -/
theorem foldlM_history {σ ι : Type} {step : σ → ι → Exec σ} {I : List ι → σ → Prop}
    {W : List ι → Prop}
    (hstep : ∀ seen s i, I seen s → step s i = .error .exhausted ∧ W (seen ++ [i]) ∨
      ∃ s', step s i = .ok s' ∧ I (seen ++ [i]) s')
    {s : σ} (hI : I [] s) (calls : List ι) :
    (calls.foldlM step s = .error .exhausted ∧ ∃ seen, seen <+: calls ∧ W seen) ∨
      ∃ s', calls.foldlM step s = .ok s' ∧ I calls s' := by
  induction calls using List.reverseRecOn with
  | nil => exact .inr ⟨s, rfl, hI⟩
  | append_singleton calls i ih =>
    rw [List.foldlM_append]
    -- the calls before `i` stopped, or returned with the property
    rcases ih with ⟨hstop, seen, hseen, hW⟩ | ⟨s₁, hrun, hI₁⟩
    · rw [hstop]
      exact .inl ⟨rfl, seen, hseen.trans (List.prefix_append _ _), hW⟩
    · rw [hrun, ok_bind, List.foldlM_cons]
      rcases hstep calls s₁ i hI₁ with ⟨hstop, hW⟩ | ⟨s₂, hs₂, hI₂⟩
      · rw [hstop]
        exact .inl ⟨rfl, _, List.prefix_rfl, hW⟩
      · rw [hs₂]
        exact .inr ⟨s₂, rfl, hI₂⟩

end Exec

/-- An array of `len` cells. A cell holds `none` until it is written. -/
structure Region (α : Type) where
  len : ℕ
  cell : ℕ → Option α

namespace Region

variable {α : Type}

/-- An array of `n` cells that nothing has written yet. -/
def alloc (n : ℕ) : Region α := ⟨n, fun _ => none⟩

/-- The array holding exactly the elements of `xs`. -/
def ofList (xs : List α) : Region α := ⟨xs.length, fun i => xs[i]?⟩

/-- A checked read. -/
def read (r : Region α) (i : ℕ) : Exec α :=
  if i < r.len then
    match r.cell i with
    | some a => .ok a
    | none => .error .uninitialised
  else .error .outOfBounds

/-- The array with cell `i` set. -/
def put (r : Region α) (i : ℕ) (a : α) : Region α :=
  { r with cell := Function.update r.cell i (some a) }

/-- A checked write. -/
def write (r : Region α) (i : ℕ) (a : α) : Exec (Region α) :=
  if i < r.len then .ok (r.put i a) else .error .outOfBounds

/-- A checked read of the `n` cells from `off` on. -/
def readMany (r : Region α) (off : ℕ) : ℕ → Exec (List α)
  | 0 => .ok []
  | n + 1 => do
    let a ← r.read off
    let as ← r.readMany (off + 1) n
    return a :: as

/-- A checked copy of `xs` to the cells from `off` on. -/
def blit (r : Region α) (off : ℕ) (xs : List α) : Exec (Region α) :=
  if off + xs.length ≤ r.len then
    .ok { r with cell := fun i =>
      if off ≤ i ∧ i < off + xs.length then xs[i - off]? else r.cell i }
  else .error .outOfBounds

/-- The array with `xs` in the cells from `off` on. -/
def patch (r : Region α) (off : ℕ) (xs : List α) : Region α :=
  { r with cell := fun i => if off ≤ i ∧ i < off + xs.length then xs[i - off]? else r.cell i }

/-- The first cells of the array hold the elements of `xs`. -/
def Holds (r : Region α) (xs : List α) : Prop :=
  xs.length ≤ r.len ∧ ∀ i, i < xs.length → r.cell i = xs[i]?

@[simp] theorem alloc_len (n : ℕ) : (alloc n : Region α).len = n := rfl

theorem holds_ofList (xs : List α) : (ofList xs).Holds xs := ⟨le_rfl, fun _ _ => rfl⟩

theorem holds_nil (r : Region α) : r.Holds [] := ⟨Nat.zero_le _, by simp⟩

/-- An array holds one list of a length. -/
theorem Holds.unique {r : Region α} {xs ys : List α} (hxs : r.Holds xs) (hys : r.Holds ys)
    (hlen : xs.length = ys.length) : xs = ys := by
  refine List.ext_getElem? fun i => ?_
  by_cases hi : i < xs.length
  · rw [← hxs.2 i hi, ← hys.2 i (hlen ▸ hi)]
  · rw [List.getElem?_eq_none (by omega), List.getElem?_eq_none (by omega)]

theorem read_of_len_le {r : Region α} {i : ℕ} (h : r.len ≤ i) :
    r.read i = .error .outOfBounds := if_neg h.not_gt

/-- A checked read of an array that holds `xs`. -/
theorem Holds.read {r : Region α} {xs : List α} (h : r.Holds xs) {i : ℕ}
    (hi : i < xs.length) : r.read i = .ok xs[i] := by
  have hcell : r.cell i = some xs[i] := by
    rw [h.2 i hi, List.getElem?_eq_getElem hi]
  rw [Region.read, if_pos (lt_of_lt_of_le hi h.1), hcell]

/-- A read inside what the array holds. -/
theorem Holds.read_mid {r : Region α} {xs ys : List α} {x : α} (h : r.Holds (xs ++ x :: ys)) :
    r.read xs.length = .ok x := by
  rw [h.read (by simp)]
  simp

theorem read_lt {r : Region α} {i : ℕ} {a : α} (h : r.read i = .ok a) : i < r.len := by
  unfold Region.read at h
  split at h
  · assumption
  · cases h

theorem cell_of_read {r : Region α} {i : ℕ} {a : α} (h : r.read i = .ok a) :
    r.cell i = some a := by
  rw [Region.read, if_pos (read_lt h)] at h
  cases hcell : r.cell i with
  | none => rw [hcell] at h; cases h
  | some b =>
    rw [hcell] at h
    rw [Except.ok.inj h]

@[simp] theorem put_len (r : Region α) (i : ℕ) (a : α) : (r.put i a).len = r.len := rfl

theorem put_read_self {r : Region α} {i : ℕ} (h : i < r.len) (a : α) :
    (r.put i a).read i = .ok a := by
  simp [Region.read, Region.put, h]

theorem put_read_of_ne {r : Region α} {i m : ℕ} (h : m ≠ i) (a : α) :
    (r.put i a).read m = r.read m := by
  simp [Region.read, Region.put, Function.update_of_ne h]

theorem write_ok {r : Region α} {i : ℕ} (h : i < r.len) (a : α) :
    r.write i a = .ok (r.put i a) := if_pos h

theorem write_of_len_le {r : Region α} {i : ℕ} (h : r.len ≤ i) (a : α) :
    r.write i a = .error .outOfBounds := if_neg h.not_gt

/-- A write that succeeds is inside the array, and leaves its length. -/
theorem len_of_write {r r' : Region α} {i : ℕ} {a : α} (h : r.write i a = .ok r') :
    i < r.len ∧ r'.len = r.len := by
  unfold Region.write at h
  split_ifs at h with hi
  obtain rfl := Except.ok.inj h
  exact ⟨hi, rfl⟩

theorem readMany_of_holds {r : Region α} {xs : List α} (h : r.Holds xs) (off n : ℕ)
    (hn : off + n ≤ xs.length) : r.readMany off n = .ok ((xs.drop off).take n) := by
  induction n generalizing off with
  | zero => simp [readMany]
  | succ n ih =>
    -- the first cell is read, then the others
    have hoff : off < xs.length := by omega
    rw [readMany, h.read hoff, Exec.ok_bind, ih (off + 1) (by omega), Exec.ok_bind,
      List.drop_eq_getElem_cons hoff, List.take_succ_cons]
    rfl

/-- A copy inside the array succeeds, and after it the array holds what it held
below `off` followed by `xs`. -/
theorem blit_holds {r : Region α} {ys : List α} (h : r.Holds ys) (xs : List α)
    (hlen : ys.length + xs.length ≤ r.len) :
    ∃ r', r.blit ys.length xs = .ok r' ∧ r'.len = r.len ∧ r'.Holds (ys ++ xs) := by
  refine ⟨_, if_pos hlen, rfl, by simpa using hlen, fun i hi => ?_⟩
  rw [List.length_append] at hi
  by_cases hlt : i < ys.length
  · -- the copy does not reach below `ys.length`
    rw [List.getElem?_append_left hlt, ← h.2 i hlt]
    exact if_neg fun hcopy => absurd hcopy.1 (Nat.not_le.mpr hlt)
  · -- the cells from there on are those of `xs`
    have hge : ys.length ≤ i := Nat.not_lt.mp hlt
    rw [List.getElem?_append_right hge]
    exact if_pos ⟨hge, hi⟩

/-- A copy inside the array succeeds, whatever the array held; what it held below
the copy it still holds. -/
theorem blit_spec {r : Region α} {off : ℕ} {xs : List α} (hlen : off + xs.length ≤ r.len) :
    ∃ r', r.blit off xs = .ok r' ∧ r'.len = r.len ∧
      ∀ ys, ys.length = off → r.Holds ys → r'.Holds (ys ++ xs) := by
  refine ⟨_, if_pos hlen, rfl, fun ys hys hr => ?_⟩
  subst hys
  obtain ⟨r', hblit, -, hholds⟩ := blit_holds hr xs hlen
  obtain rfl := Except.ok.inj ((if_pos hlen).symm.trans hblit)
  exact hholds

theorem Holds.of_append {r : Region α} {xs ys : List α} (h : r.Holds (xs ++ ys)) :
    r.Holds xs := by
  have hlen := h.1
  rw [List.length_append] at hlen
  refine ⟨Nat.le_of_add_right_le hlen, fun i hi => ?_⟩
  rw [h.2 i (by rw [List.length_append]; omega), List.getElem?_append_left hi]

/-- A write inside what the array holds. -/
theorem Holds.write_mid {r : Region α} {xs ys : List α} {x : α} (h : r.Holds (xs ++ x :: ys))
    (a : α) : ∃ r', r.write xs.length a = .ok r' ∧ r'.Holds (xs ++ a :: ys) := by
  have hlen := h.1
  rw [List.length_append, List.length_cons] at hlen
  refine ⟨_, write_ok (by omega) a, by simpa using hlen, fun i hi => ?_⟩
  by_cases hix : i = xs.length
  · subst hix
    rw [List.getElem?_append_right le_rfl, Nat.sub_self, List.getElem?_cons_zero]
    exact Function.update_self ..
  · -- another cell
    refine (Function.update_of_ne hix ..).trans ((h.2 i (by simpa using hi)).trans ?_)
    rcases Nat.lt_or_gt_of_ne hix with hlt | hgt
    · rw [List.getElem?_append_left hlt, List.getElem?_append_left hlt]
    · obtain ⟨k, hk⟩ : ∃ k, i - xs.length = k + 1 := ⟨i - xs.length - 1, by omega⟩
      rw [List.getElem?_append_right hgt.le, List.getElem?_append_right hgt.le, hk,
        List.getElem?_cons_succ, List.getElem?_cons_succ]

/-- A write right after what the array holds. -/
theorem Holds.write {r : Region α} {ys : List α} (h : r.Holds ys) (a : α)
    (hlen : ys.length < r.len) :
    ∃ r', r.write ys.length a = .ok r' ∧ r'.len = r.len ∧ r'.Holds (ys ++ [a]) := by
  refine ⟨_, write_ok hlen a, rfl, by rwa [List.length_append], fun i hi => ?_⟩
  rw [List.length_append, List.length_singleton] at hi
  by_cases hlt : i < ys.length
  · rw [List.getElem?_append_left hlt, ← h.2 i hlt]
    exact Function.update_of_ne hlt.ne ..
  · obtain rfl : i = ys.length := by omega
    rw [List.getElem?_concat_length]
    exact Function.update_self ..

@[simp] theorem patch_len (r : Region α) (off : ℕ) (xs : List α) :
    (r.patch off xs).len = r.len := rfl

theorem put_cell (r : Region α) (i j : ℕ) (a : α) :
    (r.put i a).cell j = if j = i then some a else r.cell j := Function.update_apply ..

theorem patch_cell (r : Region α) (off i : ℕ) (xs : List α) :
    (r.patch off xs).cell i =
      if off ≤ i ∧ i < off + xs.length then xs[i - off]? else r.cell i := rfl

/-- Arrays with the same cells are the same. -/
theorem ext_cell {r r' : Region α} (hlen : r.len = r'.len) (hcell : ∀ i, r.cell i = r'.cell i) :
    r = r' := by
  cases r
  cases r'
  exact (mk.injEq ..).mpr ⟨hlen, funext hcell⟩

@[simp] theorem patch_nil (r : Region α) (off : ℕ) : r.patch off [] = r :=
  ext_cell rfl fun _ => if_neg fun h => Nat.not_lt.mpr h.1 h.2

/-- What is written right after a patch extends it. -/
theorem patch_put_end (r : Region α) (off : ℕ) (xs : List α) (a : α) :
    (r.patch off xs).put (off + xs.length) a = r.patch off (xs ++ [a]) := by
  refine ext_cell rfl fun i => ?_
  rw [put_cell, patch_cell, patch_cell, List.length_append, List.length_singleton]
  by_cases hi : i = off + xs.length
  · rw [if_pos hi, if_pos (by omega), hi, Nat.add_sub_cancel_left, List.getElem?_concat_length]
  · rw [if_neg hi]
    by_cases hin : off ≤ i ∧ i < off + xs.length
    · rw [if_pos hin, if_pos (by omega), List.getElem?_append_left (by omega)]
    · rw [if_neg hin, if_neg (by omega)]

/-- What is read inside a patch. -/
theorem patch_read_mid {r : Region α} {off : ℕ} {xs ys : List α} {x : α}
    (hroom : off + (xs ++ x :: ys).length ≤ r.len) :
    (r.patch off (xs ++ x :: ys)).read (off + xs.length) = .ok x := by
  rw [List.length_append, List.length_cons] at hroom
  have hcell : (r.patch off (xs ++ x :: ys)).cell (off + xs.length) = some x := by
    rw [patch_cell, List.length_append, List.length_cons, if_pos (by omega),
      Nat.add_sub_cancel_left, List.getElem?_append_right le_rfl, Nat.sub_self,
      List.getElem?_cons_zero]
  rw [Region.read, if_pos (by rw [patch_len]; omega), hcell]

/-- What is written inside a patch changes it there. -/
theorem patch_write_mid {r : Region α} {off : ℕ} {xs ys : List α} {x : α}
    (hroom : off + (xs ++ x :: ys).length ≤ r.len) (a : α) :
    (r.patch off (xs ++ x :: ys)).write (off + xs.length) a =
      .ok (r.patch off (xs ++ a :: ys)) := by
  rw [List.length_append, List.length_cons] at hroom
  rw [write_ok (by rw [patch_len]; omega)]
  refine congrArg Except.ok (ext_cell rfl fun i => ?_)
  rw [put_cell, patch_cell, patch_cell, List.length_append, List.length_append, List.length_cons,
    List.length_cons]
  by_cases hi : i = off + xs.length
  · rw [if_pos hi, if_pos (by omega), hi, Nat.add_sub_cancel_left,
      List.getElem?_append_right le_rfl, Nat.sub_self, List.getElem?_cons_zero]
  · rw [if_neg hi]
    by_cases hin : off ≤ i ∧ i < off + (xs.length + (ys.length + 1))
    · rw [if_pos hin, if_pos hin]
      by_cases hlt : i - off < xs.length
      · rw [List.getElem?_append_left hlt, List.getElem?_append_left hlt]
      · -- beyond the changed cell
        obtain ⟨k, hk⟩ : ∃ k, i - off - xs.length = k + 1 := ⟨i - off - xs.length - 1, by omega⟩
        rw [List.getElem?_append_right (Nat.not_lt.mp hlt),
          List.getElem?_append_right (Nat.not_lt.mp hlt), hk, List.getElem?_cons_succ,
          List.getElem?_cons_succ]
    · rw [if_neg hin, if_neg hin]

theorem write_patch {r : Region α} {off : ℕ} {xs : List α} (hroom : off + xs.length < r.len)
    (a : α) : (r.patch off xs).write (off + xs.length) a = .ok (r.patch off (xs ++ [a])) := by
  rw [write_ok (by rwa [patch_len]), patch_put_end]

/-- A patch after a patch extends it. -/
theorem patch_append (r : Region α) (off : ℕ) (xs ys : List α) :
    (r.patch off xs).patch (off + xs.length) ys = r.patch off (xs ++ ys) := by
  induction ys using List.reverseRecOn with
  | nil => rw [patch_nil, List.append_nil]
  | append_singleton ys y ih =>
    rw [← patch_put_end, ih, Nat.add_assoc, ← List.length_append, patch_put_end,
      List.append_assoc]

/-- A patch at the start of the array. -/
theorem holds_patch {r : Region α} {xs : List α} (hroom : xs.length ≤ r.len) :
    (r.patch 0 xs).Holds xs :=
  ⟨hroom, fun i hi => by rw [patch_cell, if_pos ⟨Nat.zero_le i, by omega⟩, Nat.sub_zero]⟩

end Region

/-! ### Machine integers -/

/-- The conversion to `int`. -/
def toInt (n : ℤ) : ℤ := n.bmod (2 ^ 32)

/-- The conversion to `size_t`, of the sum that an operation wraps. -/
def toSize (n : ℕ) : ℕ := n % 2 ^ 64

/-- The conversion of an `int` to a `size_t`. -/
def sizeOfInt (n : ℤ) : ℕ := (n % 2 ^ 64).toNat

/-- The subtraction of two values of `size_t`. -/
def sizeSub (a b : ℕ) : ℕ := toSize (a + (2 ^ 64 - b))

theorem toInt_of_lt {n : ℤ} (h0 : 0 ≤ n) (hn : n < 2 ^ 31) : toInt n = n :=
  Int.bmod_eq_of_le (by omega) (by omega)

theorem toInt_lt (n : ℤ) : toInt n < 2 ^ 31 := by
  have := Int.bmod_lt (x := n) (m := 2 ^ 32) (by decide)
  unfold toInt
  omega

theorem toSize_of_lt {n : ℕ} (h : n < 2 ^ 64) : toSize n = n := Nat.mod_eq_of_lt h

theorem toInt_natCast {n : ℕ} (h : n < 2 ^ 31) : toInt n = n :=
  toInt_of_lt (by omega) (by omega)

theorem sizeOfInt_natCast {n : ℕ} (h : n < 2 ^ 31) : sizeOfInt n = n := by
  unfold sizeOfInt
  omega

theorem sizeOfInt_toInt {n : ℕ} (h : n < 2 ^ 31) : sizeOfInt (toInt n) = n := by
  -- the sign bit is clear
  rw [toInt_natCast h, sizeOfInt_natCast h]

theorem sizeSub_of_le {a b : ℕ} (ha : a < 2 ^ 64) (h : b ≤ a) : sizeSub a b = a - b := by
  unfold sizeSub toSize
  omega

end Framework
