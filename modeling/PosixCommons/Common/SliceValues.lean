import PosixCommons.Common.SliceOps
import PosixCommons.Framework.Runs

/-!
# Slices as byte strings

What a family of slices is for: each stands for a byte string, `posixc_slice_copy`
is an assignment and `posixc_slice_append` a concatenation. `valueSystem` is that
reading, without buffers, blocks or capacities; `Family` relates it to the memory.

Every copy and every append of the family is one step of `valueSystem`
(`Family.step`): the slice it names gets an array that holds its new value, and all
others keep theirs, since no two hold one block. Runs follow by the simulation
rule.
-/

open Framework

namespace Posixc

/-- A copy or an append. -/
inductive SliceOp where
  | copy (dst src : ℕ)
  | append (text : ℕ) (suffix : List UInt8)

/-- The call, with every allocation succeeding and the suffix a string in memory of
its own. -/
def SliceOp.apply (m : Mem) : SliceOp → Exec Mem
  | .copy dst src => sliceCopy m dst src true
  | .append text suffix => do
    let (_, m) ← sliceAppend m text (Region.ofList (suffix ++ [0])) true
    return m

/-- Assignments and concatenations of byte strings: between two different names of
the family, and up to a total length below `2 ^ 31`. -/
def valueSystem (fam : Finset ℕ) : System (ℕ → List UInt8) SliceOp where
  init _ := True
  next v
    | .copy dst src =>
      if dst ∈ fam ∧ src ∈ fam ∧ dst ≠ src then some (Function.update v dst (v src)) else none
    | .append text suffix =>
      if text ∈ fam ∧ 0 ∉ suffix ∧ (v text ++ suffix).length < 2 ^ 31 then
        some (Function.update v text (v text ++ suffix))
      else none

/-- The slices of the family hold the values `v`, each in an array of its own. -/
structure Family (fam : Finset ℕ) (v : ℕ → List UInt8) (m : Mem) : Prop where
  stores : ∀ s ∈ fam, m.Stores s (v s)
  sole : Sole (m.holder fam) m.Live m.fresh

section Family

variable {fam : Finset ℕ} {v v' : ℕ → List UInt8} {m m' : Mem} {s : ℕ} {r : Region UInt8}
  {old : Option ℕ} {xs : List UInt8}

/-- One slice gets an array with a new value. -/
theorem Family.update (h : Family fam v m) (hgives : m.Gives m' s old r)
    (hold : ∀ b, old = some b → m.holder fam s = some b) (hxs : r.Holds xs)
    (hsize : (m'.slice s).size = xs.length) : Family fam (Function.update v s xs) m' := by
  refine ⟨fun s' hs' => ?_, hgives.sole h.sole (fun _ _ => Iff.rfl) hold⟩
  by_cases hne : s' = s
  · subst hne
    rw [Function.update_self]
    exact ⟨r, hgives.storage, hxs, hsize⟩
  · -- another slice
    obtain ⟨r', hstore, hholds, hlen⟩ := h.stores s' hs'
    rw [Function.update_of_ne hne]
    exact ⟨r', hgives.frame_of_sole h.sole hold hs' hne hstore, hholds,
      by rw [hgives.slices s' hne, hlen]⟩

/-- **One operation.** -/
theorem Family.step {op : SliceOp} (h : Family fam v m)
    (hnext : (valueSystem fam).next v op = some v') :
    ∃ m', op.apply m = .ok m' ∧ Family fam v' m' := by
  cases op with
  | copy dst src =>
    change (if _ then _ else _) = some v' at hnext
    split_ifs at hnext with hlegal
    obtain ⟨hdst, hsrc, hne⟩ := hlegal
    obtain rfl := Option.some.inj hnext
    obtain ⟨r, hstore, hholds, hsize⟩ := h.stores src hsrc
    obtain ⟨m', r', hrun, hgives, hholds', hsize', -⟩ :=
      sliceCopy_spec hne hstore hholds hsize (Mem.buf_ne_fresh h.sole hsrc)
    exact ⟨m', hrun, h.update hgives (fun _ he => nomatch he) hholds' hsize'⟩
  | append text suffix =>
    change (if _ then _ else _) = some v' at hnext
    split_ifs at hnext with hlegal
    obtain ⟨htext, hnul, htotal⟩ := hlegal
    obtain rfl := Option.some.inj hnext
    rw [List.length_append] at htotal
    obtain ⟨r, hstore, hholds, hsize⟩ := h.stores text htext
    -- what is in an inline buffer fits there
    have hinline : (m.slice text).buf = .inline text →
        (m.slice text).size ≤ inlineCap ∧ ∃ xs, r.Holds xs ∧ xs.length = (m.slice text).size := by
      intro hbuf
      have hcap : r.len = inlineCap := by
        rcases hstore with ⟨-, rfl⟩ | ⟨b, hheap, -⟩
        · rfl
        · rw [hheap] at hbuf
          cases hbuf
      exact ⟨by rw [hsize, ← hcap]; exact hholds.1, v text, hholds, hsize.symm⟩
    obtain ⟨m', hrun, r', old, hgives, hsize', -, hold, hholds'⟩ :=
      sliceAppend_spec hnul (by omega) (by omega) hstore hinline
    refine ⟨m', ?_, h.update hgives (fun b he => ?_) (hholds' _ hsize.symm hholds) ?_⟩
    · rw [SliceOp.apply, hrun]
      rfl
    · exact Mem.holder_eq_some.mpr ⟨htext, (hold b).mp he⟩
    · rw [hsize', hsize, List.length_append]

end Family

/-- **Value semantics.** Slices that hold values, each in an inline buffer or a
block of its own, hold after any sequence of copies and appends what the same
assignments and concatenations make of the values, and no operation accesses memory
outside the arrays. -/
theorem slices_refine_values (fam : Finset ℕ) (v v' : ℕ → List UInt8) (m : Mem)
    (hm : Family fam v m) (ops : List SliceOp) (hrun : (valueSystem fam).run v ops = some v') :
    ∃ m', ops.foldlM SliceOp.apply m = .ok m' ∧ Family fam v' m' :=
  System.run_simulates (R := Family fam) (fun _ _ _ _ h hnext => h.step hnext) hm hrun

/-- Slices that are all empty. -/
def emptySlices : Mem := ⟨fun s => ⟨fun _ => none, .inline s, 0⟩, fun _ => none, 0⟩

/-- Two slices: one is appended to and copied to the other, and that one is appended to until
it moves to the heap. -/
theorem slices_refine_values_two :
    ∃ m', [SliceOp.append 0 [97], .copy 1 0, .append 1 (List.replicate 60 98)].foldlM
        SliceOp.apply emptySlices = .ok m' ∧
      Family {0, 1} (Function.update (Function.update (fun _ => []) 0 [97]) 1
        ([97] ++ List.replicate 60 98)) m' ∧
      ∃ b, (m'.slice 1).buf = .heap b := by
  have hstart : Family {0, 1} (fun _ => []) emptySlices := by
    refine ⟨fun s _ => ⟨_, .inl ⟨rfl, rfl⟩, Region.holds_nil _, rfl⟩, ?_⟩
    -- nothing is on the heap
    have hnone : ∀ s, emptySlices.holder {0, 1} s = none := fun s => by
      unfold Mem.holder
      split_ifs <;> rfl
    exact ⟨fun s b hb => by simp [hnone] at hb, fun s s' b hb => by simp [hnone] at hb,
      fun b hb => by simp [Mem.Live, emptySlices] at hb⟩
  have hvalues : (valueSystem {0, 1}).run (fun _ => [])
      [.append 0 [97], .copy 1 0, .append 1 (List.replicate 60 98)] =
        some (Function.update (Function.update (fun _ => []) 0 [97]) 1
          ([97] ++ List.replicate 60 98)) := by
    simp [valueSystem, System.run]
  obtain ⟨m', hrun, h⟩ := slices_refine_values _ _ _ _ hstart _ hvalues
  refine ⟨m', hrun, h, ?_⟩
  obtain ⟨r, hstore, hholds, -⟩ := h.stores 1 (by decide)
  rcases hstore with ⟨-, rfl⟩ | ⟨b, hheap, -⟩
  · -- 61 bytes do not fit in an inline buffer
    exact absurd (show 61 ≤ inlineCap from hholds.1) (by decide)
  · exact ⟨b, hheap⟩

end Posixc
