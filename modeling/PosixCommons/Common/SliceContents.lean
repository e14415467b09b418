import PosixCommons.Common.SliceOps

/-!
# What a slice holds

`Mem.Stores` says of a slice that its first `size` bytes, in storage of its own, are a
given string. The constructors and an append are to leave a slice that stores the
string they are for, and two things come between.

* `posixc_slice_init` records the size in its inline branch only. A constructor that
  goes to the heap leaves the size that the memory held before, so what it makes is
  right only by chance (`constructors_store_iff`).
* `posixc_slice_append` writes the address of the new storage over the old one before
  it is known to be storage. On the way from the inline buffer to the heap it does
  not look at it at all, and on the way from one block to another it returns -1 with
  the old block lost (`append_atomic_iff`).
-/

open Framework

namespace Posixc

section Contents

variable {m : Mem} {s : ℕ} {xs : List UInt8}

/-- A slice that stores bytes does not point to a block that is yet to be allocated. -/
theorem Mem.Stores.buf_ne_fresh (h : m.Stores s xs) (hheap : ∀ b, m.Live b → b < m.fresh) :
    (m.slice s).buf ≠ .heap m.fresh := by
  obtain ⟨r, hbuf | ⟨b, hbuf, hblock⟩, -⟩ := h
  · rw [hbuf.1]
    exact Ptr.noConfusion
  · have hlive : m.Live b := by
      rw [Mem.Live, hblock]
      rfl
    rw [hbuf]
    exact fun he => (hheap b hlive).ne (Ptr.heap.inj he)

theorem Mem.Stores.size_eq (h : m.Stores s xs) : (m.slice s).size = xs.length := by
  obtain ⟨r, -, -, hsize⟩ := h
  exact hsize

/-! ### Constructors -/

/-- A copy past the end of the array. -/
theorem Mem.Gives.memcpy_overrun {m' : Mem} {old : Option ℕ} {r : Region UInt8}
    (h : m.Gives m' s old r) {off : ℕ} {bytes : List UInt8} (hlong : r.len < off + bytes.length) :
    m'.memcpy (m'.slice s).buf off bytes = .error .outOfBounds := by
  rw [Mem.memcpy, h.storage.target, Exec.ok_bind, Region.blit, if_neg (Nat.not_le.mpr hlong),
    Exec.error_bind]

/-- Slices that hold more than there is room for are copied past the end of the
aggregate. -/
theorem aggregationLoop_overrun {aggregate : ℕ} {value : ℕ → List UInt8} (slices : List ℕ)
    (hparts : ∀ c ∈ slices, c ≠ aggregate ∧ m.Stores c (value c) ∧
      (m.slice c).buf ≠ .heap m.fresh) :
    ∀ m₁ r ys, m.Gives m₁ aggregate none r → r.Holds ys → r.len < 2 ^ 64 →
      r.len < ys.length + (slices.flatMap value).length →
      aggregationLoop aggregate slices ys.length m₁ = .error .outOfBounds := by
  induction slices with
  | nil =>
    intro m₁ r ys _ hys _ hlong
    rw [List.flatMap_nil, List.length_nil] at hlong
    exact absurd hys.1 (Nat.not_le.mpr hlong)
  | cons c slices ih =>
    intro m₁ r ys hgives hys hlt hlong
    obtain ⟨hne, ⟨rc, hstore, hc, hsize⟩, hfresh⟩ := hparts c List.mem_cons_self
    rw [List.flatMap_cons, List.length_append] at hlong
    have hsrc : m₁.Storage c rc := hgives.frame hne hstore fun b hb =>
      ⟨fun he => hfresh (he ▸ hb), by simp⟩
    have hread : rc.readMany 0 (m₁.slice c).size = .ok (value c) := by
      rw [hgives.slices c hne, hsize, Region.readMany_of_holds hc 0 _ (by simp)]
      simp
    rw [aggregationLoop, hsrc.target, Exec.ok_bind, hread, Exec.ok_bind]
    by_cases hfit : ys.length + (value c).length ≤ r.len
    · -- this slice still fits, so a later one does not
      obtain ⟨m₂, r₂, hcopy, hgives₂, hlen₂, -, -, hholds₂⟩ :=
        hgives.memcpy ys.length (value c) hfit
      rw [hcopy, Exec.ok_bind, hgives₂.slices c hne, hsize, toSize_of_lt (by omega),
        ← List.length_append]
      exact ih (fun c' hc' => hparts c' (List.mem_cons_of_mem c hc')) m₂ r₂ (ys ++ value c)
        hgives₂ (hholds₂ ys rfl hys) (hlen₂ ▸ hlt) (by rw [hlen₂, List.length_append]; omega)
    · rw [hgives.memcpy_overrun (Nat.not_le.mp hfit), Exec.error_bind]

theorem aggregationSize_lt {slices : List ℕ} : aggregationSize m slices < 2 ^ 64 := by
  -- the last addition is one of values of `size_t`
  induction slices using List.reverseRecOn with
  | nil => exact Nat.two_pow_pos 64
  | append_singleton slices c _ =>
    rw [aggregationSize, List.foldl_append]
    exact Nat.mod_lt _ (Nat.two_pow_pos 64)

/-- Slices whose sizes do not add up to a `size_t` are not aggregated. -/
theorem sliceInitAsAggregation_overrun {aggregate : ℕ} {value : ℕ → List UInt8} {slices : List ℕ}
    (hparts : ∀ c ∈ slices, c ≠ aggregate ∧ m.Stores c (value c) ∧
      (m.slice c).buf ≠ .heap m.fresh)
    (hlong : 2 ^ 64 ≤ (slices.flatMap value).length) (m' : Mem) :
    sliceInitAsAggregation m aggregate slices true ≠ .ok m' := by
  have hlt : aggregationSize m slices < 2 ^ 64 := aggregationSize_lt
  rw [sliceInitAsAggregation]
  by_cases hzero : aggregationSize m slices = 0
  · -- the sum wrapped to zero
    rw [hzero, sliceInit, if_pos rfl, Exec.error_bind]
    intro hok
    cases hok
  · obtain ⟨m₁, r₁, hinit, hgives₁, hlen₁, -⟩ := sliceInit_spec m aggregate hzero
    have hroom : r₁.len < 2 ^ 64 := by
      rw [hlen₁, inlineCap]
      omega
    rw [hinit, Exec.ok_bind]
    have hover := aggregationLoop_overrun slices hparts m₁ r₁ [] hgives₁ (Region.holds_nil r₁)
      hroom (by rw [List.length_nil]; omega)
    rw [List.length_nil] at hover
    rw [hover]
    intro hok
    cases hok

/-- The size that a constructor records is right when the string is short, or when the
memory happened to hold that size. -/
theorem recordedSize_eq_iff {n : ℕ} :
    recordedSize m s n = n ↔ n ≤ inlineCap ∨ (m.slice s).size = n := by
  unfold recordedSize
  split_ifs with hlong
  · simp [Nat.not_le.mpr hlong]
  · exact iff_of_true rfl (.inl (Nat.not_lt.mp hlong))

/-- **What the constructors make.** An aggregate stores its parts one after the other,
and a slice of a string stores the string, exactly when that is no more than
`inline_cap` bytes, or the destination held their number as its size before. -/
theorem constructors_store_iff (m : Mem) (hheap : ∀ b, m.Live b → b < m.fresh) (s : ℕ) :
    (∀ (slices : List ℕ) (value : ℕ → List UInt8), slices ≠ [] →
      (∀ c ∈ slices, c ≠ s ∧ m.Stores c (value c) ∧ value c ≠ []) →
      ((∃ m', sliceInitAsAggregation m s slices true = .ok m' ∧
          m'.Stores s (slices.flatMap value)) ↔
        (slices.flatMap value).length ≤ inlineCap ∨
          (slices.flatMap value).length < 2 ^ 64 ∧
            (m.slice s).size = (slices.flatMap value).length)) ∧
    ∀ t, CString t →
      ((∃ m', sliceInitFrom m s (Region.ofList (t ++ [0])) true = .ok m' ∧ m'.Stores s t) ↔
        t.length ≤ inlineCap ∨ (m.slice s).size = t.length) := by
  refine ⟨fun slices value hne hparts => ?_, fun t ht => ?_⟩
  · have hreadable : ∀ c ∈ slices, c ≠ s ∧ m.Stores c (value c) ∧ (m.slice c).buf ≠ .heap m.fresh :=
      fun c hc => ⟨(hparts c hc).1, (hparts c hc).2.1, (hparts c hc).2.1.buf_ne_fresh hheap⟩
    by_cases hlt : (slices.flatMap value).length < 2 ^ 64
    · have hbytes : slices.flatMap value ≠ [] := by
        obtain ⟨c, hc⟩ := List.exists_mem_of_ne_nil slices hne
        intro hnil
        exact (hparts c hc).2.2 (List.flatMap_eq_nil_iff.mp hnil c hc)
      obtain ⟨m', r', hrun, hgives, hholds, hsize, -⟩ :=
        sliceInitAsAggregation_spec hreadable hbytes hlt
      rw [and_iff_right hlt, ← recordedSize_eq_iff, ← hsize]
      constructor
      · rintro ⟨m₁, hrun₁, hstores⟩
        obtain rfl := Except.ok.inj (hrun.symm.trans hrun₁)
        exact hstores.size_eq
      · exact fun hright => ⟨m', hrun, r', hgives.storage, hholds, hright⟩
    · -- then no size is right
      refine iff_of_false ?_ ?_
      · rintro ⟨m', hrun, -⟩
        exact sliceInitAsAggregation_overrun hreadable (Nat.not_lt.mp hlt) m' hrun
      · rw [inlineCap]
        omega
  · obtain ⟨m', r', hrun, hgives, hholds, -, hsize, -⟩ := sliceInitFrom_spec m s ht
    rw [← recordedSize_eq_iff, ← hsize]
    constructor
    · rintro ⟨m₁, hrun₁, hstores⟩
      obtain rfl := Except.ok.inj (hrun.symm.trans hrun₁)
      exact hstores.size_eq
    · exact fun hright => ⟨m', hrun, r', hgives.storage, hholds, hright⟩

/-- Slices of `n` bytes each in their inline buffers, but the slice 0, whose memory is
zeroed. -/
def filled (n : ℕ) : Mem where
  slice s := if s = 0 then ⟨fun _ => none, .null, 0⟩ else ⟨fun _ => some 97, .inline s, n⟩
  block _ := none
  fresh := 0

theorem filled_heap (n : ℕ) : ∀ b, (filled n).Live b → b < (filled n).fresh := fun b hb => by
  simp [Mem.Live, filled] at hb

theorem filled_stores {n s : ℕ} (hn : n ≤ inlineCap) (hs : s ≠ 0) :
    (filled n).Stores s (List.replicate n 97) := by
  refine ⟨⟨inlineCap, fun _ => some 97⟩, .inl ⟨?_, ?_⟩, ⟨?_, fun i hi => ?_⟩, ?_⟩
  · simp [filled, hs]
  · simp [filled, hs]
  · rwa [List.length_replicate]
  · rw [List.getElem?_eq_getElem hi, List.getElem_replicate]
  · simp [filled, hs]

/-- Two slices of one byte are aggregated, and one is made of a string. -/
theorem constructors_store_iff_short :
    (∃ m', sliceInitAsAggregation (filled 1) 0 [1, 2] true = .ok m' ∧ m'.Stores 0 [97, 97]) ∧
      ∃ m', sliceInitFrom (filled 1) 0 (Region.ofList [98, 0]) true = .ok m' ∧ m'.Stores 0 [98] := by
  have h := constructors_store_iff (filled 1) (filled_heap 1) 0
  refine ⟨(h.1 [1, 2] (fun _ => [97]) (by decide) fun c hc => ?_).mpr (.inl (by decide)),
    (h.2 [98] ⟨by decide, by decide, by decide⟩).mpr (.inl (by decide))⟩
  have hne : c ≠ 0 := by
    rintro rfl
    exact absurd hc (by decide)
  exact ⟨hne, filled_stores (by decide) hne, by decide⟩

/-- Into zeroed memory, a string of 49 bytes, and two slices of 48 bytes together. -/
theorem constructors_lose_size :
    (¬ ∃ m', sliceInitFrom (filled 48) 0 (Region.ofList (List.replicate 49 97 ++ [0])) true =
          .ok m' ∧ m'.Stores 0 (List.replicate 49 97)) ∧
      ¬ ∃ m', sliceInitAsAggregation (filled 48) 0 [1, 2] true = .ok m' ∧
          m'.Stores 0 (List.replicate 96 97) := by
  constructor
  · rintro ⟨m', hrun, hstores⟩
    obtain ⟨m₁, r₁, hrun₁, -, -, -, hsize, -⟩ :=
      sliceInitFrom_spec (filled 48) 0 (t := List.replicate 49 97) ⟨by decide, by decide, by decide⟩
    obtain rfl := Except.ok.inj (hrun₁.symm.trans hrun)
    rw [hstores.size_eq] at hsize
    exact absurd hsize (by decide)
  · rintro ⟨m', hrun, hstores⟩
    have hparts : ∀ c ∈ [1, 2], c ≠ 0 ∧ (filled 48).Stores c (List.replicate 48 97) ∧
        ((filled 48).slice c).buf ≠ .heap (filled 48).fresh := by
      intro c hc
      have hne : c ≠ 0 := by
        rintro rfl
        exact absurd hc (by decide)
      have hpart := filled_stores (n := 48) le_rfl hne
      exact ⟨hne, hpart, hpart.buf_ne_fresh (filled_heap 48)⟩
    obtain ⟨m₁, r₁, hrun₁, -, -, hsize, -⟩ :=
      sliceInitAsAggregation_spec hparts (by decide) (by decide)
    obtain rfl := Except.ok.inj (hrun₁.symm.trans hrun)
    rw [hstores.size_eq] at hsize
    exact absurd hsize (by decide)

/-! ### Appending when there is no memory -/

/-- The append asks for memory: the slice is on the heap, or what it would hold is, by
the arithmetic of the code, more than `inline_cap` bytes. -/
def AppendAllocates (m : Mem) (s : ℕ) (suffix : List UInt8) : Prop :=
  (m.slice s).buf = .inline s →
    inlineCap < toSize ((m.slice s).size + sizeOfInt (toInt suffix.length))

/-- An append that asks for memory and gets none returns -1 and leaves the slice, which
stores `xs`, as it was. -/
def AppendAtomic (m : Mem) (s : ℕ) (xs suffix : List UInt8) (succeeds : Bool) : Prop :=
  AppendAllocates m s suffix → succeeds = false →
    ∃ m', sliceAppend m s (Region.ofList (suffix ++ [0])) succeeds = .ok (-1, m') ∧
      m'.slice s = m.slice s ∧ m'.Stores s xs

/-- What a failed append comes to: a copy to a null pointer, or a slice that points
nowhere. -/
theorem sliceAppend_noMemory (hstores : m.Stores s xs) {suffix : List UInt8} (hnul : 0 ∉ suffix)
    (hallocates : AppendAllocates m s suffix) :
    sliceAppend m s (Region.ofList (suffix ++ [0])) false =
      if (m.slice s).buf = .inline s then .error .outOfBounds
      else .ok (-1, m.setSlice s { m.slice s with buf := .null }) := by
  obtain ⟨r, hstore, hholds, hsize⟩ := hstores
  rw [sliceAppend, strlen_spec (Region.holds_ofList _) hnul, Exec.ok_bind]
  rcases hstore with ⟨hbuf, rfl⟩ | ⟨b, hbuf, hblock⟩
  · have hread : (⟨inlineCap, (m.slice s).inlinebuf⟩ : Region UInt8).readMany 0
        (m.slice s).size = .ok xs := by
      rw [Region.readMany_of_holds hholds 0 _ (by omega), hsize, List.drop_zero, List.take_length]
    have htotal := hallocates hbuf
    rw [if_pos hbuf, if_pos hbuf]
    dsimp only
    rw [if_pos htotal]
    -- the old bytes are there to be copied, and the new storage is not
    simp only [Mem.malloc, Bool.false_eq_true, if_false, Mem.target, Mem.setSlice_self, Exec.ok_bind,
      hread, Mem.memcpy, Exec.error_bind]
  · have hnot : (m.slice s).buf ≠ .inline s := by
      rw [hbuf]
      exact Ptr.noConfusion
    rw [if_neg hnot, if_neg hnot]
    simp only [hbuf, Mem.realloc, hblock, Bool.false_eq_true, if_false, Exec.ok_bind, if_true,
      Exec.pure_eq_ok]

/-- **When an append is atomic.** It is as long as it gets the memory it asks for, or
asks for none, and never when an allocation fails. -/
theorem append_atomic_iff (hstores : m.Stores s xs) {suffix : List UInt8} (hnul : 0 ∉ suffix)
    (succeeds : Bool) :
    AppendAtomic m s xs suffix succeeds ↔
      succeeds = true ∨
        (m.slice s).buf = .inline s ∧
          toSize ((m.slice s).size + sizeOfInt (toInt suffix.length)) ≤ inlineCap := by
  have hcond : (m.slice s).buf = .inline s ∧
      toSize ((m.slice s).size + sizeOfInt (toInt suffix.length)) ≤ inlineCap ↔
        ¬ AppendAllocates m s suffix := by
    rw [AppendAllocates, Classical.not_imp, Nat.not_lt]
  rw [hcond]
  constructor
  · intro hatomic
    by_contra hno
    obtain ⟨hfails, hallocates⟩ := not_or.mp hno
    obtain rfl : succeeds = false := by simpa using hfails
    obtain ⟨m', hrun, hkept, -⟩ := hatomic (not_not.mp hallocates) rfl
    rw [sliceAppend_noMemory hstores hnul (not_not.mp hallocates)] at hrun
    split_ifs at hrun
    obtain rfl := congrArg Prod.snd (Except.ok.inj hrun)
    -- a slice that stores something does not point nowhere
    obtain ⟨r, hstore, -⟩ := hstores
    have hnull := congrArg Slice.buf hkept
    rw [Mem.setSlice_self] at hnull
    rcases hstore with ⟨hbuf, -⟩ | ⟨b, hbuf, -⟩ <;> rw [hbuf] at hnull <;> cases hnull
  · rintro (rfl | hnone) hallocates hfails
    · cases hfails
    · exact absurd hallocates hnone

end Contents

/-- An append that stays in the inline buffer. -/
theorem append_atomic_iff_inline : AppendAtomic (filled 1) 1 [97] [98] false :=
  (append_atomic_iff (filled_stores (by decide) (by decide)) (by decide) false).mpr
    (.inr ⟨by decide, by decide⟩)

/-- A slice of 49 bytes on the heap. -/
def onHeap : Mem where
  slice _ := ⟨fun _ => none, .heap 0, 49⟩
  block b := if b = 0 then some ⟨49, fun _ => some 97⟩ else none
  fresh := 1

/-- The inline buffer is full and `malloc` fails, and the block is full and `realloc`
does. -/
theorem append_not_atomic :
    ¬ AppendAtomic (filled 48) 1 (List.replicate 48 97) [98] false ∧
      ¬ AppendAtomic onHeap 0 (List.replicate 49 97) [98] false := by
  constructor
  · intro h
    obtain ⟨m', hrun, -⟩ := h (fun _ => by decide) rfl
    cases hrun
  · intro h
    obtain ⟨m', hrun, hkept, -⟩ := h nofun rfl
    obtain rfl := congrArg Prod.snd (Except.ok.inj hrun)
    exact absurd (congrArg Slice.buf hkept) (by decide)

end Posixc
