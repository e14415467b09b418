import PosixCommons.Common.Slice
import PosixCommons.Common.Utils
import PosixCommons.Framework.Ownership
import Mathlib.Data.Finset.Basic

/-!
# Storage of slices

The functions of `common/slice.c` that choose, replace or release the array a
slice keeps its bytes in: copy, append, aggregation, the conversions from numbers
and destroy. Each decides between the inline buffer and the heap with a comparison
of its own.

An operation on the slice `s` gives it an array in the sense of `Mem.Gives`: it leaves
all other slices alone, allocates at most one block, and releases at most the old
block of `s`. Each function has one specification, in terms of what the array held
before, and `Mem.holder` turns that into who owns which block.
-/

open Framework

namespace Posixc

namespace Mem

/-- `free`, of a null pointer or a live block. -/
def free (m : Mem) : Ptr → Exec Mem
  | .null => .ok m
  | .inline _ => .error .outOfBounds
  | .heap b => match m.block b with
    | some _ => .ok { m with block := Function.update m.block b none }
    | none => .error .outOfBounds

/-- `realloc`. The new block has the cells of the old one, as far as they reach, and
the old one is gone. On failure the old one stays, and the result is null. -/
def realloc (m : Mem) (p : Ptr) (n : ℕ) (succeeds : Bool) : Exec (Mem × Ptr) :=
  match p with
  | .null => .ok (m.malloc n succeeds)
  | .inline _ => .error .outOfBounds
  | .heap b => match m.block b with
    | none => .error .outOfBounds
    | some r =>
      if succeeds then
        .ok ({ m with
          block := Function.update (Function.update m.block b none) m.fresh
            (some ⟨n, fun i => if i < r.len then r.cell i else none⟩)
          fresh := m.fresh + 1 }, .heap m.fresh)
      else .ok (m, .null)

end Mem

/-- `posixc_slice_destroy`. -/
def sliceDestroy (m : Mem) (slice : ℕ) : Exec Mem :=
  if inlineCap < (m.slice slice).size then m.free (m.slice slice).buf else .ok m

/-- The second loop of `posixc_slice_init_as_aggregation`. -/
def aggregationLoop (aggregate : ℕ) : List ℕ → ℕ → Mem → Exec Mem
  | [], _, m => .ok m
  | current :: slices, pos, m => do
    let r ← m.target (m.slice current).buf
    let bytes ← r.readMany 0 (m.slice current).size
    let m ← m.memcpy (m.slice aggregate).buf pos bytes
    aggregationLoop aggregate slices (toSize (pos + (m.slice current).size)) m

/-- The first loop of `posixc_slice_init_as_aggregation`. -/
def aggregationSize (m : Mem) (slices : List ℕ) : ℕ :=
  slices.foldl (fun size current => toSize (size + (m.slice current).size)) 0

/-- `posixc_slice_init_as_aggregation`. -/
def sliceInitAsAggregation (m : Mem) (aggregate : ℕ) (slices : List ℕ) (succeeds : Bool) :
    Exec Mem := do
  let m ← sliceInit m aggregate (aggregationSize m slices) succeeds
  aggregationLoop aggregate slices 0 m

/-- `posixc_slice_copy`. -/
def sliceCopy (m : Mem) (dst src : ℕ) (succeeds : Bool) : Exec Mem := do
  let m := m.setSlice dst { m.slice dst with size := (m.slice src).size }
  let m :=
    if (m.slice dst).size < inlineCap then m.setSlice dst { m.slice dst with buf := .inline dst }
    else
      let (m, p) := m.malloc (m.slice src).size succeeds
      m.setSlice dst { m.slice dst with buf := p }
  let r ← m.target (m.slice src).buf
  let bytes ← r.readMany 0 (m.slice src).size
  m.memcpy (m.slice dst).buf 0 bytes

/-- The last lines of `posixc_slice_append`, once there is room. -/
def sliceAppendTail (m : Mem) (text : ℕ) (suffix : Region UInt8) (size : ℕ) :
    Exec (ℤ × Mem) := do
  let bytes ← suffix.readMany 0 size
  let m ← m.memcpy (m.slice text).buf (m.slice text).size bytes
  return (0, m.setSlice text
    { m.slice text with size := toSize ((m.slice text).size + size) })

/-- `posixc_slice_append`. -/
def sliceAppend (m : Mem) (text : ℕ) (suffix : Region UInt8) (succeeds : Bool) :
    Exec (ℤ × Mem) := do
  let n ← strlen suffix
  let size := sizeOfInt (toInt n)
  let total := toSize ((m.slice text).size + size)
  if (m.slice text).buf = .inline text then
    if inlineCap < total then
      let (m, p) := m.malloc total succeeds
      let m := m.setSlice text { m.slice text with buf := p }
      let inlinebuf ← m.target (.inline text)
      let bytes ← inlinebuf.readMany 0 (m.slice text).size
      let m ← m.memcpy (m.slice text).buf 0 bytes
      sliceAppendTail m text suffix size
    else sliceAppendTail m text suffix size
  else
    let (m, p) ← m.realloc (m.slice text).buf total succeeds
    let m := m.setSlice text { m.slice text with buf := p }
    if p = .null then return (-1, m)
    else sliceAppendTail m text suffix size

/-- A structure returned by value: the caller's slice gets the fields of `frame`,
the callee's, with `buf` as it is. -/
def Mem.returnSlice (m : Mem) (slice frame : ℕ) (size : ℤ) (inlinebuf : Region UInt8) : Mem :=
  m.setSlice slice { inlinebuf := inlinebuf.cell, buf := .inline frame, size := sizeOfInt size }

/-- `posixc_slice_parse_int`, assigned to `slice`. -/
def sliceParseInt (m : Mem) (slice frame : ℕ) (x : ℤ) : Exec Mem := do
  let (size, inlinebuf) ← itoa x ⟨inlineCap, (m.slice frame).inlinebuf⟩ 0
  return m.returnSlice slice frame size inlinebuf

/-- `posixc_slice_parse_float`, assigned to `slice`. -/
def sliceParseFloat (m : Mem) (slice frame : ℕ) (x : Decimal) (afterpoints : ℤ) : Exec Mem := do
  let (size, inlinebuf) ←
    ftoaWithinGivenBytes x ⟨inlineCap, (m.slice frame).inlinebuf⟩ afterpoints 48
  return m.returnSlice slice frame size inlinebuf

/-- `posixc_slice_parse_double`, assigned to `slice`. -/
def sliceParseDouble (m : Mem) (slice frame : ℕ) (x : Decimal) (afterpoints : ℤ) : Exec Mem := do
  let (size, inlinebuf) ←
    dtoaWithinGivenBytes x ⟨inlineCap, (m.slice frame).inlinebuf⟩ afterpoints 48
  return m.returnSlice slice frame size inlinebuf

/-! ### Storage -/

/-- The slice's first `size` bytes are `xs`. -/
def Mem.Stores (m : Mem) (s : ℕ) (xs : List UInt8) : Prop :=
  ∃ r, m.Storage s r ∧ r.Holds xs ∧ (m.slice s).size = xs.length

section Storage

variable {m m' : Mem} {s : ℕ} {r : Region UInt8} {old : Option ℕ}

/-- Nothing done, by a slice that points to its inline buffer. -/
theorem Mem.gives_refl (h : (m.slice s).buf = .inline s) :
    m.Gives m s none ⟨inlineCap, (m.slice s).inlinebuf⟩ :=
  ⟨.inl ⟨h, rfl, rfl, rfl⟩, fun _ _ => rfl, fun b _ => by simp⟩

/-- The size may change as well. -/
theorem Mem.Gives.setSize (h : m.Gives m' s old r) (n : ℕ) :
    m.Gives (m'.setSlice s { m'.slice s with size := n }) s old r := by
  refine ⟨h.place.imp (fun hin => by simpa using hin) (fun hheap => by simpa using hheap),
    fun s' hs' => ?_, h.blocks⟩
  rw [Mem.setSlice_of_ne _ _ hs', h.slices s' hs']

/-- Pointing a slice to what `realloc` makes of its block. -/
theorem Mem.gives_realloc {v : Slice} {n b : ℕ} (hb : m.block b = some r)
    (hv : v.buf = .heap m.fresh) :
    ∃ m' r', m.realloc (.heap b) n true = .ok (m', .heap m.fresh) ∧ m'.slice = m.slice ∧
      m.Gives (m'.setSlice s v) s (some b) r' ∧ r'.len = n ∧
      ∀ xs, xs.length ≤ n → r.Holds xs → r'.Holds xs := by
  refine ⟨{ m with
    block := Function.update (Function.update m.block b none) m.fresh
      (some ⟨n, fun i => if i < r.len then r.cell i else none⟩)
    fresh := m.fresh + 1 }, ⟨n, fun i => if i < r.len then r.cell i else none⟩, ?_, rfl, ?_, rfl,
    ?_⟩
  · rw [Mem.realloc, hb]
    rfl
  · refine ⟨.inr ?_, fun s' hs' => by simp [hs'], fun b' hb' => ?_⟩
    · simp [hv]
    · simp only [Mem.setSlice_block, Function.update_of_ne hb', Option.some.injEq]
      split_ifs with heq
      · rw [heq, Function.update_self]
      · rw [Function.update_of_ne (Ne.symm heq)]
  · -- what the block held is within its old length
    intro xs hn hxs
    refine ⟨hn, fun i hi => ?_⟩
    rw [← hxs.2 i hi]
    exact if_pos (lt_of_lt_of_le hi hxs.1)

end Storage

/-! ### What the functions do -/

section Functions

variable {m : Mem} {s : ℕ} {r : Region UInt8}

/-- **Copying a slice.** The copy has an array of its own, in its inline buffer when
there are fewer than `inline_cap` bytes. -/
theorem sliceCopy_spec {dst src : ℕ} {xs : List UInt8} (hne : dst ≠ src)
    (hstore : m.Storage src r) (hxs : r.Holds xs) (hsize : (m.slice src).size = xs.length)
    (hfresh : (m.slice src).buf ≠ .heap m.fresh) :
    ∃ m' r', sliceCopy m dst src true = .ok m' ∧ m.Gives m' dst none r' ∧ r'.Holds xs ∧
      (m'.slice dst).size = xs.length ∧
      ((m'.slice dst).buf = .inline dst ↔ xs.length < inlineCap) := by
  -- the choice of the array
  obtain ⟨m₁, r₁, hchoice, hgives₁, hfit, hsize₁, hbuf₁⟩ : ∃ m₁ r₁,
      (if (m.slice src).size < inlineCap then
          m.setSlice dst ⟨(m.slice dst).inlinebuf, .inline dst, (m.slice src).size⟩
        else (m.malloc (m.slice src).size true).1.setSlice dst
          ⟨(m.slice dst).inlinebuf, .heap m.fresh, (m.slice src).size⟩) = m₁ ∧
      m.Gives m₁ dst none r₁ ∧ xs.length ≤ r₁.len ∧ (m₁.slice dst).size = xs.length ∧
      ((m₁.slice dst).buf = .inline dst ↔ xs.length < inlineCap) := by
    by_cases hshort : (m.slice src).size < inlineCap
    · refine ⟨_, _, if_pos hshort, Mem.gives_inline rfl, by rw [← hsize]; exact hshort.le, ?_, ?_⟩
      · simp [hsize]
      · simpa [← hsize] using hshort
    · refine ⟨_, _, if_neg hshort, Mem.gives_malloc rfl, hsize.ge, ?_, ?_⟩
      · simp [hsize]
      · simpa [← hsize] using hshort
  -- the source is as it was
  have hsrc : m₁.Storage src r := hgives₁.frame hne.symm hstore fun b hb =>
    ⟨fun he => hfresh (he ▸ hb), by simp⟩
  obtain ⟨m₂, r₂, hcopy, hgives₂, -, hsize₂, hbuf₂, hholds⟩ :=
    hgives₁.memcpy 0 xs (by omega)
  refine ⟨m₂, r₂, ?_, hgives₂, hholds [] rfl (Region.holds_nil r₁), hsize₂.trans hsize₁, ?_⟩
  · have hread : r.readMany 0 (m₁.slice src).size = .ok xs := by
      rw [hgives₁.slices src hne.symm, hsize, Region.readMany_of_holds hxs 0 _ (by simp)]
      simp
    have hrun : sliceCopy m dst src true = (do
        let r ← m₁.target (m₁.slice src).buf
        let bytes ← r.readMany 0 (m₁.slice src).size
        m₁.memcpy (m₁.slice dst).buf 0 bytes) := by
      rw [← hchoice, sliceCopy]
      simp [hne.symm]
    rw [hrun, hsrc.target, Exec.ok_bind, hread, Exec.ok_bind, hcopy]
  · rw [hbuf₂]
    exact hbuf₁

theorem aggregationSize_spec {slices : List ℕ}
    (hlt : (slices.map fun c => (m.slice c).size).sum < 2 ^ 64) :
    aggregationSize m slices = (slices.map fun c => (m.slice c).size).sum := by
  -- no partial sum wraps
  have hfold : ∀ (slices : List ℕ) (n : ℕ),
      n + (slices.map fun c => (m.slice c).size).sum < 2 ^ 64 →
      slices.foldl (fun size c => toSize (size + (m.slice c).size)) n =
        n + (slices.map fun c => (m.slice c).size).sum := by
    intro slices
    induction slices with
    | nil => intro n _; rfl
    | cons c slices ih =>
      intro n hn
      rw [List.map_cons, List.sum_cons, ← Nat.add_assoc] at hn ⊢
      rw [List.foldl_cons, toSize_of_lt (by omega), ih _ hn]
  rw [aggregationSize, hfold slices 0 (by omega), Nat.zero_add]

theorem sum_size_eq {slices : List ℕ} {value : ℕ → List UInt8}
    (h : ∀ c ∈ slices, m.Stores c (value c)) :
    (slices.map fun c => (m.slice c).size).sum = (slices.flatMap value).length := by
  have hsizes : slices.map (fun c => (m.slice c).size) = slices.map fun c => (value c).length :=
    List.map_congr_left fun c hc => by
      obtain ⟨r, -, -, hsize⟩ := h c hc
      exact hsize
  rw [hsizes, List.length_flatMap]

/-- The aggregation copies the slices one after the other. -/
theorem aggregationLoop_spec {aggregate : ℕ} {value : ℕ → List UInt8} (slices : List ℕ)
    (hparts : ∀ c ∈ slices, c ≠ aggregate ∧ m.Stores c (value c) ∧
      (m.slice c).buf ≠ .heap m.fresh) :
    ∀ m₁ r ys, m.Gives m₁ aggregate none r → r.Holds ys → r.len < 2 ^ 64 →
      ys.length + (slices.flatMap value).length ≤ r.len →
      ∃ m₂ r₂, aggregationLoop aggregate slices ys.length m₁ = .ok m₂ ∧
        m.Gives m₂ aggregate none r₂ ∧ r₂.Holds (ys ++ slices.flatMap value) ∧
        (m₂.slice aggregate).size = (m₁.slice aggregate).size ∧
        (m₂.slice aggregate).buf = (m₁.slice aggregate).buf := by
  induction slices with
  | nil =>
    intro m₁ r ys hgives hys _ _
    exact ⟨m₁, r, rfl, hgives, by simpa using hys, rfl, rfl⟩
  | cons c slices ih =>
    intro m₁ r ys hgives hys hlt hfit
    obtain ⟨hne, ⟨rc, hstore, hc, hsize⟩, hfresh⟩ := hparts c List.mem_cons_self
    rw [List.flatMap_cons, List.length_append] at hfit
    -- the slice `c` is as it was before the aggregate got its array
    have hsrc : m₁.Storage c rc := hgives.frame hne hstore fun b hb =>
      ⟨fun he => hfresh (he ▸ hb), by simp⟩
    have hread : rc.readMany 0 (m₁.slice c).size = .ok (value c) := by
      rw [hgives.slices c hne, hsize, Region.readMany_of_holds hc 0 _ (by simp)]
      simp
    obtain ⟨m₂, r₂, hcopy, hgives₂, hlen₂, hsize₂, hbuf₂, hholds₂⟩ :=
      hgives.memcpy ys.length (value c) (by omega)
    obtain ⟨m₃, r₃, hloop, hgives₃, hholds₃, hsize₃, hbuf₃⟩ :=
      ih (fun c' hc' => hparts c' (List.mem_cons_of_mem c hc')) m₂ r₂ (ys ++ value c) hgives₂
        (hholds₂ ys rfl hys) (hlen₂ ▸ hlt) (by rw [hlen₂, List.length_append]; omega)
    refine ⟨m₃, r₃, ?_, hgives₃, ?_, hsize₃.trans hsize₂, hbuf₃.trans hbuf₂⟩
    · rw [aggregationLoop, hsrc.target, Exec.ok_bind, hread, Exec.ok_bind, hcopy, Exec.ok_bind,
        hgives₂.slices c hne, hsize, toSize_of_lt (by omega), ← List.length_append]
      exact hloop
    · rwa [List.flatMap_cons, ← List.append_assoc]

/-- **Aggregating slices.** -/
theorem sliceInitAsAggregation_spec {aggregate : ℕ} {value : ℕ → List UInt8} {slices : List ℕ}
    (hparts : ∀ c ∈ slices, c ≠ aggregate ∧ m.Stores c (value c) ∧
      (m.slice c).buf ≠ .heap m.fresh)
    (hne : slices.flatMap value ≠ []) (hlt : (slices.flatMap value).length < 2 ^ 64) :
    ∃ m' r', sliceInitAsAggregation m aggregate slices true = .ok m' ∧
      m.Gives m' aggregate none r' ∧ r'.Holds (slices.flatMap value) ∧
      (m'.slice aggregate).size = recordedSize m aggregate (slices.flatMap value).length ∧
      ((m'.slice aggregate).buf = .inline aggregate ↔
        (slices.flatMap value).length ≤ inlineCap) := by
  have hsum := sum_size_eq fun c hc => (hparts c hc).2.1
  have htotal : aggregationSize m slices = (slices.flatMap value).length := by
    rw [aggregationSize_spec (by rwa [hsum]), hsum]
  obtain ⟨m₁, r₁, hinit, hgives₁, hlen₁, hsize₁, hbuf₁⟩ := sliceInit_spec m aggregate
    (n := (slices.flatMap value).length) (fun h => hne (List.length_eq_zero_iff.mp h))
  have hroom : r₁.len < 2 ^ 64 := by
    rw [hlen₁, inlineCap]
    omega
  obtain ⟨m₂, r₂, hloop, hgives₂, hholds, hsize₂, hbuf₂⟩ := aggregationLoop_spec slices hparts m₁ r₁
    [] hgives₁ (Region.holds_nil r₁) hroom (by simp [hlen₁])
  refine ⟨m₂, r₂, ?_, hgives₂, by simpa using hholds, hsize₂.trans hsize₁, ?_⟩
  · rw [sliceInitAsAggregation, htotal, hinit, Exec.ok_bind]
    exact hloop
  · rw [hbuf₂]
    exact hbuf₁

/-- **The end of an append**, in an array with room for the suffix. -/
theorem sliceAppendTail_spec {m₁ : Mem} {old : Option ℕ} (h : m.Gives m₁ s old r)
    (suffix : List UInt8) (hfit : (m₁.slice s).size + suffix.length ≤ r.len)
    (htotal : (m₁.slice s).size + suffix.length < 2 ^ 64) :
    ∃ m₂ r₂, sliceAppendTail m₁ s (Region.ofList (suffix ++ [0])) suffix.length = .ok (0, m₂) ∧
      m.Gives m₂ s old r₂ ∧ (m₂.slice s).size = (m₁.slice s).size + suffix.length ∧
      (m₂.slice s).buf = (m₁.slice s).buf ∧
      ∀ ys, ys.length = (m₁.slice s).size → r.Holds ys → r₂.Holds (ys ++ suffix) := by
  have hbytes : (Region.ofList (suffix ++ [0])).readMany 0 suffix.length = .ok suffix := by
    rw [Region.readMany_of_holds (Region.holds_ofList _) 0 suffix.length (by simp)]
    simp
  obtain ⟨m₂, r₂, hcopy, hgives, -, hsize, hbuf, hholds⟩ := h.memcpy _ suffix hfit
  refine ⟨_, r₂, ?_, hgives.setSize (toSize ((m₂.slice s).size + suffix.length)), ?_, ?_, hholds⟩
  · rw [sliceAppendTail, hbytes, Exec.ok_bind, hcopy, Exec.ok_bind]
    rfl
  · rw [Mem.setSlice_self, hsize, toSize_of_lt htotal]
  · rw [Mem.setSlice_self, hbuf]

/-- What an append leaves of the slice `s`, of `m`: an array with the suffix behind what
it held, in the inline buffer as long as it fits there. -/
def Mem.Appended (m : Mem) (s : ℕ) (r : Region UInt8) (suffix : List UInt8) (m' : Mem) : Prop :=
  ∃ r' old, m.Gives m' s old r' ∧ (m'.slice s).size = (m.slice s).size + suffix.length ∧
    ((m'.slice s).buf = .inline s ↔
      (m.slice s).buf = .inline s ∧ (m.slice s).size + suffix.length ≤ inlineCap) ∧
    (∀ b, old = some b ↔ (m.slice s).buf = .heap b) ∧
    ∀ ys, ys.length = (m.slice s).size → r.Holds ys → r'.Holds (ys ++ suffix)

/-- There is room in the inline buffer. -/
theorem sliceAppendTail_inline {suffix : List UInt8} (hbuf : (m.slice s).buf = .inline s)
    (hfit : (m.slice s).size + suffix.length ≤ inlineCap) :
    ∃ m', sliceAppendTail m s (Region.ofList (suffix ++ [0])) suffix.length = .ok (0, m') ∧
      m.Appended s ⟨inlineCap, (m.slice s).inlinebuf⟩ suffix m' := by
  obtain ⟨m', r', htail, hgives, hsize, hbuf', hholds⟩ :=
    sliceAppendTail_spec (Mem.gives_refl hbuf) suffix hfit (by rw [inlineCap] at hfit; omega)
  refine ⟨m', htail, r', none, hgives, hsize, ?_, fun b => by simp [hbuf], hholds⟩
  rw [hbuf']
  exact ⟨fun hin => ⟨hin, hfit⟩, And.left⟩

/-- The bytes move from the inline buffer to a block. -/
theorem sliceAppend_moves {suffix xs : List UInt8} (hbuf : (m.slice s).buf = .inline s)
    (hxs : Region.Holds ⟨inlineCap, (m.slice s).inlinebuf⟩ xs)
    (hlen : xs.length = (m.slice s).size)
    (htotal : (m.slice s).size + suffix.length < 2 ^ 64)
    (hlong : inlineCap < (m.slice s).size + suffix.length) {m₁ : Mem}
    (hm₁ : m₁ = (m.malloc ((m.slice s).size + suffix.length) true).1.setSlice s
      { m.slice s with buf := .heap m.fresh }) :
    ∃ m₂ m', m₁.memcpy (m₁.slice s).buf 0 xs = .ok m₂ ∧
      sliceAppendTail m₂ s (Region.ofList (suffix ++ [0])) suffix.length = .ok (0, m') ∧
      m.Appended s ⟨inlineCap, (m.slice s).inlinebuf⟩ suffix m' := by
  have hgives₁ : m.Gives m₁ s none (Region.alloc ((m.slice s).size + suffix.length)) :=
    hm₁ ▸ Mem.gives_malloc rfl
  have hslice₁ : m₁.slice s = { m.slice s with buf := .heap m.fresh } := by rw [hm₁, Mem.setSlice_self]
  obtain ⟨m₂, r₂, hcopy, hgives₂, hlen₂, hsize₂, hbuf₂, hholds₂⟩ :=
    hgives₁.memcpy 0 xs (by rw [Region.alloc_len]; omega)
  rw [hslice₁] at hsize₂ hbuf₂
  dsimp only at hsize₂ hbuf₂
  obtain ⟨m₃, r₃, htail, hgives₃, hsize₃, hbuf₃, hholds₃⟩ :=
    sliceAppendTail_spec hgives₂ suffix (by rw [hlen₂, Region.alloc_len, hsize₂])
      (by rw [hsize₂]; exact htotal)
  refine ⟨m₂, m₃, hcopy, htail, r₃, none, hgives₃, by rw [hsize₃, hsize₂], ?_,
    fun b => by simp [hbuf], fun ys hys hr => hholds₃ ys (by rw [hys, hsize₂]) ?_⟩
  · rw [hbuf₃, hbuf₂]
    simp only [reduceCtorEq, false_iff, not_and]
    exact fun _ => Nat.not_le.mpr hlong
  · -- what the buffer held is what was moved
    obtain rfl : ys = xs := hr.unique hxs (hys.trans hlen.symm)
    exact hholds₂ [] rfl (Region.holds_nil _)

/-- The block is exchanged for one with room. -/
theorem sliceAppend_reallocs {suffix : List UInt8} {b : ℕ} (hbuf : (m.slice s).buf = .heap b)
    (hblock : m.block b = some r) (htotal : (m.slice s).size + suffix.length < 2 ^ 64) :
    ∃ m₁ m', m.realloc (.heap b) ((m.slice s).size + suffix.length) true =
        .ok (m₁, .heap m.fresh) ∧
      sliceAppendTail (m₁.setSlice s { m₁.slice s with buf := .heap m.fresh }) s
        (Region.ofList (suffix ++ [0])) suffix.length = .ok (0, m') ∧
      m.Appended s r suffix m' := by
  obtain ⟨m₁, r₁, hrealloc, hslice₁, hgives₁, hlen₁, hholds₁⟩ :=
    Mem.gives_realloc (s := s) (v := { m.slice s with buf := .heap m.fresh })
      (n := (m.slice s).size + suffix.length) hblock rfl
  obtain ⟨m₂, r₂, htail, hgives₂, hsize₂, hbuf₂, hholds₂⟩ :=
    sliceAppendTail_spec hgives₁ suffix (by rw [hlen₁, Mem.setSlice_self])
      (by rw [Mem.setSlice_self]; exact htotal)
  rw [Mem.setSlice_self] at hsize₂ hbuf₂ hholds₂
  refine ⟨m₁, m₂, hrealloc, by rw [hslice₁]; exact htail, r₂, some b, hgives₂, hsize₂, ?_,
    fun b' => ?_, fun ys hys hr => hholds₂ ys hys (hholds₁ ys (by omega) hr)⟩
  · rw [hbuf₂, hbuf]
    simp
  · rw [hbuf, Option.some.injEq, Ptr.heap.injEq]

/-- **Appending.** The bytes stay in the inline buffer as long as they fit there.
Else they go to a new block, and an old one is released. -/
theorem sliceAppend_spec {suffix : List UInt8} (hnul : 0 ∉ suffix)
    (hlen : suffix.length < 2 ^ 31) (htotal : (m.slice s).size + suffix.length < 2 ^ 64)
    (hstore : m.Storage s r) (hinline : (m.slice s).buf = .inline s →
      (m.slice s).size ≤ inlineCap ∧ ∃ xs, r.Holds xs ∧ xs.length = (m.slice s).size) :
    ∃ m', sliceAppend m s (Region.ofList (suffix ++ [0])) true = .ok (0, m') ∧
      m.Appended s r suffix m' := by
  rw [sliceAppend, strlen_spec (Region.holds_ofList _) hnul, Exec.ok_bind]
  simp only [sizeOfInt_toInt hlen, toSize_of_lt htotal]
  rcases hstore with ⟨hbuf, rfl⟩ | ⟨b, hbuf, hblock⟩
  · rw [if_pos hbuf]
    by_cases hmove : inlineCap < (m.slice s).size + suffix.length
    · rw [if_pos hmove]
      obtain ⟨hshort, xs, hxs, hxlen⟩ := hinline hbuf
      obtain ⟨m₂, m', hcopy, htail, happended⟩ := sliceAppend_moves hbuf hxs hxlen htotal hmove rfl
      have hread : (⟨inlineCap, (m.slice s).inlinebuf⟩ : Region UInt8).readMany 0
          (m.slice s).size = .ok xs := by
        rw [Region.readMany_of_holds hxs 0 _ (by omega), ← hxlen]
        simp
      refine ⟨m', ?_, happended⟩
      simp only [Mem.malloc, if_true, Mem.target, Mem.setSlice_self, Exec.ok_bind, hread] at hcopy ⊢
      rw [hcopy, Exec.ok_bind, htail]
    · rw [if_neg hmove]
      exact sliceAppendTail_inline hbuf (Nat.not_lt.mp hmove)
  · rw [if_neg (by rw [hbuf]; exact Ptr.noConfusion)]
    obtain ⟨m₁, m', hrealloc, htail, happended⟩ := sliceAppend_reallocs hbuf hblock htotal
    refine ⟨m', ?_, happended⟩
    rw [hbuf, hrealloc, Exec.ok_bind]
    exact htail

/-- **Destroying** frees the array of a slice of more than `inline_cap` bytes, and
touches nothing else. -/
theorem sliceDestroy_spec (hstore : m.Storage s r)
    (hsize : (m.slice s).buf = .inline s ↔ (m.slice s).size ≤ inlineCap) :
    ∃ m', sliceDestroy m s = .ok m' ∧ m'.slice = m.slice ∧ m'.fresh = m.fresh ∧
      ∀ b, m'.block b = if (m.slice s).buf = .heap b then none else m.block b := by
  rcases hstore with ⟨hbuf, -⟩ | ⟨b, hbuf, hblock⟩
  · refine ⟨m, ?_, rfl, rfl, fun b => by simp [hbuf]⟩
    rw [sliceDestroy, if_neg (Nat.not_lt.mpr (hsize.mp hbuf))]
  · have hlong : inlineCap < (m.slice s).size := by
      rw [hbuf] at hsize
      simpa using hsize
    refine ⟨{ m with block := Function.update m.block b none }, ?_, rfl, rfl, fun b' => ?_⟩
    · rw [sliceDestroy, if_pos hlong, hbuf, Mem.free, hblock]
    · simp only [hbuf, Ptr.heap.injEq]
      split_ifs with heq
      · rw [heq, Function.update_self]
      · rw [Function.update_of_ne (Ne.symm heq)]

end Functions

/-! ### Who holds which block -/

/-- The heap block a pointer points to. -/
def Ptr.block? : Ptr → Option ℕ
  | .heap b => some b
  | _ => none

/-- The block that a slice of the family `fam` holds. -/
def Mem.holder (m : Mem) (fam : Finset ℕ) (s : ℕ) : Option ℕ :=
  if s ∈ fam then (m.slice s).buf.block? else none

/-- The block is allocated, and not freed. -/
def Mem.Live (m : Mem) (b : ℕ) : Prop := (m.block b).isSome

section Holder

variable {m m' : Mem} {s : ℕ} {r : Region UInt8} {old : Option ℕ} {fam fam' : Finset ℕ}

theorem Ptr.block?_eq_some {p : Ptr} {b : ℕ} : p.block? = some b ↔ p = .heap b := by
  cases p <;> simp [Ptr.block?]

theorem Mem.holder_eq_some {b : ℕ} :
    m.holder fam s = some b ↔ s ∈ fam ∧ (m.slice s).buf = .heap b := by
  unfold Mem.holder
  split_ifs with hs <;> simp [hs, Ptr.block?_eq_some]

/-- A slice of the family points to no block that is yet to be allocated. -/
theorem Mem.buf_ne_fresh (hsole : Sole (m.holder fam) m.Live m.fresh) (hs : s ∈ fam) :
    (m.slice s).buf ≠ .heap m.fresh := by
  intro hbuf
  have hheld : m.holder fam s = some m.fresh := Mem.holder_eq_some.mpr ⟨hs, hbuf⟩
  exact absurd (hsole.lt_fresh _ (hsole.live_of_owns s _ hheld)) (lt_irrefl _)

/-- A slice of the family keeps its array when another gets a new one and releases
no block but its own. -/
theorem Mem.Gives.frame_of_sole (h : m.Gives m' s old r)
    (hsole : Sole (m.holder fam) m.Live m.fresh)
    (hold : ∀ b, old = some b → m.holder fam s = some b) {s' : ℕ} {r' : Region UInt8}
    (hs' : s' ∈ fam) (hne : s' ≠ s) (hstore : m.Storage s' r') : m'.Storage s' r' := by
  refine h.frame hne hstore fun b hb => ?_
  have hheld : m.holder fam s' = some b := Mem.holder_eq_some.mpr ⟨hs', hb⟩
  refine ⟨(hsole.lt_fresh b (hsole.live_of_owns s' b hheld)).ne, fun he => hne ?_⟩
  exact hsole.alone s' s b hheld (hold b he)

/-- The other slices hold what they held. -/
theorem Mem.Gives.holder_of_ne (h : m.Gives m' s old r) (hfam : ∀ s', s' ≠ s → (s' ∈ fam' ↔ s' ∈ fam))
    {s' : ℕ} (hne : s' ≠ s) : m'.holder fam' s' = m.holder fam s' := by
  rw [Mem.holder, Mem.holder, h.slices s' hne]
  simp only [hfam s' hne]

/-- What the slice holds after it got an array is new. -/
theorem Mem.Gives.eq_fresh_of_holder (h : m.Gives m' s old r) {b : ℕ}
    (hb : m'.holder fam' s = some b) : b = m.fresh ∧ m'.Live b := by
  have hbuf := (Mem.holder_eq_some.mp hb).2
  rcases h.place with ⟨hin, -⟩ | ⟨hheap, hblock, -⟩
  · rw [hin] at hbuf
    cases hbuf
  · rw [hheap] at hbuf
    obtain rfl := Ptr.heap.inj hbuf
    exact ⟨rfl, by rw [Mem.Live, hblock]; rfl⟩

/-- A block other than the new one is live if it was and is not released. -/
theorem Mem.Gives.live_iff (h : m.Gives m' s old r) {b : ℕ} (hb : b ≠ m.fresh) :
    m'.Live b ↔ m.Live b ∧ old ≠ some b := by
  rw [Mem.Live, h.blocks b hb]
  split_ifs with heq
  · simp [heq]
  · simp [heq, Mem.Live]

/-- **Sole ownership.** A slice that gets an array, and releases no block but its
own, leaves every block with one holder. -/
theorem Mem.Gives.sole (h : m.Gives m' s old r) (hsole : Sole (m.holder fam) m.Live m.fresh)
    (hfam : ∀ s', s' ≠ s → (s' ∈ fam' ↔ s' ∈ fam))
    (hold : ∀ b, old = some b → m.holder fam s = some b) :
    Sole (m'.holder fam') m'.Live m'.fresh := by
  refine hsole.update (i := s) (fun s' hne => h.holder_of_ne hfam hne) (fun b hb hne => ?_)
    (fun b hb => ?_) (fun b hb => ?_)
  · exact (h.live_iff (hsole.lt_fresh b hb).ne).mpr ⟨hb, fun he => hne (hold b he)⟩
  · obtain ⟨rfl, hlive⟩ := h.eq_fresh_of_holder hb
    exact ⟨hlive, .inr le_rfl⟩
  · by_cases hbf : b = m.fresh
    · -- the new block, if there is one
      rcases h.place with ⟨-, -, -, hsame⟩ | ⟨-, -, hfresh⟩
      · rw [hbf, Mem.Live, hsame] at hb
        exact absurd (hsole.lt_fresh _ hb) (lt_irrefl _)
      · rw [hbf, hfresh]
        exact Nat.lt_succ_self _
    · have hlt := hsole.lt_fresh b ((h.live_iff hbf).mp hb).1
      rcases h.place with ⟨-, -, hfresh, -⟩ | ⟨-, -, hfresh⟩ <;> omega

/-- **No leak.** When the block that the slice held is released, every live block
has a holder still. -/
theorem Mem.Gives.covered {base : ℕ} (h : m.Gives m' s old r)
    (hsole : Sole (m.holder fam) m.Live m.fresh) (hcov : Covered (m.holder fam) m.Live base)
    (hfam : ∀ s', s' ≠ s → (s' ∈ fam' ↔ s' ∈ fam)) (hs : s ∈ fam')
    (hold : ∀ b, m.holder fam s = some b → old = some b) :
    Covered (m'.holder fam') m'.Live base := by
  refine hcov.update (i := s) (fun s' hne => h.holder_of_ne hfam hne) fun b _ hb => ?_
  by_cases hbf : b = m.fresh
  · -- the new block is the slice's
    rcases h.place with ⟨-, -, -, hsame⟩ | ⟨hheap, -, -⟩
    · rw [hbf, Mem.Live, hsame] at hb
      exact absurd (hsole.lt_fresh _ hb) (lt_irrefl _)
    · exact .inr (Mem.holder_eq_some.mpr ⟨hs, hbf ▸ hheap⟩)
  · obtain ⟨hlive, hrel⟩ := (h.live_iff hbf).mp hb
    exact .inl ⟨hlive, fun he => hrel (hold b he)⟩

end Holder

end Posixc
