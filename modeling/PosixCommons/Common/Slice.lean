import PosixCommons.Common.BoyerMoore
import PosixCommons.Common.CString
import PosixCommons.Common.Kmp

/-!
# Slices

`common/slice.c`: a slice keeps a short string in a buffer of its own and a long
one on the heap, and `buf` points to whichever it is. The memory `Mem` names
slices and heap blocks by numbers, so a pointer into a slice survives as what it
is when the slice is read through another name.

The functions choose an array for a slice and copy into it. `Mem.Gives` says what the
choice changes and names the array, and it composes with the copies
(`Mem.Gives.memcpy`).

`sliceInit` records the size of a short string only. A slice initialised from a
long one therefore keeps the size that its memory held before, and
`sliceContains` reads its text or its pattern by that size. `ContainsRight` is
what the search promises of two strings, whatever the memory held before.
-/

open Framework

namespace Posixc

/-- `inline_cap`. -/
def inlineCap : ℕ := 48

/-- A `char*`: null, the inline buffer of a slice, or a heap block. -/
inductive Ptr where
  | null
  | inline (owner : ℕ)
  | heap (block : ℕ)
  deriving DecidableEq

/-- `posixc_slice`. -/
structure Slice where
  inlinebuf : ℕ → Option UInt8
  buf : Ptr
  size : ℕ

/-- The slices and the live heap blocks. Blocks are numbered from `fresh` on. -/
structure Mem where
  slice : ℕ → Slice
  block : ℕ → Option (Region UInt8)
  fresh : ℕ

namespace Mem

/-- The array a pointer points to. -/
def target (m : Mem) : Ptr → Exec (Region UInt8)
  | .null => .error .outOfBounds
  | .inline s => .ok ⟨inlineCap, (m.slice s).inlinebuf⟩
  | .heap b => match m.block b with
    | some r => .ok r
    | none => .error .outOfBounds

/-- The memory with the array a pointer points to replaced. -/
def setTarget (m : Mem) (p : Ptr) (r : Region UInt8) : Mem :=
  match p with
  | .null => m
  | .inline s =>
    { m with slice := Function.update m.slice s { m.slice s with inlinebuf := r.cell } }
  | .heap b => { m with block := Function.update m.block b (some r) }

/-- The memory with a slice replaced. -/
def setSlice (m : Mem) (s : ℕ) (v : Slice) : Mem :=
  { m with slice := Function.update m.slice s v }

/-- `malloc`: a block that nothing has written, or a null pointer. -/
def malloc (m : Mem) (n : ℕ) (succeeds : Bool) : Mem × Ptr :=
  if succeeds then
    ({ m with block := Function.update m.block m.fresh (some (Region.alloc n)),
              fresh := m.fresh + 1 }, .heap m.fresh)
  else (m, .null)

/-- `memcpy` of `bytes` to the address `off` beyond `dst`. -/
def memcpy (m : Mem) (dst : Ptr) (off : ℕ) (bytes : List UInt8) : Exec Mem := do
  let r ← m.target dst
  let r ← r.blit off bytes
  return m.setTarget dst r

end Mem

section Mem

variable (m : Mem) (s : ℕ) (v : Slice) (r : Region UInt8) (b : ℕ)

@[simp] theorem Mem.setSlice_self : (m.setSlice s v).slice s = v := by
  simp [Mem.setSlice]

@[simp] theorem Mem.setSlice_of_ne {s s' : ℕ} (h : s' ≠ s) :
    (m.setSlice s v).slice s' = m.slice s' := by
  simp [Mem.setSlice, h]

@[simp] theorem Mem.setSlice_setSlice (w : Slice) :
    (m.setSlice s v).setSlice s w = m.setSlice s w := by
  simp [Mem.setSlice]

@[simp] theorem Mem.malloc_setSlice (n : ℕ) :
    (m.setSlice s v).malloc n true = ((m.malloc n true).1.setSlice s v, .heap m.fresh) := rfl

@[simp] theorem Mem.malloc_slice (n : ℕ) : (m.malloc n true).1.slice = m.slice := rfl

@[simp] theorem Mem.setSlice_block : (m.setSlice s v).block = m.block := rfl

@[simp] theorem Mem.setSlice_fresh : (m.setSlice s v).fresh = m.fresh := rfl

@[simp] theorem Mem.setTarget_inline : m.setTarget (.inline s) r =
    m.setSlice s { m.slice s with inlinebuf := r.cell } := rfl

@[simp] theorem Mem.setTarget_heap_slice : (m.setTarget (.heap b) r).slice = m.slice := rfl

@[simp] theorem Mem.setTarget_heap_block :
    (m.setTarget (.heap b) r).block = Function.update m.block b (some r) := rfl

@[simp] theorem Mem.setTarget_heap_fresh : (m.setTarget (.heap b) r).fresh = m.fresh := rfl

end Mem

/-- `posixc_slice_init`. Only the inline branch records the size. -/
def sliceInit (m : Mem) (slice size : ℕ) (succeeds : Bool) : Exec Mem :=
  if size = 0 then .error .aborted
  else if inlineCap < size then
    let (m, p) := m.malloc size succeeds
    .ok (m.setSlice slice { m.slice slice with buf := p })
  else
    .ok (m.setSlice slice { m.slice slice with buf := .inline slice, size := size })

/-- `posixc_slice_init_from`. -/
def sliceInitFrom (m : Mem) (slice : ℕ) (str : Region UInt8) (succeeds : Bool) :
    Exec Mem := do
  let n ← strlen str
  let size := toInt n
  let m ← sliceInit m slice (sizeOfInt size) succeeds
  let bytes ← str.readMany 0 (sizeOfInt size)
  m.memcpy (m.slice slice).buf 0 bytes

/-- `posixc_slice_contains`. -/
def sliceContains (fuel : ℕ) (m : Mem) (text pattern : ℕ) : Exec Bool := do
  let textBuf ← m.target (m.slice text).buf
  let patternBuf ← m.target (m.slice pattern).buf
  if (m.slice pattern).size ≤ 8 then
    let r ← kmpContains fuel textBuf (m.slice text).size patternBuf (m.slice pattern).size
    return r.isSome
  else
    let r ← boyermooreContains fuel textBuf (m.slice text).size patternBuf
      (m.slice pattern).size
    return r.isSome

/-- The strings that an `int` can measure: not empty, no terminator inside. -/
structure CString (t : List UInt8) : Prop where
  noNul : 0 ∉ t
  ne_nil : t ≠ []
  length_lt : t.length < 2 ^ 31

/-- Slices of `t` and `p` are made in memory that may hold anything, and the first
is searched for the second. -/
def initAndContains (m : Mem) (text pattern : ℕ) (t p : List UInt8) (fuel : ℕ) :
    Exec Bool := do
  let m ← sliceInitFrom m text (Region.ofList (t ++ [0])) true
  let m ← sliceInitFrom m pattern (Region.ofList (p ++ [0])) true
  sliceContains fuel m text pattern

/-- Whatever the memory held before, the search returns whether `p` occurs in
`t`. -/
def ContainsRight (t p : List UInt8) : Prop :=
  ∀ m text pattern, text ≠ pattern →
    Exec.Returns (initAndContains m text pattern t p) (decide (p <:+: t))

/-! ### Initialising a slice -/

/-- The size a slice has after it was initialised from a string of length `n`:
that of the string when it is inline, else the one the memory held before. -/
def recordedSize (m : Mem) (s n : ℕ) : ℕ := if inlineCap < n then (m.slice s).size else n

/-- The slice keeps its bytes in the array `r`: its own inline buffer, or a live
heap block. -/
def Mem.Storage (m : Mem) (s : ℕ) (r : Region UInt8) : Prop :=
  ((m.slice s).buf = .inline s ∧ r = ⟨inlineCap, (m.slice s).inlinebuf⟩) ∨
    ∃ b, (m.slice s).buf = .heap b ∧ m.block b = some r

/-- The memory `m'` is `m` with an array `r` for the slice `s`: its inline buffer, or
a block that is new. The block `old` was released, and nothing else changed but
`s`. -/
structure Mem.Gives (m m' : Mem) (s : ℕ) (old : Option ℕ) (r : Region UInt8) : Prop where
  place : ((m'.slice s).buf = .inline s ∧ r = ⟨inlineCap, (m'.slice s).inlinebuf⟩ ∧
      m'.fresh = m.fresh ∧ m'.block m.fresh = m.block m.fresh) ∨
    ((m'.slice s).buf = .heap m.fresh ∧ m'.block m.fresh = some r ∧ m'.fresh = m.fresh + 1)
  slices : ∀ s', s' ≠ s → m'.slice s' = m.slice s'
  blocks : ∀ b, b ≠ m.fresh → m'.block b = if old = some b then none else m.block b

section Storage

variable {m m' : Mem} {s : ℕ} {r : Region UInt8} {old : Option ℕ}

theorem Mem.Storage.target (h : m.Storage s r) : m.target (m.slice s).buf = .ok r := by
  rcases h with ⟨hbuf, rfl⟩ | ⟨b, hbuf, hblock⟩
  · rw [hbuf]
    rfl
  · rw [hbuf, Mem.target, hblock]

theorem Mem.Gives.storage (h : m.Gives m' s old r) : m'.Storage s r := by
  rcases h.place with ⟨hbuf, hr, -⟩ | ⟨hbuf, hblock, -⟩
  · exact .inl ⟨hbuf, hr⟩
  · exact .inr ⟨m.fresh, hbuf, hblock⟩

/-- Another slice keeps its array, unless that is the one released. -/
theorem Mem.Gives.frame (h : m.Gives m' s old r) {s' : ℕ} {r' : Region UInt8} (hs' : s' ≠ s)
    (hstore : m.Storage s' r') (hold : ∀ b, (m.slice s').buf = .heap b → b ≠ m.fresh ∧ old ≠ some b) :
    m'.Storage s' r' := by
  rw [Mem.Storage, h.slices s' hs']
  refine hstore.imp_right fun ⟨b, hbuf, hblock⟩ => ⟨b, hbuf, ?_⟩
  obtain ⟨hne, hrel⟩ := hold b hbuf
  rw [h.blocks b hne, if_neg hrel, hblock]

/-- **A copy into the array.** It stays inside it and changes nothing else. -/
theorem Mem.Gives.memcpy (h : m.Gives m' s old r) (off : ℕ) (bytes : List UInt8)
    (hfit : off + bytes.length ≤ r.len) :
    ∃ m'' r', m'.memcpy (m'.slice s).buf off bytes = .ok m'' ∧ m.Gives m'' s old r' ∧
      r'.len = r.len ∧ (m''.slice s).size = (m'.slice s).size ∧
      (m''.slice s).buf = (m'.slice s).buf ∧
      ∀ ys, ys.length = off → r.Holds ys → r'.Holds (ys ++ bytes) := by
  obtain ⟨r', hblit, hlen, hholds⟩ := Region.blit_spec hfit
  have hrun : m'.memcpy (m'.slice s).buf off bytes = .ok (m'.setTarget (m'.slice s).buf r') := by
    rw [Mem.memcpy, h.storage.target, Exec.ok_bind, hblit, Exec.ok_bind]
    rfl
  refine ⟨_, r', hrun, ?_, hlen, ?_, ?_, hholds⟩
  · rcases h.place with ⟨hbuf, hr, hfresh, hsame⟩ | ⟨hbuf, hblock, hfresh⟩
    · -- the inline buffer of `s` is written
      have hcap : r' = ⟨inlineCap, r'.cell⟩ := by
        rw [show inlineCap = r'.len by rw [hlen, hr]]
      refine ⟨.inl ⟨?_, ?_, ?_, ?_⟩, fun s' hs' => ?_, fun b hb => ?_⟩
      · simp [hbuf]
      · simpa [hbuf] using hcap
      · simp [hbuf, hfresh]
      · simp [hbuf, hsame]
      · simp [hbuf, hs', h.slices s' hs']
      · simp [hbuf, h.blocks b hb]
    · -- the new block is written
      refine ⟨.inr ⟨?_, ?_, ?_⟩, fun s' hs' => ?_, fun b hb => ?_⟩
      · simp [hbuf]
      · simp [hbuf]
      · simp [hbuf, hfresh]
      · simp [hbuf, h.slices s' hs']
      · simp [hbuf, Function.update_of_ne hb, h.blocks b hb]
  · rcases h.place with ⟨hbuf, -⟩ | ⟨hbuf, -⟩ <;> simp [hbuf]
  · rcases h.place with ⟨hbuf, -⟩ | ⟨hbuf, -⟩ <;> simp [hbuf]

/-- Pointing a slice to its inline buffer. -/
theorem Mem.gives_inline {v : Slice} (hv : v.buf = .inline s) :
    m.Gives (m.setSlice s v) s none ⟨inlineCap, v.inlinebuf⟩ :=
  ⟨.inl (by simp [hv]), fun s' hs' => by simp [hs'], fun b hb => by simp⟩

/-- Pointing it to a block from `malloc`. -/
theorem Mem.gives_malloc {v : Slice} {n : ℕ} (hv : v.buf = .heap m.fresh) :
    m.Gives ((m.malloc n true).1.setSlice s v) s none (Region.alloc n) := by
  refine ⟨.inr ?_, fun s' hs' => by simp [hs'], fun b hb => ?_⟩
  · simp [hv, Mem.malloc]
  · simp [Mem.malloc, Function.update_of_ne hb]

/-- **Initialising a slice.** It gets an array that has room for `n` cells, and records
the size when the array is its own. -/
theorem sliceInit_spec (m : Mem) (s : ℕ) {n : ℕ} (hn : n ≠ 0) :
    ∃ m' r', sliceInit m s n true = .ok m' ∧ m.Gives m' s none r' ∧ r'.len = max inlineCap n ∧
      (m'.slice s).size = recordedSize m s n ∧
      ((m'.slice s).buf = .inline s ↔ n ≤ inlineCap) := by
  by_cases hlong : inlineCap < n
  · refine ⟨_, _, ?_, Mem.gives_malloc (v := { m.slice s with buf := .heap m.fresh }) rfl,
      (max_eq_right hlong.le).symm, ?_, ?_⟩
    · rw [sliceInit, if_neg hn, if_pos hlong]
      rfl
    · simp [recordedSize, hlong]
    · simp [hlong]
  · refine ⟨_, _, ?_, Mem.gives_inline (v := { m.slice s with buf := .inline s, size := n }) rfl,
      (max_eq_left (Nat.not_lt.mp hlong)).symm, ?_, ?_⟩
    · rw [sliceInit, if_neg hn, if_neg hlong]
    · simp [recordedSize, hlong]
    · simpa using hlong

/-- **Initialising a slice from a string.** -/
theorem sliceInitFrom_spec (m : Mem) (s : ℕ) {t : List UInt8} (ht : CString t) :
    ∃ m' r', sliceInitFrom m s (Region.ofList (t ++ [0])) true = .ok m' ∧
      m.Gives m' s none r' ∧ r'.Holds t ∧ r'.len = max inlineCap t.length ∧
      (m'.slice s).size = recordedSize m s t.length ∧
      ((m'.slice s).buf = .inline s ↔ t.length ≤ inlineCap) := by
  have hn : t.length ≠ 0 := fun h => ht.ne_nil (List.length_eq_zero_iff.mp h)
  have hbytes : (Region.ofList (t ++ [0])).readMany 0 t.length = .ok t := by
    rw [Region.readMany_of_holds (Region.holds_ofList _) 0 t.length (by simp)]
    simp
  obtain ⟨m₁, r₁, hinit, hgives₁, hlen₁, hsize₁, hbuf₁⟩ := sliceInit_spec m s hn
  obtain ⟨m₂, r₂, hcopy, hgives₂, hlen₂, hsize₂, hbuf₂, hholds⟩ :=
    hgives₁.memcpy 0 t (by omega)
  refine ⟨m₂, r₂, ?_, hgives₂, hholds [] rfl (Region.holds_nil r₁), hlen₂.trans hlen₁,
    hsize₂.trans hsize₁, ?_⟩
  · rw [sliceInitFrom, strlen_spec (Region.holds_ofList _) ht.noNul, Exec.ok_bind]
    simp only [sizeOfInt_toInt ht.length_lt]
    rw [hinit, Exec.ok_bind, hbytes, Exec.ok_bind, hcopy]
  · rw [hbuf₂]
    exact hbuf₁

end Storage

/-- The slice `s` of `m` points to an array of its own that holds `t`, and has
the size `size`. -/
structure Mem.Loaded (m : Mem) (s : ℕ) (t : List UInt8) (size : ℕ) : Prop where
  size_eq : (m.slice s).size = size
  own : (m.slice s).buf = .inline s ∨ ∃ b, b < m.fresh ∧ (m.slice s).buf = .heap b
  holds : ∃ r, m.target (m.slice s).buf = .ok r ∧ r.Holds t ∧ r.len = max inlineCap t.length

/-- The slice holds the string, and keeps its old size when the string is long. -/
theorem sliceInitFrom_loaded (m : Mem) (s : ℕ) {t : List UInt8} (ht : CString t) :
    ∃ m', sliceInitFrom m s (Region.ofList (t ++ [0])) true = .ok m' ∧
      m'.Loaded s t (recordedSize m s t.length) ∧
      (∀ s', s' ≠ s → m'.slice s' = m.slice s') ∧
      (∀ b, b < m.fresh → m'.block b = m.block b) ∧ m.fresh ≤ m'.fresh := by
  obtain ⟨m', r, hrun, hgives, hholds, hlen, hsize, -⟩ := sliceInitFrom_spec m s ht
  refine ⟨m', hrun, ⟨hsize, ?_, r, hgives.storage.target, hholds, hlen⟩, hgives.slices,
    fun b hb => ?_, ?_⟩
  · rcases hgives.place with ⟨hbuf, -⟩ | ⟨hbuf, -, hfresh⟩
    · exact .inl hbuf
    · exact .inr ⟨m.fresh, by omega, hbuf⟩
  · simpa using hgives.blocks b hb.ne
  · rcases hgives.place with ⟨-, -, hfresh, -⟩ | ⟨-, -, hfresh⟩ <;> omega

/-- A slice outlives changes to other slices and to blocks allocated later. -/
theorem Mem.Loaded.frame {m m' : Mem} {s s' size : ℕ} {t : List UInt8} (h : m.Loaded s t size)
    (hs : s ≠ s') (hslice : ∀ s, s ≠ s' → m'.slice s = m.slice s)
    (hblock : ∀ b, b < m.fresh → m'.block b = m.block b) (hfresh : m.fresh ≤ m'.fresh) :
    m'.Loaded s t size := by
  -- the array that `buf` points to is none of those that changed
  have htarget : m'.target (m'.slice s).buf = m.target (m.slice s).buf := by
    rw [hslice s hs]
    rcases h.own with hb | ⟨b, hlt, hb⟩
    · rw [hb, Mem.target, Mem.target, hslice s hs]
    · rw [hb, Mem.target, Mem.target, hblock b hlt]
  refine ⟨by rw [hslice s hs]; exact h.size_eq, ?_, by rw [htarget]; exact h.holds⟩
  rw [hslice s hs]
  exact h.own.imp_right fun ⟨b, hlt, hb⟩ => ⟨b, hlt.trans_le hfresh, hb⟩

/-! ### Searching one slice for another -/

section Contains

variable {t p : List UInt8}

/-- What the search reads: arrays that hold the two strings, each by the size its
slice recorded. -/
theorem initAndContains_eq (ht : CString t) (hp : CString p) (m : Mem) {text pattern : ℕ}
    (hdiff : text ≠ pattern) :
    ∃ T P : Region UInt8, T.Holds t ∧ P.Holds p ∧ T.len = max inlineCap t.length ∧
      ∀ fuel, initAndContains m text pattern t p fuel =
        if recordedSize m pattern p.length ≤ 8 then
          kmpContains fuel T (recordedSize m text t.length) P
            (recordedSize m pattern p.length) >>= fun r => pure r.isSome
        else
          boyermooreContains fuel T (recordedSize m text t.length) P
            (recordedSize m pattern p.length) >>= fun r => pure r.isSome := by
  obtain ⟨m₁, h₁, htext₁, hslice₁, -, -⟩ := sliceInitFrom_loaded m text ht
  obtain ⟨m₂, h₂, hpattern, hslice₂, hblock₂, hfresh₂⟩ :=
    sliceInitFrom_loaded m₁ pattern hp
  -- making the pattern leaves the text, and making the text left the pattern's old size
  have htext := htext₁.frame hdiff hslice₂ hblock₂ hfresh₂
  have hsize : recordedSize m₁ pattern p.length = recordedSize m pattern p.length := by
    rw [recordedSize, recordedSize, hslice₁ pattern hdiff.symm]
  rw [hsize] at hpattern
  obtain ⟨T, hT, hTt, hTlen⟩ := htext.holds
  obtain ⟨P, hP, hPp, -⟩ := hpattern.holds
  refine ⟨T, P, hTt, hPp, hTlen, fun fuel => ?_⟩
  rw [initAndContains, h₁, Exec.ok_bind, h₂, Exec.ok_bind, sliceContains, hT, Exec.ok_bind, hP,
    Exec.ok_bind, htext.size_eq, hpattern.size_eq]

/-- Two short strings are searched by their own sizes. -/
theorem containsRight_of_short (ht : CString t) (hp : CString p)
    (htshort : t.length ≤ inlineCap) (hpshort : p.length ≤ inlineCap)
    (hsearch : 8 < p.length ∨ 2 ≤ p.length ∧ Undisturbed p t) : ContainsRight t p := by
  intro m text pattern hdiff
  unfold inlineCap at htshort hpshort
  obtain ⟨T, P, hT, hP, -, heq⟩ := initAndContains_eq ht hp m hdiff
  have htsize : recordedSize m text t.length = t.length := if_neg htshort.not_gt
  have hpsize : recordedSize m pattern p.length = p.length := if_neg hpshort.not_gt
  rw [htsize, hpsize] at heq
  by_cases hlong : 8 < p.length
  · -- Boyer-Moore
    obtain ⟨r, hfirst, hrun⟩ := boyermooreContains_spec hT hP hp.ne_nil (by omega)
    have hanswer : decide (p <:+: t) = r.isSome := by
      rw [Bool.eq_iff_iff, decide_eq_true_iff, hfirst.isSome_iff]
    rw [hanswer]
    refine (hrun.map Option.isSome).imp fun N hN fuel hfuel => ?_
    rw [heq, if_neg (by omega)]
    exact hN fuel hfuel
  · -- the short search
    obtain ⟨htwo, hun⟩ := hsearch.resolve_left hlong
    obtain ⟨r, hfirst, hrun⟩ := kmpContains_of_undisturbed hP htwo hT (by omega) hun
    have hanswer : decide (p <:+: t) = (r.map Nat.cast : Option ℤ).isSome := by
      rw [Option.isSome_map, Bool.eq_iff_iff, decide_eq_true_iff, hfirst.isSome_iff]
    rw [hanswer]
    refine (hrun.map Option.isSome).imp fun N hN fuel hfuel => ?_
    rw [heq, if_pos (by omega)]
    exact hN fuel hfuel

/-- Two slices that held the sizes `a` and `b` before they are initialised. -/
def stale (a b : ℕ) : Mem where
  slice s := { inlinebuf := fun _ => none, buf := .null, size := if s = 0 then a else b }
  block _ := none
  fresh := 0

/-- What a right search does on slices that held the sizes `a` and `b`. -/
theorem ContainsRight.run (h : ContainsRight t p) (ht : CString t) (hp : CString p)
    (a b : ℕ) :
    ∃ T P : Region UInt8, T.Holds t ∧ P.Holds p ∧ T.len = max inlineCap t.length ∧
      ∃ fuel, p.length < fuel ∧
        (if (if inlineCap < p.length then b else p.length) ≤ 8 then
          kmpContains fuel T (if inlineCap < t.length then a else t.length) P
            (if inlineCap < p.length then b else p.length) >>= fun r => pure r.isSome
        else
          boyermooreContains fuel T (if inlineCap < t.length then a else t.length) P
            (if inlineCap < p.length then b else p.length) >>= fun r => pure r.isSome) =
        .ok (decide (p <:+: t)) := by
  obtain ⟨T, P, hT, hP, hlen, heq⟩ :=
    initAndContains_eq ht hp (stale a b) Nat.zero_ne_one
  obtain ⟨N, hN⟩ := h (stale a b) 0 1 Nat.zero_ne_one
  refine ⟨T, P, hT, hP, hlen, max N (p.length + 1), by omega, ?_⟩
  rw [← hN (max N (p.length + 1)) (by omega), heq]
  rfl

/-- A long pattern may be searched by a size of one byte. -/
theorem ContainsRight.pattern_short (h : ContainsRight t p) (ht : CString t) (hp : CString p) :
    p.length ≤ inlineCap := by
  by_contra hlong
  obtain ⟨T, P, -, -, -, fuel, -, hrun⟩ := h.run ht hp 0 1
  rw [if_pos (not_le.mp hlong), if_pos (by decide), kmpContains_short _ _ _ _ (by decide)] at hrun
  cases hrun

/-- A pattern of one byte is not searched for at all. -/
theorem ContainsRight.two_le (h : ContainsRight t p) (ht : CString t) (hp : CString p) :
    2 ≤ p.length := by
  by_contra hone
  have hshort := h.pattern_short ht hp
  obtain ⟨T, P, -, -, -, fuel, -, hrun⟩ := h.run ht hp 0 0
  rw [if_neg hshort.not_gt, if_pos (by omega), kmpContains_short _ _ _ _ (by omega)] at hrun
  cases hrun

/-- A long text may be searched by the size zero, where nothing is found, or by a
size beyond its end, where the search does not answer that the pattern is
absent. -/
theorem ContainsRight.text_short (h : ContainsRight t p) (ht : CString t) (hp : CString p) :
    t.length ≤ inlineCap := by
  by_contra hlong
  have hlong : inlineCap < t.length := not_le.mp hlong
  have hshort := h.pattern_short ht hp
  have htwo := h.two_le ht hp
  have htlen := ht.length_lt
  have hplen := hp.length_lt
  by_cases hocc : p <:+: t
  · -- the pattern is there, and a size of zero hides it
    obtain ⟨T, P, -, hP, -, fuel, hfuel, hrun⟩ := h.run ht hp 0 0
    obtain ⟨fuel, rfl⟩ := Nat.exists_eq_add_one_of_ne_zero (Nat.ne_zero_of_lt hfuel)
    rw [if_neg hshort.not_gt, if_pos hlong, kmpContains_zero hP htwo hfuel.le,
      boyermooreContains_zero hP hp.ne_nil, Exec.ok_bind, Exec.ok_bind, Option.isSome_none,
      Option.isSome_none, ite_self, decide_eq_true hocc] at hrun
    cases hrun
  · -- the pattern is not there, and a size beyond the end does not let the search say so
    obtain ⟨T, P, -, hP, hlen, fuel, hfuel, hrun⟩ :=
      h.run ht hp (t.length + 2 * p.length) 0
    rw [max_eq_right hlong.le] at hlen
    rw [if_neg hshort.not_gt, if_pos hlong, decide_eq_false hocc] at hrun
    by_cases hkmp : p.length ≤ 8
    · rw [if_pos hkmp] at hrun
      obtain ⟨r, hr, hnone⟩ := Exec.bind_eq_ok.mp hrun
      cases r with
      | none => exact kmpContains_ne_none hP htwo (by omega) (by omega) hfuel.le hr
      | some a => cases hnone
    · rw [if_neg hkmp] at hrun
      obtain ⟨r, hr, hnone⟩ := Exec.bind_eq_ok.mp hrun
      cases r with
      | none => exact boyermooreContains_ne_none hP hp.ne_nil (by omega) (by omega) fuel hr
      | some a => cases hnone

/-- A short pattern is searched for by walks that end. -/
theorem ContainsRight.not_offTable (h : ContainsRight t p) (ht : CString t) (hp : CString p)
    (hkmp : p.length ≤ 8) : ¬ OffTable p t := by
  have hshort := h.pattern_short ht hp
  have htext := h.text_short ht hp
  obtain ⟨T, P, hT, hP, -, fuel, hfuel, hrun⟩ := h.run ht hp 0 0
  rw [if_neg hshort.not_gt, if_neg htext.not_gt, if_pos hkmp] at hrun
  obtain ⟨r, hr, -⟩ := Exec.bind_eq_ok.mp hrun
  exact not_offTable_of_kmpContains hP (h.two_le ht hp) hT hfuel.le hr

/-- **When the slice search is right.** It is on two inline slices when the
pattern has more than 8 bytes, or has at least 2 and no walk of the short search
goes wrong on the text. It is right on nothing but inline slices with a pattern of
at least 2 bytes, and never where such a walk has no end. -/
theorem containsRight_spec (ht : CString t) (hp : CString p) :
    (t.length ≤ inlineCap ∧ p.length ≤ inlineCap ∧
        (8 < p.length ∨ 2 ≤ p.length ∧ Undisturbed p t) → ContainsRight t p) ∧
      (ContainsRight t p → t.length ≤ inlineCap ∧ p.length ≤ inlineCap ∧
        (8 < p.length ∨ 2 ≤ p.length ∧ ¬ OffTable p t)) := by
  constructor
  · rintro ⟨htshort, hpshort, hsearch⟩
    exact containsRight_of_short ht hp htshort hpshort hsearch
  · intro h
    refine ⟨h.text_short ht hp, h.pattern_short ht hp, ?_⟩
    rcases lt_or_ge 8 p.length with hlong | hkmp
    · exact .inl hlong
    · exact .inr ⟨h.two_le ht hp, h.not_offTable ht hp hkmp⟩

/-- A short pattern in the text of `tests/slice_test.c`. -/
theorem containsRight_spec_test :
    ContainsRight "Hello PosixC Slice!".toUTF8.toList "six".toUTF8.toList :=
  (containsRight_spec ⟨by decide +kernel, by decide +kernel, by decide +kernel⟩
    ⟨by decide +kernel, by decide +kernel, by decide +kernel⟩).1
    ⟨by decide +kernel, by decide +kernel, .inr ⟨by decide +kernel,
      undisturbed_of_match (by decide +kernel) (by decide +kernel)⟩⟩

/-- `aabb` occurs in `aaabb`, and the short search does not find it. -/
theorem not_containsRight_of_overlap :
    ¬ ContainsRight [97, 97, 97, 98, 98] [97, 97, 98, 98] := by
  intro h
  obtain ⟨N, hN⟩ := h (stale 0 0) 0 1 Nat.zero_ne_one
  have hrun : initAndContains (stale 0 0) 0 1 [97, 97, 97, 98, 98] [97, 97, 98, 98] (N + 10) =
      .ok false := rfl
  have hcontains : decide ([97, 97, 98, 98] <:+: ([97, 97, 97, 98, 98] : List UInt8)) = true := by
    decide
  rw [hN (N + 10) (by omega), hcontains] at hrun
  cases hrun

end Contains

end Posixc
