import PosixCommons.Common.SliceOps
import PosixCommons.Framework.Runs

/-!
# Who frees what

`posixc_slice_destroy` frees `buf` when the size is more than `inline_cap`, and
looks at nothing else. That is right for a slice whose size tells where its bytes
are: in its own inline buffer up to `inline_cap`, beyond it in a live block that no
other slice points to (`SliceWorld.OwnsStorage`).

`sliceSystem` runs the constructors, appends and destroys of any number of slices.
A run keeps the ownership, the exactness of every destroy, and the absence of leaks
as long as its calls are `Safe`, and each clause of `Safe` answers one of the
comparisons in the code:

* `posixc_slice_init` records the size in the inline branch only, so a long slice
  has the size that its memory held before;
* `posixc_slice_copy` goes to the heap from `inline_cap` on, and `destroy` expects
  it beyond;
* the conversions from numbers return a structure that points into the callee's.
-/

open Framework

namespace Posixc

/-- The slices that were made and not destroyed, with the memory. `fault` is set by a
call that did not return. -/
structure SliceWorld where
  mem : Mem
  made : Finset ℕ
  fault : Option Fault

/-- A call on slices. Every allocation succeeds, and strings are in memory of their
own. -/
inductive SliceCall where
  | initFrom (slice : ℕ) (str : List UInt8)
  | initAsAggregation (aggregate : ℕ) (slices : List ℕ)
  | copy (dst src : ℕ)
  | append (text : ℕ) (suffix : List UInt8)
  | parseInt (slice frame : ℕ) (x : ℤ)
  | parseFloat (slice frame : ℕ) (x : Decimal) (afterpoints : ℤ)
  | parseDouble (slice frame : ℕ) (x : Decimal) (afterpoints : ℤ)
  | destroy (slice : ℕ)

namespace SliceWorld

/-- The world after a call. -/
def after (w : SliceWorld) (made : Finset ℕ) : Exec Mem → SliceWorld
  | .ok m => ⟨m, made, none⟩
  | .error fault => { w with fault := some fault }

/-- The step. A slice is made once before it is destroyed, and used in between. The
strings are nonempty for `posixc_slice_init_from`, and so is an aggregate. -/
def next (w : SliceWorld) (call : SliceCall) : Option SliceWorld :=
  if w.fault.isSome then none
  else match call with
  | .initFrom s str =>
    if s ∉ w.made ∧ 0 ∉ str ∧ str ≠ [] then
      some (w.after (insert s w.made)
        (sliceInitFrom w.mem s (Region.ofList (str ++ [0])) true))
    else none
  | .initAsAggregation s slices =>
    if s ∉ w.made ∧ (∀ c ∈ slices, c ∈ w.made) ∧
        (slices.map fun c => (w.mem.slice c).size).sum ≠ 0 then
      some (w.after (insert s w.made) (sliceInitAsAggregation w.mem s slices true))
    else none
  | .copy dst src =>
    if dst ∉ w.made ∧ src ∈ w.made then
      some (w.after (insert dst w.made) (sliceCopy w.mem dst src true))
    else none
  | .append s suffix =>
    if s ∈ w.made ∧ 0 ∉ suffix then
      some (w.after w.made
        (Prod.snd <$> sliceAppend w.mem s (Region.ofList (suffix ++ [0])) true))
    else none
  | .parseInt s frame x =>
    if s ∉ w.made ∧ frame ∉ w.made ∧ frame ≠ s then
      some (w.after (insert s w.made) (sliceParseInt w.mem s frame x))
    else none
  | .parseFloat s frame x afterpoints =>
    if s ∉ w.made ∧ frame ∉ w.made ∧ frame ≠ s then
      some (w.after (insert s w.made) (sliceParseFloat w.mem s frame x afterpoints))
    else none
  | .parseDouble s frame x afterpoints =>
    if s ∉ w.made ∧ frame ∉ w.made ∧ frame ≠ s then
      some (w.after (insert s w.made) (sliceParseDouble w.mem s frame x afterpoints))
    else none
  | .destroy s =>
    if s ∈ w.made then some (w.after (w.made.erase s) (sliceDestroy w.mem s)) else none

end SliceWorld

/-- Slices over a heap of which blocks may be in use already. -/
def sliceSystem : System SliceWorld SliceCall where
  init w := w.made = ∅ ∧ w.fault = none
  next := SliceWorld.next

/-- No slice yet. -/
def sliceStart (m : Mem) : SliceWorld := ⟨m, ∅, none⟩

/-! ### Ownership -/

namespace SliceWorld

/-- The slice points to its own inline buffer exactly when its size is at most
`inline_cap`, and otherwise to a live block that no other slice points to. -/
def OwnsStorage (w : SliceWorld) (s : ℕ) : Prop :=
  ((w.mem.slice s).buf = .inline s ↔ (w.mem.slice s).size ≤ inlineCap) ∧
    (inlineCap < (w.mem.slice s).size → ∃ b, (w.mem.slice s).buf = .heap b ∧ w.mem.Live b ∧
      ∀ s' ∈ w.made, (w.mem.slice s').buf = .heap b → s' = s)

/-- `posixc_slice_destroy` frees the block that the slice points to, if it points to
one, and nothing else. -/
def DestroysOwn (w : SliceWorld) (s : ℕ) : Prop :=
  ∃ m', sliceDestroy w.mem s = .ok m' ∧
    ∀ b, m'.block b = if (w.mem.slice s).buf = .heap b then none else w.mem.block b

/-- Every call returned, every slice owns its storage and would be destroyed
rightly, and every block allocated from `base` on belongs to a slice. -/
structure Owned (base : ℕ) (w : SliceWorld) : Prop where
  noFault : w.fault = none
  owns : ∀ s ∈ w.made, w.OwnsStorage s
  destroys : ∀ s ∈ w.made, w.DestroysOwn s
  noLeak : ∀ b, base ≤ b → w.mem.Live b → ∃ s ∈ w.made, (w.mem.slice s).buf = .heap b

end SliceWorld

/-- All `size` bytes of the slice were written, in its storage. -/
def Mem.Readable (m : Mem) (s : ℕ) : Prop := ∃ xs, m.Stores s xs

/-- The calls for which the comparisons in the code agree. Strings are measured by an
`int`, a long slice is made where the memory held a size beyond `inline_cap`, no
slice of exactly `inline_cap` bytes is copied, no slice is copied or aggregated by a
size that is not that of its bytes, sizes fit in 64 bits, and no number is
converted. -/
def SliceCall.Safe (w : SliceWorld) : SliceCall → Prop
  | .initFrom s str => str.length < 2 ^ 31 ∧
      (str.length ≤ inlineCap ∨ inlineCap < (w.mem.slice s).size)
  | .initAsAggregation s slices => (∀ c ∈ slices, w.mem.Readable c) ∧
      (slices.map fun c => (w.mem.slice c).size).sum < 2 ^ 64 ∧
      ((slices.map fun c => (w.mem.slice c).size).sum ≤ inlineCap ∨
        inlineCap < (w.mem.slice s).size)
  | .copy _ src => w.mem.Readable src ∧ (w.mem.slice src).size ≠ inlineCap
  | .append s suffix => suffix.length < 2 ^ 31 ∧
      (w.mem.slice s).size + suffix.length < 2 ^ 64
  | .parseInt .. => False
  | .parseFloat .. => False
  | .parseDouble .. => False
  | .destroy _ => True

/-- A slice in its place, with its bytes written when they are in the inline
buffer. -/
structure Mem.Held (m : Mem) (s : ℕ) : Prop where
  storage : ∃ r, m.Storage s r ∧
    ((m.slice s).buf = .inline s → ∃ xs, r.Holds xs ∧ xs.length = (m.slice s).size)
  place : (m.slice s).buf = .inline s ↔ (m.slice s).size ≤ inlineCap

/-- What safe calls keep. A size is a `uint64_t`, also before the slice is made. -/
structure SliceWorld.Sound (base : ℕ) (w : SliceWorld) : Prop where
  noFault : w.fault = none
  held : ∀ s ∈ w.made, w.mem.Held s
  sole : Sole (w.mem.holder w.made) w.mem.Live w.mem.fresh
  covered : Covered (w.mem.holder w.made) w.mem.Live base
  size_lt : ∀ s, (w.mem.slice s).size < 2 ^ 64

namespace SliceWorld

section Sound

variable {base : ℕ} {w w' : SliceWorld} {m m' : Mem} {s : ℕ} {r : Region UInt8} {old : Option ℕ}
  {call : SliceCall} {xs : List UInt8}

theorem Sound.owned (h : Sound base w) : Owned base w := by
  refine ⟨h.noFault, fun s hs => ⟨(h.held s hs).place, fun hlong => ?_⟩, fun s hs => ?_,
    fun b hb hlive => ?_⟩
  · obtain ⟨r, hstore, -⟩ := (h.held s hs).storage
    rcases hstore with ⟨hbuf, -⟩ | ⟨b, hbuf, hblock⟩
    · exact absurd ((h.held s hs).place.mp hbuf) (Nat.not_le.mpr hlong)
    · have hholds : w.mem.holder w.made s = some b := Mem.holder_eq_some.mpr ⟨hs, hbuf⟩
      refine ⟨b, hbuf, h.sole.live_of_owns s b hholds, fun s' hs' hbuf' => ?_⟩
      exact h.sole.alone s' s b (Mem.holder_eq_some.mpr ⟨hs', hbuf'⟩) hholds
  · obtain ⟨r, hstore, -⟩ := (h.held s hs).storage
    obtain ⟨m', hrun, -, -, hblock⟩ := sliceDestroy_spec hstore (h.held s hs).place
    exact ⟨m', hrun, hblock⟩
  · obtain ⟨s, hs⟩ := h.covered b hb hlive
    exact ⟨s, Mem.holder_eq_some.mp hs⟩

/-- **One slice gets an array**, and the block it had, if any, is released. -/
theorem Sound.gives (h : Sound base w) (hgives : w.mem.Gives m' s old r)
    (hold : ∀ b, old = some b ↔ w.mem.holder w.made s = some b) (hheld : m'.Held s)
    (hsize : (m'.slice s).size < 2 ^ 64) : Sound base ⟨m', insert s w.made, none⟩ := by
  have hfam : ∀ s', s' ≠ s → (s' ∈ insert s w.made ↔ s' ∈ w.made) := fun s' hne => by
    simp [hne]
  refine ⟨rfl, fun s' hs' => ?_, hgives.sole h.sole hfam fun b => (hold b).mp,
    hgives.covered h.sole h.covered hfam (Finset.mem_insert_self s _) fun b => (hold b).mpr,
    fun s' => ?_⟩
  · rcases Finset.mem_insert.mp hs' with rfl | hmade
    · exact hheld
    · by_cases hne : s' = s
      · exact hne ▸ hheld
      · -- another slice keeps its fields and its array
        obtain ⟨⟨r', hstore, hbytes⟩, hplace⟩ := h.held s' hmade
        refine ⟨⟨r', hgives.frame_of_sole h.sole (fun b => (hold b).mp) hmade hne hstore, ?_⟩, ?_⟩
        · rwa [hgives.slices s' hne]
        · rwa [hgives.slices s' hne]
  · by_cases hne : s' = s
    · exact hne ▸ hsize
    · change (m'.slice s').size < 2 ^ 64
      rw [hgives.slices s' hne]
      exact h.size_lt s'

/-- A slice that was not made holds no block. -/
theorem holder_of_not_made (hs : s ∉ w.made) :
    ∀ b, (none : Option ℕ) = some b ↔ w.mem.holder w.made s = some b := fun b => by
  simp [Mem.holder, hs]

/-- A new slice, with its array chosen by its size. -/
theorem Sound.makes (h : Sound base w) (hs : s ∉ w.made) (hgives : w.mem.Gives m' s none r)
    (hxs : r.Holds xs) (hsize : (m'.slice s).size = recordedSize w.mem s xs.length)
    (hbuf : (m'.slice s).buf = .inline s ↔ xs.length ≤ inlineCap)
    (hlong : xs.length ≤ inlineCap ∨ inlineCap < (w.mem.slice s).size) :
    Sound base ⟨m', insert s w.made, none⟩ := by
  have hcap : (m'.slice s).size ≤ inlineCap ↔ xs.length ≤ inlineCap := by
    rw [hsize, recordedSize]
    split_ifs with hlt
    · omega
    · rfl
  refine h.gives hgives (holder_of_not_made hs) ⟨⟨r, hgives.storage, fun hin => ?_⟩, ?_⟩ ?_
  · -- an inline size is the length
    refine ⟨xs, hxs, ?_⟩
    rw [hsize, recordedSize, if_neg (Nat.not_lt.mpr (hbuf.mp hin))]
  · rw [hbuf, hcap]
  · have hold := h.size_lt s
    rw [hsize, recordedSize]
    split_ifs with hlt
    · exact hold
    · rw [inlineCap] at hlt
      omega

theorem Sound.initFrom {str : List UInt8} (h : Sound base w)
    (hsafe : (SliceCall.initFrom s str).Safe w) (hnext : w.next (.initFrom s str) = some w') :
    Sound base w' := by
  rw [next, if_neg (by simp [h.noFault])] at hnext
  change (if _ then _ else _) = some w' at hnext
  split_ifs at hnext with hlegal
  obtain ⟨hs, hnul, hne⟩ := hlegal
  obtain rfl := Option.some.inj hnext
  obtain ⟨m', r, hrun, hgives, hholds, -, hsize, hbuf⟩ :=
    sliceInitFrom_spec w.mem s (CString.mk hnul hne hsafe.1)
  rw [hrun]
  exact h.makes hs hgives hholds hsize hbuf hsafe.2

theorem Sound.initAsAggregation {slices : List ℕ} (h : Sound base w)
    (hsafe : (SliceCall.initAsAggregation s slices).Safe w)
    (hnext : w.next (.initAsAggregation s slices) = some w') : Sound base w' := by
  rw [next, if_neg (by simp [h.noFault])] at hnext
  change (if _ then _ else _) = some w' at hnext
  split_ifs at hnext with hlegal
  obtain ⟨hs, hmade, hpos⟩ := hlegal
  obtain rfl := Option.some.inj hnext
  obtain ⟨hread, hlt, hlong⟩ := hsafe
  -- what the slices hold
  choose! value hvalue using hread
  have hsum := sum_size_eq hvalue
  rw [hsum] at hpos hlt hlong
  have hparts : ∀ c ∈ slices, c ≠ s ∧ w.mem.Stores c (value c) ∧
      (w.mem.slice c).buf ≠ .heap w.mem.fresh := fun c hc =>
    ⟨fun he => hs (he ▸ hmade c hc), hvalue c hc, Mem.buf_ne_fresh h.sole (hmade c hc)⟩
  obtain ⟨m', r, hrun, hgives, hholds, hsize, hbuf⟩ := sliceInitAsAggregation_spec hparts
    (fun hnil => hpos (by rw [hnil, List.length_nil])) hlt
  rw [hrun]
  exact h.makes hs hgives hholds hsize hbuf hlong

theorem Sound.copy {dst src : ℕ} (h : Sound base w) (hsafe : (SliceCall.copy dst src).Safe w)
    (hnext : w.next (.copy dst src) = some w') : Sound base w' := by
  rw [next, if_neg (by simp [h.noFault])] at hnext
  change (if _ then _ else _) = some w' at hnext
  split_ifs at hnext with hlegal
  obtain ⟨hdst, hsrc⟩ := hlegal
  obtain rfl := Option.some.inj hnext
  obtain ⟨⟨xs, r, hstore, hxs, hlen⟩, hcap⟩ := hsafe
  have hne : dst ≠ src := fun he => hdst (he ▸ hsrc)
  obtain ⟨m', r', hrun, hgives, hholds, hsize, hbuf⟩ :=
    sliceCopy_spec hne hstore hxs hlen (Mem.buf_ne_fresh h.sole hsrc)
  rw [hrun]
  refine h.gives hgives (holder_of_not_made hdst)
    ⟨⟨r', hgives.storage, fun _ => ⟨xs, hholds, hsize.symm⟩⟩, ?_⟩ ?_
  · rw [hbuf, hsize, ← hlen]
    exact ⟨Nat.le_of_lt, fun hle => lt_of_le_of_ne hle hcap⟩
  · rw [hsize, ← hlen]
    exact h.size_lt src

theorem Sound.append {suffix : List UInt8} (h : Sound base w)
    (hsafe : (SliceCall.append s suffix).Safe w) (hnext : w.next (.append s suffix) = some w') :
    Sound base w' := by
  rw [next, if_neg (by simp [h.noFault])] at hnext
  change (if _ then _ else _) = some w' at hnext
  split_ifs at hnext with hlegal
  obtain ⟨hs, hnul⟩ := hlegal
  obtain rfl := Option.some.inj hnext
  obtain ⟨hlen, htotal⟩ := hsafe
  obtain ⟨⟨r, hstore, hbytes⟩, hplace⟩ := h.held s hs
  obtain ⟨m', hrun, r', old, hgives, hsize, hbuf, hold, hholds⟩ :=
    sliceAppend_spec hnul hlen htotal hstore fun hin => ⟨hplace.mp hin, hbytes hin⟩
  have hheld : ∀ b, old = some b ↔ w.mem.holder w.made s = some b := fun b => by
    rw [hold, Mem.holder_eq_some]
    exact ⟨fun hb => ⟨hs, hb⟩, And.right⟩
  rw [hrun]
  change Sound base ⟨m', w.made, none⟩
  rw [← Finset.insert_eq_of_mem hs]
  refine h.gives hgives hheld ⟨⟨r', hgives.storage, fun hin => ?_⟩, ?_⟩ ?_
  · -- it was inline before, and what it held is followed by the suffix
    obtain ⟨xs, hxs, hxlen⟩ := hbytes (hbuf.mp hin).1
    refine ⟨xs ++ suffix, hholds xs hxlen hxs, ?_⟩
    rw [List.length_append, hxlen, hsize]
  · rw [hbuf, hplace, hsize]
    omega
  · rw [hsize]
    exact htotal

theorem Sound.destroy (h : Sound base w) (hnext : w.next (.destroy s) = some w') :
    Sound base w' := by
  rw [next, if_neg (by simp [h.noFault])] at hnext
  change (if _ then _ else _) = some w' at hnext
  split_ifs at hnext with hs
  obtain rfl := Option.some.inj hnext
  obtain ⟨⟨r, hstore, -⟩, hplace⟩ := h.held s hs
  obtain ⟨m', hrun, hslice, hfresh, hblock⟩ := sliceDestroy_spec hstore hplace
  rw [hrun]
  change Sound base ⟨m', w.made.erase s, none⟩
  -- the block of `s` is gone, and every other is as it was
  have hlive : ∀ b, m'.Live b ↔ w.mem.Live b ∧ w.mem.holder w.made s ≠ some b := fun b => by
    rw [Mem.Live, hblock, Ne, Mem.holder_eq_some]
    split_ifs with hb
    · simp [hb, hs]
    · simp [hb, Mem.Live]
  have hothers : ∀ s', s' ≠ s → m'.holder (w.made.erase s) s' = w.mem.holder w.made s' := by
    intro s' hne
    rw [Mem.holder, Mem.holder, hslice]
    simp [hne]
  have hgone : m'.holder (w.made.erase s) s = none := by simp [Mem.holder]
  refine ⟨rfl, fun s' hs' => ?_, ?_, ?_, fun s' => ?_⟩
  · obtain ⟨hne, hmade⟩ := Finset.mem_erase.mp hs'
    obtain ⟨⟨r', hstore', hbytes'⟩, hplace'⟩ := h.held s' hmade
    refine ⟨⟨r', ?_, ?_⟩, ?_⟩
    · rw [Mem.Storage, hslice]
      rcases hstore' with hin | ⟨b, hbuf, hb⟩
      · exact .inl hin
      · have hkeep : (w.mem.slice s).buf ≠ .heap b := fun hb' => hne
          (h.sole.alone s' s b (Mem.holder_eq_some.mpr ⟨hmade, hbuf⟩)
            (Mem.holder_eq_some.mpr ⟨hs, hb'⟩))
        exact .inr ⟨b, hbuf, by rw [hblock, if_neg hkeep, hb]⟩
    · rwa [hslice]
    · rwa [hslice]
  · refine h.sole.update hothers (fun b hb hne => (hlive b).mpr ⟨hb, hne⟩) (fun b hb => ?_)
      fun b hb => hfresh ▸ h.sole.lt_fresh b ((hlive b).mp hb).1
    rw [hgone] at hb
    cases hb
  · exact h.covered.update hothers fun b _ hb => .inl ((hlive b).mp hb)
  · change (m'.slice s').size < 2 ^ 64
    rw [hslice]
    exact h.size_lt s'

/-- **One safe call.** -/
theorem Sound.step (h : Sound base w) (hsafe : call.Safe w) (hnext : w.next call = some w') :
    Sound base w' := by
  cases call with
  | initFrom s str => exact h.initFrom hsafe hnext
  | initAsAggregation s slices => exact h.initAsAggregation hsafe hnext
  | copy dst src => exact h.copy hsafe hnext
  | append s suffix => exact h.append hsafe hnext
  | parseInt s frame x => exact hsafe.elim
  | parseFloat s frame x afterpoints => exact hsafe.elim
  | parseDouble s frame x afterpoints => exact hsafe.elim
  | destroy s => exact h.destroy hnext

/-- Before the first slice nothing is owned. -/
theorem sound_start (hheap : ∀ b, m.Live b → b < m.fresh)
    (hsize : ∀ s, (m.slice s).size < 2 ^ 64) : Sound m.fresh (sliceStart m) := by
  have hnone : ∀ s, m.holder ∅ s = none := fun s => by simp [Mem.holder]
  refine ⟨rfl, fun s hs => absurd hs (Finset.notMem_empty s),
    ⟨fun s b hb => ?_, fun s s' b hb => ?_, hheap⟩, fun b hb hlive => ?_, hsize⟩
  · rw [sliceStart, hnone] at hb
    cases hb
  · rw [sliceStart, hnone] at hb
    cases hb
  · exact absurd (hheap b hlive) (Nat.not_lt.mpr hb)

end Sound

end SliceWorld

/-- **Slice ownership.** In memory that may hold anything, with any heap, every run
of safe calls keeps every slice the owner of its storage, every destroy exact, and
every block that the slices allocated in the hands of one of them. -/
theorem slices_owned (m : Mem) (hheap : ∀ b, m.Live b → b < m.fresh)
    (hsize : ∀ s, (m.slice s).size < 2 ^ 64) (calls : List SliceCall)
    (hsafe : sliceSystem.Guarded (fun w call => call.Safe w) (sliceStart m) calls) :
    sliceSystem.Always (SliceWorld.Owned m.fresh) (sliceStart m) calls :=
  System.always_of_guarded (fun _ _ _ h hcall hnext => SliceWorld.Sound.step h hcall hnext)
    (fun _ h => h.owned) (SliceWorld.sound_start hheap hsize) hsafe

/-- A slice is made, copied, appended to and destroyed. -/
theorem slices_owned_copied :
    sliceSystem.Always (SliceWorld.Owned 0) (sliceStart (stale 0 0))
      [.initFrom 0 [97], .copy 1 0, .append 1 [98], .destroy 0] := by
  refine slices_owned (stale 0 0) (fun b hb => by simp [Mem.Live, stale] at hb)
    (fun s => by simp [stale]) _ (.cons ?_ rfl (.cons ?_ rfl (.cons ?_ rfl ⟨trivial, fun _ _ => trivial⟩)))
  · exact ⟨by decide, .inl (by decide)⟩
  · -- the slice holds its one byte
    refine ⟨⟨[97], _, .inl ⟨rfl, rfl⟩, ⟨by decide, fun i hi => ?_⟩, rfl⟩, by decide⟩
    obtain rfl : i = 0 := Nat.lt_one_iff.mp hi
    rfl
  · exact ⟨by decide, by decide⟩

/-- A string of 49 bytes in zeroed memory, a copy of 48 bytes, and a number: each leaves
a slice that does not point to its own buffer and has a size that says it does. -/
theorem slices_not_owned :
    ¬ sliceSystem.Always (SliceWorld.Owned 0) (sliceStart (stale 0 0))
        [.initFrom 0 (List.replicate 49 97)] ∧
      ¬ sliceSystem.Always (SliceWorld.Owned 0) (sliceStart (stale 0 0))
        [.initFrom 0 (List.replicate 48 97), .copy 1 0] ∧
      ¬ sliceSystem.Always (SliceWorld.Owned 0) (sliceStart (stale 0 0)) [.parseInt 0 1 5] := by
  refine ⟨fun h => ?_, fun h => ?_, fun h => ?_⟩
  · have hown := (h 1 _ rfl).owns 0 (by decide)
    exact absurd (hown.1.mpr (by decide)) (by decide)
  · have hown := (h 2 _ rfl).owns 1 (by decide)
    exact absurd (hown.1.mpr (by decide)) (by decide)
  · have hown := (h 1 _ rfl).owns 0 (by decide)
    exact absurd (hown.1.mpr (by decide)) (by decide)

end Posixc
