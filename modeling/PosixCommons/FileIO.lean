import PosixCommons.Framework.Memory

/-!
# Buffered writing

`fileio.c`: a `BufferedWritable` collects bytes in a buffer of
`bufferedWritableSize` and hands them to the kernel when it is full. What the
kernel does is a list of outcomes, one for each `write`: it takes some of the
bytes, is interrupted, or fails. A call that needs an outcome that the list does
not have is still waiting for the kernel.

The bytes have any type `β`. What is proved of the order of bytes of any type
holds of bytes that each carry their position in the data, so it says which bytes
went where, and not only which values.

Each call is described by what the file and the buffer hold together
(`Holding`): a call appends its data to that, or loses an end of it and returns
false (`flush_spec`, `bufferedWrite_spec`). `Carried` is what a sequence of such
calls adds up to.
-/

open Framework

namespace Posixc

/-- `buffered_writable_size`. -/
def bufferedWritableSize : ℕ := 4096

/-- What one `write` does: it takes at most so many of the bytes, is interrupted,
or fails. -/
inductive WriteOutcome where
  | wrote (count : ℕ)
  | eintr
  | error

variable {β : Type}

/-- The bytes each descriptor has taken, and what the next writes will do. -/
structure Kernel (β : Type) where
  file : ℕ → List β
  outcomes : List WriteOutcome

/-- The loop of `posixc_unbuffered_write`. -/
def unbufferedWriteLoop (fd : ℕ) :
    List WriteOutcome → (ℕ → List β) → List β → Exec (Bool × Kernel β)
  | outcomes, file, [] => .ok (true, ⟨file, outcomes⟩)
  | [], _, _ :: _ => .error .exhausted
  | .wrote count :: outcomes, file, b :: data =>
    -- the loop goes on with what the kernel did not take
    unbufferedWriteLoop fd outcomes
      (Function.update file fd (file fd ++ (b :: data).take count)) ((b :: data).drop count)
  | .eintr :: outcomes, file, b :: data => unbufferedWriteLoop fd outcomes file (b :: data)
  | .error :: outcomes, file, _ :: _ => .ok (false, ⟨file, outcomes⟩)

/-- `posixc_unbuffered_write`. -/
def unbufferedWrite (k : Kernel β) (fd : ℕ) (data : List β) : Exec (Bool × Kernel β) :=
  unbufferedWriteLoop fd k.outcomes k.file data

/-- `posixc_buffered_writable`. -/
structure BufferedWritable (β : Type) where
  cells : ℕ → Option β
  pos : ℕ
  fd : ℕ

namespace BufferedWritable

/-- The member `buf`. -/
def buf (bw : BufferedWritable β) : Region β := ⟨bufferedWritableSize, bw.cells⟩

/-- `memcpy` to the address `off` in `buf`. -/
def memcpy (bw : BufferedWritable β) (off : ℕ) (data : List β) : Exec (BufferedWritable β) := do
  let r ← bw.buf.blit off data
  return { bw with cells := r.cell }

end BufferedWritable

/-- `posixc_buffered_writable_init`. -/
def bufferedWritableInit (bw : BufferedWritable β) (fd : ℕ) : BufferedWritable β :=
  { bw with pos := 0, fd := fd }

/-- `posixc_flush`. The buffer is empty afterwards, also when the write failed. -/
def flush (bw : BufferedWritable β) (k : Kernel β) :
    Exec (Bool × BufferedWritable β × Kernel β) := do
  let size := toInt bw.pos
  -- `pos` is reset before the write whose size it was
  let bw := { bw with pos := 0 }
  let data ← bw.buf.readMany 0 (sizeOfInt size)
  let (ok, k) ← unbufferedWrite k bw.fd data
  return (ok, bw, k)

/-- `posixc_buffered_write`. -/
def bufferedWrite (bw : BufferedWritable β) (data : List β) (k : Kernel β) :
    Exec (Bool × BufferedWritable β × Kernel β) := do
  let n := min data.length (sizeSub bufferedWritableSize bw.pos)
  let bw ← bw.memcpy bw.pos (data.take n)
  let data := data.drop n
  let bw := { bw with pos := toSize (bw.pos + n) }
  if data.length = 0 then return (true, bw, k)
  else
    let (ok, bw, k) ← flush bw k
    if ok then
      if data.length < bufferedWritableSize then
        -- what is left starts the next buffer
        let bw ← bw.memcpy 0 data
        return (true, { bw with pos := data.length }, k)
      else
        let (ok, k) ← unbufferedWrite k bw.fd data
        return (ok, bw, k)
    else return (false, bw, k)

/-- A call of a user of the writable. -/
inductive WritableCall (β : Type) where
  | write (data : List β)
  | flush

/-- The data that a call passes in. -/
def WritableCall.data : WritableCall β → List β
  | .write data => data
  | .flush => []

/-- A writable, the kernel it writes to and what its calls have returned. -/
structure Stream (β : Type) where
  bw : BufferedWritable β
  kernel : Kernel β
  answers : List Bool

/-- The call `c` of the user. -/
def Stream.call (s : Stream β) (c : WritableCall β) : Exec (Stream β) := do
  let (ok, bw, k) ← match c with
    | .write data => bufferedWrite s.bw data s.kernel
    | .flush => Posixc.flush s.bw s.kernel
  return ⟨bw, k, s.answers ++ [ok]⟩

/-! ### One call -/

/-- The file `fd` of the writable holds `base` and something more, which together
with the buffer is `got`. -/
def Holding (bw : BufferedWritable β) (k : Kernel β) (fd : ℕ) (base got : List β) : Prop :=
  bw.fd = fd ∧ ∃ out buffered, k.file fd = base ++ out ∧ bw.buf.Holds buffered ∧
    bw.pos = buffered.length ∧ out ++ buffered = got

/-- What a call that was to leave `want` leaves instead: all of it exactly when it
returns true, and otherwise no more than a prefix. -/
def Leaves (bw : BufferedWritable β) (k : Kernel β) (fd : ℕ) (base want : List β) (ok : Bool) :
    Prop :=
  ∃ got, Holding bw k fd base got ∧ got <+: want ∧ (got = want ↔ ok = true)

theorem Holding.leaves {bw : BufferedWritable β} {k : Kernel β} {fd : ℕ} {base got : List β}
    (h : Holding bw k fd base got) : Leaves bw k fd base got true :=
  ⟨got, h, List.prefix_rfl, by simp⟩

/-- A write with an empty buffer, of which `sent` came to the file and `lost` did not. -/
theorem Leaves.of_sent {bw : BufferedWritable β} {k : Kernel β} {fd : ℕ}
    {base out sent lost : List β} {ok : Bool} (hfd : bw.fd = fd)
    (hfile : k.file fd = base ++ (out ++ sent)) (hbuf : bw.buf.Holds []) (hpos : bw.pos = 0)
    (hok : lost = [] ↔ ok = true) : Leaves bw k fd base (out ++ (sent ++ lost)) ok := by
  refine ⟨out ++ sent, ⟨hfd, out ++ sent, [], hfile, hbuf, hpos, List.append_nil _⟩, ?_, ?_⟩
  · rw [← List.append_assoc]
    exact List.prefix_append _ _
  · rw [← hok, ← List.append_assoc, List.self_eq_append_right]

theorem Holding.pos_le {bw : BufferedWritable β} {k : Kernel β} {fd : ℕ} {base got : List β}
    (h : Holding bw k fd base got) : bw.pos ≤ bufferedWritableSize := by
  obtain ⟨-, out, buffered, -, hbuf, hpos, -⟩ := h
  rw [hpos]
  exact hbuf.1

/-- What the file and the buffer hold is accounted for. -/
theorem Holding.length_add {bw : BufferedWritable β} {k : Kernel β} {fd : ℕ} {base got : List β}
    (h : Holding bw k fd base got) : (k.file fd).length + bw.pos = base.length + got.length := by
  obtain ⟨-, out, buffered, hfile, -, hpos, rfl⟩ := h
  rw [hfile, hpos, List.length_append, List.length_append, Nat.add_assoc]

/-- A call that returned true left all of it. -/
theorem Leaves.holding {bw : BufferedWritable β} {k : Kernel β} {fd : ℕ} {base want : List β}
    (h : Leaves bw k fd base want true) : Holding bw k fd base want := by
  obtain ⟨got, hgot, -, hall⟩ := h
  rwa [hall.mpr rfl] at hgot

/-- With an empty buffer all of it is in the file. -/
theorem Holding.empty {bw : BufferedWritable β} {k : Kernel β} {fd : ℕ} {base got : List β}
    (h : Holding bw k fd base got) (hpos : bw.pos = 0) :
    ∃ out, bw.fd = fd ∧ k.file fd = base ++ out ∧ bw.buf.Holds [] ∧ out = got := by
  obtain ⟨hfd, out, buffered, hfile, hbuf, hlen, hgot⟩ := h
  obtain rfl : buffered = [] := List.eq_nil_of_length_eq_zero (by rw [← hlen, hpos])
  exact ⟨out, hfd, hfile, hbuf, by rw [← hgot, List.append_nil]⟩

/-- A call that failed before its last data leaves a proper prefix still. -/
theorem Leaves.append {bw : BufferedWritable β} {k : Kernel β} {fd : ℕ} {base want : List β}
    (h : Leaves bw k fd base want false) (more : List β) :
    Leaves bw k fd base (want ++ more) false := by
  obtain ⟨got, hgot, hpre, hfail⟩ := h
  refine ⟨got, hgot, hpre.trans (List.prefix_append _ _), ?_⟩
  have hne : got ≠ want ++ more := by
    rintro rfl
    -- then `want` would be a prefix of itself with `more`
    have hlen := hpre.length_le
    rw [List.length_append] at hlen
    have hnil : more = [] := List.eq_nil_of_length_eq_zero (by omega)
    rw [hnil, List.append_nil] at hfail
    exact Bool.false_ne_true (hfail.mp rfl)
  exact iff_of_false hne Bool.false_ne_true

theorem BufferedWritable.memcpy_holds {bw : BufferedWritable β} {ys : List β}
    (h : bw.buf.Holds ys) (xs : List β) (hlen : ys.length + xs.length ≤ bufferedWritableSize) :
    ∃ cells, bw.memcpy ys.length xs = .ok { bw with cells := cells } ∧
      Region.Holds ⟨bufferedWritableSize, cells⟩ (ys ++ xs) := by
  obtain ⟨r, hblit, hr, hholds⟩ := Region.blit_holds h xs hlen
  -- a copy keeps the length of the buffer
  obtain ⟨len, cells⟩ := r
  obtain rfl : len = bufferedWritableSize := hr
  refine ⟨cells, ?_, hholds⟩
  rw [BufferedWritable.memcpy, hblit]
  rfl

/-- The write takes a byte, of the one or more it is given. -/
def WriteOutcome.takes : WriteOutcome → Bool
  | .wrote (_ + 1) => true
  | _ => false

/-- No write to come fails. -/
def Kernel.Succeeds (k : Kernel β) : Prop := WriteOutcome.error ∉ k.outcomes

/-- How many of the writes to come take a byte at least. -/
def Kernel.ready (k : Kernel β) : ℕ := k.outcomes.countP WriteOutcome.takes

/-- What a call that returns `ok` does to the writes to come: each that takes a byte puts
one into the file, and none fails where none is to fail. -/
structure Draws (fd : ℕ) (k k' : Kernel β) (ok : Bool) : Prop where
  ready : k.ready + (k.file fd).length ≤ k'.ready + (k'.file fd).length
  succeeds : k.Succeeds → ok = true ∧ k'.Succeeds

/-- A call that makes no write. -/
theorem Draws.refl (fd : ℕ) (k : Kernel β) : Draws fd k k true := ⟨le_rfl, fun hk => ⟨rfl, hk⟩⟩

theorem Draws.trans {fd : ℕ} {k k₁ k₂ : Kernel β} {ok : Bool} (h : Draws fd k k₁ true)
    (h' : Draws fd k₁ k₂ ok) : Draws fd k k₂ ok :=
  ⟨h.ready.trans h'.ready, fun hk => h'.succeeds (h.succeeds hk).2⟩

/-- The loop writes a prefix of the data, all of it exactly when it returns
true, and touches no other file. It waits only for the kernel. -/
theorem unbufferedWriteLoop_spec (fd : ℕ) (outcomes : List WriteOutcome) :
    ∀ (file : ℕ → List β) (data : List β),
      unbufferedWriteLoop fd outcomes file data = .error .exhausted ∧
          outcomes.countP WriteOutcome.takes < data.length ∨
        ∃ ok k sent lost, unbufferedWriteLoop fd outcomes file data = .ok (ok, k) ∧
          sent ++ lost = data ∧ k.file = Function.update file fd (file fd ++ sent) ∧
          (lost = [] ↔ ok = true) ∧ outcomes.countP WriteOutcome.takes ≤ k.ready + sent.length ∧
          (WriteOutcome.error ∉ outcomes → ok = true ∧ k.Succeeds) := by
  induction outcomes with
  | nil =>
    intro file data
    -- with no outcome left the loop returns only when nothing is left to write
    cases data with
    | nil =>
      exact .inr ⟨true, ⟨file, []⟩, [], [], rfl, rfl, by simp, by simp, le_rfl,
        fun h => ⟨rfl, h⟩⟩
    | cons b data => exact .inl ⟨rfl, Nat.succ_pos _⟩
  | cons o outcomes ih =>
    intro file data
    cases data with
    | nil =>
      refine .inr ⟨true, ⟨file, o :: outcomes⟩, [], [], ?_, rfl, by simp, by simp, le_rfl,
        fun h => ⟨rfl, h⟩⟩
      cases o <;> rfl
    | cons b data =>
      cases o with
      | wrote count =>
        -- a write that takes a byte sends one
        have hone : (WriteOutcome.wrote count :: outcomes).countP WriteOutcome.takes ≤
            outcomes.countP WriteOutcome.takes + ((b :: data).take count).length := by
          rw [List.countP_cons, List.length_take, List.length_cons]
          cases count with
          | zero => simp [WriteOutcome.takes]
          | succ count =>
            simp only [WriteOutcome.takes, if_true]
            omega
        have hall : ((b :: data).take count).length + ((b :: data).drop count).length =
            (b :: data).length := by
          rw [← List.length_append, List.take_append_drop]
        -- the bytes taken now come before those taken later
        rcases ih (Function.update file fd (file fd ++ (b :: data).take count))
            ((b :: data).drop count) with
          ⟨hwait, hshort⟩ | ⟨ok, k, sent, lost, hrun, hdata, hfile, hok, hready, hsucceed⟩
        · exact .inl ⟨hwait, by omega⟩
        · refine .inr ⟨ok, k, (b :: data).take count ++ sent, lost, hrun, ?_, ?_, hok, ?_,
            fun h => hsucceed fun hmem => h (List.mem_cons_of_mem _ hmem)⟩
          · calc (b :: data).take count ++ sent ++ lost
                = (b :: data).take count ++ (b :: data).drop count := by
                  rw [List.append_assoc, hdata]
              _ = b :: data := List.take_append_drop _ _
          · rw [hfile, Function.update_idem, Function.update_self, List.append_assoc]
          · rw [List.length_append]
            omega
      | eintr =>
        rcases ih file (b :: data) with
          hwait | ⟨ok, k, sent, lost, hrun, hdata, hfile, hok, hready, hsucceed⟩
        · exact .inl hwait
        · exact .inr ⟨ok, k, sent, lost, hrun, hdata, hfile, hok, hready,
            fun h => hsucceed fun hmem => h (List.mem_cons_of_mem _ hmem)⟩
      -- all that is left is lost
      | error =>
        exact .inr ⟨false, ⟨file, outcomes⟩, [], b :: data, rfl, rfl, by simp, by simp, le_rfl,
          fun h => absurd List.mem_cons_self h⟩

theorem unbufferedWrite_spec (k : Kernel β) (fd : ℕ) (data : List β) :
    unbufferedWrite k fd data = .error .exhausted ∧ k.ready < data.length ∨
      ∃ ok k' sent lost, unbufferedWrite k fd data = .ok (ok, k') ∧
        sent ++ lost = data ∧ k'.file = Function.update k.file fd (k.file fd ++ sent) ∧
        (lost = [] ↔ ok = true) ∧ Draws fd k k' ok := by
  rcases unbufferedWriteLoop_spec fd k.outcomes k.file data with
    hwait | ⟨ok, k', sent, lost, hrun, hdata, hfile, hok, hready, hsucceed⟩
  · exact .inl hwait
  · refine .inr ⟨ok, k', sent, lost, hrun, hdata, hfile, hok, ?_, hsucceed⟩
    have hfinal : k.ready ≤ k'.ready + sent.length := hready
    rw [hfile, Function.update_self, List.length_append]
    omega

/-- What a flush hands to the kernel: the bytes in the buffer. -/
theorem flush_eq {bw : BufferedWritable β} {k : Kernel β} {fd : ℕ} {base got : List β}
    (h : Holding bw k fd base got) :
    ∃ out buffered, k.file fd = base ++ out ∧ bw.pos = buffered.length ∧ out ++ buffered = got ∧
      flush bw k = unbufferedWrite k fd buffered >>= fun r =>
        .ok (r.1, { bw with pos := 0 }, r.2) := by
  obtain ⟨rfl, out, buffered, hfile, hbuf, hpos, hgot⟩ := h
  have hlen : buffered.length ≤ bufferedWritableSize := hbuf.1
  -- the size is read from `pos` before `pos` is reset, and fits an `int`
  have hdata : ({ bw with pos := 0 } : BufferedWritable β).buf.readMany 0
      (sizeOfInt (toInt bw.pos)) = .ok buffered := by
    rw [hpos, sizeOfInt_toInt (by unfold bufferedWritableSize at hlen; omega)]
    change bw.buf.readMany 0 buffered.length = .ok buffered
    rw [Region.readMany_of_holds hbuf 0 _ (Nat.zero_add _).le, List.drop_zero, List.take_length]
  refine ⟨out, buffered, hfile, hpos, hgot, ?_⟩
  change (_ >>= _) = _
  rw [hdata]
  rfl

/-- **A flush.** It writes what the buffer holds, or a prefix of it and returns
false. Either way the buffer is empty. -/
theorem flush_spec {bw : BufferedWritable β} {k : Kernel β} {fd : ℕ} {base got : List β}
    (h : Holding bw k fd base got) :
    flush bw k = .error .exhausted ∧ k.ready < bw.pos ∨
      ∃ ok bw' k', flush bw k = .ok (ok, bw', k') ∧ bw'.pos = 0 ∧
        Leaves bw' k' fd base got ok ∧ Draws fd k k' ok := by
  obtain ⟨out, buffered, hfile, hpos, rfl, hflush⟩ := flush_eq h
  rw [hflush, hpos]
  -- what was sent moves from the buffer to the file, what was lost is in neither
  rcases unbufferedWrite_spec k fd buffered with
    ⟨hwait, hshort⟩ | ⟨ok, k', sent, lost, hrun, hsent, hk', hok, hdraws⟩
  · rw [hwait]
    exact .inl ⟨rfl, hshort⟩
  · rw [hrun]
    rw [← hsent]
    refine .inr ⟨ok, _, k', rfl, rfl, .of_sent h.1 ?_ (Region.holds_nil _) rfl hok, hdraws⟩
    calc k'.file fd = k.file fd ++ sent := by rw [hk', Function.update_self]
      _ = base ++ (out ++ sent) := by rw [hfile, List.append_assoc]

/-- The first part of the data fills the buffer. What is left, if anything, is dealt
with after a flush. -/
theorem bufferedWrite_eq {bw : BufferedWritable β} {k : Kernel β} {fd : ℕ} {base got : List β}
    (h : Holding bw k fd base got) (data : List β) :
    ∃ bw₁ taken rest, Holding bw₁ k fd base (got ++ taken) ∧ taken ++ rest = data ∧
      bw₁.pos = bw.pos + taken.length ∧
      rest.length = data.length - (bufferedWritableSize - bw.pos) ∧
      bufferedWrite bw data k =
        if rest.length = 0 then .ok (true, bw₁, k)
        else flush bw₁ k >>= fun r =>
          if r.1 then
            if rest.length < bufferedWritableSize then
              r.2.1.memcpy 0 rest >>= fun bw => .ok (true, { bw with pos := rest.length }, r.2.2)
            else unbufferedWrite r.2.2 r.2.1.fd rest >>= fun q => .ok (q.1, r.2.1, q.2)
          else .ok (false, r.2.1, r.2.2) := by
  obtain ⟨rfl, out, buffered, hfile, hbuf, hpos, hgot⟩ := h
  have hlen : buffered.length ≤ bufferedWritableSize := hbuf.1
  have hroom : sizeSub bufferedWritableSize bw.pos = bufferedWritableSize - bw.pos := by
    rw [hpos, sizeSub_of_le (by decide) hlen]
  set n := min data.length (bufferedWritableSize - bw.pos) with hn
  obtain ⟨cells, hcopy, hcells⟩ := bw.memcpy_holds hbuf (data.take n)
    (by rw [List.length_take]; omega)
  -- `pos` cannot wrap, since it stays within the buffer
  have hpos₁ : toSize (bw.pos + n) = bw.pos + n :=
    toSize_of_lt (by unfold bufferedWritableSize at hlen hn; omega)
  have htaken : (data.take n).length = n := by
    rw [List.length_take]
    omega
  refine ⟨{ bw with cells := cells, pos := bw.pos + n }, data.take n, data.drop n,
    ⟨rfl, out, buffered ++ data.take n, hfile, hcells, ?_, ?_⟩, List.take_append_drop n data, ?_, ?_,
    ?_⟩
  · rw [List.length_append, htaken, hpos]
  · rw [← hgot, List.append_assoc]
  · rw [htaken]
  · rw [List.length_drop]
    omega
  · rw [← hpos] at hcopy
    rw [bufferedWrite, hroom, ← hn, hcopy, Exec.ok_bind]
    dsimp only
    rw [hpos₁]
    rfl

/-- **A buffered write.** The data follows what the file and the buffer held, all
of it exactly when the call returns true. -/
theorem bufferedWrite_spec {bw : BufferedWritable β} {k : Kernel β} {fd : ℕ} {base got : List β}
    (h : Holding bw k fd base got) (data : List β) :
    bufferedWrite bw data k = .error .exhausted ∧ k.ready < bw.pos + data.length ∨
      ∃ ok bw' k', bufferedWrite bw data k = .ok (ok, bw', k') ∧
        Leaves bw' k' fd base (got ++ data) ok ∧ Draws fd k k' ok := by
  obtain ⟨bw₁, taken, rest, hholding, rfl, hpos₁, -, hrun⟩ := bufferedWrite_eq h data
  rw [hrun, ← List.append_assoc, List.length_append]
  by_cases hrest : rest.length = 0
  · -- all of the data fits
    rw [if_pos hrest, List.eq_nil_of_length_eq_zero hrest, List.append_nil]
    exact .inr ⟨true, bw₁, k, rfl, hholding.leaves, .refl fd k⟩
  · rw [if_neg hrest]
    rcases flush_spec hholding with
      ⟨hwait, hshort⟩ | ⟨ok, bw₂, k₂, hflush, hpos₂, hleaves, hdraws⟩
    · rw [hwait]
      exact .inl ⟨rfl, by omega⟩
    rw [hflush, Exec.ok_bind]
    dsimp only
    cases ok with
    | false =>
      -- the rest of the data is dropped with what the flush lost
      exact .inr ⟨false, bw₂, k₂, rfl, hleaves.append _, hdraws⟩
    | true =>
      -- the buffer is empty, and all that came before is in the file
      rw [if_pos rfl]
      have hlen₂ := hleaves.holding.length_add
      obtain ⟨out₂, hfd₂, hfile₂, hbuf₂, hgot₂⟩ := hleaves.holding.empty hpos₂
      by_cases hsmall : rest.length < bufferedWritableSize
      · -- the rest goes to the empty buffer
        obtain ⟨cells₃, hcopy₃, hcells₃⟩ :=
          bw₂.memcpy_holds hbuf₂ rest (by rw [List.length_nil]; omega)
        rw [List.length_nil] at hcopy₃
        rw [if_pos hsmall, hcopy₃]
        refine .inr ⟨true, _, k₂, rfl,
          Holding.leaves ⟨hfd₂, out₂, rest, hfile₂, hcells₃, rfl, ?_⟩, hdraws⟩
        rw [hgot₂]
      · -- the rest goes straight to the file
        rw [if_neg hsmall, hfd₂]
        rcases unbufferedWrite_spec k₂ fd rest with
          ⟨hwait, hshort⟩ | ⟨ok, k₃, sent, lost, hrun, hsent, hk₃, hok, hdraws₃⟩
        · -- the writes that are left are fewer by those of the flush at most
          have hlen := hholding.length_add
          have hready := hdraws.ready
          rw [hwait]
          exact .inl ⟨rfl, by omega⟩
        · rw [hrun]
          rw [← hgot₂, ← hsent]
          refine .inr ⟨ok, bw₂, k₃, rfl, .of_sent hfd₂ ?_ hbuf₂ hpos₂ hok, hdraws.trans hdraws₃⟩
          calc k₃.file fd = k₂.file fd ++ sent := by rw [hk₃, Function.update_self]
            _ = base ++ (out₂ ++ sent) := by rw [hfile₂, List.append_assoc]

/-! ### Writes that succeed -/

/-- **A flush that succeeds.** It leaves all in the file. -/
theorem flush_succeeds {bw : BufferedWritable β} {k : Kernel β} {fd : ℕ} {base got : List β}
    (h : Holding bw k fd base got) (hk : k.Succeeds) :
    flush bw k = .error .exhausted ∧ k.ready < bw.pos ∨
      ∃ bw' k', flush bw k = .ok (true, bw', k') ∧ bw'.pos = 0 ∧ Holding bw' k' fd base got ∧
        k'.Succeeds ∧ k.ready ≤ k'.ready + bw.pos := by
  rcases flush_spec h with hwait | ⟨ok, bw', k', hflush, hpos, hleaves, hdraws⟩
  · exact .inl hwait
  · obtain ⟨rfl, hk'⟩ := hdraws.succeeds hk
    have hlen := h.length_add
    have hlen' := hleaves.holding.length_add
    have hready := hdraws.ready
    exact .inr ⟨bw', k', hflush, hpos, hleaves.holding, hk', by omega⟩

/-- **A buffered write that succeeds.** It writes nothing out when there is room for
the data. -/
theorem bufferedWrite_succeeds {bw : BufferedWritable β} {k : Kernel β} {fd : ℕ}
    {base got : List β} (h : Holding bw k fd base got) (hk : k.Succeeds) (data : List β) :
    bufferedWrite bw data k = .error .exhausted ∧ k.ready < bw.pos + data.length ∨
      ∃ bw' k', bufferedWrite bw data k = .ok (true, bw', k') ∧
        Holding bw' k' fd base (got ++ data) ∧ k'.Succeeds ∧
        k.ready + bw'.pos ≤ k'.ready + bw.pos + data.length ∧
        (bw.pos + data.length ≤ bufferedWritableSize → k' = k) := by
  rcases bufferedWrite_spec h data with hwait | ⟨ok, bw', k', hwrite, hleaves, hdraws⟩
  · exact .inl hwait
  · obtain ⟨rfl, hk'⟩ := hdraws.succeeds hk
    have hlen := h.length_add
    have hlen' := hleaves.holding.length_add
    have hready := hdraws.ready
    rw [List.length_append] at hlen'
    refine .inr ⟨bw', k', hwrite, hleaves.holding, hk', by omega, fun hroom => ?_⟩
    -- data that fits goes to the buffer
    obtain ⟨bw₁, taken, rest, -, -, -, hrest, hrun⟩ := bufferedWrite_eq h data
    rw [if_pos (by omega), hwrite] at hrun
    exact (Prod.mk.inj (Prod.mk.inj (Except.ok.inj hrun)).2).2

/-! ### Sequences of calls -/

/-- What the calls are known to have carried: the file and the buffer hold some
of what was given, in its order, and all of it exactly when no call returned
false. -/
def Carried (fd : ℕ) (base : List β) (calls : List (WritableCall β)) (s : Stream β) : Prop :=
  ∃ got, Holding s.bw s.kernel fd base got ∧ got.Sublist (calls.flatMap WritableCall.data) ∧
    (got = calls.flatMap WritableCall.data ↔ false ∉ s.answers)

/-- A call that was to leave its data after what was carried keeps `Carried`. -/
theorem Carried.call {fd : ℕ} {base got want : List β} {calls : List (WritableCall β)}
    {c : WritableCall β} {answers : List Bool} {bw : BufferedWritable β} {k : Kernel β} {ok : Bool}
    (hsub : got.Sublist (calls.flatMap WritableCall.data))
    (hall : got = calls.flatMap WritableCall.data ↔ false ∉ answers)
    (hwant : want = got ++ c.data) (h : Leaves bw k fd base want ok) :
    Carried fd base (calls ++ [c]) ⟨bw, k, answers ++ [ok]⟩ := by
  obtain ⟨got', hgot', hpre, hok⟩ := h
  subst hwant
  refine ⟨got', hgot', ?_, ?_⟩
  · rw [List.flatMap_append, List.flatMap_singleton]
    exact hpre.sublist.trans (hsub.append_right _)
  · rw [List.flatMap_append, List.flatMap_singleton, List.mem_append, List.mem_singleton,
      not_or, ← hall]
    constructor
    · intro heq
      -- nothing can be missing where the lengths agree
      have hgot : got = calls.flatMap WritableCall.data := by
        have hle := hpre.length_le
        rw [heq, List.length_append, List.length_append] at hle
        exact hsub.eq_of_length_le (by omega)
      refine ⟨hgot, ?_⟩
      rw [heq, hgot] at hok
      simpa using hok.mp rfl
    · -- nothing was lost before, and this call lost nothing
      rintro ⟨hgot, hok'⟩
      rw [← hgot]
      exact hok.mpr (by simpa using hok')

/-- What was carried, since the kernel was `k₀`: each write that took a byte put one into
the file. -/
def CarriedFrom (fd : ℕ) (k₀ : Kernel β) (calls : List (WritableCall β)) (s : Stream β) : Prop :=
  Carried fd (k₀.file fd) calls s ∧
    k₀.ready + (k₀.file fd).length ≤ s.kernel.ready + (s.kernel.file fd).length

theorem Stream.call_spec {fd : ℕ} {k₀ : Kernel β} {calls : List (WritableCall β)} {s : Stream β}
    (h : CarriedFrom fd k₀ calls s) (c : WritableCall β) :
    (s.call c = .error .exhausted ∧
        k₀.ready < ((calls ++ [c]).flatMap WritableCall.data).length) ∨
      ∃ s', s.call c = .ok s' ∧ CarriedFrom fd k₀ (calls ++ [c]) s' := by
  obtain ⟨⟨got, hholding, hsub, hall⟩, hready⟩ := h
  -- a call that waits would need more writes than there are bytes
  have hwaits : s.kernel.ready < s.bw.pos + c.data.length →
      k₀.ready < ((calls ++ [c]).flatMap WritableCall.data).length := by
    intro hshort
    have hlen := hholding.length_add
    have hle := hsub.length_le
    rw [List.flatMap_append, List.flatMap_singleton, List.length_append]
    omega
  cases c with
  | write data =>
    rcases bufferedWrite_spec hholding data with
      ⟨hwait, hshort⟩ | ⟨ok, bw, k, hrun, hleaves, hdraws⟩
    · exact .inl ⟨by rw [Stream.call, hwait]; rfl, hwaits hshort⟩
    · exact .inr ⟨_, by rw [Stream.call, hrun]; rfl, Carried.call hsub hall rfl hleaves,
        hready.trans hdraws.ready⟩
  | flush =>
    rcases flush_spec hholding with ⟨hwait, hshort⟩ | ⟨ok, bw, k, hrun, -, hleaves, hdraws⟩
    · exact .inl ⟨by rw [Stream.call, hwait]; rfl, hwaits hshort⟩
    · exact .inr ⟨_, by rw [Stream.call, hrun]; rfl,
        Carried.call hsub hall (List.append_nil _).symm hleaves, hready.trans hdraws.ready⟩

/-- **The stream of a buffered writable.** A sequence of calls that all return
has copied nothing outside the buffer, has left `pos` in it, and has put into the
file and the buffer some of the data, in its order: all of it exactly when no call
returned false. The other sequences wait for the kernel, whose writes to come take
fewer bytes than the data has. -/
theorem bufferedWritable_stream (bw : BufferedWritable β) (fd : ℕ) (k : Kernel β)
    (calls : List (WritableCall β)) :
    (calls.foldlM Stream.call ⟨bufferedWritableInit bw fd, k, []⟩ = .error .exhausted ∧
        k.ready < (calls.flatMap WritableCall.data).length) ∨
      ∃ s out buffered,
        calls.foldlM Stream.call ⟨bufferedWritableInit bw fd, k, []⟩ = .ok s ∧
        s.bw.pos ≤ bufferedWritableSize ∧ s.kernel.file fd = k.file fd ++ out ∧
        s.bw.buf.readMany 0 s.bw.pos = .ok buffered ∧
        (out ++ buffered).Sublist (calls.flatMap WritableCall.data) ∧
        (out ++ buffered = calls.flatMap WritableCall.data ↔ false ∉ s.answers) := by
  -- before the first call nothing was carried
  have hinit : CarriedFrom fd k [] ⟨bufferedWritableInit bw fd, k, []⟩ :=
    ⟨⟨[], ⟨rfl, [], [], (List.append_nil _).symm, Region.holds_nil _, rfl, rfl⟩,
      List.Sublist.refl _, by simp⟩, le_rfl⟩
  rcases Exec.foldlM_history (I := CarriedFrom fd k)
      (W := fun calls => k.ready < (calls.flatMap WritableCall.data).length)
      (fun _ _ c h => Stream.call_spec h c) hinit calls with
    ⟨hwait, seen, hseen, hshort⟩ |
    ⟨s, hrun, ⟨got, ⟨-, out, buffered, hfile, hbuf, hpos, rfl⟩, hsub, hall⟩, -⟩
  · obtain ⟨rest, rfl⟩ := hseen
    refine .inl ⟨hwait, hshort.trans_le ?_⟩
    rw [List.flatMap_append, List.length_append]
    exact Nat.le_add_right _ _
  · refine .inr ⟨s, out, buffered, hrun, ?_, hfile, ?_, hsub, hall⟩
    · rw [hpos]
      exact hbuf.1
    · rw [hpos, Region.readMany_of_holds hbuf 0 _ (Nat.zero_add _).le, List.drop_zero,
        List.take_length]

/-! ### A flush that fails -/

/-- How many bytes the write takes, of as many as there are. -/
def WriteOutcome.count : WriteOutcome → ℕ
  | .wrote count => count
  | _ => 0

/-- A write of `n` bytes meets an error: the outcomes before it take fewer. -/
def Kernel.FailsWithin (k : Kernel β) (n : ℕ) : Prop :=
  ∃ before after, k.outcomes = before ++ .error :: after ∧
    (before.map WriteOutcome.count).sum < n

/-- A flush of `buffered` that returns false has lost nothing. The file has taken the
first of the bytes and the buffer holds the others, so that a later flush that
returns true completes them. -/
def FlushKeeps (bw : BufferedWritable β) (k : Kernel β) (buffered : List β) : Prop :=
  ∀ bw' k', flush bw k = .ok (false, bw', k') →
    ∃ sent rest, sent ++ rest = buffered ∧
      k'.file = Function.update k.file bw.fd (k.file bw.fd ++ sent) ∧
      bw'.buf.Holds rest ∧ bw'.pos = rest.length ∧
      ∀ later bw'' k'', flush bw' { k' with outcomes := later } = .ok (true, bw'', k'') →
        k''.file = Function.update k.file bw.fd (k.file bw.fd ++ buffered)

/-- An error after an outcome that is none. -/
theorem exists_error_cons {o : WriteOutcome} (ho : o ≠ .error) (outcomes : List WriteOutcome)
    (n : ℕ) :
    (∃ before after, o :: outcomes = before ++ .error :: after ∧
        (before.map WriteOutcome.count).sum < n) ↔
      ∃ before after, outcomes = before ++ .error :: after ∧
        o.count + (before.map WriteOutcome.count).sum < n := by
  constructor
  · rintro ⟨before, after, heq, hlt⟩
    rcases before with _ | ⟨o', before⟩
    · exact absurd (List.cons.inj heq).1 ho
    · obtain ⟨rfl, rfl⟩ := List.cons.inj heq
      rw [List.map_cons, List.sum_cons] at hlt
      exact ⟨before, after, rfl, hlt⟩
  · rintro ⟨before, after, rfl, hlt⟩
    exact ⟨o :: before, after, rfl, by rwa [List.map_cons, List.sum_cons]⟩

/-- The loop returns false exactly when it meets an error. -/
theorem unbufferedWriteLoop_fails (fd : ℕ) (outcomes : List WriteOutcome) :
    ∀ (file : ℕ → List β) (data : List β),
      (∃ k, unbufferedWriteLoop fd outcomes file data = .ok (false, k)) ↔
        ∃ before after, outcomes = before ++ .error :: after ∧
          (before.map WriteOutcome.count).sum < data.length := by
  induction outcomes with
  | nil =>
    intro file data
    cases data <;> simp [unbufferedWriteLoop]
  | cons o outcomes ih =>
    intro file data
    cases data with
    | nil => cases o <;> simp [unbufferedWriteLoop]
    | cons b data =>
      cases o with
      | wrote count =>
        -- what is taken before the error includes what is taken now
        rw [unbufferedWriteLoop, ih, List.length_drop, exists_error_cons (o := .wrote count) nofun]
        simp only [WriteOutcome.count, Nat.lt_sub_iff_add_lt']
      | eintr =>
        rw [exists_error_cons (o := .eintr) nofun]
        simp only [WriteOutcome.count, Nat.zero_add]
        exact ih file (b :: data)
      | error => exact iff_of_true ⟨_, rfl⟩ ⟨[], outcomes, rfl, Nat.succ_pos _⟩

/-- **When a failed flush keeps the data.** It does only where there is nothing to
keep: a flush loses bytes exactly when a write fails before the kernel has taken
all that the buffer holds. -/
theorem flush_keeps_iff {bw : BufferedWritable β} {buffered : List β}
    (hbuf : bw.buf.Holds buffered) (hpos : bw.pos = buffered.length) (k : Kernel β) :
    FlushKeeps bw k buffered ↔ ¬ k.FailsWithin buffered.length := by
  have hholding : Holding bw k bw.fd (k.file bw.fd) buffered :=
    ⟨rfl, [], buffered, (List.append_nil _).symm, hbuf, hpos, rfl⟩
  obtain ⟨out, data, hfile, hlen, hdata, hflush⟩ := flush_eq hholding
  -- nothing was written before, so it is the buffered bytes that are handed over
  obtain rfl : out = [] := List.self_eq_append_right.mp hfile
  obtain rfl : data = buffered := hdata
  constructor
  · rintro hkeeps hfails
    obtain ⟨k', hfail⟩ := (unbufferedWriteLoop_fails bw.fd k.outcomes k.file data).mpr hfails
    have hwrite : unbufferedWrite k bw.fd data = .ok (false, k') := hfail
    rw [hwrite] at hflush
    obtain ⟨sent, rest, hsplit, hkept, -, hrest, -⟩ := hkeeps _ _ hflush
    -- the buffer is empty, so all of the bytes would have to be in the file
    obtain rfl : rest = [] := List.eq_nil_of_length_eq_zero hrest.symm
    rw [List.append_nil] at hsplit
    obtain rfl := hsplit
    rcases unbufferedWrite_spec k bw.fd sent with
      ⟨hwait, -⟩ | ⟨ok, k₁, taken, lost, hrun, hall, htook, hok, -⟩
    · rw [hwrite] at hwait
      cases hwait
    · rw [hwrite] at hrun
      cases hrun
      have htaken : taken = sent := by
        rw [hkept] at htook
        have hat := congrFun htook bw.fd
        rw [Function.update_self, Function.update_self] at hat
        exact (List.append_cancel_left hat).symm
      rw [htaken, List.append_right_eq_self] at hall
      exact Bool.false_ne_true (hok.mp hall)
  · intro hfits bw' k' hfail
    -- a flush that returned false met an error
    rw [hflush] at hfail
    obtain ⟨⟨ok, k₁⟩, hwrite, heq⟩ := Exec.bind_eq_ok.mp hfail
    obtain rfl : ok = false := congrArg Prod.fst (Except.ok.inj heq)
    exact absurd ((unbufferedWriteLoop_fails bw.fd k.outcomes k.file data).mp ⟨_, hwrite⟩) hfits

/-- A flush of two bytes that the kernel takes one at a time, before an error. -/
theorem flush_keeps_iff_short :
    FlushKeeps ⟨fun i => [97, 98][i]?, 2, 1⟩ ⟨fun _ => [], [.wrote 1, .eintr, .wrote 1, .error]⟩
      [97, 98] := by
  have hbuf : Region.Holds ⟨bufferedWritableSize, fun i => [97, 98][i]?⟩ [97, 98] :=
    ⟨by decide, fun _ _ => rfl⟩
  refine (flush_keeps_iff hbuf rfl _).mpr ?_
  rw [Kernel.FailsWithin, exists_error_cons (o := .wrote 1) nofun]
  rintro ⟨before, after, heq, hlt⟩
  -- the outcomes before the error take both
  rcases before with _ | ⟨o₂, _ | ⟨o₃, before⟩⟩
  · cases heq
  · cases heq
  · obtain ⟨rfl, rfl, -⟩ : o₂ = .eintr ∧ o₃ = .wrote 1 ∧ _ := by simpa [eq_comm] using heq
    change 1 + (0 + (1 + _)) < 2 at hlt
    omega

/-- One byte is buffered, and the write of it fails. -/
theorem flush_loses :
    ¬ FlushKeeps ⟨fun i => [97][i]?, 1, 1⟩ ⟨fun _ => [], [.error]⟩ [97] := by
  intro h
  obtain ⟨sent, rest, hsplit, hfile, -, hpos, -⟩ := h _ _ rfl
  obtain rfl : rest = [] := List.eq_nil_of_length_eq_zero hpos.symm
  rw [List.append_nil] at hsplit
  obtain rfl := hsplit
  exact absurd (congrFun hfile 1) (by decide)

end Posixc
