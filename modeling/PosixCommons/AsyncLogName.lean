import PosixCommons.AsyncLogSvr
import PosixCommons.Common.TimeStr
import PosixCommons.Directories

/-!
# The name of the log file

`AsyncLogSvr` has the name of its file as a string. In `asynclogsvr.c` it is in an array of 256
bytes: `posixc_asynclogsvr_init` copies the directory there, which may have 179 characters, adds
a slash where there is none, and `update_filename` writes the time behind it, then and at every
roll.

That the array is large enough rests on the text of the time being short. No roll moves the
place where the time begins, so the bound holds for any number of rolls (`LogName.Names`), and
the array has the string that `AsyncLogSvr` has (`LogName.names_updateFilename`). What is before
the time ends with a slash, which `posixc_prepare_dirs_for` looks for without a bound.
-/

open Framework

namespace Posixc

/-- The size of `filename`. -/
def filenameSize : ℕ := 256

/-- `strcpy`. -/
def strcpy (dst src : Region UInt8) : Exec (Region UInt8) := do
  let str ← stringAt src
  dst.blit 0 (str ++ [0])

/-- `filename` and `dirlen` of `posixc_asynclogsvr`. -/
structure LogName where
  filename : Region UInt8
  dirlen : ℕ

namespace LogName

/-- `update_filename`, at a time. -/
def updateFilename (svr : LogName) (now : Tm) : Exec LogName := do
  let (filename, _) ← timestrLogfile svr.filename svr.dirlen now
  return { svr with filename := filename }

/-- The part of `posixc_asynclogsvr_init` before the file is opened. -/
def init (filename dir : Region UInt8) (now : Tm) : Exec LogName := do
  let dirlen ← strlen dir
  if dirlen < 180 then do
    let filename ← strcpy filename dir
    let last ← filename.read (sizeSub dirlen 1)
    if last ≠ slash then do
      let filename ← filename.write dirlen slash
      updateFilename ⟨filename, dirlen + 1⟩ now
    else updateFilename ⟨filename, dirlen⟩ now
  else .error .aborted

/-- The array has the name of a file in the directory `base`, which ends with a slash. -/
structure Names (svr : LogName) (base : List UInt8) (now : Tm) : Prop where
  size : svr.filename.len = filenameSize
  dirlen : svr.dirlen = base.length
  base_le : base.length ≤ 180
  holds : svr.filename.Holds (base ++ (logfileText now ++ [0]))

end LogName

/-- The directory with a slash at its end. -/
def slashed (dir : List UInt8) : List UInt8 :=
  if dir.getLast? = some slash then dir else dir ++ [slash]

/-! ### The array -/

section Array

variable {svr : LogName} {filename : Region UInt8} {dir base : List UInt8} {now : Tm}

/-- A time is written behind the directory. -/
theorem LogName.updateFilename_spec (hsize : svr.filename.len = filenameSize)
    (hdirlen : svr.dirlen = base.length) (hbase : base.length ≤ 180)
    (hholds : svr.filename.Holds base) (now : Tm) :
    ∃ svr', svr.updateFilename now = .ok svr' ∧ svr'.Names base now := by
  have htext : (logfileText now).length ≤ 29 := logfileText_length_le
  have hroom : base.length + (logfileText now ++ [0]).length ≤ svr.filename.len := by
    rw [hsize, filenameSize, List.length_append, List.length_singleton]
    omega
  obtain ⟨filename, hblit, hlen, hholds'⟩ := Region.blit_holds hholds _ hroom
  refine ⟨{ svr with filename := filename }, ?_, hlen.trans hsize, hdirlen, hbase, hholds'⟩
  rw [updateFilename, timestrLogfile_eq, hdirlen, hblit]
  rfl

/-- **A roll** keeps the directory and the bound. -/
theorem LogName.Names.updateFilename (h : svr.Names base now) (next : Tm) :
    ∃ svr', svr.updateFilename next = .ok svr' ∧ svr'.Names base next :=
  LogName.updateFilename_spec h.size h.dirlen h.base_le h.holds.of_append next

/-- The string that is in the array. -/
theorem LogName.Names.stringAt (h : svr.Names base now) (hnul : 0 ∉ base) :
    Posixc.stringAt svr.filename = .ok (base ++ logfileText now) := by
  have hholds := h.holds
  rw [← List.append_assoc] at hholds
  refine stringAt_spec hholds fun hmem => ?_
  exact (List.mem_append.mp hmem).elim hnul logfileText_plain.1

theorem slashed_length_le (hlen : dir.length < 180) : (slashed dir).length ≤ 180 := by
  rw [slashed]
  split_ifs
  · exact hlen.le
  · rw [List.length_append]
    exact hlen

theorem nul_not_mem_slashed (hnul : 0 ∉ dir) : 0 ∉ slashed dir := by
  rw [slashed]
  split_ifs
  · exact hnul
  · simpa using ⟨hnul, by decide⟩

/-- The initialisation with a directory that is short enough. -/
theorem LogName.init_spec (hsize : filename.len = filenameSize) (hnul : 0 ∉ dir)
    (hne : dir ≠ []) (hlen : dir.length < 180) (now : Tm) :
    ∃ svr, LogName.init filename (Region.ofList (dir ++ [0])) now = .ok svr ∧
      svr.Names (slashed dir) now := by
  have hdir : (Region.ofList (dir ++ [0])).Holds (dir ++ [0]) := Region.holds_ofList _
  have hroom : 0 + (dir ++ [0]).length ≤ filename.len := by
    rw [hsize, filenameSize, List.length_append, List.length_singleton]
    omega
  -- the directory is copied with its NUL
  obtain ⟨filename₁, hblit, hlen₁, hholds⟩ := Region.blit_spec hroom
  have hcopied : filename₁.Holds (dir ++ [0]) := hholds [] rfl (Region.holds_nil _)
  have hcopy : strcpy filename (Region.ofList (dir ++ [0])) = .ok filename₁ := by
    rw [strcpy, stringAt_spec hdir hnul, Exec.ok_bind, hblit]
  have hpos := List.length_pos_iff.mpr hne
  -- the character before the NUL is looked at
  have hsub : sizeSub dir.length 1 = dir.length - 1 := sizeSub_of_le (by omega) hpos
  have hlast : filename₁.read (dir.length - 1) = .ok (dir.getLast hne) := by
    have hin : dir.length - 1 < (dir ++ [0]).length := by
      rw [List.length_append]
      omega
    rw [hcopied.read hin, List.getElem_append_left (by omega), List.getLast_eq_getElem]
  rw [LogName.init, strlen_spec hdir hnul, Exec.ok_bind, if_pos hlen, hcopy, Exec.ok_bind, hsub,
    hlast, Exec.ok_bind, slashed, List.getLast?_eq_some_getLast hne]
  by_cases hslash : dir.getLast hne = slash
  · rw [if_neg (not_not.mpr hslash), if_pos (congrArg some hslash)]
    exact LogName.updateFilename_spec (hlen₁.trans hsize) rfl hlen.le hcopied.of_append now
  · -- the slash takes the place of the NUL
    obtain ⟨filename₂, hwrite, hlen₂, hholds₂⟩ := hcopied.of_append.write slash (by
      rw [hlen₁, hsize, filenameSize]
      omega)
    rw [if_pos hslash, if_neg fun h => hslash (Option.some.inj h), hwrite, Exec.ok_bind]
    exact LogName.updateFilename_spec (hlen₂.trans (hlen₁.trans hsize)) (by simp)
      (by simpa using hlen) hholds₂ now

/-- Any number of rolls. -/
theorem LogName.Names.rolls (times : List Tm) : ∀ {svr : LogName} {now : Tm},
    svr.Names base now → ∃ svr', times.foldlM LogName.updateFilename svr = .ok svr' ∧
      svr'.Names base (times.getLastD now) := by
  induction times with
  | nil => exact fun h => ⟨_, rfl, h⟩
  | cons next times ih =>
    intro svr now h
    obtain ⟨svr₁, hsvr₁, h₁⟩ := h.updateFilename next
    obtain ⟨svr', hsvr', h'⟩ := ih h₁
    -- the name of each roll stands after the same directory
    refine ⟨svr', ?_, by rwa [List.getLastD_cons]⟩
    rw [List.foldlM_cons, hsvr₁, Exec.ok_bind, hsvr']

/-- A name that begins before its first character is read. -/
theorem LogName.init_nil (hsize : filename.len = filenameSize) (now : Tm) :
    LogName.init filename (Region.ofList [0]) now = .error .outOfBounds := by
  have hdir : (Region.ofList [0]).Holds ([] ++ [(0 : UInt8)]) := Region.holds_ofList _
  have hroom : 0 + ([] ++ [(0 : UInt8)]).length ≤ filename.len := by
    rw [hsize]
    decide
  obtain ⟨filename₁, hblit, hlen₁, -⟩ := Region.blit_spec hroom
  have hcopy : strcpy filename (Region.ofList [0]) = .ok filename₁ := by
    rw [strcpy, stringAt_spec hdir List.not_mem_nil, Exec.ok_bind, hblit]
  -- `strlen` is 0, and the index before it is that of no character
  have hbefore : filename₁.len ≤ sizeSub 0 1 := by
    rw [hlen₁, hsize]
    decide
  rw [LogName.init, strlen_spec hdir List.not_mem_nil, Exec.ok_bind, if_pos (by decide), hcopy,
    Exec.ok_bind, List.length_nil, Region.read_of_len_le hbefore]
  rfl

theorem LogName.init_long (hnul : 0 ∉ dir) (hlen : 180 ≤ dir.length) (now : Tm) :
    LogName.init filename (Region.ofList (dir ++ [0])) now = .error .aborted := by
  rw [LogName.init, strlen_spec (Region.holds_ofList _) hnul, Exec.ok_bind, if_neg hlen.not_gt]

/-! ### The name in the model of the server -/

/-- The server of `AsyncLogSvr` at a roll. -/
def rolledName (s : AsyncLogSvr) (now : Tm) : AsyncLogSvr := updateFilename s (logfileText now)

theorem rolledName_spec {s : AsyncLogSvr} (hfilename : s.filename.take s.dirlen = base)
    (hdirlen : s.dirlen = base.length) (now : Tm) :
    (rolledName s now).filename = base ++ logfileText now ∧
      (rolledName s now).dirlen = base.length ∧
      (rolledName s now).filename.take (rolledName s now).dirlen = base := by
  have hname : (rolledName s now).filename = base ++ logfileText now :=
    congrArg (· ++ logfileText now) hfilename
  have hsame : (rolledName s now).dirlen = base.length := hdirlen
  exact ⟨hname, hsame, by rw [hname, hsame, List.take_left]⟩

theorem rolledName_foldl (times : List Tm) : ∀ {s : AsyncLogSvr} {now : Tm},
    s.dirlen = base.length → s.filename = base ++ logfileText now →
      (times.foldl rolledName s).filename = base ++ logfileText (times.getLastD now) := by
  induction times with
  | nil => exact fun _ hname => hname
  | cons next times ih =>
    intro s now hdirlen hname
    have hbase : s.filename.take s.dirlen = base := by rw [hname, hdirlen, List.take_left]
    obtain ⟨hname', hdirlen', -⟩ := rolledName_spec hbase hdirlen next
    rw [List.foldl_cons, List.getLastD_cons]
    exact ih hdirlen' hname'

/-- What `asynclogsvrInit` has as the name. -/
theorem asynclogsvrInit_filename {fds : FdTable} {timerIds : ℕ} {kernel : Kernel UInt8}
    {svr : AsyncLogSvr} {maxFileSize flushInterval : ℤ} {a : InitAnswers} {s : Server}
    (hnow : a.now = logfileText now)
    (h : asynclogsvrInit fds timerIds kernel svr dir maxFileSize flushInterval a = .ok s) :
    s.svr.dirlen = (slashed dir).length ∧ s.svr.filename = slashed dir ++ logfileText now := by
  unfold asynclogsvrInit at h
  split_ifs at h with hlen hfd
  · cases hlast : dir.getLast? with
    | none => rw [hlast] at h; cases h
    | some last => rw [hlast] at h; cases h
  · cases hlast : dir.getLast? with
    | none => rw [hlast] at h; cases h
    | some last =>
      rw [hlast] at h
      dsimp only at h
      obtain ⟨⟨r, dgram, timer, sig⟩, -, h⟩ := Exec.bind_eq_ok.mp h
      obtain rfl := Except.ok.inj h
      -- the slash is added unless there is one
      have hslashed : (if last = 47 then dir else dir ++ [47]) = slashed dir := by
        rw [slashed, hlast]
        simp only [Option.some.injEq]
        rfl
      dsimp only [updateFilename]
      rw [hslashed, hnow, List.take_length]
      exact ⟨rfl, rfl⟩

/-! ### The directory of the file -/

/-- Opening a file makes its directory. -/
theorem writableOpen_made {φ : Type} (sys : FileSystem φ) {cwd : List Name} {dirs : DirSet Name}
    {xs ys : List UInt8} (hpath : PathName (xs ++ slash :: ys)) (hname : slash ∉ ys)
    (hroot : dirs [] = true) (hcwd : dirs cwd = true) :
    ∃ dirs', writableOpen sys cwd dirs (xs ++ slash :: ys) = .ok (sys.openFd dirs'
        (xs ++ slash :: ys) (oTrunc ||| oWronly ||| oCreat) 0o644) ∧
      (∀ q, dirs q = true → dirs' q = true) ∧ (xs ≠ [] → dirs' (pathDir cwd xs) = true) := by
  -- neither part of the path has a NUL
  have hnul : 0 ∉ xs := fun h => hpath.noNul (List.mem_append_left _ h)
  have hnul' : 0 ∉ ys := fun h =>
    hpath.noNul (List.mem_append_right _ (List.mem_cons_of_mem _ h))
  obtain ⟨tmp, htmp, hrun⟩ := prepareDirsFor_cut cwd dirs hpath hname
  have hopen : ∀ dirs', prepareDirsFor cwd dirs (xs ++ slash :: ys) = .ok dirs' →
      writableOpen sys cwd dirs (xs ++ slash :: ys) = .ok (sys.openFd dirs'
        (xs ++ slash :: ys) (oTrunc ||| oWronly ||| oCreat) 0o644) := by
    intro dirs' h
    rw [writableOpen, h]
    rfl
  by_cases hne : xs = []
  · -- the file is in the root
    subst hne
    exact ⟨dirs, hopen dirs (hrun.trans (mkdirAlong_cut htmp hname hnul' hcwd)), fun _ => id,
      fun h => absurd rfl h⟩
  rw [decide_eq_true hne, Bool.true_and] at hrun
  by_cases hthere : dirs (pathDir cwd xs) = true
  · rw [if_pos hthere] at hrun
    exact ⟨dirs, hopen dirs hrun, fun _ => id, fun _ => hthere⟩
  · rw [if_neg hthere] at hrun
    -- the path up to its last slash is a string of its own
    have hdir : tmp.Holds (xs ++ [0] ++ (ys ++ [0])) := by simpa using htmp
    obtain ⟨dirs', hmade, hdirs⟩ := mkdirAlong_spec hdir.of_append hnul hne
      (pathBase_exists hroot hcwd xs)
    exact ⟨dirs', hopen dirs' (hrun.trans hmade), fun q hq => (hdirs q).mpr (.inl hq),
      fun _ => hdirs.end_exists⟩

end Array

/-- **The name of the log file.** A directory of up to 179 characters is copied, and however
often the file is rolled, every write is inside the array, and the array has the string that the
model of the server has: the directory, a slash and the text of the last time. That is a name for
which the directory is made when the file is opened. The empty directory is read outside of the
array, and a longer one ends the process. -/
theorem asynclogsvr_filename {filename : Region UInt8} {dir : List UInt8}
    (hsize : filename.len = filenameSize) (hnul : 0 ∉ dir) (now : Tm) (times : List Tm) :
    (dir = [] → LogName.init filename (Region.ofList (dir ++ [0])) now = .error .outOfBounds) ∧
    (180 ≤ dir.length →
      LogName.init filename (Region.ofList (dir ++ [0])) now = .error .aborted) ∧
    (dir ≠ [] → dir.length < 180 → ∃ svr svr',
      LogName.init filename (Region.ofList (dir ++ [0])) now = .ok svr ∧
      times.foldlM LogName.updateFilename svr = .ok svr' ∧
      stringAt svr'.filename = .ok (slashed dir ++ logfileText (times.getLastD now)) ∧
      (∀ fds timerIds kernel svr₀ maxFileSize flushInterval a s, a.now = logfileText now →
        asynclogsvrInit fds timerIds kernel svr₀ dir maxFileSize flushInterval a = .ok s →
        stringAt svr'.filename = .ok (times.foldl rolledName s.svr).filename) ∧
      ∀ (φ : Type) (sys : FileSystem φ) cwd (dirs : DirSet Name), dirs [] = true →
        dirs cwd = true → ∃ dirs', writableOpen sys cwd dirs (slashed dir ++ logfileText now) =
            .ok (sys.openFd dirs' (slashed dir ++ logfileText now)
              (oTrunc ||| oWronly ||| oCreat) 0o644) ∧
          dirs' (pathDir cwd dir) = true) := by
  refine ⟨fun hnil => ?_, fun hlen => LogName.init_long hnul hlen now, fun hne hlen => ?_⟩
  · rw [hnil]
    exact LogName.init_nil hsize now
  obtain ⟨svr, hinit, hnames⟩ := LogName.init_spec hsize hnul hne hlen now
  obtain ⟨svr', hrolls, hnames'⟩ := hnames.rolls times
  have hstring := hnames'.stringAt (nul_not_mem_slashed hnul)
  refine ⟨svr, svr', hinit, hrolls, hstring, ?_, ?_⟩
  · intro fds timerIds kernel svr₀ maxFileSize flushInterval a s hnow hs
    obtain ⟨hdirlen, hname⟩ := asynclogsvrInit_filename hnow hs
    rw [hstring, rolledName_foldl times hdirlen hname]
  · intro φ sys cwd dirs hroot hcwd
    -- the directory ends with one slash, or is followed by one
    obtain ⟨xs, hxs, hdir⟩ : ∃ xs, slashed dir = xs ++ [slash] ∧
        pathDir cwd dir = pathBase cwd (xs ++ [slash]) ++ components slash xs := by
      rw [slashed]
      split_ifs with hlast
      · obtain ⟨xs, rfl⟩ := List.getLast?_eq_some_iff.mp hlast
        exact ⟨xs, rfl, by rw [pathDir, components_concat_sep]⟩
      · exact ⟨dir, rfl, by rw [pathDir, pathBase_append hne]⟩
    have htext : (logfileText now).length ≤ 29 := logfileText_length_le
    have hshort := slashed_length_le hlen
    -- the name is short enough for the copy that is cut
    have hpath : PathName (xs ++ slash :: logfileText now) := by
      have hnul' := nul_not_mem_slashed hnul
      rw [hxs] at hnul' hshort
      refine ⟨?_, by simp, ?_⟩
      · rw [List.append_cons]
        exact fun hmem => (List.mem_append.mp hmem).elim hnul' logfileText_plain.1
      · rw [List.append_cons, List.length_append, tmpCap]
        omega
    obtain ⟨dirs', hopen, hkept, hmade⟩ :=
      writableOpen_made sys hpath logfileText_plain.2 hroot hcwd
    rw [hxs, List.append_assoc, List.singleton_append]
    refine ⟨dirs', hopen, ?_⟩
    rw [hdir]
    -- the root was there before
    by_cases hxs' : xs = []
    · rw [hxs']
      exact hkept [] hroot
    · rw [pathBase_append hxs']
      exact hmade hxs'

/-- The directory `/t`, at the first second of a year and of the next. -/
theorem asynclogsvr_filename_short : ∃ svr svr',
    LogName.init (Region.alloc filenameSize) (Region.ofList [47, 116, 0])
        ⟨0, 0, 0, 1, 0, 124, by decide, by decide, by decide, by decide, by decide, by decide⟩ =
      .ok svr ∧
    [⟨0, 0, 0, 1, 0, 125, by decide, by decide, by decide, by decide, by decide,
      by decide⟩].foldlM LogName.updateFilename svr = .ok svr' ∧
    stringAt svr'.filename = .ok ("/t/01-01-2025_00:00:00.log".toList.map
      fun c => UInt8.ofNat c.toNat) := by
  have hnul : 0 ∉ ([47, 116] : List UInt8) := by decide
  obtain ⟨-, -, hshort⟩ := asynclogsvr_filename (Region.alloc_len filenameSize) hnul
    ⟨0, 0, 0, 1, 0, 124, by decide, by decide, by decide, by decide, by decide, by decide⟩
    [⟨0, 0, 0, 1, 0, 125, by decide, by decide, by decide, by decide, by decide, by decide⟩]
  obtain ⟨svr, svr', hinit, hrolls, hstring, -⟩ := hshort (by decide) (by decide)
  refine ⟨svr, svr', hinit, hrolls, hstring.trans (congrArg Except.ok ?_)⟩
  decide

end Posixc
