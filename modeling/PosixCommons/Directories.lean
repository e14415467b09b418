import Mathlib.Data.List.DropRight
import PosixCommons.Common.CString
import PosixCommons.Framework.Directories

/-!
# Making directories

`posixc_recursive_mkdir` and `posixc_prepare_dirs_for` of `fileio.c`, on a file system that
is a set of directories. Each goes through a copy of the path in an array of its own, cuts it
at every slash to make the directory of what is before it, and puts the slash back. The
second first cuts the name of a file at its last slash, which it looks for backwards and
without a bound: a name that has none takes it out of the array.

The path is read as the names between its slashes, from the root or from the current
directory; the names `.` and `..` are taken for names like any other. What the loop has
made at each place is the way to the last slash before it (`Underway`).
-/

open Framework

namespace Posixc

/-- `tmp_cap`. -/
def tmpCap : ℕ := 1024

/-- The character `/`. -/
def slash : UInt8 := 47

/-- The name of a directory in the one that contains it. -/
abbrev Name := List UInt8

/-- Where a path begins. -/
def pathBase (cwd : List Name) (path : List UInt8) : List Name :=
  if path.head? = some slash then [] else cwd

/-- The directory that a path names. -/
def pathDir (cwd : List Name) (path : List UInt8) : List Name :=
  pathBase cwd path ++ components slash path

/-- `mkdir` of the path in an array. -/
def mkdir (cwd : List Name) (dirs : DirSet Name) (tmp : Region UInt8) : Exec (DirSet Name) := do
  let path ← stringAt tmp
  return dirs.mkdir (pathDir cwd path)

/-- `for (char* p = tmp+1; *p; p++)`, from the index `p` on and with `n` bytes of the array
left. -/
def mkdirLoop (cwd : List Name) :
    ℕ → ℕ → Region UInt8 → DirSet Name → Exec (Region UInt8 × DirSet Name)
  | 0, _, _, _ => .error .outOfBounds
  | n + 1, p, tmp, dirs => do
    let c ← tmp.read p
    if c = 0 then return (tmp, dirs)
    else if c = slash then do
      let tmp ← tmp.write p 0
      let dirs ← mkdir cwd dirs tmp
      let tmp ← tmp.write p slash
      mkdirLoop cwd n (p + 1) tmp dirs
    else mkdirLoop cwd n (p + 1) tmp dirs

/-- The loop and the `mkdir` after it. -/
def mkdirAlong (cwd : List Name) (dirs : DirSet Name) (tmp : Region UInt8) :
    Exec (DirSet Name) := do
  let (tmp, dirs) ← mkdirLoop cwd tmp.len 1 tmp dirs
  mkdir cwd dirs tmp

/-- `posixc_recursive_mkdir`. -/
def recursiveMkdir (cwd : List Name) (dirs : DirSet Name) (dir : List UInt8) :
    Exec (DirSet Name) := do
  let tmp ← snprintf (Region.alloc tmpCap) dir
  let len ← strlen tmp
  if len ≤ tmpCap then do
    let last ← tmp.read (sizeSub len 1)
    let tmp ← if last = slash then tmp.write (sizeSub len 1) 0 else pure tmp
    mkdirAlong cwd dirs tmp
  else .error .aborted

/-! ### The loop -/

variable {cwd : List Name} {dirs₀ dirs : DirSet Name} {tmp : Region UInt8}

/-- A path and its beginnings are from the same place. -/
theorem pathBase_append {xs : List UInt8} (h : xs ≠ []) (ys : List UInt8) :
    pathBase cwd (xs ++ ys) = pathBase cwd xs := by
  rw [pathBase, pathBase, List.head?_append_of_ne_nil _ h]

theorem pathBase_exists (hroot : dirs [] = true) (hcwd : dirs cwd = true) (path : List UInt8) :
    dirs (pathBase cwd path) = true := by
  rw [pathBase]
  split_ifs
  · exact hroot
  · exact hcwd

theorem mkdir_spec (cwd : List Name) (dirs : DirSet Name) {path : List UInt8}
    (htmp : tmp.Holds (path ++ [0])) (hnul : 0 ∉ path) :
    mkdir cwd dirs tmp = .ok (dirs.mkdir (pathDir cwd path)) := by
  rw [mkdir, stringAt_spec htmp hnul]
  rfl

/-- A slash is replaced by a NUL for as long as it takes to make the directory of what is
before it. -/
theorem mkdir_cut (cwd : List Name) (dirs : DirSet Name) {xs rest : List UInt8}
    (htmp : tmp.Holds (xs ++ slash :: (rest ++ [0]))) (hnul : 0 ∉ xs) :
    ∃ tmp₁ tmp₂, tmp.write xs.length 0 = .ok tmp₁ ∧
      mkdir cwd dirs tmp₁ = .ok (dirs.mkdir (pathDir cwd xs)) ∧
      tmp₁.write xs.length slash = .ok tmp₂ ∧ tmp₂.Holds (xs ++ slash :: (rest ++ [0])) := by
  obtain ⟨tmp₁, hcut, htmp₁⟩ := htmp.write_mid (0 : UInt8)
  obtain ⟨tmp₂, hrestore, htmp₂⟩ := htmp₁.write_mid slash
  have hholds : tmp₁.Holds (xs ++ [0] ++ (rest ++ [0])) := by simpa using htmp₁
  exact ⟨tmp₁, tmp₂, hcut, mkdir_spec cwd dirs hholds.of_append hnul, hrestore, htmp₂⟩

/-- The loop before the characters `rest`: the directories on the way along `xs`, which ends
with the last slash, are made, and `ys` is the name that begins after it. -/
structure Underway (cwd : List Name) (dirs₀ dirs : DirSet Name) (tmp : Region UInt8)
    (xs ys rest : List UInt8) : Prop where
  started : xs ++ ys ≠ []
  cut : xs = [] ∨ ∃ zs, xs = zs ++ [slash]
  name : slash ∉ ys
  noNul : 0 ∉ xs ++ ys ++ rest
  holds : tmp.Holds (xs ++ ys ++ (rest ++ [0]))
  made : Extended dirs₀ dirs (pathBase cwd (xs ++ ys)) (components slash xs)

section Underway

variable {xs ys rest : List UInt8} {c : UInt8}

/-- At a slash the directory of what is before it is made. -/
theorem Underway.at_slash (h : Underway cwd dirs₀ dirs tmp xs ys (slash :: rest)) :
    ∃ tmp₁ tmp₂, tmp.write (xs ++ ys).length 0 = .ok tmp₁ ∧
      mkdir cwd dirs tmp₁ = .ok (dirs.mkdir (pathDir cwd (xs ++ ys))) ∧
      tmp₁.write (xs ++ ys).length slash = .ok tmp₂ ∧
      Underway cwd dirs₀ (dirs.mkdir (pathDir cwd (xs ++ ys))) tmp₂
        (xs ++ ys ++ [slash]) [] rest := by
  obtain ⟨tmp₁, tmp₂, hcut, hmade, hrestore, hholds⟩ := mkdir_cut cwd dirs h.holds
    fun hmem => h.noNul (List.mem_append_left _ hmem)
  refine ⟨tmp₁, tmp₂, hcut, hmade, hrestore, by simp, .inr ⟨xs ++ ys, rfl⟩, List.not_mem_nil,
    by simpa using h.noNul, by simpa using hholds, ?_⟩
  rw [List.append_nil, pathBase_append h.started, components_concat_sep]
  exact h.made.mkdir_path h.cut h.name

/-- Any other character is one more of the name. -/
theorem Underway.at_name (h : Underway cwd dirs₀ dirs tmp xs ys (c :: rest))
    (hc : c ≠ slash) : Underway cwd dirs₀ dirs tmp xs (ys ++ [c]) rest := by
  refine ⟨by simp, h.cut, by simpa using ⟨h.name, hc.symm⟩, by simpa using h.noNul,
    by simpa using h.holds, ?_⟩
  rw [← List.append_assoc, pathBase_append h.started]
  exact h.made

/-- At the end the `mkdir` after the loop makes the last directory. -/
theorem Underway.at_end (h : Underway cwd dirs₀ dirs tmp xs ys []) :
    ∃ dirs', mkdir cwd dirs tmp = .ok dirs' ∧
      Extended dirs₀ dirs' (pathBase cwd (xs ++ ys)) (components slash (xs ++ ys)) := by
  have hnul := h.noNul
  rw [List.append_nil] at hnul
  exact ⟨_, mkdir_spec cwd dirs h.holds hnul, h.made.mkdir_path h.cut h.name⟩

end Underway

/-- The rest of the loop and the `mkdir` after it. -/
theorem mkdirLoop_spec (rest : List UInt8) :
    ∀ {n : ℕ} {xs ys : List UInt8} {tmp : Region UInt8} {dirs : DirSet Name},
      Underway cwd dirs₀ dirs tmp xs ys rest → rest.length < n →
      ∃ dirs', (mkdirLoop cwd n (xs ++ ys).length tmp dirs >>= fun (tmp, dirs) =>
          mkdir cwd dirs tmp) = .ok dirs' ∧
        Extended dirs₀ dirs' (pathBase cwd (xs ++ ys)) (components slash (xs ++ ys ++ rest)) := by
  induction rest with
  | nil =>
    intro n xs ys tmp dirs h hn
    obtain ⟨n, rfl⟩ := Nat.exists_eq_succ_of_ne_zero (Nat.ne_zero_of_lt hn)
    have hend : tmp.Holds (xs ++ ys ++ 0 :: []) := h.holds
    rw [mkdirLoop, hend.read_mid, Exec.ok_bind, if_pos rfl, List.append_nil]
    exact h.at_end
  | cons c rest ih =>
    intro n xs ys tmp dirs h hn
    obtain ⟨n, rfl⟩ := Nat.exists_eq_succ_of_ne_zero (Nat.ne_zero_of_lt hn)
    have hlt : rest.length < n := Nat.lt_of_succ_lt_succ hn
    have hc : c ≠ 0 := by
      rintro rfl
      exact h.noNul (by simp)
    have hread : tmp.Holds (xs ++ ys ++ c :: (rest ++ [0])) := h.holds
    rw [mkdirLoop, hread.read_mid, Exec.ok_bind, if_neg hc]
    by_cases hslash : c = slash
    · subst hslash
      obtain ⟨tmp₁, tmp₂, hcut, hmade, hrestore, hnext⟩ := h.at_slash
      obtain ⟨dirs', hrun, hdirs⟩ := ih hnext hlt
      rw [List.append_nil, List.length_append, List.length_singleton] at hrun
      rw [List.append_nil, pathBase_append h.started, List.append_assoc (xs ++ ys),
        List.singleton_append] at hdirs
      rw [if_pos rfl, hcut, Exec.ok_bind, hmade, Exec.ok_bind, hrestore, Exec.ok_bind]
      exact ⟨dirs', hrun, hdirs⟩
    · obtain ⟨dirs', hrun, hdirs⟩ := ih (h.at_name hslash) hlt
      rw [← List.append_assoc, List.length_append, List.length_singleton] at hrun
      rw [← List.append_assoc, pathBase_append h.started, List.append_assoc (xs ++ ys),
        List.singleton_append] at hdirs
      rw [if_neg hslash]
      exact ⟨dirs', hrun, hdirs⟩

/-- **The loop and the `mkdir` after it.** They make the directories on the way along the
path, which is not empty, and no others. -/
theorem mkdirAlong_spec {path : List UInt8} (htmp : tmp.Holds (path ++ [0])) (hnul : 0 ∉ path)
    (hne : path ≠ []) (hbase : dirs (pathBase cwd path) = true) :
    ∃ dirs', mkdirAlong cwd dirs tmp = .ok dirs' ∧
      Extended dirs dirs' (pathBase cwd path) (components slash path) := by
  have hroom := htmp.1
  obtain ⟨c, rest, rfl⟩ := List.exists_cons_of_ne_nil hne
  rw [List.length_append, List.length_cons, List.length_singleton] at hroom
  have hfirst : pathBase cwd [c] = pathBase cwd (c :: rest) :=
    (pathBase_append (List.cons_ne_nil c []) rest).symm
  rw [← hfirst] at hbase ⊢
  -- the first character is not looked at, be it a slash or the first of a name
  by_cases hslash : c = slash
  · subst hslash
    have hstart : Underway cwd dirs dirs tmp [slash] [] rest :=
      ⟨by simp, .inr ⟨[], rfl⟩, List.not_mem_nil, hnul, htmp, extended_nil hbase⟩
    exact mkdirLoop_spec rest hstart (by omega)
  · have hstart : Underway cwd dirs dirs tmp [] [c] rest :=
      ⟨by simp, .inl rfl, by simpa using Ne.symm hslash, hnul, htmp, extended_nil hbase⟩
    exact mkdirLoop_spec rest hstart (by omega)

/-! ### The function -/

/-- The paths that the array has room for. -/
structure PathName (path : List UInt8) : Prop where
  noNul : 0 ∉ path
  ne_nil : path ≠ []
  length_lt : path.length < tmpCap

/-- The loop over a name that no slash follows changes nothing. -/
theorem mkdirLoop_name (cwd : List Name) (dirs : DirSet Name) {ys : List UInt8}
    (hname : slash ∉ ys) (hnul : 0 ∉ ys) :
    ∀ n xs, ys.length < n → tmp.Holds (xs ++ (ys ++ [0])) →
      mkdirLoop cwd n xs.length tmp dirs = .ok (tmp, dirs) := by
  induction ys with
  | nil =>
    intro n xs hn htmp
    obtain ⟨n, rfl⟩ := Nat.exists_eq_succ_of_ne_zero (Nat.ne_zero_of_lt hn)
    have hend : tmp.Holds (xs ++ 0 :: []) := htmp
    rw [mkdirLoop, hend.read_mid, Exec.ok_bind, if_pos rfl]
    rfl
  | cons c ys ih =>
    intro n xs hn htmp
    obtain ⟨n, rfl⟩ := Nat.exists_eq_succ_of_ne_zero (Nat.ne_zero_of_lt hn)
    obtain ⟨hc, hname⟩ := not_or.mp (mt List.mem_cons.mpr hname)
    obtain ⟨hc', hnul⟩ := not_or.mp (mt List.mem_cons.mpr hnul)
    have hread : tmp.Holds (xs ++ c :: (ys ++ [0])) := htmp
    have hrest := ih hname hnul n (xs ++ [c]) (Nat.lt_of_succ_lt_succ hn) (by simpa using htmp)
    rw [List.length_append, List.length_singleton] at hrest
    rw [mkdirLoop, hread.read_mid, Exec.ok_bind, if_neg (Ne.symm hc'), if_neg (Ne.symm hc), hrest]

/-- Of a path that was cut to nothing, with a name behind the cut, nothing is made. -/
theorem mkdirAlong_cut {ys : List UInt8} (htmp : tmp.Holds (0 :: (ys ++ [0])))
    (hname : slash ∉ ys) (hnul : 0 ∉ ys) (hcwd : dirs cwd = true) :
    mkdirAlong cwd dirs tmp = .ok dirs := by
  have hroom := htmp.1
  rw [List.length_cons, List.length_append] at hroom
  have hloop := mkdirLoop_name cwd dirs hname hnul tmp.len [0] (by omega) htmp
  have hholds : tmp.Holds ([] ++ [0] ++ (ys ++ [0])) := htmp
  have hmade := mkdir_spec cwd dirs hholds.of_append List.not_mem_nil
  rw [List.length_singleton] at hloop
  rw [mkdirAlong, hloop, Exec.ok_bind]
  refine hmade.trans (congrArg Except.ok (DirSet.mkdir_of_exists ?_))
  rw [pathDir, components_nil, List.append_nil]
  exact hcwd

/-- The copy of a path, which the array has room for. -/
theorem PathName.copied {path : List UInt8} (h : PathName path) :
    ∃ tmp : Region UInt8, snprintf (Region.alloc tmpCap) path = .ok tmp ∧
      tmp.Holds (path ++ [0]) ∧ strlen tmp = .ok path.length := by
  have hlt := h.length_lt
  -- nothing is cut off
  have htake : path.take ((Region.alloc tmpCap : Region UInt8).len - 1) = path :=
    List.take_of_length_le (by rw [Region.alloc_len]; omega)
  have hroom : 0 + (path ++ [0]).length ≤ (Region.alloc tmpCap : Region UInt8).len := by
    rw [List.length_append, List.length_singleton, Region.alloc_len]
    omega
  obtain ⟨tmp, hcopy, -, hholds⟩ := Region.blit_spec hroom
  have htmp : tmp.Holds (path ++ [0]) := hholds [] rfl (Region.holds_nil _)
  exact ⟨tmp, by rw [snprintf, htake, hcopy], htmp, strlen_spec htmp h.noNul⟩

/-- The call once the path is copied. -/
theorem recursiveMkdir_copied (cwd : List Name) (dirs : DirSet Name) {path : List UInt8}
    (h : PathName path) :
    ∃ tmp : Region UInt8, tmp.Holds (path ++ [0]) ∧ recursiveMkdir cwd dirs path = (do
      let last ← tmp.read (path.length - 1)
      let tmp ← if last = slash then tmp.write (path.length - 1) 0 else pure tmp
      mkdirAlong cwd dirs tmp) := by
  have hlt := h.length_lt
  have hpos := List.length_pos_iff.mpr h.ne_nil
  obtain ⟨tmp, hcopy, htmp, hlen⟩ := h.copied
  have hsub : sizeSub path.length 1 = path.length - 1 :=
    sizeSub_of_le (by rw [tmpCap] at hlt; omega) hpos
  refine ⟨tmp, htmp, ?_⟩
  rw [recursiveMkdir, hcopy, Exec.ok_bind, hlen, Exec.ok_bind, if_pos hlt.le, hsub]

/-- The call makes the directories on the way along the path. -/
theorem recursiveMkdir_extended {path : List UInt8} (h : PathName path)
    (hroot : dirs [] = true) (hcwd : dirs cwd = true) :
    ∃ dirs', recursiveMkdir cwd dirs path = .ok dirs' ∧
      Extended dirs dirs' (pathBase cwd path) (components slash path) := by
  have hbase := pathBase_exists hroot hcwd
  obtain ⟨tmp, htmp, hrun⟩ := recursiveMkdir_copied cwd dirs h
  obtain ⟨xs, c, rfl⟩ := (List.eq_nil_or_concat' path).resolve_left h.ne_nil
  have hxs : 0 ∉ xs := fun hmem => h.noNul (List.mem_append_left _ hmem)
  have hend : tmp.Holds (xs ++ c :: [0]) := by simpa using htmp
  rw [List.length_append, List.length_singleton, Nat.add_sub_cancel, hend.read_mid,
    Exec.ok_bind] at hrun
  by_cases hslash : c = slash
  · -- the slash at the end is taken off
    subst hslash
    obtain ⟨tmp', hcut, htmp'⟩ := hend.write_mid (0 : UInt8)
    rw [if_pos rfl, hcut, Exec.ok_bind] at hrun
    rw [hrun, components_concat_sep]
    by_cases hne : xs = []
    · -- and nothing is left of the root
      subst hne
      have hnil : tmp'.Holds (0 :: ([] ++ [0])) := htmp'
      exact ⟨dirs, mkdirAlong_cut hnil List.not_mem_nil List.not_mem_nil hcwd,
        extended_nil (hbase [slash])⟩
    · have hholds : tmp'.Holds (xs ++ [0] ++ [0]) := by simpa using htmp'
      rw [pathBase_append hne]
      exact mkdirAlong_spec hholds.of_append hxs hne (hbase xs)
  · rw [if_neg hslash] at hrun
    rw [hrun]
    exact mkdirAlong_spec htmp h.noNul h.ne_nil (hbase _)

/-- **Making a directory and those on the way.** The directories of the path and of its
beginnings are there afterwards, from the root or from the current directory on, and no
others are added or removed; every access is inside the array. When the directories
before the call were a tree, all that contain the new one are there. -/
theorem recursiveMkdir_spec (cwd : List Name) (dirs : DirSet Name) (path : List UInt8)
    (hpath : PathName path) (hroot : dirs [] = true) (hcwd : dirs cwd = true) :
    ∃ dirs', recursiveMkdir cwd dirs path = .ok dirs' ∧
      (∀ q, dirs' q = true ↔ dirs q = true ∨
        ∃ p, p <+: components slash path ∧ q = pathBase cwd path ++ p) ∧
      ((∀ q d, dirs d = true → q <+: d → dirs q = true) →
        ∀ q, q <+: pathDir cwd path → dirs' q = true) := by
  obtain ⟨dirs', hrun, hdirs⟩ := recursiveMkdir_extended hpath hroot hcwd
  refine ⟨dirs', hrun, hdirs, fun htree q hq => ?_⟩
  have hbefore : ∀ q, q <+: pathBase cwd path → dirs q = true := fun q =>
    htree q _ (pathBase_exists hroot hcwd path)
  exact (hdirs.iff_prefix hbefore q).mpr (.inr hq)

/-- Two directories and one slash too many, from a current directory `h`. -/
theorem recursiveMkdir_spec_relative :
    ∃ dirs', recursiveMkdir [[104]] (fun q => decide (q = [] ∨ q = [[104]])) [97, 47, 47, 98, 47] =
        .ok dirs' ∧ dirs' [[104], [97]] = true ∧ dirs' [[104], [97], [98]] = true := by
  obtain ⟨dirs', hrun, hdirs, -⟩ := recursiveMkdir_spec [[104]]
    (fun q => decide (q = [] ∨ q = [[104]])) [97, 47, 47, 98, 47] ⟨by decide, by decide, by decide⟩
    (by decide) (by decide)
  refine ⟨dirs', hrun, (hdirs _).mpr (.inr ⟨[[97]], ⟨[[98]], ?_⟩, rfl⟩),
    (hdirs _).mpr (.inr ⟨[[97], [98]], ⟨[], ?_⟩, rfl⟩)⟩
  · decide
  · decide

/-! ### The directories of a file -/

/-- `posixc_dir_exists` of the path in an array. There is no directory of no name. -/
def dirExists (cwd : List Name) (dirs : DirSet Name) (tmp : Region UInt8) : Exec Bool := do
  let path ← stringAt tmp
  return decide (path ≠ []) && dirs (pathDir cwd path)

/-- `while (*t != '/') t--`, from the character before `n` on. -/
def lastSlash (tmp : Region UInt8) : ℕ → Exec ℕ
  | 0 => .error .outOfBounds
  | n + 1 => do
    let c ← tmp.read n
    if c = slash then return n else lastSlash tmp n

/-- `posixc_prepare_dirs_for`. -/
def prepareDirsFor (cwd : List Name) (dirs : DirSet Name) (filename : List UInt8) :
    Exec (DirSet Name) := do
  let tmp ← snprintf (Region.alloc tmpCap) filename
  let len ← strlen tmp
  if len ≤ tmpCap then do
    let t ← lastSlash tmp len
    let tmp ← tmp.write t 0
    if !(← dirExists cwd dirs tmp) then mkdirAlong cwd dirs tmp
    else return dirs
  else .error .aborted

/-- The functions of the system that open a file: a stream or a null pointer for its name
and the mode, and a descriptor for its name, the flags and the permissions. -/
structure FileSystem (φ : Type) where
  fopen : DirSet Name → List UInt8 → List UInt8 → Option φ
  openFd : DirSet Name → List UInt8 → ℕ → ℕ → ℤ

/-- `O_WRONLY`. -/
def oWronly : ℕ := 0o1
/-- `O_CREAT`. -/
def oCreat : ℕ := 0o100
/-- `O_TRUNC`. -/
def oTrunc : ℕ := 0o1000
/-- `O_APPEND`. -/
def oAppend : ℕ := 0o2000

variable {φ : Type}

/-- `posixc_fopen`. -/
def posixcFopen (sys : FileSystem φ) (cwd : List Name) (dirs : DirSet Name)
    (filename mode : List UInt8) : Exec (Option φ) := do
  let dirs ← prepareDirsFor cwd dirs filename
  return sys.fopen dirs filename mode

/-- `posixc_writable_open`. -/
def writableOpen (sys : FileSystem φ) (cwd : List Name) (dirs : DirSet Name)
    (filename : List UInt8) : Exec ℤ := do
  let dirs ← prepareDirsFor cwd dirs filename
  return sys.openFd dirs filename (oTrunc ||| oWronly ||| oCreat) 0o644

/-- `posixc_appendable_open`. -/
def appendableOpen (sys : FileSystem φ) (cwd : List Name) (dirs : DirSet Name)
    (filename : List UInt8) : Exec ℤ := do
  let dirs ← prepareDirsFor cwd dirs filename
  return sys.openFd dirs filename (oAppend ||| oWronly ||| oCreat) 0o644

/-- The directory that a file is in: the one that the name up to its last slash says. -/
def parentDir (cwd : List Name) (filename : List UInt8) : List Name :=
  pathBase cwd filename ++ components slash (filename.rdropWhile (· ≠ slash))

section Prepare

variable {filename xs ys : List UInt8}

/-- The scan stops at the last slash. -/
theorem lastSlash_spec (htmp : tmp.Holds (xs ++ slash :: (ys ++ [0]))) (hname : slash ∉ ys) :
    ∀ n, n ≤ ys.length → lastSlash tmp (xs.length + 1 + n) = .ok xs.length := by
  intro n
  induction n with
  | zero =>
    intro _
    rw [Nat.add_zero, lastSlash, htmp.read_mid, Exec.ok_bind, if_pos rfl]
    rfl
  | succ n ih =>
    intro hn
    have hlt : n < ys.length := hn
    have hin : xs.length + 1 + n < (xs ++ slash :: (ys ++ [0])).length := by
      simp only [List.length_append, List.length_cons]
      omega
    have hat : (xs ++ slash :: (ys ++ [0]))[xs.length + 1 + n] = ys[n] := by
      simp [List.getElem_append_right, Nat.add_assoc, Nat.add_comm 1 n, hlt]
    have hne : ys[n] ≠ slash := fun h => hname (h ▸ List.getElem_mem hlt)
    rw [← Nat.add_assoc, lastSlash, htmp.read hin, Exec.ok_bind, hat, if_neg hne]
    exact ih (Nat.le_of_succ_le hn)

/-- Where there is none, the scan leaves the array. -/
theorem lastSlash_of_not_mem (htmp : tmp.Holds xs) (hname : slash ∉ xs) :
    ∀ n, n ≤ xs.length → lastSlash tmp n = .error .outOfBounds := by
  intro n
  induction n with
  | zero => exact fun _ => rfl
  | succ n ih =>
    intro hn
    have hne : xs[n] ≠ slash := fun h => hname (h ▸ List.getElem_mem hn)
    rw [lastSlash, htmp.read hn, Exec.ok_bind, if_neg hne]
    exact ih (Nat.le_of_succ_le hn)

/-- The parts of a name with a slash. -/
theorem exists_last_slash (h : slash ∈ filename) :
    ∃ xs ys, filename = xs ++ slash :: ys ∧ slash ∉ ys := by
  obtain ⟨as, bs, heq, has⟩ := List.eq_append_cons_of_mem (List.mem_reverse.mpr h)
  refine ⟨bs.reverse, as.reverse, ?_, by rwa [List.mem_reverse]⟩
  rw [← List.reverse_reverse filename, heq]
  simp

/-- The part of the name before the last slash says what the file is in. -/
theorem parentDir_eq (cwd : List Name) (xs : List UInt8) (hname : slash ∉ ys) :
    parentDir cwd (xs ++ slash :: ys) =
      pathBase cwd (xs ++ [slash]) ++ components slash xs := by
  have hdrop : (xs ++ slash :: ys).rdropWhile (· ≠ slash) = xs ++ [slash] := by
    rw [List.rdropWhile, List.reverse_append, List.reverse_cons, List.append_assoc,
      List.dropWhile_append_of_pos, List.singleton_append, List.dropWhile_cons_of_neg (by simp)]
    · simp
    · intro c hc
      rw [List.mem_reverse] at hc
      exact decide_eq_true fun h => hname (h ▸ hc)
  rw [parentDir, hdrop, components_concat_sep, List.append_cons,
    pathBase_append (List.concat_ne_nil slash xs)]

/-- Whether there is the directory before the cut. -/
theorem dirExists_spec (cwd : List Name) (dirs : DirSet Name) (htmp : tmp.Holds (xs ++ [0]))
    (hnul : 0 ∉ xs) :
    dirExists cwd dirs tmp = .ok (decide (xs ≠ []) && dirs (pathDir cwd xs)) := by
  rw [dirExists, stringAt_spec htmp hnul]
  rfl

/-- The call once the name is copied and cut at its last slash. -/
theorem prepareDirsFor_cut (cwd : List Name) (dirs : DirSet Name)
    (h : PathName (xs ++ slash :: ys)) (hname : slash ∉ ys) :
    ∃ tmp : Region UInt8, tmp.Holds (xs ++ 0 :: (ys ++ [0])) ∧
      prepareDirsFor cwd dirs (xs ++ slash :: ys) =
        if decide (xs ≠ []) && dirs (pathDir cwd xs) then .ok dirs else mkdirAlong cwd dirs tmp := by
  have hnul : 0 ∉ xs := fun hmem => h.noNul (List.mem_append_left _ hmem)
  obtain ⟨tmp, hcopy, htmp, hlen⟩ := h.copied
  have hholds : tmp.Holds (xs ++ slash :: (ys ++ [0])) := by simpa using htmp
  have hscan := lastSlash_spec hholds hname ys.length le_rfl
  have hlength : (xs ++ slash :: ys).length = xs.length + 1 + ys.length := by
    rw [List.length_append, List.length_cons]
    omega
  obtain ⟨tmp', hcut, htmp'⟩ := hholds.write_mid (0 : UInt8)
  have hdir : tmp'.Holds (xs ++ [0] ++ (ys ++ [0])) := by simpa using htmp'
  refine ⟨tmp', htmp', ?_⟩
  rw [prepareDirsFor, hcopy, Exec.ok_bind, hlen, Exec.ok_bind, if_pos h.length_lt.le, hlength, hscan,
    Exec.ok_bind, hcut, Exec.ok_bind, dirExists_spec cwd dirs hdir.of_append hnul, Exec.ok_bind]
  cases decide (xs ≠ []) && dirs (pathDir cwd xs) with
  | true => rfl
  | false => rfl

/-- A name without a slash is not cut. -/
theorem prepareDirsFor_of_not_mem (cwd : List Name) (dirs : DirSet Name) (h : PathName filename)
    (hname : slash ∉ filename) : prepareDirsFor cwd dirs filename = .error .outOfBounds := by
  obtain ⟨tmp, hcopy, htmp, hlen⟩ := h.copied
  rw [prepareDirsFor, hcopy, Exec.ok_bind, hlen, Exec.ok_bind, if_pos h.length_lt.le,
    lastSlash_of_not_mem htmp.of_append hname _ le_rfl]
  rfl

/-- The call stays inside its array, and there are then the directory of the file and
those that contain it, those that were there before and no others. The functions that make
the call go on to open the file there. -/
def PreparesDirs (cwd : List Name) (dirs : DirSet Name) (filename : List UInt8) : Prop :=
  ∃ dirs', prepareDirsFor cwd dirs filename = .ok dirs' ∧
    (∀ q, dirs' q = true ↔ dirs q = true ∨ q <+: parentDir cwd filename) ∧
    ∀ (φ : Type) (sys : FileSystem φ),
      (∀ mode, posixcFopen sys cwd dirs filename mode = .ok (sys.fopen dirs' filename mode)) ∧
      writableOpen sys cwd dirs filename =
        .ok (sys.openFd dirs' filename (oTrunc ||| oWronly ||| oCreat) 0o644) ∧
      appendableOpen sys cwd dirs filename =
        .ok (sys.openFd dirs' filename (oAppend ||| oWronly ||| oCreat) 0o644)

/-- What the call returns is all that there is to show. -/
theorem preparesDirs_of_run {dirs' : DirSet Name}
    (hrun : prepareDirsFor cwd dirs filename = .ok dirs')
    (hdirs : ∀ q, dirs' q = true ↔ dirs q = true ∨ q <+: parentDir cwd filename) :
    PreparesDirs cwd dirs filename := by
  refine ⟨dirs', hrun, hdirs, fun φ sys => ⟨fun mode => ?_, ?_, ?_⟩⟩
  · rw [posixcFopen, hrun]
    rfl
  · rw [writableOpen, hrun]
    rfl
  · rw [appendableOpen, hrun]
    rfl

/-- **Making the directories of a file.** In a tree of directories with the current one,
the call does what it is for exactly when the name of the file has a slash. -/
theorem prepareDirsFor_iff (cwd : List Name) (dirs : DirSet Name) (filename : List UInt8)
    (hpath : PathName filename) (htree : ∀ q d, dirs d = true → q <+: d → dirs q = true)
    (hcwd : dirs cwd = true) : PreparesDirs cwd dirs filename ↔ slash ∈ filename := by
  constructor
  · rintro ⟨dirs', hrun, -⟩
    by_contra hname
    rw [prepareDirsFor_of_not_mem cwd dirs hpath hname] at hrun
    cases hrun
  · intro hmem
    obtain ⟨xs, ys, rfl, hname⟩ := exists_last_slash hmem
    have hroot : dirs [] = true := htree [] cwd hcwd List.nil_prefix
    have hnul : 0 ∉ xs := fun h => hpath.noNul (List.mem_append_left _ h)
    have hnul' : 0 ∉ ys := fun h =>
      hpath.noNul (List.mem_append_right _ (List.mem_cons_of_mem _ h))
    have hparent := parentDir_eq cwd xs hname
    obtain ⟨tmp, htmp, hrun⟩ := prepareDirsFor_cut cwd dirs hpath hname
    -- when the parent is there, so are those that contain it
    have hsame : dirs (parentDir cwd (xs ++ slash :: ys)) = true → ∀ q, dirs q = true ↔
        dirs q = true ∨ q <+: parentDir cwd (xs ++ slash :: ys) := by
      intro hthere q
      rw [or_iff_left_of_imp]
      exact htree q _ hthere
    by_cases hne : xs = []
    · -- the file is in the root
      subst hne
      refine preparesDirs_of_run (hrun.trans ?_) (hsame ?_)
      · exact mkdirAlong_cut htmp hname hnul' hcwd
      · rw [hparent]
        exact hroot
    · rw [pathBase_append hne] at hparent
      rw [decide_eq_true hne, Bool.true_and] at hrun
      by_cases hthere : dirs (pathDir cwd xs) = true
      · rw [if_pos hthere] at hrun
        refine preparesDirs_of_run hrun (hsame ?_)
        rw [hparent]
        exact hthere
      · rw [if_neg hthere] at hrun
        have hdir : tmp.Holds (xs ++ [0] ++ (ys ++ [0])) := by simpa using htmp
        have hbase := pathBase_exists hroot hcwd xs
        obtain ⟨dirs', hmade, hdirs⟩ := mkdirAlong_spec hdir.of_append hnul hne hbase
        refine preparesDirs_of_run (hrun.trans hmade) fun q => ?_
        rw [hparent]
        exact hdirs.iff_prefix (fun q => htree q _ hbase) q

/-- The file `a//f`, from a current directory `h`. -/
theorem prepareDirsFor_iff_relative :
    PreparesDirs [[104]] (fun q => decide (q = [] ∨ q = [[104]])) [97, 47, 47, 102] := by
  refine (prepareDirsFor_iff [[104]] _ [97, 47, 47, 102] ⟨by decide, by decide, by decide⟩ ?_
    (by decide)).mpr (by decide)
  intro q d hd hq
  rcases of_decide_eq_true hd with rfl | rfl
  · rw [List.prefix_nil.mp hq]
    rfl
  · rcases List.prefix_concat_iff.mp (show q <+: [] ++ [[104]] from hq) with rfl | hq
    · rfl
    · rw [List.prefix_nil.mp hq]
      rfl

/-- The file `f` of the current directory, the root. -/
theorem prepareDirsFor_plain_name :
    prepareDirsFor [] (fun q => decide (q = [])) [102] = .error .outOfBounds ∧
      ¬ PreparesDirs [] (fun q => decide (q = [])) [102] := by
  have hfault : prepareDirsFor [] (fun q => decide (q = [])) [102] = .error .outOfBounds :=
    prepareDirsFor_of_not_mem [] _ ⟨by decide, by decide, by decide⟩ (by decide)
  refine ⟨hfault, ?_⟩
  rintro ⟨dirs', hrun, -⟩
  rw [hfault] at hrun
  cases hrun

end Prepare

end Posixc
