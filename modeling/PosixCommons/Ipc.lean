import Mathlib.Data.BitVec
import PosixCommons.Framework.Memory

/-!
# Who is at a socket path

`posixc_ipc_getuid` of `ipc.c` and the two tests of `fileio.c` that it combines. The owner
of a socket is to be trusted when no one else can reach the socket and it is not older
than some age. `posixc_is_stale` is true of the records that are fresh (`isStale_spec`),
and its caller negates it, so it trusts the paths that have been left alone for too long
and no others.
-/

open Framework

namespace Posixc

/-- `mode_t`. -/
abbrev Mode := BitVec 32

/-- `S_IFMT`. -/
def sIfmt : Mode := 0o170000
/-- `S_IFSOCK`. -/
def sIfsock : Mode := 0o140000
/-- `S_IRWXU`. -/
def sIrwxu : Mode := 0o700
/-- `S_IRWXG`. -/
def sIrwxg : Mode := 0o070
/-- `S_IRWXO`. -/
def sIrwxo : Mode := 0o007

/-- The members of `struct stat` that are read. -/
structure StatBuf where
  stMode : Mode
  stUid : ℕ
  stAtime : ℤ
  stMtime : ℤ
  stCtime : ℤ

/-- The result of an operation on values of `time_t`. -/
def timeResult (n : ℤ) : Exec ℤ :=
  if -2 ^ 63 ≤ n ∧ n < 2 ^ 63 then .ok n else .error .aborted

/-- `S_ISSOCK`, which the system defines. -/
def sIssock (mode : Mode) : Bool := mode &&& sIfmt == sIfsock

/-- `posixc_is_stale`, at the time `now`. -/
def isStale (statbuf : StatBuf) (now ageSeconds : ℤ) : Exec Bool := do
  let staletime ← timeResult (now - ageSeconds)
  if statbuf.stAtime < staletime ∨ statbuf.stCtime < staletime ∨ statbuf.stMtime < staletime then
    return false
  return true

/-- `posixc_is_user_rwx`. -/
def isUserRwx (statbuf : StatBuf) : Bool :=
  if statbuf.stMode &&& (sIrwxg ||| sIrwxo) ≠ 0 ∨ statbuf.stMode &&& sIrwxu ≠ sIrwxu then false
  else true

/-- `posixc_ipc_getuid` at the time `now`. `stat` is the record of the path, if there is
one, and the outcome is what is returned and what `*uid` is then. -/
def ipcGetuid (stat : Option StatBuf) (now : ℤ) (uid : ℕ) (ageOfUsockpathSec : ℤ) :
    Exec (Bool × ℕ) :=
  match stat with
  | none => .ok (false, uid)
  | some statbuf =>
    if sIssock statbuf.stMode = false then .ok (false, uid)
    else if isUserRwx statbuf then do
      -- the age is looked at only when the mode has passed
      let stale ← isStale statbuf now ageOfUsockpathSec
      if !stale then return (true, statbuf.stUid)
      return (false, uid)
    else .ok (false, uid)

/-! ### The tests -/

/-- The owner may read, write and execute, the group and the others may do nothing. -/
def OwnerOnly (mode : Mode) : Prop :=
  (∀ i, 6 ≤ i → i < 9 → mode.getLsbD i = true) ∧ ∀ i, i < 6 → mode.getLsbD i = false

/-- None of the times of the record is older than the age. -/
def Recent (statbuf : StatBuf) (now age : ℤ) : Prop :=
  now - statbuf.stAtime ≤ age ∧ now - statbuf.stCtime ≤ age ∧ now - statbuf.stMtime ≤ age

section Masks

variable {mask : Mode} {lo hi : ℕ}

/-- A mode has none of the bits of a mask. -/
theorem and_mask_eq_zero (mode : Mode) (hhi : hi ≤ 32)
    (hmask : ∀ i, i < 32 → mask.getLsbD i = decide (lo ≤ i ∧ i < hi)) :
    mode &&& mask = 0 ↔ ∀ i, lo ≤ i → i < hi → mode.getLsbD i = false := by
  rw [BitVec.eq_of_getLsbD_eq_iff]
  constructor
  · intro h i hlo hlt
    have hbit := h i (by omega)
    rw [BitVec.getLsbD_and, hmask i (by omega), decide_eq_true ⟨hlo, hlt⟩, Bool.and_true] at hbit
    rw [hbit]
    exact BitVec.getLsbD_zero
  · intro h i hlt
    rw [BitVec.getLsbD_and, hmask i hlt, show (0 : Mode).getLsbD i = false from BitVec.getLsbD_zero]
    by_cases hin : lo ≤ i ∧ i < hi
    · rw [h i hin.1 hin.2, Bool.false_and]
    · rw [decide_eq_false hin, Bool.and_false]

/-- A mode has all the bits of a mask. -/
theorem and_mask_eq_self (mode : Mode) (hhi : hi ≤ 32)
    (hmask : ∀ i, i < 32 → mask.getLsbD i = decide (lo ≤ i ∧ i < hi)) :
    mode &&& mask = mask ↔ ∀ i, lo ≤ i → i < hi → mode.getLsbD i = true := by
  rw [BitVec.eq_of_getLsbD_eq_iff]
  constructor
  · intro h i hlo hlt
    have hbit := h i (by omega)
    rwa [BitVec.getLsbD_and, hmask i (by omega), decide_eq_true ⟨hlo, hlt⟩, Bool.and_true] at hbit
  · intro h i hlt
    rw [BitVec.getLsbD_and, hmask i hlt]
    by_cases hin : lo ≤ i ∧ i < hi
    · rw [h i hin.1 hin.2, Bool.true_and]
    · rw [decide_eq_false hin, Bool.and_false]

end Masks

variable {statbuf : StatBuf} {now age : ℤ} {uid : ℕ}

/-- The test of the mode. -/
theorem isUserRwx_iff : isUserRwx statbuf = true ↔ OwnerOnly statbuf.stMode := by
  have hothers : ∀ i, i < 32 → (sIrwxg ||| sIrwxo).getLsbD i = decide (0 ≤ i ∧ i < 6) := by decide
  have howner : ∀ i, i < 32 → sIrwxu.getLsbD i = decide (6 ≤ i ∧ i < 9) := by decide
  have hzero := and_mask_eq_zero statbuf.stMode (by decide) hothers
  have hself := and_mask_eq_self statbuf.stMode (by decide) howner
  calc isUserRwx statbuf = true
      ↔ statbuf.stMode &&& sIrwxu = sIrwxu ∧ statbuf.stMode &&& (sIrwxg ||| sIrwxo) = 0 := by
        rw [isUserRwx]
        split_ifs with h
        · exact iff_of_false not_false fun hboth => h.elim (· hboth.2) (· hboth.1)
        · rw [not_or, not_not, not_not] at h
          exact iff_of_true rfl h.symm
    _ ↔ OwnerOnly statbuf.stMode := by
        rw [hself, hzero]
        simp only [OwnerOnly, Nat.zero_le, true_implies]

/-- **The test of the age.** When it returns, it is true of the records that are fresh. -/
theorem isStale_spec {stale : Bool} (h : isStale statbuf now age = .ok stale) :
    stale = true ↔ Recent statbuf now age := by
  obtain ⟨staletime, htime, h⟩ := Exec.bind_eq_ok.mp h
  obtain rfl : now - age = staletime := by
    rw [timeResult] at htime
    split_ifs at htime
    exact Except.ok.inj htime
  rw [Recent]
  split_ifs at h with hold
  · obtain rfl := Except.ok.inj h
    exact iff_of_false Bool.false_ne_true fun hrecent => by omega
  · obtain rfl := Except.ok.inj h
    exact iff_of_true rfl (by omega)

/-! ### The function -/

/-- What may be trusted. -/
structure Trusted (statbuf : StatBuf) (now age : ℤ) : Prop where
  socket : sIssock statbuf.stMode = true
  ownerOnly : OwnerOnly statbuf.stMode
  recent : Recent statbuf now age

/-- The same file, with times that are no later. -/
structure Older (old statbuf : StatBuf) : Prop where
  mode : old.stMode = statbuf.stMode
  uid : old.stUid = statbuf.stUid
  atime : old.stAtime ≤ statbuf.stAtime
  mtime : old.stMtime ≤ statbuf.stMtime
  ctime : old.stCtime ≤ statbuf.stCtime

/-- The call returns, accepts the path exactly when it may be trusted, and with its owner,
and a path that it rejects it would not accept if it were older. -/
def GetuidRight (statbuf : StatBuf) (now age : ℤ) : Prop :=
  ∀ uid, ∃ ok uid', ipcGetuid (some statbuf) now uid age = .ok (ok, uid') ∧
    (ok = true ↔ Trusted statbuf now age) ∧ (ok = true → uid' = statbuf.stUid) ∧
    ∀ old uid'', Older old statbuf → ipcGetuid (some old) now uid age = .ok (true, uid'') →
      ok = true

/-- The two tests of the mode. -/
def Private (statbuf : StatBuf) : Prop :=
  sIssock statbuf.stMode = true ∧ isUserRwx statbuf = true

instance (statbuf : StatBuf) : Decidable (Private statbuf) := inferInstanceAs (Decidable (_ ∧ _))

/-- A path that fails one of them is rejected. -/
theorem ipcGetuid_of_open (h : ¬ Private statbuf) :
    ipcGetuid (some statbuf) now uid age = .ok (false, uid) := by
  unfold ipcGetuid
  dsimp only
  split_ifs with hsock hrwx
  · rfl
  · exact absurd ⟨Bool.eq_true_of_not_eq_false hsock, hrwx⟩ h
  · rfl

/-- Of the others those are accepted that are not fresh. -/
theorem ipcGetuid_of_private (h : Private statbuf) {ok : Bool} {uid' : ℕ}
    (hrun : ipcGetuid (some statbuf) now uid age = .ok (ok, uid')) :
    ok = true ↔ ¬ Recent statbuf now age := by
  unfold ipcGetuid at hrun
  dsimp only at hrun
  rw [if_neg (ne_false_of_eq_true h.1), if_pos h.2] at hrun
  obtain ⟨stale, hstale, hrun⟩ := Exec.bind_eq_ok.mp hrun
  rw [← isStale_spec hstale]
  cases stale with
  | true =>
    obtain ⟨rfl, -⟩ := Prod.mk.inj (Except.ok.inj hrun)
    exact iff_of_false Bool.false_ne_true (not_not.mpr rfl)
  | false =>
    obtain ⟨rfl, -⟩ := Prod.mk.inj (Except.ok.inj hrun)
    exact iff_of_true rfl Bool.false_ne_true

/-- **When the right paths are accepted.** At any time and for any age, the call is right
exactly about the paths that are no sockets or that others than the owner can reach,
which it rejects. -/
theorem ipcGetuid_right_iff (statbuf : StatBuf) (now age : ℤ) :
    GetuidRight statbuf now age ↔ ¬ Private statbuf := by
  constructor
  · intro hright hprivate
    obtain ⟨ok, uid', hrun, haccepts, -⟩ := hright 0
    have hsame := (ipcGetuid_of_private hprivate hrun).symm.trans haccepts
    -- the path would be accepted when it is fresh, and when it is not
    by_cases hrecent : Recent statbuf now age
    · exact hsame.mpr ⟨hprivate.1, isUserRwx_iff.mp hprivate.2, hrecent⟩ hrecent
    · exact hrecent (hsame.mp hrecent).recent
  · intro hopen uid
    refine ⟨false, uid, ipcGetuid_of_open hopen, ?_, ?_, ?_⟩
    · refine iff_of_false Bool.false_ne_true fun h => hopen ?_
      exact ⟨h.socket, isUserRwx_iff.mpr h.ownerOnly⟩
    · intro h
      cases h
    · -- the older record has the same mode
      intro old uid'' hold hrun
      have hsame : ¬ Private old := by
        rwa [Private, isUserRwx_iff, hold.mode, ← isUserRwx_iff]
      rw [ipcGetuid_of_open hsame] at hrun
      cases hrun

/-- A socket of only its owner that was made ten seconds ago is rejected, and would be
accepted had it been read last an hour before. -/
theorem ipcGetuid_rejects_fresh :
    ipcGetuid (some ⟨0o140700, 1000, 9990, 9990, 9990⟩) 10000 0 60 = .ok (false, 0) ∧
      ipcGetuid (some ⟨0o140700, 1000, 6400, 9990, 9990⟩) 10000 0 60 = .ok (true, 1000) ∧
      ¬ GetuidRight ⟨0o140700, 1000, 9990, 9990, 9990⟩ 10000 60 := by
  have hrejects : ipcGetuid (some ⟨0o140700, 1000, 9990, 9990, 9990⟩) 10000 0 60 =
      .ok (false, 0) := by rfl
  have hold : ipcGetuid (some ⟨0o140700, 1000, 6400, 9990, 9990⟩) 10000 0 60 =
      .ok (true, 1000) := by rfl
  refine ⟨hrejects, hold, fun h => ?_⟩
  obtain ⟨ok, uid', hrun, -, -, holder⟩ := h 0
  obtain ⟨rfl, -⟩ := Prod.mk.inj (Except.ok.inj (hrejects.symm.trans hrun))
  have haccepts := holder ⟨0o140700, 1000, 6400, 9990, 9990⟩ 1000
    ⟨rfl, rfl, by decide, by decide, by decide⟩ hold
  cases haccepts

end Posixc
