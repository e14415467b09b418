import PosixCommons.Framework.Memory

/-!
# C strings in arrays

The functions of the C library that read and write the strings that end with a NUL. A
string is the list of its bytes before the NUL, and an array has it at its start when it
holds these and the NUL.
-/

open Framework

namespace Posixc

/-- The loop of `strlen`, with `n` bytes of the array left. -/
def strlenLoop (str : Region UInt8) : ℕ → ℕ → Exec ℕ
  | 0, _ => .error .outOfBounds
  | n + 1, i => do
    let c ← str.read i
    if c = 0 then return i else strlenLoop str n (i + 1)

/-- `strlen`. -/
def strlen (str : Region UInt8) : Exec ℕ := strlenLoop str str.len 0

/-- `snprintf` of a string with the format `%s`, which cuts off what there is no room
for. -/
def snprintf (str : Region UInt8) (s : List UInt8) : Exec (Region UInt8) :=
  str.blit 0 (s.take (str.len - 1) ++ [0])

/-- What a function is given that is passed an array as a string. -/
def stringAt (str : Region UInt8) : Exec (List UInt8) := do
  let n ← strlen str
  str.readMany 0 n

theorem strlenLoop_spec {str : Region UInt8} {t : List UInt8} (hstr : str.Holds (t ++ [0]))
    (ht : 0 ∉ t) (n : ℕ) :
    ∀ i, i ≤ t.length → t.length < i + n → strlenLoop str n i = .ok t.length := by
  induction n with
  | zero => intro i hi hn; omega
  | succ n ih =>
    intro i hi hn
    rw [strlenLoop, hstr.read (by rw [List.length_append, List.length_singleton]; omega),
      Exec.ok_bind]
    rcases eq_or_lt_of_le hi with rfl | hlt
    · -- the terminator
      rw [if_pos (by simp)]
      rfl
    · -- a byte of the string is not zero
      rw [List.getElem_append_left hlt,
        if_neg (by intro h; exact ht (by rw [← h]; exact List.getElem_mem hlt))]
      exact ih (i + 1) hlt (by omega)

theorem strlen_spec {str : Region UInt8} {t : List UInt8} (hstr : str.Holds (t ++ [0]))
    (ht : 0 ∉ t) : strlen str = .ok t.length := by
  have hlen := hstr.1
  rw [List.length_append, List.length_singleton] at hlen
  exact strlenLoop_spec hstr ht str.len 0 (Nat.zero_le _) (by omega)

theorem stringAt_spec {str : Region UInt8} {t : List UInt8} (hstr : str.Holds (t ++ [0]))
    (ht : 0 ∉ t) : stringAt str = .ok t := by
  rw [stringAt, strlen_spec hstr ht, Exec.ok_bind, Region.readMany_of_holds hstr 0 t.length (by simp)]
  simp

end Posixc
