import Mathlib.Data.List.Basic
import Mathlib.Data.List.Infix
import Mathlib.Tactic.Common

/-!
# Lines of text

Two ways in which a text says where its parts end. An encoding is `SelfDelimiting` when no text
starts with the encodings of two values, so that values which are written one after another can
be told apart. And a text may be made of `lines`: each is closed by a separator that no line
contains, and such a text is read in one way only (`lines_append_inj`), even if it was cut
somewhere and ends with a part of a line (`prefix_lines`).
-/

namespace Framework

variable {α β : Type} {sep : α}

/-! ### Encodings that say where they end -/

/-- No text starts with the encodings of two values. -/
def SelfDelimiting (enc : β → List α) : Prop :=
  ∀ a b us vs, enc a ++ us = enc b ++ vs → a = b ∧ us = vs

namespace SelfDelimiting

/-- Encodings that a separator closes which they do not contain. -/
theorem of_sep {f : β → List α} (hf : Function.Injective f) (hsep : ∀ a, sep ∉ f a) :
    SelfDelimiting fun a => f a ++ [sep] := by
  have hclose : ∀ (xs ys us vs : List α), sep ∉ xs → sep ∉ ys →
      xs ++ sep :: us = ys ++ sep :: vs → xs = ys ∧ us = vs := by
    intro xs
    induction xs with
    | nil =>
      rintro (_ | ⟨y, ys⟩) us vs - hys h
      · exact ⟨rfl, (List.cons.inj h).2⟩
      · exact absurd ((List.cons.inj h).1 ▸ List.mem_cons_self) hys
    | cons x xs ih =>
      rintro (_ | ⟨y, ys⟩) us vs hxs hys h
      · exact absurd ((List.cons.inj h).1 ▸ List.mem_cons_self) hxs
      · obtain ⟨rfl, hrest⟩ := List.cons.inj h
        obtain ⟨hxy, hrest⟩ := ih ys us vs (fun hmem => hxs (List.mem_cons_of_mem _ hmem))
          (fun hmem => hys (List.mem_cons_of_mem _ hmem)) hrest
        exact ⟨congrArg (x :: ·) hxy, hrest⟩
  intro a b us vs h
  simp only [List.append_assoc, List.singleton_append] at h
  obtain ⟨hab, hrest⟩ := hclose (f a) (f b) us vs (hsep a) (hsep b) h
  exact ⟨hf hab, hrest⟩

end SelfDelimiting

/-! ### Texts of lines -/

/-- The lines one after another, each with its separator. -/
def lines (sep : α) (ls : List (List α)) : List α := ls.flatMap (· ++ [sep])

@[simp] theorem lines_nil : lines sep [] = [] := rfl

@[simp] theorem lines_cons (l : List α) (ls : List (List α)) :
    lines sep (l :: ls) = l ++ sep :: lines sep ls := by
  rw [lines, List.flatMap_cons, List.append_assoc]
  rfl

/-- **Lines are read in one way.** A text of lines, with the part of another at its end, says
which lines these are and what the part is. -/
theorem lines_append_inj {ls ls' : List (List α)} {p p' : List α} (hls : ∀ l ∈ ls, sep ∉ l)
    (hls' : ∀ l ∈ ls', sep ∉ l) (hp : sep ∉ p) (hp' : sep ∉ p')
    (h : lines sep ls ++ p = lines sep ls' ++ p') : ls = ls' ∧ p = p' := by
  induction ls generalizing ls' with
  | nil =>
    cases ls' with
    | nil => exact ⟨rfl, h⟩
    | cons l ls' =>
      rw [lines_nil, lines_cons, List.nil_append] at h
      exact absurd (h ▸ by simp) hp
  | cons l ls ih =>
    cases ls' with
    | nil =>
      rw [lines_nil, lines_cons, List.nil_append] at h
      exact absurd (h ▸ by simp) hp'
    | cons l' ls' =>
      -- the first line ends at the first separator
      have hfirst : SelfDelimiting fun l : { l : List α // sep ∉ l } => l.1 ++ [sep] :=
        .of_sep Subtype.val_injective fun l => l.2
      simp only [lines_cons, List.append_assoc, List.cons_append] at h
      obtain ⟨hl, hrest⟩ := hfirst ⟨l, hls l List.mem_cons_self⟩ ⟨l', hls' l' List.mem_cons_self⟩
        (lines sep ls ++ p) (lines sep ls' ++ p') (by simpa using h)
      obtain ⟨rfl, rfl⟩ := ih (fun l hl => hls l (List.mem_cons_of_mem _ hl))
        (fun l hl => hls' l (List.mem_cons_of_mem _ hl)) hrest
      exact ⟨congrArg (· :: ls) (congrArg Subtype.val hl), rfl⟩

/-- **A text of lines that is cut** has the first of them, and a part of the next. -/
theorem prefix_lines {ls : List (List α)} {text : List α} (hls : ∀ l ∈ ls, sep ∉ l)
    (h : text <+: lines sep ls) :
    ∃ k p, text = lines sep (ls.take k) ++ p ∧ sep ∉ p := by
  induction ls generalizing text with
  | nil =>
    obtain rfl := List.prefix_nil.mp h
    exact ⟨0, [], rfl, List.not_mem_nil⟩
  | cons l ls ih =>
    have hline : l ++ [sep] <+: lines sep (l :: ls) := by
      rw [lines_cons]
      exact ⟨lines sep ls, by simp⟩
    have hl : sep ∉ l := hls l List.mem_cons_self
    rcases List.prefix_or_prefix_of_prefix h hline with hcut | ⟨rest, rfl⟩
    · rcases List.prefix_concat_iff.mp hcut with rfl | hcut
      · exact ⟨1, [], by simp, List.not_mem_nil⟩
      · -- the cut is in the first line
        exact ⟨0, text, rfl, fun hmem => hl (hcut.subset hmem)⟩
    · rw [lines_cons, List.append_assoc] at h
      have hrest : rest <+: lines sep ls :=
        (List.cons_prefix_cons.mp ((List.prefix_append_right_inj l).mp h)).2
      obtain ⟨k, p, rfl, hp⟩ := ih (fun l hl => hls l (List.mem_cons_of_mem _ hl)) hrest
      exact ⟨k + 1, p, by simp, hp⟩

end Framework
