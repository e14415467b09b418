import PosixCommons.Framework.Graft

/-!
# Families of rings

The lists in one memory, as a function from their heads to the nodes on them. No node is in
two of them (`Rings.Apart`), and `NodeHeap.Shows` says that the memory is made so: a ring for
each list.

An operation on lists writes a few nodes and names them. `NodeHeap.Shows.change` is the frame
rule: a list of which no node is named is as it was. The rules after it are what the operations
on lists are made of: taking a node out, putting one in, making one a head and moving the nodes
of one list to another.
-/

namespace Framework

variable {ν : Type}

/-- The lists in a memory: the nodes on the list of each head, nothing for other nodes. -/
abbrev Rings (ν : Type) := ν → Option (List ν)

namespace Rings

variable {L L' : Rings ν} {h k a x : ν} {xs ys us vs : List ν}

/-- The node is on the list of the head, or is that head. -/
def Owns (L : Rings ν) (h a : ν) : Prop := ∃ xs, L h = some xs ∧ a ∈ h :: xs

/-- No node is in two lists. -/
def Apart (L : Rings ν) : Prop := ∀ h k a, L.Owns h a → L.Owns k a → h = k

/-- The node is in no list. -/
def Loose (L : Rings ν) (a : ν) : Prop := ∀ h, ¬ L.Owns h a

/-- The node is in no list, unless it is the head of an empty one. -/
def Unused (L : Rings ν) (a : ν) : Prop := L.Loose a ∨ L a = some []

/-- The node is on a list, or is the head of an empty one. -/
def Linked (L : Rings ν) (a : ν) : Prop := (∃ h xs, L h = some xs ∧ a ∈ xs) ∨ L a = some []

/-- The nodes on a list. -/
def nodes (L : Rings ν) (h : ν) : List ν := (L h).getD []

theorem owns_head (hL : L h = some xs) : L.Owns h h := ⟨xs, hL, List.mem_cons_self⟩

theorem owns_of_mem (hL : L h = some xs) (ha : a ∈ h :: xs) : L.Owns h a := ⟨xs, hL, ha⟩

theorem nodes_of_eq (hL : L h = some xs) : L.nodes h = xs := by
  rw [nodes, hL]
  rfl

theorem Loose.not_mem (hx : L.Loose x) (hL : L h = some xs) : x ∉ h :: xs :=
  fun hmem => hx h (owns_of_mem hL hmem)

/-- Fewer nodes in the lists are apart too. -/
theorem Apart.of_owns (hL : L.Apart) (hle : ∀ h a, L'.Owns h a → L.Owns h a) : L'.Apart :=
  fun h k a ha hk => hL h k a (hle h a ha) (hle k a hk)

variable [DecidableEq ν]

/-- A head with these nodes on its list. -/
def set (L : Rings ν) (h : ν) (xs : List ν) : Rings ν := Function.update L h (some xs)

/-- A node that is not a head any more. -/
def drop (L : Rings ν) (h : ν) : Rings ν := Function.update L h none

/-- A node that is in no list any more. -/
def without (L : Rings ν) (a : ν) : Rings ν := fun h =>
  if h = a then none else (L h).map fun xs => xs.filter (· ≠ a)

@[simp] theorem set_self : L.set h xs h = some xs := Function.update_self _ _ _

theorem set_of_ne (hk : k ≠ h) : L.set h xs k = L k := Function.update_of_ne hk _ _

theorem set_set : (L.set h xs).set h ys = L.set h ys := Function.update_idem _ _ _

theorem set_comm (hk : k ≠ h) : (L.set h xs).set k ys = (L.set k ys).set h xs :=
  Function.update_comm hk.symm _ _ _

theorem set_eq_some : L.set h xs k = some ys ↔ k = h ∧ ys = xs ∨ k ≠ h ∧ L k = some ys := by
  by_cases hk : k = h
  · rw [hk, set_self]
    simp [eq_comm]
  · rw [set_of_ne hk]
    simp [hk]

theorem drop_eq_some : L.drop h k = some ys ↔ k ≠ h ∧ L k = some ys := by
  rw [drop, Function.update_apply]
  split_ifs with hk <;> simp [hk]

/-- Taking a node out of a list that it is not on. -/
theorem filter_ne_of_not_mem (hx : x ∉ xs) : xs.filter (· ≠ x) = xs :=
  List.filter_eq_self.mpr fun _ ha => decide_eq_true (ne_of_mem_of_not_mem ha hx)

theorem without_eq_some :
    L.without a k = some ys ↔ k ≠ a ∧ ∃ xs, L k = some xs ∧ ys = xs.filter (· ≠ a) := by
  rw [without]
  split_ifs with hk
  · simp [hk]
  · simp [hk, eq_comm]

theorem loose_without : (L.without a).Loose a := by
  rintro h ⟨xs, hL, ha⟩
  obtain ⟨hne, ys, -, rfl⟩ := without_eq_some.mp hL
  rcases List.mem_cons.mp ha with rfl | ha
  · exact hne rfl
  · simp at ha

/-- What the lists are when one of them has other nodes. -/
theorem owns_set : (L.set h xs).Owns k a ↔ k = h ∧ a ∈ h :: xs ∨ k ≠ h ∧ L.Owns k a := by
  constructor
  · rintro ⟨ys, hL, ha⟩
    rcases set_eq_some.mp hL with ⟨rfl, rfl⟩ | ⟨hk, hL⟩
    · exact .inl ⟨rfl, ha⟩
    · exact .inr ⟨hk, ys, hL, ha⟩
  · rintro (⟨rfl, ha⟩ | ⟨hk, ys, hL, ha⟩)
    · exact ⟨xs, set_self, ha⟩
    · exact ⟨ys, (set_of_ne hk).trans hL, ha⟩

/-- A list of nodes that no other list has. -/
theorem Apart.set (hL : L.Apart) (hxs : ∀ a ∈ h :: xs, ∀ k, L.Owns k a → k = h) :
    (L.set h xs).Apart := by
  intro k l a hk hl
  rcases owns_set.mp hk with ⟨rfl, ha⟩ | ⟨-, hkL⟩
  · rcases owns_set.mp hl with ⟨rfl, -⟩ | ⟨-, hlL⟩
    · rfl
    · exact (hxs a ha l hlL).symm
  · rcases owns_set.mp hl with ⟨rfl, ha⟩ | ⟨-, hlL⟩
    · exact hxs a ha k hkL
    · exact hL k l a hkL hlL

end Rings

/-- The memory has a ring for each of the lists. -/
structure NodeHeap.Shows (m : NodeHeap ν) (L : Rings ν) : Prop where
  alive : ∀ a, m.Alive a
  ring : ∀ h xs, L h = some xs → Circular m h xs
  apart : L.Apart

namespace NodeHeap.Shows

variable {m m' : NodeHeap ν} {L L' : Rings ν} {head list x : ν} {xs ys us vs named : List ν}

/-- **The frame rule.** A list is as it was if none of its nodes is named. -/
theorem change (h : m.Shows L) (hsame : m.SameBeside m' named) (hapart : L'.Apart)
    (hL' : ∀ k xs, L' k = some xs →
      Circular m' k xs ∨ L k = some xs ∧ ∀ a ∈ named, ¬ L.Owns k a) : m'.Shows L' := by
  refine ⟨fun a => (hsame.1 a).mpr (h.alive a), fun k xs hk => ?_, hapart⟩
  rcases hL' k xs hk with hring | ⟨hL, hnamed⟩
  · exact hring
  · exact (h.ring k xs hL).congr fun a ha =>
      hsame.2 a fun hmem => hnamed a hmem (Rings.owns_of_mem hL ha)

/-- Writing nodes that are in no list. -/
theorem of_loose (h : m.Shows L) (hsame : m.SameBeside m' named)
    (hnamed : ∀ a ∈ named, L.Loose a) : m'.Shows L :=
  h.change hsame h.apart fun k _ hk => .inr ⟨hk, fun a ha => hnamed a ha k⟩

/-- What is said of some of the lists. -/
theorem of_le (h : m.Shows L) (hle : ∀ k xs, L' k = some xs → L k = some xs) : m.Shows L' :=
  ⟨h.alive, fun k xs hk => h.ring k xs (hle k xs hk),
    h.apart.of_owns fun _ _ ⟨xs, hL, ha⟩ => ⟨xs, hle _ xs hL, ha⟩⟩

variable [DecidableEq ν]

/-- Taking the lists for those without a node that is in none changes none. -/
theorem of_unused (h : m.Shows L) (hx : L.Unused x) : m.Shows (L.without x) := by
  refine h.of_le fun k ys hk => ?_
  obtain ⟨hkx, xs, hL, rfl⟩ := Rings.without_eq_some.mp hk
  -- if it were on a list, it would be in no list but that, and no head
  have hmem : x ∉ xs := by
    intro hmem
    have howns : L.Owns k x := Rings.owns_of_mem hL (List.mem_cons_of_mem k hmem)
    rcases hx with hx | hx
    · exact hx k howns
    · exact hkx (h.apart k x x howns (Rings.owns_head hx))
  rw [hL, Rings.filter_ne_of_not_mem hmem]

/-- Only one list is another without a node that is on it. -/
theorem without_eq (h : m.Shows L) (hL : L head = some (us ++ x :: vs)) :
    L.without x = L.set head (us ++ vs) := by
  have hnodup := (h.ring head _ hL).nodup
  have howns : L.Owns head x := Rings.owns_of_mem hL (by simp)
  funext k
  by_cases hk : k = head
  · -- the list that it is on, where it stands once
    have hhead : head ≠ x := by grind
    have hx : x ∉ us ∧ x ∉ vs := by grind
    rw [hk, Rings.set_self, Rings.without, if_neg hhead, hL, Option.map_some, List.filter_append,
      List.filter_cons_of_neg (by simp), Rings.filter_ne_of_not_mem hx.1,
      Rings.filter_ne_of_not_mem hx.2]
  · -- no other list has it
    have hother : ¬ L.Owns k x := fun hkx => hk (h.apart k head x hkx howns)
    rw [Rings.set_of_ne hk, Rings.without]
    split_ifs with hkx
    · cases hLk : L k with
      | none => rfl
      | some xs => exact absurd (hkx ▸ Rings.owns_head hLk) hother
    · cases hLk : L k with
      | none => rfl
      | some xs =>
        have hxs : x ∉ xs := fun hmem =>
          hother (Rings.owns_of_mem hLk (List.mem_cons_of_mem k hmem))
        rw [Option.map_some, Rings.filter_ne_of_not_mem hxs]

/-- Taking a node out of its list. -/
theorem unlink (h : m.Shows L) (hL : L head = some (us ++ x :: vs))
    (hring : Circular m' head (us ++ vs)) (hsame : m.SameBeside m' (head :: (us ++ vs))) :
    m'.Shows (L.without x) := by
  -- all nodes that are written are of the one list
  have hother : ∀ a ∈ head :: (us ++ vs), ∀ k, L.Owns k a → k = head := fun a ha k hk =>
    h.apart k head a hk (Rings.owns_of_mem hL (by grind))
  rw [h.without_eq hL]
  refine h.change hsame (h.apart.set hother) fun k ys hk => ?_
  rcases Rings.set_eq_some.mp hk with ⟨rfl, rfl⟩ | ⟨hkhead, hLk⟩
  · exact .inl hring
  · exact .inr ⟨hLk, fun a ha howns => hkhead (hother a ha k howns)⟩

/-- Making a node that is in no list the head of an empty one. -/
theorem put_head (h : m.Shows L) (hx : L.Loose x) (hring : Circular m' x [])
    (hsame : m.SameBeside m' [x]) : m'.Shows (L.set x []) := by
  refine h.change hsame (h.apart.set fun a ha k hk => ?_) fun k ys hk => ?_
  · obtain rfl := List.mem_singleton.mp ha
    exact absurd hk (hx k)
  · rcases Rings.set_eq_some.mp hk with ⟨rfl, rfl⟩ | ⟨-, hL⟩
    · exact .inl hring
    · refine .inr ⟨hL, fun a ha => ?_⟩
      obtain rfl := List.mem_singleton.mp ha
      exact hx k

/-- Putting a node that is in no list on one. -/
theorem put (h : m.Shows L) (hx : L.Loose x) (hL : L head = some (us ++ vs))
    (hring : Circular m' head (us ++ x :: vs))
    (hsame : m.SameBeside m' (x :: head :: (us ++ vs))) :
    m'.Shows (L.set head (us ++ x :: vs)) := by
  -- all nodes that are written are of the one list, or in none
  have hother : ∀ a ∈ x :: head :: (us ++ vs), ∀ k, L.Owns k a → k = head := by
    intro a ha k hk
    rcases List.mem_cons.mp ha with rfl | ha
    · exact absurd hk (hx k)
    · exact h.apart k head a hk (Rings.owns_of_mem hL ha)
  refine h.change hsame (h.apart.set fun a ha => hother a (by grind)) fun k ys hk => ?_
  rcases Rings.set_eq_some.mp hk with ⟨rfl, rfl⟩ | ⟨hkhead, hLk⟩
  · exact .inl hring
  · exact .inr ⟨hLk, fun a ha howns => hkhead (hother a ha k howns)⟩

/-- Moving the nodes of one list to the front of another, whose first head has no list then. -/
theorem splice (h : m.Shows L) (hlist : L list = some ys) (hL : L head = some xs)
    (hne : list ≠ head) (hring : Circular m' head (ys ++ xs))
    (hsame : m.SameBeside m' (head :: (ys ++ xs))) :
    m'.Shows ((L.drop list).set head (ys ++ xs)) := by
  -- all nodes that are written are of one of the two lists
  have hother : ∀ a ∈ head :: (ys ++ xs), ∀ k, L.Owns k a → k = list ∨ k = head := by
    intro a ha k hk
    rcases List.mem_cons.mp ha with rfl | ha
    · exact .inr (h.apart k a a hk (Rings.owns_head hL))
    · rcases List.mem_append.mp ha with ha | ha
      · exact .inl (h.apart k list a hk (Rings.owns_of_mem hlist (List.mem_cons_of_mem list ha)))
      · exact .inr (h.apart k head a hk (Rings.owns_of_mem hL (List.mem_cons_of_mem head ha)))
  have hdrop : ∀ k a, (L.drop list).Owns k a → k ≠ list ∧ L.Owns k a := by
    rintro k a ⟨zs, hk, ha⟩
    obtain ⟨hkl, hk⟩ := Rings.drop_eq_some.mp hk
    exact ⟨hkl, zs, hk, ha⟩
  have hapart : (L.drop list).Apart := h.apart.of_owns fun k a hk => (hdrop k a hk).2
  refine h.change hsame (hapart.set fun a ha k hk => ?_) fun k zs hk => ?_
  · obtain ⟨hkl, hk⟩ := hdrop k a hk
    exact (hother a ha k hk).resolve_left hkl
  · rcases Rings.set_eq_some.mp hk with ⟨rfl, rfl⟩ | ⟨hkhead, hk⟩
    · -- no node of the list that is left is written
      exact .inl hring
    · obtain ⟨hkl, hk⟩ := Rings.drop_eq_some.mp hk
      refine .inr ⟨hk, fun a ha howns => ?_⟩
      exact (hother a ha k howns).elim hkl hkhead

end NodeHeap.Shows

end Framework
