import Mathlib.Data.List.Chain
import Mathlib.Data.List.Nodup
import PosixCommons.Framework.Ring

/-!
# Paths of nodes, and grafting one into a ring

A path is a list of nodes each of which is linked with the next, in both directions. A
circular list is a path from its head to its head (`circular_iff_path`), so a piece of it
is a path too, and stays one as long as the links inside it do (`Path.of_links`).

Linking a node into a ring, at either end, and moving all nodes of one ring into another
put a path between two neighbours of a ring. `Circular.graft` is the one fact behind them.
-/

namespace Framework

variable {ν : Type}

namespace NodeHeap

/-- The node `b` follows the node `a`. -/
def Joins (m : NodeHeap ν) (a b : ν) : Prop := m.next a = some b ∧ m.prev b = some a

/-- Each node of the list is followed by the next. -/
def Path (m : NodeHeap ν) (l : List ν) : Prop := l.IsChain m.Joins

variable {m m' : NodeHeap ν} {a b : ν} {l k : List ν}

@[simp] theorem path_singleton : m.Path [a] := List.isChain_singleton _

theorem path_cons_cons : m.Path (a :: b :: l) ↔ m.Joins a b ∧ m.Path (b :: l) :=
  List.isChain_cons_cons

theorem path_append : m.Path (l ++ k) ↔
    m.Path l ∧ m.Path k ∧ ∀ x ∈ l.getLast?, ∀ y ∈ k.head?, m.Joins x y :=
  List.isChain_append

/-- Only the links inside a path count. -/
theorem Path.of_links (h : m.Path l) (hnext : ∀ a ∈ l.dropLast, m'.next a = m.next a)
    (hprev : ∀ b ∈ l.tail, m'.prev b = m.prev b) : m'.Path l := by
  induction l with
  | nil => exact List.isChain_nil
  | cons a l ih =>
    cases l with
    | nil => exact path_singleton
    | cons b l =>
      -- the first link is inside the path, and so are those after it
      obtain ⟨hjoins, hrest⟩ := path_cons_cons.mp h
      refine path_cons_cons.mpr ⟨⟨?_, ?_⟩, ih hrest (fun c hc => ?_) fun c hc => ?_⟩
      · rw [hnext a List.mem_cons_self]
        exact hjoins.1
      · rw [hprev b List.mem_cons_self]
        exact hjoins.2
      · exact hnext c (List.mem_cons_of_mem a hc)
      · exact hprev c (List.mem_cons_of_mem b hc)

/-- The same nodes, and those that are not named are as they were. -/
def SameBeside (m m' : NodeHeap ν) (named : List ν) : Prop :=
  (∀ a, m'.Alive a ↔ m.Alive a) ∧ ∀ a, a ∉ named → m' a = m a

/-- A node is known by its links. -/
theorem eq_of_links (hnext : m'.next a = m.next a) (hprev : m'.prev a = m.prev a)
    (halive : m'.Alive a ↔ m.Alive a) : m' a = m a := by
  by_cases h : m.Alive a
  · rw [(halive.mpr h).eq, h.eq, hnext, hprev]
  · have h' : ¬ m'.Alive a := fun h' => h (halive.mp h')
    rw [Option.not_isSome_iff_eq_none.mp h, Option.not_isSome_iff_eq_none.mp h']

end NodeHeap

section Graft

variable {m m' : NodeHeap ν} {head : ν} {xs us vs ys : List ν}

/-- The last of distinct nodes is not among those before it. -/
theorem not_mem_dropLast {l : List ν} {a : ν} (h : l.Nodup) (ha : l.getLast? = some a) :
    a ∉ l.dropLast := by
  rw [← List.dropLast_append_getLast? a ha, List.nodup_append] at h
  exact fun hmem => h.2.2 a hmem a (List.mem_singleton_self a) rfl

/-- The first of distinct nodes is not among those after it. -/
theorem not_mem_tail {l : List ν} {a : ν} (h : l.Nodup) (ha : l.head? = some a) :
    a ∉ l.tail := by
  cases l with
  | nil => cases ha
  | cons b l =>
    obtain rfl := Option.some.inj ha
    exact (List.nodup_cons.mp h).1

/-- The links of a list that ends at `z`, forwards and backwards. -/
theorem path_iff_links (z : ν) (l : List ν) : ∀ a, m.Path (a :: (l ++ [z])) ↔
    (a :: l).map m.next = (l ++ [z]).map some ∧ (l ++ [z]).map m.prev = (a :: l).map some := by
  induction l with
  | nil =>
    intro a
    rw [List.nil_append, NodeHeap.path_cons_cons]
    simp [NodeHeap.Joins]
  | cons b l ih =>
    intro a
    rw [List.cons_append, NodeHeap.path_cons_cons, ih b]
    simp only [NodeHeap.Joins, List.map_cons, List.cons.injEq]
    tauto

/-- A ring is a path of distinct nodes from its head to its head. -/
theorem circular_iff_path :
    Circular m head xs ↔ (head :: xs).Nodup ∧ m.Path (head :: (xs ++ [head])) := by
  rw [path_iff_links]
  exact ⟨fun h => ⟨h.nodup, h.next, h.prev⟩, fun h => ⟨h.1, h.2.1, h.2.2⟩⟩

/-- What is linked before and after a node of a ring. -/
theorem Circular.neighbours {x : ν} (h : Circular m head (us ++ x :: vs)) :
    (head :: us).getLast? = m.prev x ∧ (vs ++ [head]).head? = m.next x := by
  obtain ⟨-, hpath⟩ := circular_iff_path.mp h
  rw [List.append_assoc, ← List.cons_append, NodeHeap.path_append] at hpath
  obtain ⟨-, hback, hjoint⟩ := hpath
  obtain ⟨p, hp⟩ : ∃ p, (head :: us).getLast? = some p := ⟨_, List.getLast?_eq_some_getLast
    (List.cons_ne_nil head us)⟩
  obtain ⟨n, ns, hn⟩ := exists_first head vs
  rw [List.cons_append, hn, NodeHeap.path_cons_cons] at hback
  rw [hp, hn, (hjoint p (by rw [hp]; rfl) x rfl).2, hback.1.1]
  exact ⟨rfl, rfl⟩

/-- What is linked before and after the head. -/
theorem Circular.ends (h : Circular m head xs) :
    (head :: xs).getLast? = m.prev head ∧ (xs ++ [head]).head? = m.next head := by
  obtain ⟨-, hpath⟩ := circular_iff_path.mp h
  obtain ⟨n, ns, hn⟩ := exists_first head xs
  -- the last link of the path is the one back to the head
  have hlast : ∀ p, (head :: xs).getLast? = some p → m.prev head = some p := by
    intro p hp
    rw [← List.cons_append, NodeHeap.path_append] at hpath
    exact (hpath.2.2 p (by rw [hp]; rfl) head rfl).2
  refine ⟨?_, ?_⟩
  · rw [List.getLast?_eq_some_getLast (List.cons_ne_nil head xs)]
    exact (hlast _ (List.getLast?_eq_some_getLast (List.cons_ne_nil head xs))).symm
  · rw [hn, NodeHeap.path_cons_cons] at hpath
    rw [hn, hpath.1.1]
    rfl

variable [DecidableEq ν]

/-- **Grafting.** Between two neighbours `p` and `n` of a ring goes a path of other nodes,
from `y` to `z`. -/
theorem Circular.graft (h : Circular m head (us ++ vs)) (hpath : m.Path ys)
    (hnodup : (head :: (us ++ ys ++ vs)).Nodup) {p n y z : ν}
    (hp : (head :: us).getLast? = some p) (hn : (vs ++ [head]).head? = some n)
    (hy : ys.head? = some y) (hz : ys.getLast? = some z)
    (hnext : ∀ a, m'.next a = if a = z then some n else if a = p then some y else m.next a)
    (hprev : ∀ a, m'.prev a = if a = y then some p else if a = n then some z else m.prev a) :
    Circular m' head (us ++ ys ++ vs) := by
  -- the ring is a path on either side of the place
  obtain ⟨-, hring⟩ := circular_iff_path.mp h
  rw [List.append_assoc, ← List.cons_append, NodeHeap.path_append] at hring
  obtain ⟨hfront, hback, -⟩ := hring
  have hnodup' : ((head :: us) ++ (ys ++ vs)).Nodup := by
    rw [List.cons_append, ← List.append_assoc]
    exact hnodup
  have hpmem : p ∈ head :: us := List.mem_of_getLast? hp
  have hnmem : n ∈ vs ++ [head] := List.mem_of_head? hn
  have hymem : y ∈ ys := List.mem_of_head? hy
  have hzmem : z ∈ ys := List.mem_of_getLast? hz
  -- no two of the pieces have a node in common
  have hsep : ∀ a ∈ ys, a ∉ head :: us ∧ a ∉ vs ++ [head] := by grind
  have hpz : p ≠ z := fun heq => (hsep z hzmem).1 (heq ▸ hpmem)
  have hny : n ≠ y := fun heq => (hsep y hymem).2 (heq ▸ hnmem)
  refine circular_iff_path.mpr ⟨hnodup, ?_⟩
  rw [List.append_assoc, List.append_assoc, ← List.cons_append, NodeHeap.path_append,
    NodeHeap.path_append]
  refine ⟨?_, ⟨?_, ?_, ?_⟩, ?_⟩
  · -- the part before the place: only its last node has a new link forwards
    refine hfront.of_links (fun a ha => ?_) fun a ha => ?_
    · have hmem : a ∈ head :: us := List.dropLast_subset _ ha
      have hap : a ≠ p := fun heq => not_mem_dropLast (by grind) hp (heq ▸ ha)
      rw [hnext, if_neg fun heq : a = z => (hsep z hzmem).1 (heq ▸ hmem), if_neg hap]
    · have hmem : a ∈ head :: us := List.mem_of_mem_tail ha
      have han : a ≠ n := by grind
      rw [hprev, if_neg fun heq : a = y => (hsep y hymem).1 (heq ▸ hmem), if_neg han]
  · -- the path that is put in: only its ends have new links
    refine hpath.of_links (fun a ha => ?_) fun a ha => ?_
    · have hmem : a ∈ ys := List.dropLast_subset _ ha
      have haz : a ≠ z := fun heq => not_mem_dropLast (by grind) hz (heq ▸ ha)
      rw [hnext, if_neg haz, if_neg fun heq : a = p => (hsep a hmem).1 (heq ▸ hpmem)]
    · have hmem : a ∈ ys := List.mem_of_mem_tail ha
      have hay : a ≠ y := fun heq => not_mem_tail (by grind) hy (heq ▸ ha)
      rw [hprev, if_neg hay, if_neg fun heq : a = n => (hsep a hmem).2 (heq ▸ hnmem)]
  · -- the part after the place: only its first node has a new link backwards
    refine hback.of_links (fun a ha => ?_) fun a ha => ?_
    · have hmem : a ∈ vs ++ [head] := List.dropLast_subset _ ha
      have hap : a ≠ p := by grind
      rw [hnext, if_neg fun heq : a = z => (hsep z hzmem).2 (heq ▸ hmem), if_neg hap]
    · have hmem : a ∈ vs ++ [head] := List.mem_of_mem_tail ha
      have han : a ≠ n := fun heq => not_mem_tail (by grind) hn (heq ▸ ha)
      rw [hprev, if_neg fun heq : a = y => (hsep y hymem).2 (heq ▸ hmem), if_neg han]
  · -- from `z` to `n`
    intro x hx x' hx'
    rw [hz] at hx
    rw [hn] at hx'
    obtain rfl := Option.mem_some_iff.mp hx
    obtain rfl := Option.mem_some_iff.mp hx'
    exact ⟨by rw [hnext, if_pos rfl], by rw [hprev, if_neg hny, if_pos rfl]⟩
  · -- from `p` to `y`
    intro x hx x' hx'
    have hhead : (ys ++ (vs ++ [head])).head? = some y := by
      rw [List.head?_append, hy]
      rfl
    rw [hp] at hx
    rw [hhead] at hx'
    obtain rfl := Option.mem_some_iff.mp hx
    obtain rfl := Option.mem_some_iff.mp hx'
    exact ⟨by rw [hnext, if_neg hpz, if_pos rfl], by rw [hprev, if_pos rfl]⟩

end Graft

end Framework
