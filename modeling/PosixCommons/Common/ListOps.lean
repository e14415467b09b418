import PosixCommons.Common.List
import PosixCommons.Framework.Graft

/-!
# The operations on lists

The functions of `common/list.h` that the reactor does not use, and what each makes of the
rings in memory: which ring it changes and how, and that the nodes of other rings are as
they were.

`list_splice` moves the nodes of a list and leaves its head with links to them. Of the other
operations each that takes a node from a list leaves the list without it, also when it goes
to the same one.
-/

open Framework

namespace Posixc

variable {ν σ : Type} [DecidableEq ν]

/-- `list_add`. -/
def listAdd (m : NodeHeap ν) (cur head : Option ν) : Exec (NodeHeap ν) := do
  let n ← m.read head
  listAddBetween m cur head n.next

/-- `list_del_init`. -/
def listDelInit (m : NodeHeap ν) (entry : Option ν) : Exec (NodeHeap ν) := do
  let n ← m.read entry
  let m ← listDelBetween m n.prev n.next
  initListHead m entry

/-- `list_move`. -/
def listMove (m : NodeHeap ν) (list head : Option ν) : Exec (NodeHeap ν) := do
  let n ← m.read list
  let m ← listDelBetween m n.prev n.next
  listAdd m list head

/-- `list_move_tail`. -/
def listMoveTail (m : NodeHeap ν) (list head : Option ν) : Exec (NodeHeap ν) := do
  let n ← m.read list
  let m ← listDelBetween m n.prev n.next
  listAddTail m list head

/-- `__list_splice`. -/
def listSpliceBetween (m : NodeHeap ν) (list head : Option ν) : Exec (NodeHeap ν) := do
  let l ← m.read list
  let first := l.next
  let last := l.prev
  let h ← m.read head
  let after := h.next
  let m ← m.setPrev first head
  let m ← m.setNext head first
  let m ← m.setNext last after
  m.setPrev after last

/-- `list_splice`. -/
def listSplice (m : NodeHeap ν) (list head : Option ν) : Exec (NodeHeap ν) := do
  if !(← listEmpty m list) then listSpliceBetween m list head else return m

/-- `list_splice_init`. -/
def listSpliceInit (m : NodeHeap ν) (list head : Option ν) : Exec (NodeHeap ν) := do
  if !(← listEmpty m list) then do
    let m ← listSpliceBetween m list head
    initListHead m list
  else return m

/-! ### One ring -/

variable {m : NodeHeap ν} {head x : ν} {xs us vs ys : List ν}

theorem initListHead_eq (h : m.Alive x) :
    initListHead m (some x) = .ok (Function.update m x (some ⟨some x, some x⟩)) := by
  have hset : m.setNext (some x) (some x) =
      .ok (Function.update m x (some ⟨some x, m.prev x⟩)) := by
    rw [NodeHeap.setNext, NodeHeap.modify, h.eq]
  rw [initListHead, hset, Exec.ok_bind, NodeHeap.setPrev, NodeHeap.modify, Function.update_self]
  exact congrArg Except.ok (Function.update_idem _ _ _)

/-- `__list_add` between two neighbours of a ring. -/
theorem listAddBetween_ring (h : Circular m head (us ++ vs)) (hx : x ∉ head :: (us ++ vs))
    (halive : m.Alive x) {p n : ν} (hp : (head :: us).getLast? = some p)
    (hn : (vs ++ [head]).head? = some n) :
    ∃ m', listAddBetween m (some x) (some p) (some n) = .ok m' ∧
      Circular m' head (us ++ x :: vs) ∧ m.SameBeside m' (x :: head :: (us ++ vs)) := by
  -- the neighbours are in the ring, and the node is not
  have hpmem : p ∈ head :: (us ++ vs) := by
    have hmem : p ∈ head :: us := List.mem_of_getLast? hp
    rw [← List.cons_append]
    exact List.mem_append_left vs hmem
  have hnmem : n ∈ head :: (us ++ vs) := by
    have hmem : n ∈ vs ++ [head] := List.mem_of_head? hn
    grind
  have hpx : p ≠ x := fun heq => hx (heq ▸ hpmem)
  obtain ⟨m', hm', hnext, hprev, halive'⟩ :=
    listAddBetween_spec halive (h.alive hpmem) (h.alive hnmem) hpx
  refine ⟨m', hm', ?_, halive', fun a ha => ?_⟩
  · rw [List.append_cons]
    -- the new node is a path of its own
    refine h.graft NodeHeap.path_singleton ?_ hp hn rfl rfl hnext hprev
    have hnodup : (x :: head :: (us ++ vs)).Nodup := List.nodup_cons.mpr ⟨hx, h.nodup⟩
    have hmiddle : (head :: (us ++ [x] ++ vs)).Perm (x :: head :: (us ++ vs)) := by
      rw [← List.append_cons, ← List.cons_append]
      exact List.perm_middle
    exact hmiddle.nodup_iff.mpr hnodup
  · -- a node that is not named is none of the three that are written
    obtain ⟨hax, ha⟩ := not_or.mp (mt List.mem_cons.mpr ha)
    have hap : a ≠ p := fun heq => ha (heq ▸ hpmem)
    have han : a ≠ n := fun heq => ha (heq ▸ hnmem)
    refine NodeHeap.eq_of_links ?_ ?_ (halive' a)
    · rw [hnext, if_neg hax, if_neg hap]
    · rw [hprev, if_neg hax, if_neg han]

/-- `list_add` puts a node at the front. -/
theorem listAdd_ring (h : Circular m head xs) (hx : x ∉ head :: xs) (halive : m.Alive x) :
    ∃ m', listAdd m (some x) (some head) = .ok m' ∧ Circular m' head (x :: xs) ∧
      m.SameBeside m' (x :: head :: xs) := by
  obtain ⟨n, ns, hn⟩ := exists_first head xs
  have hnext : m.next head = some n := by
    rw [← h.ends.2, hn]
    rfl
  have hfront : Circular m head ([] ++ xs) := h
  obtain ⟨m', hm', hring, hsame⟩ := listAddBetween_ring hfront hx halive
    (p := head) rfl (n := n) (by rw [hn]; rfl)
  refine ⟨m', ?_, hring, hsame⟩
  rw [listAdd, (h.alive List.mem_cons_self).read, Exec.ok_bind]
  dsimp only
  rw [hnext, hm']

/-- `list_add_tail` puts a node at the end. -/
theorem listAddTail_ring (h : Circular m head xs) (hx : x ∉ head :: xs) (halive : m.Alive x) :
    ∃ m', listAddTail m (some x) (some head) = .ok m' ∧ Circular m' head (xs ++ [x]) ∧
      m.SameBeside m' (x :: head :: xs) := by
  obtain ⟨ps, p, hp⟩ := exists_last head xs
  have hlast : (head :: xs).getLast? = some p := by
    rw [hp]
    exact List.getLast?_concat
  have hprev : m.prev head = some p := by rw [← h.ends.1, hlast]
  have hcut : Circular m head (xs ++ []) := by rwa [List.append_nil]
  obtain ⟨m', hm', hring, hsame⟩ := listAddBetween_ring hcut (by rwa [List.append_nil]) halive
    hlast (n := head) rfl
  rw [List.append_nil] at hsame
  refine ⟨m', ?_, hring, hsame⟩
  rw [listAddTail, (h.alive List.mem_cons_self).read, Exec.ok_bind]
  dsimp only
  rw [hprev, hm']

/-- `__list_del` of the neighbours of a node takes it out of its ring, and leaves its own
links. -/
theorem listDelBetween_ring (h : Circular m head (us ++ x :: vs)) :
    ∃ m', listDelBetween m (m.prev x) (m.next x) = .ok m' ∧ Circular m' head (us ++ vs) ∧
      m.SameBeside m' (head :: (us ++ vs)) := by
  obtain ⟨p, n, hprev, hnext, hp, hn, hring⟩ := h.remove
  have hpmem : p ∈ head :: (us ++ vs) := by
    rw [← List.cons_append]
    exact List.mem_append_left vs hp
  have hnmem : n ∈ head :: (us ++ vs) := by grind
  have halive : ∀ a ∈ head :: (us ++ vs), m.Alive a := fun a ha => h.alive (by grind)
  obtain ⟨m', hm', hnext', hprev', halive'⟩ :=
    listDelBetween_spec (halive p hpmem) (halive n hnmem)
  refine ⟨m', ?_, hring m' (fun a _ => hnext' a) fun a _ => hprev' a, halive', fun a ha => ?_⟩
  · rw [hprev, hnext, hm']
  · have hap : a ≠ p := fun heq => ha (heq ▸ hpmem)
    have han : a ≠ n := fun heq => ha (heq ▸ hnmem)
    refine NodeHeap.eq_of_links ?_ ?_ (halive' a)
    · rw [hnext', if_neg hap]
    · rw [hprev', if_neg han]

/-- On a node that is linked to itself it does nothing. -/
theorem listDelBetween_single (h : Circular m x []) :
    listDelBetween m (m.prev x) (m.next x) = .ok m := by
  have halive : m.Alive x := h.alive List.mem_cons_self
  obtain ⟨hprev, hnext⟩ : m.prev x = some x ∧ m.next x = some x := by
    rw [← h.ends.1, ← h.ends.2]
    exact ⟨rfl, rfl⟩
  obtain ⟨m', hm', hnext', hprev', halive'⟩ := listDelBetween_spec halive halive
  -- both writes are of what is there already
  have hsame : m' = m := by
    funext a
    refine NodeHeap.eq_of_links ?_ ?_ (halive' a)
    · rw [hnext']
      split_ifs with hax
      · rw [hax, hnext]
      · rfl
    · rw [hprev']
      split_ifs with hax
      · rw [hax, hprev]
      · rfl
  rw [hprev, hnext, hm', hsame]

/-- `__list_splice` puts the nodes of one ring in front of those of another. The head of the
first keeps its links. -/
theorem listSpliceBetween_ring {list : ν} (hlist : Circular m list ys) (hys : ys ≠ [])
    (h : Circular m head xs) (hdisjoint : (list :: ys).Disjoint (head :: xs)) :
    ∃ m', listSpliceBetween m (some list) (some head) = .ok m' ∧
      Circular m' head (ys ++ xs) ∧ m.SameBeside m' (head :: (ys ++ xs)) := by
  obtain ⟨y, hy⟩ : ∃ y, ys.head? = some y := ⟨_, List.head?_eq_some_head hys⟩
  obtain ⟨z, hz⟩ : ∃ z, ys.getLast? = some z := ⟨_, List.getLast?_eq_some_getLast hys⟩
  obtain ⟨n, hn⟩ : ∃ n, (xs ++ [head]).head? = some n :=
    ⟨_, List.head?_eq_some_head (List.append_ne_nil_of_right_ne_nil xs (List.cons_ne_nil head []))⟩
  have hymem : y ∈ ys := List.mem_of_head? hy
  have hzmem : z ∈ ys := List.mem_of_getLast? hz
  have hnmem : n ∈ head :: xs := by
    have hmem : n ∈ xs ++ [head] := List.mem_of_head? hn
    grind
  have hhead : m.Alive head := h.alive List.mem_cons_self
  -- the ends of the first ring, and the first node of the second
  have hfirst : m.next list = some y := by
    rw [← hlist.ends.2, List.head?_append, hy]
    rfl
  have hlast : m.prev list = some z := by
    rw [← hlist.ends.1, List.getLast?_cons_of_ne_nil hys, hz]
  have hafter : m.next head = some n := by rw [← h.ends.2, hn]
  -- no node is in both rings
  have hsep : ∀ a ∈ ys, a ∉ head :: xs := fun a ha hmem =>
    hdisjoint (List.mem_cons_of_mem list ha) hmem
  have hny : n ≠ y := fun heq => hsep y hymem (heq ▸ hnmem)
  -- the four writes, each of a node that is there
  obtain ⟨m₁, hm₁, hnext₁, hprev₁, halive₁⟩ :=
    (hlist.alive (List.mem_cons_of_mem list hymem)).setPrev (some head)
  obtain ⟨m₂, hm₂, hnext₂, hprev₂, halive₂⟩ := ((halive₁ head).mpr hhead).setNext (some y)
  have halive₂' : ∀ a, m₂.Alive a ↔ m.Alive a := fun a => (halive₂ a).trans (halive₁ a)
  obtain ⟨m₃, hm₃, hnext₃, hprev₃, halive₃⟩ :=
    ((halive₂' z).mpr (hlist.alive (List.mem_cons_of_mem list hzmem))).setNext (some n)
  have halive₃' : ∀ a, m₃.Alive a ↔ m.Alive a := fun a => (halive₃ a).trans (halive₂' a)
  obtain ⟨m₄, hm₄, hnext₄, hprev₄, halive₄⟩ := ((halive₃' n).mpr (h.alive hnmem)).setPrev (some z)
  -- what they come to, `y` and `z` being the ends of the nodes that are moved
  have hnext : ∀ a, m₄.next a =
      if a = z then some n else if a = head then some y else m.next a := by
    intro a
    rw [hnext₄, hnext₃, hnext₂, hnext₁]
  have hprev : ∀ a, m₄.prev a =
      if a = y then some head else if a = n then some z else m.prev a := by
    intro a
    rw [hprev₄, hprev₃, hprev₂, hprev₁]
    by_cases hay : a = y
    · rw [if_neg (hay ▸ hny.symm), if_pos hay, if_pos hay]
    · rw [if_neg hay, if_neg hay]
  refine ⟨m₄, ?_, ?_, fun a => (halive₄ a).trans (halive₃' a), fun a ha => ?_⟩
  · rw [listSpliceBetween, (hlist.alive List.mem_cons_self).read, Exec.ok_bind, hhead.read,
      Exec.ok_bind]
    dsimp only
    rw [hfirst, hlast, hafter, hm₁, Exec.ok_bind, hm₂, Exec.ok_bind, hm₃, Exec.ok_bind, hm₄]
  · -- the nodes without their head are a path
    have hpath : m.Path ys := by
      obtain ⟨-, hring⟩ := circular_iff_path.mp hlist
      exact (NodeHeap.path_append.mp (hring.tail)).1
    have hfront : Circular m head ([] ++ xs) := h
    refine hfront.graft hpath ?_ rfl hn hy hz hnext hprev
    -- the nodes of the two rings are distinct together
    have hnodup : (ys ++ head :: xs).Nodup :=
      List.Nodup.append (List.nodup_cons.mp hlist.nodup).2 h.nodup hsep
    exact (List.perm_middle (a := head)).nodup_iff.mp hnodup
  · refine NodeHeap.eq_of_links ?_ ?_ ((halive₄ a).trans (halive₃' a))
    · rw [hnext, if_neg (by grind), if_neg (by grind)]
    · rw [hprev, if_neg (by grind), if_neg (by grind)]

end Posixc
