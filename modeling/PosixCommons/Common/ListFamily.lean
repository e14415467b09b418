import PosixCommons.Common.ListOps
import PosixCommons.Framework.Rings
import PosixCommons.Framework.Runs

/-!
# Lists as a family

A program has many lists, calls the functions of `common/list.h` on them in any order, and
moves nodes between them. `listSystem` is what such a program sees: which nodes are on which
list. A call is legal there when it is used as the names say: only a node that is in no list
is added, only one that is in a list is taken out.

`lists_refine` is the result. The links in memory do what the family of lists does, over every
run of legal calls; in particular no call reads or writes through a null pointer.
-/

open Framework

namespace Posixc

variable {ν : Type} [DecidableEq ν]

/-- A call of a function on lists. -/
inductive ListOp (ν : Type)
  | init (ptr : ν)
  | add (cur head : ν)
  | addTail (cur head : ν)
  | del (entry : ν)
  | delInit (entry : ν)
  | move (list head : ν)
  | moveTail (list head : ν)
  | splice (list head : ν)
  | spliceInit (list head : ν)

namespace ListOp

/-- The call on the memory. -/
def apply (m : NodeHeap ν) : ListOp ν → Exec (NodeHeap ν)
  | init ptr => initListHead m (some ptr)
  | add cur head => listAdd m (some cur) (some head)
  | addTail cur head => listAddTail m (some cur) (some head)
  | del entry => listDel m (some entry)
  | delInit entry => listDelInit m (some entry)
  | move list head => listMove m (some list) (some head)
  | moveTail list head => listMoveTail m (some list) (some head)
  | splice list head => listSplice m (some list) (some head)
  | spliceInit list head => listSpliceInit m (some list) (some head)

/-- The call is used as it is meant. -/
def Legal (L : Rings ν) : ListOp ν → Prop
  | init ptr => L.Unused ptr
  | add cur head | addTail cur head => L.Unused cur ∧ cur ≠ head ∧ (L head).isSome
  | del entry | delInit entry => L.Linked entry
  | move list head | moveTail list head => L.Linked list ∧ list ≠ head ∧ (L head).isSome
  | splice list head | spliceInit list head => (L list).isSome ∧ (L head).isSome ∧ list ≠ head

/-- What the call makes of the lists. -/
def effect (L : Rings ν) : ListOp ν → Rings ν
  | init ptr => (L.without ptr).set ptr []
  | add cur head | move cur head => (L.without cur).set head (cur :: (L.without cur).nodes head)
  | addTail cur head | moveTail cur head =>
    (L.without cur).set head ((L.without cur).nodes head ++ [cur])
  | del entry => L.without entry
  | delInit entry => (L.without entry).set entry []
  | splice list head =>
    if L.nodes list = [] then L
    else (L.drop list).set head (L.nodes list ++ L.nodes head)
  | spliceInit list head =>
    if L.nodes list = [] then L
    else ((L.drop list).set head (L.nodes list ++ L.nodes head)).set list []

end ListOp

open Classical in
/-- The lists that a program sees. Before its first call it has none. -/
noncomputable def listSystem : System (Rings ν) (ListOp ν) where
  init L := ∀ h, L h = none
  next L op := if op.Legal L then some (op.effect L) else none

/-! ### One call -/

variable {m : NodeHeap ν} {L : Rings ν} {head list x : ν} {xs ys : List ν}

/-- `__list_del`, as every function uses it that takes a node out of its list. -/
theorem shows_unlink (h : m.Shows L) (hx : L.Linked x) :
    ∃ m', listDelBetween m (m.prev x) (m.next x) = .ok m' ∧ m'.Shows (L.without x) := by
  -- the node is on a list, or the head of an empty one
  rcases hx with ⟨head, xs, hL, hmem⟩ | hL
  · obtain ⟨us, vs, rfl⟩ := List.append_of_mem hmem
    obtain ⟨m', hm', hring, hsame⟩ := listDelBetween_ring (h.ring head _ hL)
    exact ⟨m', hm', h.unlink hL hring hsame⟩
  · exact ⟨m, listDelBetween_single (h.ring x _ hL), h.of_unused (.inr hL)⟩

theorem shows_init (h : m.Shows L) (hx : L.Loose x) :
    ∃ m', initListHead m (some x) = .ok m' ∧ m'.Shows (L.set x []) := by
  refine ⟨_, initListHead_eq (h.alive x), h.put_head hx (circular_nil.mpr ?_)
    ⟨fun a => ?_, fun a ha => ?_⟩⟩
  · exact Function.update_self _ _ _
  · -- no node comes or goes
    rw [NodeHeap.Alive, Function.update_apply]
    split_ifs
    · exact iff_of_true rfl (h.alive a)
    · rfl
  · exact Function.update_of_ne (fun heq => ha (List.mem_singleton.mpr heq)) _ _

theorem shows_add (h : m.Shows L) (hx : L.Loose x) (hL : L head = some xs) :
    ∃ m', listAdd m (some x) (some head) = .ok m' ∧ m'.Shows (L.set head (x :: xs)) := by
  obtain ⟨m', hm', hring, hsame⟩ :=
    listAdd_ring (h.ring head xs hL) (hx.not_mem hL) (h.alive x)
  have hfront : L head = some ([] ++ xs) := hL
  exact ⟨m', hm', h.put hx hfront hring hsame⟩

theorem shows_addTail (h : m.Shows L) (hx : L.Loose x) (hL : L head = some xs) :
    ∃ m', listAddTail m (some x) (some head) = .ok m' ∧ m'.Shows (L.set head (xs ++ [x])) := by
  obtain ⟨m', hm', hring, hsame⟩ :=
    listAddTail_ring (h.ring head xs hL) (hx.not_mem hL) (h.alive x)
  rw [← List.append_nil xs] at hL hsame
  exact ⟨m', hm', h.put hx hL hring hsame⟩

/-- The list of another node is still there when a node is taken out. -/
theorem without_isSome (hne : x ≠ head) (hL : (L head).isSome) :
    L.without x head = some ((L.without x).nodes head) := by
  obtain ⟨xs, hxs⟩ := Option.isSome_iff_exists.mp hL
  have hwithout : L.without x head = some (xs.filter (· ≠ x)) :=
    Rings.without_eq_some.mpr ⟨hne.symm, xs, hxs, rfl⟩
  rw [Rings.nodes_of_eq hwithout, hwithout]

theorem shows_del (h : m.Shows L) (hx : L.Linked x) :
    ∃ m', listDel m (some x) = .ok m' ∧ m'.Shows (L.without x) := by
  obtain ⟨m₁, hm₁, h₁⟩ := shows_unlink h hx
  -- its links are made null when it is in no list any more
  obtain ⟨m₂, hm₂, hnext₂, hprev₂, halive₂⟩ := (h₁.alive x).setNext none
  obtain ⟨m₃, hm₃, hnext₃, hprev₃, halive₃⟩ := ((halive₂ x).mpr (h₁.alive x)).setPrev none
  have halive : ∀ a, m₃.Alive a ↔ m₁.Alive a := fun a => (halive₃ a).trans (halive₂ a)
  have hsame : m₁.SameBeside m₃ [x] := by
    refine ⟨halive, fun a ha => ?_⟩
    have hax : a ≠ x := fun heq => ha (List.mem_singleton.mpr heq)
    refine NodeHeap.eq_of_links ?_ ?_ (halive a)
    · rw [hnext₃, hnext₂, if_neg hax]
    · rw [hprev₃, if_neg hax, hprev₂]
  refine ⟨m₃, ?_, h₁.of_loose hsame fun a ha => ?_⟩
  · rw [listDel, (h.alive x).read, Exec.ok_bind]
    dsimp only
    rw [hm₁, Exec.ok_bind, hm₂, Exec.ok_bind, hm₃]
  · obtain rfl := List.mem_singleton.mp ha
    exact Rings.loose_without

/-- `__list_splice`, when there is something to move. -/
theorem shows_splice (h : m.Shows L) (hlist : L list = some ys) (hys : ys ≠ [])
    (hL : L head = some xs) (hne : list ≠ head) :
    ∃ m', listSpliceBetween m (some list) (some head) = .ok m' ∧
      m'.Shows ((L.drop list).set head (ys ++ xs)) := by
  have hdisjoint : (list :: ys).Disjoint (head :: xs) := fun a ha ha' =>
    hne (h.apart list head a (Rings.owns_of_mem hlist ha) (Rings.owns_of_mem hL ha'))
  obtain ⟨m', hm', hring, hsame⟩ :=
    listSpliceBetween_ring (h.ring list ys hlist) hys (h.ring head xs hL) hdisjoint
  exact ⟨m', hm', h.splice hlist hL hne hring hsame⟩

/-- A head whose nodes were moved away is in no list. -/
theorem loose_of_splice (h : m.Shows L) (hlist : L list = some ys) (hL : L head = some xs)
    (hne : list ≠ head) : ((L.drop list).set head (ys ++ xs)).Loose list := by
  intro k hk
  have hlist' : L.Owns list list := Rings.owns_head hlist
  -- it was no node of the other list, and its own has no head now
  rcases Rings.owns_set.mp hk with ⟨-, hmem⟩ | ⟨-, zs, hzs, hmem⟩
  · rcases List.mem_cons.mp hmem with heq | hmem
    · exact hne heq
    · rcases List.mem_append.mp hmem with hmem | hmem
      · exact (List.nodup_cons.mp (h.ring list ys hlist).nodup).1 hmem
      · exact hne (h.apart list head list hlist'
          (Rings.owns_of_mem hL (List.mem_cons_of_mem head hmem)))
  · obtain ⟨hkl, hzs⟩ := Rings.drop_eq_some.mp hzs
    exact hkl (h.apart k list list (Rings.owns_of_mem hzs hmem) hlist')

theorem listEmpty_shows (h : m.Shows L) (hL : L head = some xs) :
    listEmpty m (some head) = .ok (decide (xs = [])) := listEmpty_spec (h.ring head xs hL)

/-- Every legal call does on the memory what it does to the lists. -/
theorem ListOp.apply_spec (h : m.Shows L) {op : ListOp ν} (hlegal : op.Legal L) :
    ∃ m', op.apply m = .ok m' ∧ m'.Shows (op.effect L) := by
  cases op with
  | init ptr => exact shows_init (h.of_unused hlegal) Rings.loose_without
  | add cur head =>
    obtain ⟨hcur, hne, hhead⟩ := hlegal
    exact shows_add (h.of_unused hcur) Rings.loose_without (without_isSome hne hhead)
  | addTail cur head =>
    obtain ⟨hcur, hne, hhead⟩ := hlegal
    exact shows_addTail (h.of_unused hcur) Rings.loose_without (without_isSome hne hhead)
  | del entry => exact shows_del h hlegal
  | delInit entry =>
    -- after `__list_del` the node is made a head
    obtain ⟨m₁, hm₁, h₁⟩ := shows_unlink h hlegal
    obtain ⟨m₂, hm₂, h₂⟩ := shows_init h₁ Rings.loose_without
    refine ⟨m₂, ?_, h₂⟩
    rw [ListOp.apply, listDelInit, (h.alive entry).read, Exec.ok_bind]
    dsimp only
    rw [hm₁, Exec.ok_bind, hm₂]
  | move list head =>
    obtain ⟨hlist, hne, hhead⟩ := hlegal
    -- after `__list_del` the node is put on the other list
    obtain ⟨m₁, hm₁, h₁⟩ := shows_unlink h hlist
    obtain ⟨m₂, hm₂, h₂⟩ := shows_add h₁ Rings.loose_without (without_isSome hne hhead)
    refine ⟨m₂, ?_, h₂⟩
    rw [ListOp.apply, listMove, (h.alive list).read, Exec.ok_bind]
    dsimp only
    rw [hm₁, Exec.ok_bind, hm₂]
  | moveTail list head =>
    obtain ⟨hlist, hne, hhead⟩ := hlegal
    obtain ⟨m₁, hm₁, h₁⟩ := shows_unlink h hlist
    obtain ⟨m₂, hm₂, h₂⟩ := shows_addTail h₁ Rings.loose_without (without_isSome hne hhead)
    refine ⟨m₂, ?_, h₂⟩
    rw [ListOp.apply, listMoveTail, (h.alive list).read, Exec.ok_bind]
    dsimp only
    rw [hm₁, Exec.ok_bind, hm₂]
  | splice list head =>
    obtain ⟨hlist, hhead, hne⟩ := hlegal
    obtain ⟨ys, hys⟩ := Option.isSome_iff_exists.mp hlist
    obtain ⟨xs, hxs⟩ := Option.isSome_iff_exists.mp hhead
    rw [ListOp.apply, ListOp.effect, listSplice, listEmpty_shows h hys, Exec.ok_bind,
      Rings.nodes_of_eq hys, Rings.nodes_of_eq hxs]
    -- an empty list is left as it is
    by_cases hempty : ys = []
    · exact ⟨m, by simp [hempty], by simpa [hempty] using h⟩
    · obtain ⟨m', hm', h'⟩ := shows_splice h hys hempty hxs hne
      exact ⟨m', by simp [hempty, hm'], by simpa [hempty] using h'⟩
  | spliceInit list head =>
    obtain ⟨hlist, hhead, hne⟩ := hlegal
    obtain ⟨ys, hys⟩ := Option.isSome_iff_exists.mp hlist
    obtain ⟨xs, hxs⟩ := Option.isSome_iff_exists.mp hhead
    rw [ListOp.apply, ListOp.effect, listSpliceInit, listEmpty_shows h hys, Exec.ok_bind,
      Rings.nodes_of_eq hys, Rings.nodes_of_eq hxs]
    by_cases hempty : ys = []
    · exact ⟨m, by simp [hempty], by simpa [hempty] using h⟩
    · obtain ⟨m₁, hm₁, h₁⟩ := shows_splice h hys hempty hxs hne
      -- the head that has lost its nodes is made one of an empty list
      obtain ⟨m₂, hm₂, h₂⟩ := shows_init h₁ (loose_of_splice h hys hxs hne)
      exact ⟨m₂, by simp [hempty, hm₁, hm₂], by simpa [hempty] using h₂⟩

/-! ### Every run -/

/-- **The links are the lists.** However a program adds, takes out, moves and splices, as long
as every call is legal none of them fails, and in the end every list has in memory exactly the
nodes, in the order, that the calls one after another give it. -/
theorem lists_refine {L' : Rings ν} {ops : List (ListOp ν)} (h : m.Shows L)
    (hrun : listSystem.run L ops = some L') :
    ∃ m', ops.foldlM ListOp.apply m = .ok m' ∧ m'.Shows L' := by
  have hstep : ∀ (L : Rings ν) op L' m, NodeHeap.Shows m L → listSystem.next L op = some L' →
      ∃ m', ListOp.apply m op = pure m' ∧ NodeHeap.Shows m' L' := by
    intro L op L' m h hnext
    obtain ⟨hlegal, heffect⟩ := Option.ite_none_right_eq_some.mp hnext
    obtain rfl := Option.some.inj heffect
    exact ListOp.apply_spec h hlegal
  exact System.run_simulates hstep h hrun

/-- A node is added to one list and moved to another. -/
theorem lists_refine_move :
    ∃ m' L', [ListOp.init 0, .init 1, .add 2 0, .moveTail 2 1].foldlM ListOp.apply
        (fun _ : Fin 3 => some ⟨none, none⟩) = .ok m' ∧
      m'.Shows L' ∧ L' 0 = some [] ∧ L' 1 = some [2] := by
  have hnone : NodeHeap.Shows (fun _ : Fin 3 => some ⟨none, none⟩) fun _ => none :=
    ⟨fun _ => rfl, fun _ _ hL => (Option.some_ne_none _ hL.symm).elim,
      fun _ _ _ ⟨_, hL, _⟩ => (Option.some_ne_none _ hL.symm).elim⟩
  obtain ⟨L', hrun, h₀, h₁⟩ : ∃ L', listSystem.run (fun _ : Fin 3 => none)
      [ListOp.init 0, .init 1, .add 2 0, .moveTail 2 1] = some L' ∧
        L' 0 = some [] ∧ L' 1 = some [2] := by
    simp [System.run, listSystem, ListOp.Legal, ListOp.effect, Rings.Unused, Rings.Linked,
      Rings.Loose, Rings.Owns, Rings.set, Rings.without, Rings.nodes, Function.update_apply,
      Fin.forall_fin_succ, Fin.exists_fin_succ]
  obtain ⟨m', hm', h⟩ := lists_refine hnone hrun
  exact ⟨m', L', hm', h, h₀, h₁⟩

end Posixc
