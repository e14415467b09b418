import PosixCommons.Framework.Memory

/-!
# Circular doubly linked lists in memory

Nodes of two links each, at addresses of any type. A `NodeHeap` says which addresses
are nodes and what their links are; it is read and changed through pointers, which
may be null, and an access through a pointer to what is not a node is a fault. A node
that is freed is none any more.

`Circular m head xs` is a circular list in the heap `m` that begins and ends at `head` and
has the nodes `xs` in this order. It is stated by the two ways around it, and cut at
any place (`circular_cut`) it is what it is on either side: `Circular.remove` and
`Circular.append`, for unlinking a node and for linking a new one in front of the head,
compare two cuts at one place.
-/

namespace Framework

variable {ν : Type}

/-- The two links of a node. -/
structure Links (ν : Type) where
  next : Option ν
  prev : Option ν
  deriving DecidableEq

/-- The nodes in memory. -/
abbrev NodeHeap (ν : Type) := ν → Option (Links ν)

namespace NodeHeap

/-- Reading a node. -/
def read (m : NodeHeap ν) : Option ν → Exec (Links ν)
  | none => .error .outOfBounds
  | some a => match m a with
    | some n => .ok n
    | none => .error .outOfBounds

/-- Changing a node. -/
def modify [DecidableEq ν] (m : NodeHeap ν) (a : Option ν) (f : Links ν → Links ν) :
    Exec (NodeHeap ν) :=
  match a with
  | none => .error .outOfBounds
  | some a => match m a with
    | some n => .ok (Function.update m a (some (f n)))
    | none => .error .outOfBounds

/-- Changing the first link of a node. -/
def setNext [DecidableEq ν] (m : NodeHeap ν) (a b : Option ν) : Exec (NodeHeap ν) :=
  m.modify a fun n => { n with next := b }

/-- Changing the second link of a node. -/
def setPrev [DecidableEq ν] (m : NodeHeap ν) (a b : Option ν) : Exec (NodeHeap ν) :=
  m.modify a fun n => { n with prev := b }

/-- Freeing a node. -/
def free [DecidableEq ν] (m : NodeHeap ν) (a : ν) : NodeHeap ν := Function.update m a none

/-- The address that follows. -/
def next (m : NodeHeap ν) (a : ν) : Option ν := (m a).bind Links.next

/-- The address that comes before. -/
def prev (m : NodeHeap ν) (a : ν) : Option ν := (m a).bind Links.prev

/-- The address is a node. -/
def Alive (m : NodeHeap ν) (a : ν) : Prop := (m a).isSome

variable {m : NodeHeap ν} {a b : ν}

theorem alive_of_next (h : m.next a = some b) : m.Alive a := by
  rw [next, Option.bind_eq_some_iff] at h
  obtain ⟨n, hn, -⟩ := h
  rw [Alive, hn]
  rfl

theorem Alive.read (h : m.Alive a) : m.read (some a) = .ok ⟨m.next a, m.prev a⟩ := by
  obtain ⟨n, hn⟩ := Option.isSome_iff_exists.mp h
  rw [NodeHeap.read, NodeHeap.next, NodeHeap.prev, hn]
  rfl

/-- A node is its two links. -/
theorem Alive.eq (h : m.Alive a) : m a = some ⟨m.next a, m.prev a⟩ := by
  obtain ⟨n, hn⟩ := Option.isSome_iff_exists.mp h
  rw [NodeHeap.next, NodeHeap.prev, hn]
  rfl

variable [DecidableEq ν]

theorem Alive.modify (h : m.Alive a) (f : Links ν → Links ν) :
    ∃ m', m.modify (some a) f = .ok m' ∧
      (∀ b, m'.next b = if b = a then (f ⟨m.next a, m.prev a⟩).next else m.next b) ∧
      (∀ b, m'.prev b = if b = a then (f ⟨m.next a, m.prev a⟩).prev else m.prev b) ∧
      ∀ b, m'.Alive b ↔ m.Alive b := by
  refine ⟨_, by rw [NodeHeap.modify, h.eq], fun b => ?_, fun b => ?_, fun b => ?_⟩
  · rw [NodeHeap.next, Function.update_apply]
    split_ifs <;> rfl
  · rw [NodeHeap.prev, Function.update_apply]
    split_ifs <;> rfl
  · rw [Alive, Function.update_apply]
    split_ifs with hb
    · exact iff_of_true rfl (hb ▸ h)
    · rfl

theorem Alive.setNext (h : m.Alive a) (v : Option ν) :
    ∃ m', m.setNext (some a) v = .ok m' ∧
      (∀ b, m'.next b = if b = a then v else m.next b) ∧ (∀ b, m'.prev b = m.prev b) ∧
      ∀ b, m'.Alive b ↔ m.Alive b := by
  obtain ⟨m', hm', hnext, hprev, halive⟩ := h.modify fun n => { n with next := v }
  exact ⟨m', hm', hnext, fun b => (hprev b).trans (by split_ifs with hb <;> simp [hb]), halive⟩

theorem Alive.setPrev (h : m.Alive a) (v : Option ν) :
    ∃ m', m.setPrev (some a) v = .ok m' ∧ (∀ b, m'.next b = m.next b) ∧
      (∀ b, m'.prev b = if b = a then v else m.prev b) ∧
      ∀ b, m'.Alive b ↔ m.Alive b := by
  obtain ⟨m', hm', hnext, hprev, halive⟩ := h.modify fun n => { n with prev := v }
  exact ⟨m', hm', fun b => (hnext b).trans (by split_ifs with hb <;> simp [hb]), hprev, halive⟩

theorem free_of_ne (h : b ≠ a) : m.free a b = m b := Function.update_of_ne h _ _

theorem alive_free : (m.free a).Alive b ↔ m.Alive b ∧ b ≠ a := by
  by_cases h : b = a
  · simp [h, Alive, free]
  · simp [h, Alive, free_of_ne h]

end NodeHeap

/-- A circular list with the nodes `xs` between its head and its head. -/
structure Circular (m : NodeHeap ν) (head : ν) (xs : List ν) : Prop where
  nodup : (head :: xs).Nodup
  next : (head :: xs).map m.next = (xs ++ [head]).map some
  prev : (xs ++ [head]).map m.prev = (head :: xs).map some

section Ring

variable {m m' : NodeHeap ν} {head x y : ν} {xs us vs : List ν}

/-- Only what the heap holds at the nodes of the ring counts. -/
theorem Circular.congr (h : Circular m head xs) (hm : ∀ a ∈ head :: xs, m' a = m a) :
    Circular m' head xs := by
  refine ⟨h.nodup, (List.map_congr_left fun a ha => ?_).trans h.next,
    (List.map_congr_left fun a ha => ?_).trans h.prev⟩
  · rw [NodeHeap.next, hm a ha, NodeHeap.next]
  · rw [NodeHeap.prev, hm a (by simpa [or_comm] using ha), NodeHeap.prev]

theorem Circular.alive (h : Circular m head xs) {a : ν} (ha : a ∈ head :: xs) : m.Alive a := by
  have hmem : m.next a ∈ (xs ++ [head]).map some := h.next ▸ List.mem_map_of_mem ha
  obtain ⟨b, -, hb⟩ := List.mem_map.mp hmem
  exact NodeHeap.alive_of_next hb.symm

/-- An empty ring is the head alone. -/
theorem circular_nil : Circular m head [] ↔ m head = some ⟨some head, some head⟩ := by
  constructor
  · intro h
    have hnext : m.next head = some head := by simpa using h.next
    have hprev : m.prev head = some head := by simpa using h.prev
    rw [(h.alive List.mem_cons_self).eq, hnext, hprev]
  · intro h
    refine ⟨by simp, ?_, ?_⟩ <;> simp [NodeHeap.next, NodeHeap.prev, h]

/-- The ring is what it is on both sides of a place in it, of which `p` is the node
before and `n` the node after. -/
theorem circular_cut {p n : ν} {ps ns : List ν} (hp : head :: us = ps ++ [p])
    (hn : vs ++ [head] = n :: ns) :
    Circular m head (us ++ vs) ↔ (head :: (us ++ vs)).Nodup ∧
      (ps.map m.next = us.map some ∧ m.next p = some n ∧ vs.map m.next = ns.map some) ∧
      us.map m.prev = ps.map some ∧ m.prev n = some p ∧ ns.map m.prev = vs.map some := by
  have hlen : ps.length = us.length := by simpa using (congrArg List.length hp).symm
  have hfront : head :: (us ++ vs) = ps ++ (p :: vs) := by
    rw [← List.cons_append, hp, List.append_assoc, List.singleton_append]
  have hback : us ++ vs ++ [head] = us ++ (n :: ns) := by rw [List.append_assoc, hn]
  -- both sides of the place have the same lengths in either list
  have hnext : (head :: (us ++ vs)).map m.next = (us ++ vs ++ [head]).map some ↔
      ps.map m.next = us.map some ∧ m.next p = some n ∧ vs.map m.next = ns.map some := by
    rw [hfront, hback, List.map_append, List.map_append]
    refine ⟨fun h => ?_, fun ⟨hps, hcut, hvs⟩ => by simp [hps, hcut, hvs]⟩
    simpa using List.append_inj h (by simpa using hlen)
  have hprev : (us ++ vs ++ [head]).map m.prev = (head :: (us ++ vs)).map some ↔
      us.map m.prev = ps.map some ∧ m.prev n = some p ∧ ns.map m.prev = vs.map some := by
    rw [hfront, hback, List.map_append, List.map_append]
    refine ⟨fun h => ?_, fun ⟨hus, hcut, hns⟩ => by simp [hus, hcut, hns]⟩
    simpa using List.append_inj h (by simpa using hlen.symm)
  rw [← hnext, ← hprev]
  exact ⟨fun h => ⟨h.nodup, h.next, h.prev⟩, fun h => ⟨h.1, h.2.1, h.2.2⟩⟩

/-- The last node, or the head when there is none. -/
theorem exists_last (head : ν) (us : List ν) : ∃ ps p, head :: us = ps ++ [p] :=
  ⟨_, _, (List.dropLast_append_getLast (List.cons_ne_nil head us)).symm⟩

/-- The first node, or the head when there is none. -/
theorem exists_first (head : ν) (vs : List ν) : ∃ n ns, vs ++ [head] = n :: ns :=
  List.exists_cons_of_ne_nil (List.append_ne_nil_of_right_ne_nil vs (List.cons_ne_nil head []))

/-- The address after the head, and the one after that. -/
theorem Circular.first (h : Circular m head xs) :
    ∃ n ns, xs ++ [head] = n :: ns ∧ m.next head = some n := by
  obtain ⟨n, ns, hn⟩ := exists_first head xs
  exact ⟨n, ns, hn, ((circular_cut (show [head] = [] ++ [head] from rfl) hn).mp h).2.1.2.1⟩

variable [DecidableEq ν]

/-- Links that change at another node only. -/
theorem map_of_not_mem {f g : ν → Option ν} {a : ν} {v : Option ν} (ha : a ∉ xs)
    (hg : ∀ b ∈ xs, g b = if b = a then v else f b) : xs.map g = xs.map f :=
  List.map_congr_left fun b hb => (hg b hb).trans (if_neg fun hba : b = a => ha (hba ▸ hb))

/-- **Unlinking a node.** With its two neighbours linked to each other the ring goes on
without it. -/
theorem Circular.remove (h : Circular m head (us ++ x :: vs)) :
    ∃ p n, m.prev x = some p ∧ m.next x = some n ∧ p ∈ head :: us ∧ n ∈ head :: vs ∧
      ∀ m' : NodeHeap ν,
        (∀ a, a ≠ x → m'.next a = if a = p then some n else m.next a) →
        (∀ a, a ≠ x → m'.prev a = if a = n then some p else m.prev a) →
        Circular m' head (us ++ vs) := by
  obtain ⟨ps, p, hp⟩ := exists_last head us
  obtain ⟨n, ns, hn⟩ := exists_first head vs
  obtain ⟨hnodup, ⟨hps, -, hvs⟩, hus, hprev, hns⟩ :=
    (circular_cut hp (show (x :: vs) ++ [head] = x :: (vs ++ [head]) from rfl)).mp h
  rw [hn] at hvs hns
  obtain ⟨hnext, hvs⟩ := List.cons.inj hvs
  obtain ⟨-, hns⟩ := List.cons.inj hns
  have hpmem : p ∈ head :: us := by simp [hp]
  have hnmem : n ∈ head :: vs := by
    have : n ∈ vs ++ [head] := by simp [hn]
    simpa [or_comm] using this
  refine ⟨p, n, hprev, hnext, hpmem, hnmem, fun m' hnext' hprev' => ?_⟩
  -- the nodes are distinct, so that only `p` and `n` have other links than before
  have hfront : (ps ++ (p :: x :: vs)).Nodup := by
    rw [← List.singleton_append, ← List.append_assoc, ← hp]
    exact hnodup
  have hback : (us ++ (x :: n :: ns)).Nodup := by
    rw [← hn, ← List.cons_append, ← List.append_assoc]
    exact (List.perm_append_singleton head _).nodup_iff.mpr hnodup
  obtain ⟨hpx, hxps, hxvs⟩ : p ≠ x ∧ x ∉ ps ∧ x ∉ vs := by grind
  obtain ⟨hnx, hxus, hxns⟩ : n ≠ x ∧ x ∉ us ∧ x ∉ ns := by grind
  obtain ⟨hpps, hpvs⟩ : p ∉ ps ∧ p ∉ vs := by grind
  obtain ⟨hnus, hnns⟩ : n ∉ us ∧ n ∉ ns := by grind
  refine (circular_cut hp hn).mpr ⟨?_, ⟨?_, ?_, ?_⟩, ?_, ?_, ?_⟩
  · exact hnodup.sublist (((List.sublist_cons_self x vs).append_left us).cons_cons head)
  · rw [← hps]
    exact map_of_not_mem hpps fun a ha => hnext' a fun hax => hxps (hax ▸ ha)
  · rw [hnext' p hpx, if_pos rfl]
  · rw [← hvs]
    exact map_of_not_mem hpvs fun a ha => hnext' a fun hax => hxvs (hax ▸ ha)
  · rw [← hus]
    exact map_of_not_mem hnus fun a ha => hprev' a fun hax => hxus (hax ▸ ha)
  · rw [hprev' n hnx, if_pos rfl]
  · rw [← hns]
    exact map_of_not_mem hnns fun a ha => hprev' a fun hax => hxns (hax ▸ ha)

/-- **Linking a node in front of the head.** It is the last node of the ring. -/
theorem Circular.append (h : Circular m head xs) (hx : x ∉ head :: xs) :
    ∃ p, m.prev head = some p ∧ p ∈ head :: xs ∧
      ∀ m' : NodeHeap ν,
        (∀ a, m'.next a = if a = x then some head else if a = p then some x else m.next a) →
        (∀ a, m'.prev a = if a = x then some p else if a = head then some x else m.prev a) →
        Circular m' head (xs ++ [x]) := by
  obtain ⟨ps, p, hp⟩ := exists_last head xs
  obtain ⟨hnodup, ⟨hps, -, -⟩, hxs, hprev, -⟩ :=
    (circular_cut hp (List.nil_append [head])).mp (by rwa [List.append_nil])
  refine ⟨p, hprev, by simp [hp], fun m' hnext' hprev' => ?_⟩
  rw [List.append_nil] at hnodup
  have hpps : p ∉ ps := by
    have hfront : (ps ++ [p]).Nodup := hp ▸ hnodup
    grind
  have hxps : x ∉ ps := fun hmem => hx (by
    rw [hp]
    exact List.mem_append_left _ hmem)
  have hpx : p ≠ x := by
    rintro rfl
    exact hx (by simp [hp])
  have hheadx : head ≠ x := by
    rintro rfl
    exact hx List.mem_cons_self
  have hxxs : x ∉ xs := fun hmem => hx (List.mem_cons_of_mem _ hmem)
  refine (circular_cut hp (show [x] ++ [head] = x :: [head] from rfl)).mpr
    ⟨?_, ⟨?_, ?_, ?_⟩, ?_, ?_, ?_⟩
  · exact (List.perm_append_singleton x (head :: xs)).nodup_iff.mpr
      (List.nodup_cons.mpr ⟨hx, hnodup⟩)
  · rw [← hps]
    exact map_of_not_mem hpps fun a ha =>
      (hnext' a).trans (if_neg fun hax : a = x => hxps (hax ▸ ha))
  · rw [hnext', if_neg hpx, if_pos rfl]
  · rw [List.map_singleton, hnext', if_pos rfl]
    rfl
  · rw [← hxs]
    exact map_of_not_mem (List.nodup_cons.mp hnodup).1 fun a ha =>
      (hprev' a).trans (if_neg fun hax : a = x => hxxs (hax ▸ ha))
  · rw [hprev', if_pos rfl]
  · rw [List.map_singleton, hprev', if_neg hheadx, if_pos rfl]
    rfl

end Ring

end Framework
