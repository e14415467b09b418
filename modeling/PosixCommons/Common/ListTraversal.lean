import PosixCommons.Common.ListFamily

/-!
# Walks over lists

The loops of `common/list.h`. `list_for_each` follows the links as they are after its body, so
the body may change anything but the list (`forEach_visits`): it runs on the nodes in order,
`list_for_each_prev` on the same nodes in the opposite order. `list_entry` being the identity on
addresses, `list_for_each_entry` is `list_for_each`.

A body that takes its node off the list needs `list_for_each_safe`. In the plain loop it ends in
a null pointer (`forEach_del_faults`) or does not end at all (`forEach_delInit_hangs`), while
the safe one visits every node that was on the list (`forEachEntrySafe_sweeps`).
-/

open Framework

namespace Posixc

variable {ν σ : Type} [DecidableEq ν]

/-- The iterations of a loop along one of the links, from the test of `pos` on. -/
def forEachLoop (link : Links ν → Option ν) (nodes : σ → NodeHeap ν) (head : Option ν)
    (body : σ → Option ν → Exec σ) : ℕ → σ → Option ν → Exec σ
  | 0, _, _ => .error .exhausted
  | fuel + 1, s, pos =>
    if pos = head then .ok s
    else do
      let s ← body s pos
      let n ← (nodes s).read pos
      forEachLoop link nodes head body fuel s (link n)

/-- `list_for_each`, and `list_for_each_entry`, on the list that `nodes` finds in the state. -/
def listForEach (nodes : σ → NodeHeap ν) (head : Option ν) (body : σ → Option ν → Exec σ)
    (fuel : ℕ) (s : σ) : Exec σ := do
  let n ← (nodes s).read head
  forEachLoop Links.next nodes head body fuel s n.next

/-- `list_for_each_prev`. -/
def listForEachPrev (nodes : σ → NodeHeap ν) (head : Option ν) (body : σ → Option ν → Exec σ)
    (fuel : ℕ) (s : σ) : Exec σ := do
  let n ← (nodes s).read head
  forEachLoop Links.prev nodes head body fuel s n.prev

variable {nodes : σ → NodeHeap ν} {head x : ν} {body : σ → Option ν → Exec σ} {xs : List ν}

/-! ### A body that leaves the list as it is -/

/-- The loop from a node on, along links that lead through `xs` to the head. -/
theorem forEachLoop_visits {link : Links ν → Option ν} {I : σ → Prop} (hhead : head ∉ xs)
    (hnode : ∀ s, I s → ∀ a ∈ xs, (nodes s).Alive a)
    (hbody : ∀ s s', I s → ∀ a ∈ xs, body s (some a) = .ok s' → I s') :
    ∀ s n ns, I s → xs ++ [head] = n :: ns →
      (∀ s, I s → xs.map (fun a => (nodes s a).bind link) = ns.map some) →
      ∀ fuel, xs.length < fuel →
        forEachLoop link nodes (some head) body fuel s (some n) =
          xs.foldlM (fun s a => body s (some a)) s := by
  induction xs with
  | nil =>
    intro s n ns h hn _ fuel hfuel
    obtain ⟨rfl, -⟩ := List.cons.inj hn
    obtain ⟨fuel, rfl⟩ := Nat.exists_eq_succ_of_ne_zero (Nat.ne_zero_of_lt hfuel)
    rw [forEachLoop, if_pos rfl]
    rfl
  | cons x xs ih =>
    intro s n ns h hn hlink fuel hfuel
    obtain ⟨rfl, hns⟩ : x = n ∧ xs ++ [head] = ns := List.cons.inj hn
    obtain ⟨fuel, rfl⟩ := Nat.exists_eq_succ_of_ne_zero (Nat.ne_zero_of_lt hfuel)
    obtain ⟨hne, hhead⟩ := not_or.mp (mt List.mem_cons.mpr hhead)
    rw [forEachLoop, if_neg fun heq => hne (Option.some.inj heq).symm, List.foldlM_cons]
    cases hs₁ : body s (some x) with
    -- a body that fails ends the loop
    | error e => rfl
    | ok s₁ =>
      have h₁ : I s₁ := hbody s s₁ h x List.mem_cons_self hs₁
      -- the link of the node is read after the body
      obtain ⟨n', ns', hn'⟩ := exists_first head xs
      have hread : (nodes s₁).read (some x) =
          .ok ⟨(nodes s₁).next x, (nodes s₁).prev x⟩ :=
        (hnode s₁ h₁ x List.mem_cons_self).read
      have hx := hlink s₁ h₁
      rw [← hns, hn', List.map_cons, List.map_cons, (hnode s₁ h₁ x List.mem_cons_self).eq] at hx
      rw [Exec.ok_bind, Exec.ok_bind, hread, Exec.ok_bind]
      rw [show link ⟨(nodes s₁).next x, (nodes s₁).prev x⟩ = some n' from (List.cons.inj hx).1]
      refine ih hhead (fun s hs a ha => hnode s hs a (List.mem_cons_of_mem x ha))
        (fun s s' hs a ha => hbody s s' hs a (List.mem_cons_of_mem x ha)) s₁ n' ns' h₁ hn'
        (fun s hs => ?_) fuel (Nat.lt_of_succ_lt_succ hfuel)
      have hrest := hlink s hs
      rw [← hns, hn', List.map_cons, List.map_cons] at hrest
      exact (List.cons.inj hrest).2

/-- **The two plain loops.** A body that leaves the list as it is runs on the nodes from the
first to the last, or from the last to the first, and a failure of it is one of the loop. -/
theorem forEach_visits {I : σ → Prop} (hring : ∀ s, I s → Circular (nodes s) head xs)
    (hbody : ∀ s s', I s → ∀ a ∈ xs, body s (some a) = .ok s' → I s') {s : σ} (h : I s) :
    Exec.Settles (fun fuel => listForEach nodes (some head) body fuel s)
        (xs.foldlM (fun s a => body s (some a)) s) ∧
      Exec.Settles (fun fuel => listForEachPrev nodes (some head) body fuel s)
        (xs.reverse.foldlM (fun s a => body s (some a)) s) := by
  have hhead : head ∉ xs := (List.nodup_cons.mp (hring s h).nodup).1
  have halive : ∀ s, I s → ∀ a ∈ xs, (nodes s).Alive a := fun s hs a ha =>
    (hring s hs).alive (List.mem_cons_of_mem head ha)
  have hread : (nodes s).read (some head) = .ok ⟨(nodes s).next head, (nodes s).prev head⟩ :=
    ((hring s h).alive List.mem_cons_self).read
  constructor
  · obtain ⟨n, ns, hn⟩ := exists_first head xs
    have hlinks : ∀ s, I s →
        (nodes s).next head = some n ∧ xs.map (nodes s).next = ns.map some := by
      intro s hs
      have hnext := (hring s hs).next
      rw [hn, List.map_cons, List.map_cons] at hnext
      exact List.cons.inj hnext
    refine ⟨xs.length + 1, fun fuel hfuel => ?_⟩
    dsimp only
    rw [listForEach, hread, Exec.ok_bind, (hlinks s h).1]
    exact forEachLoop_visits hhead halive hbody s n ns h hn (fun s hs => (hlinks s hs).2) fuel
      hfuel
  · -- against the links the list is the reversed one
    obtain ⟨n, ns, hn⟩ := exists_first head xs.reverse
    have hlinks : ∀ s, I s →
        (nodes s).prev head = some n ∧ xs.reverse.map (nodes s).prev = ns.map some := by
      intro s hs
      have hprev : (head :: xs.reverse).map (nodes s).prev = (xs.reverse ++ [head]).map some := by
        simpa using congrArg List.reverse (hring s hs).prev
      rw [hn, List.map_cons, List.map_cons] at hprev
      exact List.cons.inj hprev
    refine ⟨xs.length + 1, fun fuel hfuel => ?_⟩
    dsimp only
    rw [listForEachPrev, hread, Exec.ok_bind, (hlinks s h).1]
    refine forEachLoop_visits (by simpa using hhead)
      (fun s hs a ha => halive s hs a (List.mem_reverse.mp ha))
      (fun s s' hs a ha => hbody s s' hs a (List.mem_reverse.mp ha)) s n ns h hn
      (fun s hs => (hlinks s hs).2) fuel ?_
    rwa [List.length_reverse]

/-- A list of two nodes, walked in both directions by a body that writes the nodes down. -/
theorem forEach_visits_two :
    ∃ m, Exec.Settles (fun fuel => listForEach Prod.fst (some 0)
        (fun s a => .ok (s.1, s.2 ++ [a])) fuel (m, [])) (.ok (m, [some 1, some 2])) ∧
      Exec.Settles (fun fuel => listForEachPrev Prod.fst (some 0)
        (fun s a => .ok (s.1, s.2 ++ [a])) fuel (m, [])) (.ok (m, [some 2, some (1 : Fin 3)])) := by
  let m : NodeHeap (Fin 3) := fun a => some ⟨some (a + 1), some (a + 2)⟩
  have hring : Circular m 0 [1, 2] := ⟨by decide, rfl, rfl⟩
  let I : NodeHeap (Fin 3) × List (Option (Fin 3)) → Prop := fun s => s.1 = m
  have hkeep : ∀ s s', I s → ∀ a ∈ [(1 : Fin 3), 2],
      (Except.ok (s.1, s.2 ++ [some a]) : Exec _) = .ok s' → I s' := by
    rintro s s' hs a - h
    rw [← Except.ok.inj h]
    exact hs
  exact ⟨m, forEach_visits (I := I) (fun s hs => hs ▸ hring) hkeep rfl⟩

/-! ### A body that takes nodes off -/

/-- `list_del` of the node that the plain loop is at. The next one is read from it, and is
null. -/
theorem forEach_del_faults {m : NodeHeap ν} (h : Circular m head ([] ++ x :: xs)) :
    Exec.Settles (fun fuel => listForEach id (some head) listDel fuel m)
      (.error .outOfBounds) := by
  have hx : m.Alive x := h.alive (by simp)
  have hne : x ≠ head := by
    rintro rfl
    exact (List.nodup_cons.mp h.nodup).1 List.mem_cons_self
  have hfirst : m.next head = some x := by
    rw [← h.ends.2]
    rfl
  -- the body takes the node off and clears its links
  obtain ⟨m₁, hm₁, -, hsame₁⟩ := listDelBetween_ring h
  have hx₁ : m₁.Alive x := (hsame₁.1 x).mpr hx
  obtain ⟨m₂, hm₂, hnext₂, -, halive₂⟩ := hx₁.setNext none
  obtain ⟨m₃, hm₃, hnext₃, -, halive₃⟩ := ((halive₂ x).mpr hx₁).setPrev none
  have hdel : listDel m (some x) = .ok m₃ := by
    rw [listDel, hx.read, Exec.ok_bind]
    dsimp only
    rw [hm₁, Exec.ok_bind, hm₂, Exec.ok_bind, hm₃]
  -- so the loop goes on with null, which is not the head and cannot be read
  have hread : m₃.read (some x) = .ok ⟨none, m₃.prev x⟩ := by
    rw [((halive₃ x).mpr ((halive₂ x).mpr hx₁)).read, hnext₃, hnext₂, if_pos rfl]
  refine ⟨2, fun fuel hfuel => ?_⟩
  obtain ⟨fuel, rfl⟩ := Nat.exists_eq_add_of_le' hfuel
  dsimp only
  rw [listForEach, id, (h.alive List.mem_cons_self).read, Exec.ok_bind, hfirst, forEachLoop,
    if_neg fun heq => hne (Option.some.inj heq), hdel, Exec.ok_bind, id, hread, Exec.ok_bind,
    forEachLoop, if_neg (Option.some_ne_none head).symm]
  rfl

/-- `list_del_init` of a node that is linked to itself changes nothing. -/
theorem listDelInit_single {m : NodeHeap ν} (h : Circular m x []) :
    listDelInit m (some x) = .ok m := by
  have hx : m.Alive x := h.alive List.mem_cons_self
  rw [listDelInit, hx.read, Exec.ok_bind]
  dsimp only
  rw [listDelBetween_single h, Exec.ok_bind, initListHead_eq hx, ← circular_nil.mp h,
    Function.update_eq_self]

/-- `list_del_init` of the node that the plain loop is at. The node is linked to itself then,
and the loop stays there. -/
theorem forEach_delInit_hangs {m : NodeHeap ν} (h : Circular m head ([] ++ x :: xs)) (fuel : ℕ) :
    listForEach id (some head) listDelInit fuel m = .error .exhausted := by
  have hx : m.Alive x := h.alive (by simp)
  have hne : some x ≠ some head := by
    intro heq
    obtain rfl := Option.some.inj heq
    exact (List.nodup_cons.mp h.nodup).1 List.mem_cons_self
  have hfirst : m.next head = some x := by
    rw [← h.ends.2]
    rfl
  obtain ⟨m₁, hm₁, -, hsame₁⟩ := listDelBetween_ring h
  have hx₁ : m₁.Alive x := (hsame₁.1 x).mpr hx
  -- from the second iteration on the node is a ring of its own
  have hstay : ∀ fuel (m' : NodeHeap ν), Circular m' x [] →
      forEachLoop Links.next id (some head) listDelInit fuel m' (some x) =
        .error .exhausted := by
    intro fuel
    induction fuel with
    | zero => exact fun _ _ => rfl
    | succ fuel ih =>
      intro m' h'
      have hnext : m'.next x = some x := by
        rw [← h'.ends.2]
        rfl
      rw [forEachLoop, if_neg hne, listDelInit_single h', Exec.ok_bind, id,
        (h'.alive List.mem_cons_self).read, Exec.ok_bind, hnext]
      exact ih m' h'
  rw [listForEach, id, (h.alive List.mem_cons_self).read, Exec.ok_bind, hfirst]
  cases fuel with
  | zero => rfl
  | succ fuel =>
    -- the first iteration takes the node off and links it to itself
    have hring : Circular (Function.update m₁ x (some ⟨some x, some x⟩)) x [] :=
      circular_nil.mpr (Function.update_self _ _ _)
    have hnext : NodeHeap.next (Function.update m₁ x (some ⟨some x, some x⟩)) x = some x := by
      rw [← hring.ends.2]
      rfl
    rw [forEachLoop, if_neg hne, listDelInit, hx.read, Exec.ok_bind]
    dsimp only
    rw [hm₁, Exec.ok_bind, initListHead_eq hx₁, Exec.ok_bind, id,
      (hring.alive List.mem_cons_self).read, Exec.ok_bind, hnext]
    exact hstay fuel _ hring

variable {I : List ν → σ → Prop}

/-- The iterations of the safe loop from a node on. `I` is what holds of the nodes that are
still to be visited and the state. -/
theorem forEachEntrySafeLoop_sweeps
    (hring : ∀ rest s, I rest s → ∃ kept, Circular (nodes s) head (kept ++ rest))
    (hbody : ∀ x rest s, I (x :: rest) s → ∃ s', body s (some x) = .ok s' ∧ I rest s')
    (rest : List ν) : ∀ s n ns, I rest s → rest ++ [head] = n :: ns →
      ∃ ahead s', (nodes s).read (some n) = .ok ahead ∧ I [] s' ∧
        ∀ fuel, rest.length < fuel →
          forEachEntrySafeLoop nodes (some head) body fuel s (some n) ahead.next = .ok s' := by
  induction rest with
  | nil =>
    intro s n ns h hn
    obtain ⟨rfl, -⟩ := List.cons.inj hn
    -- the node after the last is the head, which can be read
    obtain ⟨kept, hr⟩ := hring _ _ h
    refine ⟨_, s, (hr.alive List.mem_cons_self).read, h, fun fuel hfuel => ?_⟩
    obtain ⟨fuel, rfl⟩ := Nat.exists_eq_succ_of_ne_zero (Nat.ne_zero_of_lt hfuel)
    rw [forEachEntrySafeLoop, if_pos rfl]
  | cons x rest ih =>
    intro s n ns h hn
    obtain ⟨rfl, -⟩ := List.cons.inj hn
    obtain ⟨kept, hr⟩ := hring _ _ h
    obtain ⟨n', ns', hn'⟩ := exists_first head rest
    -- the next node is remembered before the body runs
    have hnext : (nodes s).next x = some n' := by
      rw [← hr.neighbours.2, hn']
      rfl
    have hne : some x ≠ some head := by
      intro heq
      obtain rfl := Option.some.inj heq
      exact (List.nodup_cons.mp hr.nodup).1 (by simp)
    obtain ⟨s₁, hs₁, h₁⟩ := hbody _ _ _ h
    -- and its own next one is read after the body
    obtain ⟨ahead, s', hahead, hs', hrun⟩ := ih s₁ n' ns' h₁ hn'
    refine ⟨_, s', (hr.alive (by simp)).read, hs', fun fuel hfuel => ?_⟩
    obtain ⟨fuel, rfl⟩ := Nat.exists_eq_succ_of_ne_zero (Nat.ne_zero_of_lt hfuel)
    rw [forEachEntrySafeLoop, if_neg hne, hs₁, Exec.ok_bind]
    dsimp only
    rw [hnext, hahead, Exec.ok_bind]
    exact hrun fuel (Nat.lt_of_succ_lt_succ hfuel)

/-- **The safe loop.** A body that may take its node off the list, and leaves those after it,
runs on every node that was on the list. -/
theorem forEachEntrySafe_sweeps
    (hring : ∀ rest s, I rest s → ∃ kept, Circular (nodes s) head (kept ++ rest))
    (hbody : ∀ x rest s, I (x :: rest) s → ∃ s', body s (some x) = .ok s' ∧ I rest s')
    (hstart : ∀ s, I xs s → Circular (nodes s) head xs) {s : σ} (h : I xs s) :
    ∃ s', Exec.Returns (fun fuel => forEachEntrySafe nodes (some head) body fuel s) s' ∧
      I [] s' := by
  have hr := hstart s h
  obtain ⟨n, ns, hn, hnext⟩ := hr.first
  obtain ⟨ahead, s', hahead, hs', hrun⟩ :=
    forEachEntrySafeLoop_sweeps hring hbody xs s n ns h hn
  refine ⟨s', ⟨xs.length + 1, fun fuel hfuel => ?_⟩, hs'⟩
  dsimp only
  rw [forEachEntrySafe, (hr.alive List.mem_cons_self).read, Exec.ok_bind]
  dsimp only
  rw [hnext, hahead, Exec.ok_bind]
  exact hrun fuel hfuel

variable {m : NodeHeap ν} {L : Rings ν}

/-- `list_del` in the safe loop empties the list. -/
theorem forEachEntrySafe_del (h : m.Shows L) (hL : L head = some xs) :
    ∃ m', Exec.Returns (fun fuel => forEachEntrySafe id (some head) listDel fuel m) m' ∧
      m'.Shows (L.set head []) := by
  let I : List ν → NodeHeap ν → Prop := fun rest s => s.Shows (L.set head rest)
  have hring : ∀ rest s, I rest s → Circular s head rest := fun rest s hs =>
    hs.ring head rest Rings.set_self
  -- before the loop the list is as it was
  have hinit : I xs m := by
    show m.Shows (Function.update L head (some xs))
    rwa [← hL, Function.update_eq_self]
  refine forEachEntrySafe_sweeps (I := I) (fun rest s hs => ⟨[], hring rest s hs⟩) ?_ (hring xs)
    hinit
  intro x rest s hs
  have hx : L.set head (x :: rest) head = some ([] ++ x :: rest) := Rings.set_self
  obtain ⟨s', hs', h'⟩ := shows_del hs (.inl ⟨head, _, hx, List.mem_cons_self⟩)
  rw [hs.without_eq hx, Rings.set_set] at h'
  exact ⟨s', hs', h'⟩

/-- `list_del_init` there makes an empty list of every node as well. -/
theorem forEachEntrySafe_delInit (h : m.Shows L) (hL : L head = some xs) :
    ∃ m', Exec.Returns (fun fuel => forEachEntrySafe id (some head) listDelInit fuel m) m' ∧
      m'.Shows fun a => if a ∈ head :: xs then some [] else L a := by
  have hhead : head ∉ xs := (List.nodup_cons.mp (h.ring head xs hL).nodup).1
  -- the nodes that were visited are lists of their own
  let D : List ν → List ν → Rings ν := fun done rest a =>
    if a ∈ done then some [] else L.set head rest a
  let I : List ν → NodeHeap ν → Prop := fun rest s =>
    ∃ done, done ++ rest = xs ∧ s.Shows (D done rest)
  have hD : ∀ done rest, done ++ rest = xs → D done rest head = some rest := by
    rintro done rest rfl
    exact (if_neg fun hmem => hhead (List.mem_append_left rest hmem)).trans Rings.set_self
  have hring : ∀ rest s, I rest s → Circular s head rest := by
    rintro rest s ⟨done, hdone, hs⟩
    exact hs.ring head rest (hD done rest hdone)
  have hinit : I xs m := by
    refine ⟨[], rfl, ?_⟩
    have hsame : D [] xs = L := by
      funext a
      show L.set head xs a = L a
      rw [Rings.set, ← hL, Function.update_eq_self]
    rwa [hsame]
  have hbody : ∀ x rest s, I (x :: rest) s → ∃ s', listDelInit s (some x) = .ok s' ∧ I rest s' := by
    rintro x rest s ⟨done, hdone, hs⟩
    -- the node is on the list still, so it can be taken off
    have hx : D done (x :: rest) head = some ([] ++ x :: rest) := hD done _ hdone
    have hlinked : (D done (x :: rest)).Linked x := .inl ⟨head, _, hx, List.mem_cons_self⟩
    obtain ⟨s', hs', h'⟩ := ListOp.apply_spec hs (show (ListOp.delInit x).Legal _ from hlinked)
    have hnext : (ListOp.delInit x).effect (D done (x :: rest)) = D (done ++ [x]) rest := by
      rw [ListOp.effect, hs.without_eq hx]
      funext a
      simp only [D, Rings.set, Function.update_apply, List.mem_append, List.mem_singleton,
        List.nil_append]
      grind
    rw [hnext] at h'
    exact ⟨s', hs', done ++ [x], by simpa using hdone, h'⟩
  -- at the end all nodes were visited
  obtain ⟨m', hm', done, hdone, h'⟩ := forEachEntrySafe_sweeps (I := I)
    (fun rest s hs => ⟨[], hring rest s hs⟩) hbody (hring xs) hinit
  rw [List.append_nil] at hdone
  refine ⟨m', hm', ?_⟩
  convert h' using 1
  funext a
  simp only [D, hdone, Rings.set, Function.update_apply, List.mem_cons]
  grind

/-- **Taking nodes off in a loop.** The plain loop does not survive it: with `list_del` it runs
into a null pointer, with `list_del_init` it never ends. The safe loop takes every node off, and
leaves all other lists as they were. -/
theorem forEach_del (h : m.Shows L) (hL : L head = some (x :: xs)) :
    Exec.Settles (fun fuel => listForEach id (some head) listDel fuel m) (.error .outOfBounds) ∧
      (∀ fuel, listForEach id (some head) listDelInit fuel m = .error .exhausted) ∧
      (∃ m', Exec.Returns (fun fuel => forEachEntrySafe id (some head) listDel fuel m) m' ∧
        m'.Shows (L.set head [])) ∧
      ∃ m', Exec.Returns (fun fuel => forEachEntrySafe id (some head) listDelInit fuel m) m' ∧
        m'.Shows fun a => if a ∈ head :: x :: xs then some [] else L a := by
  have hring : Circular m head ([] ++ x :: xs) := h.ring head _ hL
  exact ⟨forEach_del_faults hring, forEach_delInit_hangs hring, forEachEntrySafe_del h hL,
    forEachEntrySafe_delInit h hL⟩

/-- The memory of two lists, one of two nodes and an empty one. -/
theorem shows_two : ∃ m : NodeHeap (Fin 4),
    m.Shows ((Rings.set (fun _ => none) 0 [1, 2]).set 3 []) := by
  refine ⟨fun a => some ⟨some (if a = 3 then 3 else if a = 2 then 0 else a + 1),
    some (if a = 3 then 3 else if a = 0 then 2 else a - 1)⟩, fun a => rfl, ?_, ?_⟩
  · intro h xs hL
    rcases Rings.set_eq_some.mp hL with ⟨rfl, rfl⟩ | ⟨-, hL⟩
    · exact circular_nil.mpr rfl
    · rcases Rings.set_eq_some.mp hL with ⟨rfl, rfl⟩ | ⟨-, hL⟩
      · exact ⟨by decide, rfl, rfl⟩
      · exact absurd hL.symm (Option.some_ne_none xs)
  · intro h k a hh hk
    have hnone : ∀ h, ¬ Rings.Owns (fun _ : Fin 4 => none) h a := fun h ⟨_, hL, _⟩ =>
      Option.some_ne_none _ hL.symm
    simp only [Rings.owns_set, hnone, and_false, or_false] at hh hk
    grind

/-- The two nodes of a list are taken off, beside a list that is empty. -/
theorem forEach_del_two : ∃ m : NodeHeap (Fin 4),
    Exec.Settles (fun fuel => listForEach id (some 0) listDel fuel m) (.error .outOfBounds) ∧
      (∀ fuel, listForEach id (some 0) listDelInit fuel m = .error .exhausted) ∧
      (∃ m', Exec.Returns (fun fuel => forEachEntrySafe id (some 0) listDel fuel m) m' ∧
        Circular m' 0 [] ∧ Circular m' 3 []) ∧
      ∃ m', Exec.Returns (fun fuel => forEachEntrySafe id (some 0) listDelInit fuel m) m' ∧
        ∀ a, Circular m' a [] := by
  obtain ⟨m, h⟩ := shows_two
  have hL : (Rings.set (fun _ => none) 0 [1, 2]).set 3 [] (0 : Fin 4) = some [1, 2] := rfl
  obtain ⟨hdel, hdelInit, ⟨m₁, hrun₁, h₁⟩, m₂, hrun₂, h₂⟩ := forEach_del h hL
  refine ⟨m, hdel, hdelInit, ⟨m₁, hrun₁, h₁.ring 0 [] rfl, h₁.ring 3 [] rfl⟩, m₂, hrun₂,
    fun a => h₂.ring a [] ?_⟩
  revert a
  decide

/-- The body of a loop that moves some nodes to another list. -/
def listDivideBody (p : ν → Bool) (other : ν) (m : NodeHeap ν) : Option ν → Exec (NodeHeap ν)
  | some a => if p a then listMoveTail m (some a) (some other) else .ok m
  | none => .error .outOfBounds

/-- **Dividing a list.** A safe loop that moves some nodes to another list moves these and no
others, and both lists keep the order that the nodes had. -/
theorem listDivide_spec {other : ν} {ys : List ν} (p : ν → Bool) (h : m.Shows L)
    (hL : L head = some xs) (hother : L other = some ys) (hne : head ≠ other) :
    ∃ m', Exec.Returns
        (fun fuel => forEachEntrySafe id (some head) (listDivideBody p other) fuel m) m' ∧
      m'.Shows ((L.set head (xs.filter (fun a => !p a))).set other (ys ++ xs.filter p)) := by
  -- the nodes that were visited are divided, the others are still on the list
  let I : List ν → NodeHeap ν → Prop := fun rest s => ∃ done, done ++ rest = xs ∧
    s.Shows ((L.set head (done.filter (fun a => !p a) ++ rest)).set other (ys ++ done.filter p))
  have hhead : ∀ zs ws, (L.set head zs).set other ws head = some zs := fun zs ws => by
    rw [Rings.set_of_ne hne, Rings.set_self]
  have hring : ∀ rest s, I rest s → ∃ kept, Circular s head (kept ++ rest) := by
    rintro rest s ⟨done, -, hs⟩
    exact ⟨_, hs.ring head _ (hhead _ _)⟩
  have hstart : ∀ s, I xs s → Circular s head xs := by
    rintro s ⟨done, hdone, hs⟩
    obtain rfl : done = [] := List.append_left_eq_self.mp hdone
    exact hs.ring head _ (hhead _ _)
  have hinit : I xs m := by
    refine ⟨[], rfl, ?_⟩
    have hsame : (L.set head xs).set other ys = L := by
      rw [Rings.set, Rings.set, ← hL, Function.update_eq_self, ← hother, Function.update_eq_self]
    rw [List.filter_nil, List.filter_nil, List.nil_append, List.append_nil, hsame]
    exact h
  have hbody : ∀ x rest s, I (x :: rest) s →
      ∃ s', listDivideBody p other s (some x) = .ok s' ∧ I rest s' := by
    rintro x rest s ⟨done, hdone, hs⟩
    by_cases hp : p x = true
    · -- the node is moved behind those that were moved before
      have hx := hhead (done.filter (fun a => !p a) ++ x :: rest) (ys ++ done.filter p)
      have hxne : x ≠ other := by
        rintro rfl
        exact hne (hs.apart head x x (Rings.owns_of_mem hx (by simp))
          (Rings.owns_head Rings.set_self))
      have hlegal : (ListOp.moveTail x other).Legal _ :=
        ⟨.inl ⟨head, _, hx, by simp⟩, hxne, by rw [Rings.set_self]; rfl⟩
      obtain ⟨s', hs', h'⟩ := ListOp.apply_spec hs hlegal
      have hwithout := hs.without_eq hx
      rw [Rings.set_comm hne, Rings.set_set] at hwithout
      rw [ListOp.effect, hwithout, Rings.nodes_of_eq Rings.set_self, Rings.set_set] at h'
      refine ⟨s', ?_, done ++ [x], by simpa using hdone, by simpa [hp] using h'⟩
      rw [listDivideBody, if_pos hp]
      exact hs'
    · -- the node is left where it is
      refine ⟨s, by simp [listDivideBody, hp], done ++ [x], by simpa using hdone, ?_⟩
      simpa [hp] using hs
  obtain ⟨m', hm', done, hdone, h'⟩ := forEachEntrySafe_sweeps hring hbody hstart hinit
  rw [List.append_nil] at hdone
  rw [hdone, List.append_nil] at h'
  exact ⟨m', hm', h'⟩

/-- The second of two nodes is moved to an empty list. -/
theorem listDivide_spec_two : ∃ (m m' : NodeHeap (Fin 4)) (L : Rings (Fin 4)),
    Exec.Returns
        (fun fuel => forEachEntrySafe id (some 0) (listDivideBody (· = 2) 3) fuel m) m' ∧
      m'.Shows L ∧ L 0 = some [1] ∧ L 3 = some [2] := by
  obtain ⟨m, h⟩ := shows_two
  have hL : (Rings.set (fun _ => none) 0 [1, 2]).set 3 [] (0 : Fin 4) = some [1, 2] := rfl
  obtain ⟨m', hm', h'⟩ := listDivide_spec (· = 2) h hL Rings.set_self (by decide)
  exact ⟨m, m', _, hm', h', rfl, rfl⟩

end Posixc
