import PosixCommons.Framework.Ring

/-!
# Lists

`common/list.h`, the circular doubly linked list of `struct list_head` nodes that
other structures contain. A node is known by its address, and `list_entry`, which
moves between a node and the structure around it, is the identity on these.

The nodes are part of a larger state for the loop of `list_for_each_entry_safe`, whose
body may change and free them. `forEachEntrySafe_drains` is its rule for a body that
takes the node that it is called on off the list.
-/

open Framework

namespace Posixc

variable {ν σ : Type} [DecidableEq ν]

/-- `INIT_LIST_HEAD`. -/
def initListHead (m : NodeHeap ν) (ptr : Option ν) : Exec (NodeHeap ν) := do
  let m ← m.setNext ptr ptr
  m.setPrev ptr ptr

/-- `__list_add`. -/
def listAddBetween (m : NodeHeap ν) (cur prev next : Option ν) : Exec (NodeHeap ν) := do
  let m ← m.setPrev next cur
  let m ← m.setNext cur next
  let m ← m.setPrev cur prev
  m.setNext prev cur

/-- `list_add_tail`. -/
def listAddTail (m : NodeHeap ν) (cur head : Option ν) : Exec (NodeHeap ν) := do
  let n ← m.read head
  listAddBetween m cur n.prev head

/-- `__list_del`. -/
def listDelBetween (m : NodeHeap ν) (prev next : Option ν) : Exec (NodeHeap ν) := do
  let m ← m.setPrev next prev
  m.setNext prev next

/-- `list_del`. -/
def listDel (m : NodeHeap ν) (entry : Option ν) : Exec (NodeHeap ν) := do
  let n ← m.read entry
  let m ← listDelBetween m n.prev n.next
  let m ← m.setNext entry none
  m.setPrev entry none

/-- `list_empty`. -/
def listEmpty (m : NodeHeap ν) (head : Option ν) : Exec Bool := do
  let n ← m.read head
  return decide (n.next = head)

/-- The iterations of `list_for_each_entry_safe`, from the test of `pos` on. -/
def forEachEntrySafeLoop (nodes : σ → NodeHeap ν) (head : Option ν)
    (body : σ → Option ν → Exec σ) : ℕ → σ → Option ν → Option ν → Exec σ
  | 0, _, _, _ => .error .exhausted
  | fuel + 1, s, pos, n =>
    if pos = head then .ok s
    else do
      let s ← body s pos
      -- `n` is looked at before it is known whether it is the head
      let ahead ← (nodes s).read n
      forEachEntrySafeLoop nodes head body fuel s n ahead.next

/-- `list_for_each_entry_safe`, on the list that `nodes` finds in the state. -/
def forEachEntrySafe (nodes : σ → NodeHeap ν) (head : Option ν)
    (body : σ → Option ν → Exec σ) (fuel : ℕ) (s : σ) : Exec σ := do
  let first ← (nodes s).read head
  let ahead ← (nodes s).read first.next
  forEachEntrySafeLoop nodes head body fuel s first.next ahead.next

/-! ### What they make of a ring -/

variable {m : NodeHeap ν} {head x : ν} {xs us vs : List ν}

/-- A head that was just initialised is an empty list. -/
theorem initListHead_spec (h : m.Alive head) :
    ∃ m', initListHead m (some head) = .ok m' ∧ Circular m' head [] ∧
      ∀ a, m'.Alive a ↔ m.Alive a := by
  obtain ⟨m₁, hm₁, hnext₁, hprev₁, halive₁⟩ := h.setNext (some head)
  obtain ⟨m₂, hm₂, hnext₂, hprev₂, halive₂⟩ := ((halive₁ head).mpr h).setPrev (some head)
  refine ⟨m₂, by rw [initListHead, hm₁, Exec.ok_bind, hm₂], ?_, fun a =>
    (halive₂ a).trans (halive₁ a)⟩
  refine circular_nil.mpr ?_
  rw [(show m₂.Alive head from (halive₂ _).mpr ((halive₁ _).mpr h)).eq, hnext₂, hnext₁, hprev₂,
    if_pos rfl, if_pos rfl]

/-- `__list_add` links a node between two others, which may be one and the same. -/
theorem listAddBetween_spec {p n : ν} (hx : m.Alive x) (hp : m.Alive p) (hn : m.Alive n)
    (hpx : p ≠ x) :
    ∃ m', listAddBetween m (some x) (some p) (some n) = .ok m' ∧
      (∀ a, m'.next a = if a = x then some n else if a = p then some x else m.next a) ∧
      (∀ a, m'.prev a = if a = x then some p else if a = n then some x else m.prev a) ∧
      ∀ a, m'.Alive a ↔ m.Alive a := by
  obtain ⟨m₁, hm₁, hnext₁, hprev₁, halive₁⟩ := hn.setPrev (some x)
  obtain ⟨m₂, hm₂, hnext₂, hprev₂, halive₂⟩ := ((halive₁ x).mpr hx).setNext (some n)
  have halive₂' : ∀ a, m₂.Alive a ↔ m.Alive a := fun a => (halive₂ a).trans (halive₁ a)
  obtain ⟨m₃, hm₃, hnext₃, hprev₃, halive₃⟩ := ((halive₂' x).mpr hx).setPrev (some p)
  have halive₃' : ∀ a, m₃.Alive a ↔ m.Alive a := fun a => (halive₃ a).trans (halive₂' a)
  obtain ⟨m₄, hm₄, hnext₄, hprev₄, halive₄⟩ := ((halive₃' p).mpr hp).setNext (some x)
  refine ⟨m₄, ?_, fun a => ?_, fun a => ?_, fun a => (halive₄ a).trans (halive₃' a)⟩
  · rw [listAddBetween, hm₁, Exec.ok_bind, hm₂, Exec.ok_bind, hm₃, Exec.ok_bind, hm₄]
  · rw [hnext₄, hnext₃, hnext₂, hnext₁]
    by_cases hax : a = x
    · rw [if_neg (hax ▸ hpx.symm), if_pos hax, if_pos hax]
    · rw [if_neg hax, if_neg hax]
  · rw [hprev₄, hprev₃, hprev₂, hprev₁]

/-- `list_add_tail` puts a node that is not on the list at its end. -/
theorem listAddTail_spec (h : Circular m head xs) (hx : x ∉ head :: xs) (halive : m.Alive x) :
    ∃ m', listAddTail m (some x) (some head) = .ok m' ∧ Circular m' head (xs ++ [x]) ∧
      ∀ a, m'.Alive a ↔ m.Alive a := by
  obtain ⟨p, hprev, hp, hring⟩ := h.append hx
  have hhead : m.Alive head := h.alive List.mem_cons_self
  obtain ⟨m', hm', hnext', hprev', halive'⟩ :=
    listAddBetween_spec halive (h.alive hp) hhead fun hpx => hx (hpx ▸ hp)
  refine ⟨m', ?_, hring m' hnext' hprev', halive'⟩
  rw [listAddTail, hhead.read, Exec.ok_bind]
  dsimp only
  rw [hprev, hm']

/-- `__list_del` links two nodes to each other. -/
theorem listDelBetween_spec {p n : ν} (hp : m.Alive p) (hn : m.Alive n) :
    ∃ m', listDelBetween m (some p) (some n) = .ok m' ∧
      (∀ a, m'.next a = if a = p then some n else m.next a) ∧
      (∀ a, m'.prev a = if a = n then some p else m.prev a) ∧
      ∀ a, m'.Alive a ↔ m.Alive a := by
  obtain ⟨m₁, hm₁, hnext₁, hprev₁, halive₁⟩ := hn.setPrev (some p)
  obtain ⟨m₂, hm₂, hnext₂, hprev₂, halive₂⟩ := ((halive₁ p).mpr hp).setNext (some n)
  refine ⟨m₂, ?_, fun a => ?_, fun a => ?_, fun a => (halive₂ a).trans (halive₁ a)⟩
  · rw [listDelBetween, hm₁, Exec.ok_bind, hm₂]
  · rw [hnext₂, hnext₁]
  · rw [hprev₂, hprev₁]

/-- `list_del` takes a node out of the list, wherever it is. -/
theorem listDel_spec (h : Circular m head (us ++ x :: vs)) :
    ∃ m', listDel m (some x) = .ok m' ∧ Circular m' head (us ++ vs) ∧
      ∀ a, m'.Alive a ↔ m.Alive a := by
  obtain ⟨p, n, hprev, hnext, hp, hn, hring⟩ := h.remove
  have hx : m.Alive x := h.alive (by simp)
  have hpalive : m.Alive p := h.alive (by
    rw [← List.cons_append]
    exact List.mem_append_left _ hp)
  have hnalive : m.Alive n := h.alive (by
    rcases List.mem_cons.mp hn with rfl | hn
    · exact List.mem_cons_self
    · exact List.mem_cons_of_mem _ (List.mem_append_right _ (List.mem_cons_of_mem _ hn)))
  obtain ⟨m₁, hm₁, hnext₁, hprev₁, halive₁⟩ := listDelBetween_spec hpalive hnalive
  obtain ⟨m₂, hm₂, hnext₂, hprev₂, halive₂⟩ := ((halive₁ x).mpr hx).setNext none
  have halive₂' : ∀ a, m₂.Alive a ↔ m.Alive a := fun a => (halive₂ a).trans (halive₁ a)
  obtain ⟨m₃, hm₃, hnext₃, hprev₃, halive₃⟩ := ((halive₂' x).mpr hx).setPrev none
  -- the links of the node itself do not count any more
  refine ⟨m₃, ?_, hring m₃ (fun a ha => ?_) (fun a ha => ?_), fun a =>
    (halive₃ a).trans (halive₂' a)⟩
  · rw [listDel, hx.read, Exec.ok_bind]
    dsimp only
    rw [hprev, hnext, hm₁, Exec.ok_bind, hm₂, Exec.ok_bind, hm₃]
  · rw [hnext₃, hnext₂, if_neg ha, hnext₁]
  · rw [hprev₃, if_neg ha, hprev₂, hprev₁]

theorem listEmpty_spec (h : Circular m head xs) :
    listEmpty m (some head) = .ok (decide (xs = [])) := by
  obtain ⟨n, ns, hn, hnext⟩ := h.first
  rw [listEmpty, (h.alive List.mem_cons_self).read, Exec.ok_bind, hnext]
  refine congrArg Except.ok (decide_eq_decide.mpr ?_)
  cases xs with
  | nil => simp [(List.cons.inj hn).1]
  | cons x xs =>
    have hne : n ≠ head := by
      rintro rfl
      have := h.nodup
      simp [(List.cons.inj hn).1] at this
    simp [hne]

variable {nodes : σ → NodeHeap ν} {body : σ → Option ν → Exec σ} {I : List ν → σ → Prop}

/-- The iterations from a node on, when it is the first of those on the list. The one
after it was read before the body took the node off the list. -/
theorem forEachEntrySafeLoop_drains (hring : ∀ xs s, I xs s → Circular (nodes s) head xs)
    (hbody : ∀ x xs s, I (x :: xs) s → ∃ s', body s (some x) = .ok s' ∧ I xs s') (xs : List ν) :
    ∀ s n ns, I xs s → xs ++ [head] = n :: ns →
      ∃ ahead s', (nodes s).read (some n) = .ok ahead ∧ I [] s' ∧
        ∀ fuel, xs.length < fuel →
          forEachEntrySafeLoop nodes (some head) body fuel s (some n) ahead.next = .ok s' := by
  induction xs with
  | nil =>
    -- the head is read like a node, and the test stops the loop before its body
    intro s n ns h hn
    obtain ⟨rfl, -⟩ := List.cons.inj hn
    refine ⟨_, s, ((hring _ _ h).alive List.mem_cons_self).read, h, fun fuel hfuel => ?_⟩
    obtain ⟨fuel, rfl⟩ := Nat.exists_eq_succ_of_ne_zero (Nat.ne_zero_of_lt hfuel)
    rw [forEachEntrySafeLoop, if_pos rfl]
  | cons x xs ih =>
    intro s n ns h hn
    obtain ⟨rfl, -⟩ := List.cons.inj hn
    have hr := hring _ _ h
    obtain ⟨n', ns', hn'⟩ := exists_first head xs
    have hnext : (nodes s).next x = some n' :=
      ((circular_cut (show [head, x] = [head] ++ [x] from rfl) hn').mp hr).2.1.2.1
    have hne : x ≠ head := by
      rintro rfl
      exact (List.nodup_cons.mp hr.nodup).1 List.mem_cons_self
    obtain ⟨s₁, hs₁, h₁⟩ := hbody _ _ _ h
    obtain ⟨ahead, s', hahead, hs', hrun⟩ := ih s₁ n' ns' h₁ hn'
    refine ⟨_, s', (hr.alive (by simp)).read, hs', fun fuel hfuel => ?_⟩
    obtain ⟨fuel, rfl⟩ := Nat.exists_eq_succ_of_ne_zero (Nat.ne_zero_of_lt hfuel)
    rw [forEachEntrySafeLoop, if_neg fun heq => hne (Option.some.inj heq), hs₁, Exec.ok_bind]
    dsimp only
    rw [hnext, hahead, Exec.ok_bind]
    exact hrun fuel (Nat.lt_of_succ_lt_succ hfuel)

/-- **A body that takes its node off the list.** The loop then returns, after the body
has run on the nodes from the first to the last; `I` is what holds of the state while
the nodes that it is given are still on the list. -/
theorem forEachEntrySafe_drains (hring : ∀ xs s, I xs s → Circular (nodes s) head xs)
    (hbody : ∀ x xs s, I (x :: xs) s → ∃ s', body s (some x) = .ok s' ∧ I xs s') {s : σ}
    (h : I xs s) :
    ∃ s', Exec.Returns (fun fuel => forEachEntrySafe nodes (some head) body fuel s) s' ∧
      I [] s' := by
  obtain ⟨n, ns, hn, hnext⟩ := (hring _ _ h).first
  obtain ⟨ahead, s', hahead, hs', hrun⟩ :=
    forEachEntrySafeLoop_drains hring hbody xs s n ns h hn
  refine ⟨s', ⟨xs.length + 1, fun fuel hfuel => ?_⟩, hs'⟩
  dsimp only
  rw [forEachEntrySafe, ((hring _ _ h).alive List.mem_cons_self).read, Exec.ok_bind]
  dsimp only
  rw [hnext, hahead, Exec.ok_bind]
  exact hrun fuel hfuel

end Posixc
