import PosixCommons.Common.List
import PosixCommons.Reactor.Lifecycle

/-!
# The list of the collector

`gc_events` as the pointers that it is made of. Its head is in the reactor and its
nodes are in the events, so a node is gone when its event is released, and any later
access to it is a fault. The functions of `reactor.c` and `event.c` that touch the list
are given once more with these accesses, and each does what the one on the plain
sequence `Reactor.gcEvents` does (`Linked.Refines`).

The loop of `posixc_reactor_gc` frees the event whose node it stands on. The sequence
has it that `list_del` comes first and that the event ahead was read before; here both
are seen to be enough.
-/

open Framework

namespace Posixc

variable {κ : Type}

/-- Where there is a list node: in the reactor, or in an event. -/
inductive Addr where
  | head
  | event (e : ℕ)
  deriving DecidableEq

/-- A reactor and the list nodes in memory, which take the place of the sequence of
`reactor`. -/
structure Linked (κ : Type) where
  reactor : Reactor κ
  nodes : NodeHeap Addr

variable (P : Platform κ)

/-- `posixc_event_release`. -/
def Linked.eventRelease (l : Linked κ) (e : ℕ) : Exec (Linked κ) := do
  let _ ← l.nodes.read (some (.event e))
  return ⟨Posixc.eventRelease P l.reactor e, l.nodes.free (.event e)⟩

/-- `add_to_gc_list`. A lock of the mutex by the thread that holds it never returns. -/
def Linked.addToGcList (held : Bool) (l : Linked κ) (e : ℕ) : Exec (Linked κ) :=
  if held then .error .exhausted
  else do
    let nodes ← listAddTail l.nodes (some (.event e)) (some .head)
    return { l with nodes := nodes }

/-- `posixc_event_destroy`. -/
def Linked.eventDestroy (isReactor held : Bool) (l : Linked κ) (e : ℕ) : Exec (Linked κ) := do
  let _ ← l.nodes.read (some (.event e))
  let l ←
    if (l.reactor.obj e).ev.closing then pure l
    else
      let l := { l with reactor := eventStop P l.reactor e }
      if isReactor then pure l else addToGcList held l e
  if isReactor then eventRelease P l e else pure l

/-- The body of the loop of `posixc_reactor_gc`. Only an event can be destroyed. -/
def Linked.reactorGcBody (isReactor : Bool) (l : Linked κ) (tmp : Option Addr) :
    Exec (Linked κ) := do
  let nodes ← listDel l.nodes tmp
  match tmp with
  | some (.event e) => eventDestroy P isReactor true { l with nodes := nodes } e
  | _ => .error .outOfBounds

/-- `posixc_reactor_gc`, which holds the mutex throughout. -/
def Linked.reactorGc (isReactor : Bool) (fuel : ℕ) (l : Linked κ) : Exec (Linked κ) := do
  if ← listEmpty l.nodes (some .head) then return l
  forEachEntrySafe Linked.nodes (some .head) (reactorGcBody P isReactor) fuel l

/-! ### The list and the sequence -/

/-- The nodes are the list that the sequence says, and those of the events that are
not released. -/
structure Linked.Refines (l : Linked κ) (r : Reactor κ) : Prop where
  reactor : l.reactor = { r with gcEvents := [] }
  ring : Circular l.nodes .head (r.gcEvents.map .event)
  alive : ∀ e, l.nodes.Alive (.event e) ↔ r.Holds e

variable {P} {l : Linked κ} {r r' : Reactor κ} {e : ℕ}

theorem event_mem_ring {list : List ℕ} :
    Addr.event e ∈ Addr.head :: list.map .event ↔ e ∈ list := by
  simp

/-- A reactor that was just created, in memory that has no event. -/
theorem Linked.refines_create (P : Platform κ) (fds : FdTable) (timerIds : ℕ)
    {nodes : NodeHeap Addr} (hhead : nodes.Alive .head) (hnone : ∀ e, ¬ nodes.Alive (.event e)) :
    ∃ nodes', initListHead nodes (some .head) = .ok nodes' ∧
      Linked.Refines ⟨reactorCreate P fds timerIds, nodes'⟩ (reactorCreate P fds timerIds) := by
  obtain ⟨nodes', hinit, hring, halive⟩ := initListHead_spec hhead
  refine ⟨nodes', hinit, rfl, hring, fun e => ?_⟩
  exact iff_of_false (fun h => hnone e ((halive _).mp h)) fun hold => Nat.not_lt_zero e hold.1

/-- A list has no event twice, and none that is released. -/
theorem Linked.Refines.listed (h : l.Refines r) :
    r.gcEvents.Nodup ∧ ∀ e ∈ r.gcEvents, r.Holds e :=
  ⟨(List.nodup_cons.mp h.ring.nodup).2.of_map _, fun e he =>
    (h.alive e).mp (h.ring.alive (event_mem_ring.mpr he))⟩

/-- A release frees the node, which must not be on the list. -/
theorem Linked.Refines.release (h : l.Refines r) (hold : r.Holds e) (he : e ∉ r.gcEvents) :
    ∃ l', l.eventRelease P e = .ok l' ∧ l'.Refines (Posixc.eventRelease P r e) := by
  refine ⟨⟨Posixc.eventRelease P l.reactor e, l.nodes.free (.event e)⟩, ?_, ?_, ?_, fun i => ?_⟩
  · rw [Linked.eventRelease, ((h.alive e).mpr hold).read]
    rfl
  · dsimp only
    rw [h.reactor]
    rfl
  · -- the nodes of the list are others
    refine h.ring.congr fun a ha => NodeHeap.free_of_ne fun hae => he ?_
    exact event_mem_ring.mp (hae ▸ ha)
  · rw [NodeHeap.alive_free, h.alive, eventRelease_holds, Ne, Addr.event.injEq]

theorem Linked.Refines.stop (h : l.Refines r) :
    ({ l with reactor := eventStop P l.reactor e } : Linked κ).Refines (eventStop P r e) := by
  refine ⟨?_, h.ring, h.alive⟩
  dsimp only
  rw [h.reactor]
  rfl

/-- The event that is added is the last of the list. -/
theorem Linked.Refines.add {held : Bool} (h : l.Refines r) (hold : r.Holds e)
    (he : e ∉ r.gcEvents) (hrun : Posixc.addToGcList held r e = some r') :
    ∃ l', l.addToGcList held e = .ok l' ∧ l'.Refines r' := by
  rw [Posixc.addToGcList] at hrun
  split_ifs at hrun with hheld
  obtain rfl := Option.some.inj hrun
  obtain ⟨nodes, hnodes, hring, halive⟩ := listAddTail_spec h.ring
    (fun hmem => he (event_mem_ring.mp hmem)) ((h.alive e).mpr hold)
  refine ⟨{ l with nodes := nodes }, ?_, h.reactor, ?_, fun i => (halive _).trans (h.alive i)⟩
  · rw [Linked.addToGcList, if_neg hheld, hnodes]
    rfl
  · rw [List.map_append]
    exact hring

/-- **A destroy.** It does the same on the pointers, when the event is not on the list
unless it is only marked there. -/
theorem Linked.Refines.destroy {isReactor held : Bool} (h : l.Refines r) (hold : r.Holds e)
    (he : e ∈ r.gcEvents → (r.obj e).ev.closing = true ∧ isReactor = false)
    (hrun : Posixc.eventDestroy P isReactor held r e = some r') :
    ∃ l', l.eventDestroy P isReactor held e = .ok l' ∧ l'.Refines r' := by
  have hclosing : (l.reactor.obj e).ev.closing = (r.obj e).ev.closing := by rw [h.reactor]
  rw [Linked.eventDestroy, ((h.alive e).mpr hold).read, Exec.ok_bind, hclosing]
  rw [Posixc.eventDestroy] at hrun
  -- the two agree after the first lines, then the reactor's thread releases
  cases hc : (r.obj e).ev.closing with
  | true =>
    rw [hc] at hrun
    cases isReactor with
    | false =>
      obtain rfl := Option.some.inj hrun
      exact ⟨l, rfl, h⟩
    | true =>
      obtain rfl := Option.some.inj hrun
      refine h.release hold fun hmem => ?_
      cases (he hmem).2
  | false =>
    rw [hc] at hrun
    have hmem : e ∉ r.gcEvents := fun hmem => by
      rw [(he hmem).1] at hc
      cases hc
    cases isReactor with
    | false =>
      obtain ⟨r₁, hadd, hr₁⟩ := Option.bind_eq_some_iff.mp hrun
      obtain rfl := Option.some.inj hr₁
      obtain ⟨l', hl', hrefines⟩ := (h.stop (P := P) (e := e)).add hold hmem hadd
      refine ⟨l', ?_, hrefines⟩
      simp only [Bool.false_eq_true, if_false]
      rw [hl']
      rfl
    | true =>
      obtain rfl := Option.some.inj hrun
      exact (h.stop (P := P) (e := e)).release hold hmem

/-- One iteration of the collector takes the first event off both lists and destroys
it. -/
theorem Linked.Refines.gcBody {isReactor : Bool} {rest : List ℕ} (h : l.Refines r)
    (hlist : r.gcEvents = e :: rest)
    (hrun : Posixc.eventDestroy P isReactor true { r with gcEvents := rest } e = some r') :
    ∃ l', l.reactorGcBody P isReactor (some (.event e)) = .ok l' ∧ l'.Refines r' := by
  have hring : Circular l.nodes .head ([] ++ .event e :: rest.map .event) := by
    simpa [hlist] using h.ring
  obtain ⟨nodes, hnodes, hrest, halive⟩ := listDel_spec hring
  have hunlinked : ({ l with nodes := nodes } : Linked κ).Refines { r with gcEvents := rest } :=
    ⟨h.reactor, hrest, fun i => (halive _).trans (h.alive i)⟩
  -- the event is not on the list any more, and its node still there
  have hnotin : e ∉ rest := (List.nodup_cons.mp (hlist ▸ h.listed.1)).1
  have hold : r.Holds e := h.listed.2 e (hlist ▸ List.mem_cons_self)
  rw [Linked.reactorGcBody, hnodes, Exec.ok_bind]
  exact hunlinked.destroy hold (fun hmem => absurd hmem hnotin) hrun

/-- The list is what the loop on the sequence has before it, on its way to `r'`. -/
def Linked.Draining (P : Platform κ) (isReactor : Bool) (r' : Reactor κ) (xs : List Addr)
    (l : Linked κ) : Prop :=
  ∃ r, xs = r.gcEvents.map .event ∧ l.Refines r ∧
    reactorGcLoop P isReactor r.gcEvents r = some r'

theorem Linked.Draining.ring {isReactor : Bool} {xs : List Addr}
    (h : l.Draining P isReactor r' xs) : Circular l.nodes .head xs := by
  obtain ⟨r, rfl, hr, -⟩ := h
  exact hr.ring

theorem Linked.Draining.body {isReactor : Bool} {x : Addr} {xs : List Addr}
    (h : l.Draining P isReactor r' (x :: xs)) :
    ∃ l', l.reactorGcBody P isReactor (some x) = .ok l' ∧ l'.Draining P isReactor r' xs := by
  obtain ⟨r, hxs, hr, hloop⟩ := h
  obtain ⟨e, rest, hlist, rfl, rfl⟩ := List.map_eq_cons_iff.mp hxs.symm
  rw [hlist, reactorGcLoop] at hloop
  obtain ⟨r₁, hdestroy, hrest⟩ := Option.bind_eq_some_iff.mp hloop
  obtain ⟨l', hl', hr₁⟩ := hr.gcBody hlist hdestroy
  -- with the mutex held nothing is put on the list
  have hgc : r₁.gcEvents = rest := by
    rcases eventDestroy_cases hdestroy with ⟨-, -, rfl⟩ | ⟨-, -, rfl⟩ | ⟨-, -, rfl⟩ | ⟨-, -, hheld, -⟩
    · rfl
    · rfl
    · rfl
    · cases hheld
  exact ⟨l', hl', r₁, by rw [hgc], hr₁, by rw [hgc]; exact hrest⟩

/-- **The collector on the pointers.** Where it comes to an end on the sequence, it
returns on the pointers and leaves the same. -/
theorem Linked.Refines.gc {isReactor : Bool} (h : l.Refines r)
    (hrun : Posixc.reactorGc P isReactor r = some r') :
    ∃ l', Exec.Returns (fun fuel => l.reactorGc P isReactor fuel) l' ∧ l'.Refines r' := by
  have hempty := listEmpty_spec h.ring
  rw [Posixc.reactorGc] at hrun
  by_cases hlist : r.gcEvents = []
  · -- the early return, on a list with nothing in it
    rw [hlist, reactorGcLoop] at hrun
    obtain rfl := Option.some.inj hrun
    refine ⟨l, ⟨0, fun fuel _ => ?_⟩, h⟩
    dsimp only
    rw [Linked.reactorGc, hempty, hlist]
    rfl
  · obtain ⟨l', hreturns, r₁, hnil, hr₁, hend⟩ :=
      forEachEntrySafe_drains (I := Linked.Draining P isReactor r')
        (fun xs l h => h.ring) (fun x xs l h => h.body) ⟨r, rfl, h, hrun⟩
    rw [List.map_eq_nil_iff.mp hnil.symm, reactorGcLoop] at hend
    obtain rfl := Option.some.inj hend
    refine ⟨l', hreturns.imp fun N hN fuel hle => ?_, hr₁⟩
    dsimp only
    rw [Linked.reactorGc, hempty, decide_eq_false (by simpa using hlist)]
    exact hN fuel hle

/-- **What the collector releases.** The list has the order in which its events were
added, when these are closing. On the reactor's thread the collector returns after it
released each of them once, in that order, and its head is linked to itself; no node
was touched after it was freed, and the list did what the sequence does. -/
theorem linkedGc_drains (h : l.Refines r)
    (hclosing : ∀ e ∈ r.gcEvents, (r.obj e).ev.closing = true) :
    (∀ e, r.Holds e → e ∉ r.gcEvents → ∃ l', l.addToGcList false e = .ok l' ∧
      l'.Refines { r with gcEvents := r.gcEvents ++ [e] }) ∧
    ∃ l' r', Exec.Returns (fun fuel => l.reactorGc P true fuel) l' ∧
      reactorGc P true r = some r' ∧ l'.Refines r' ∧
      r'.released = r.released ++ r.gcEvents ∧
      (∀ e ∈ r.gcEvents, r'.released.count e = 1 ∧ ¬ l'.nodes.Alive (.event e)) ∧
      l'.nodes .head = some ⟨some .head, some .head⟩ := by
  refine ⟨fun e hold he => h.add hold he rfl, ?_⟩
  have hlisted : ListedClosing r := fun e he => ⟨(h.listed.2 e he).1, hclosing e he⟩
  have hrun := reactorGc_reactor (P := P) hlisted
  obtain ⟨hempty, -, -, hreleased, -⟩ :=
    foldl_eventRelease_fields (P := P) r.gcEvents { r with gcEvents := [] }
  obtain ⟨l', hreturns, hl'⟩ := h.gc hrun
  refine ⟨l', _, hreturns, hrun, hl', hreleased, fun e he => ⟨?_, fun halive => ?_⟩, ?_⟩
  · -- the event is on the list once, and was not released before
    calc (r.gcEvents.foldl (eventRelease P) { r with gcEvents := [] }).released.count e
        = r.released.count e + r.gcEvents.count e := by rw [hreleased, List.count_append]
      _ = 0 + 1 := by
        rw [List.count_eq_zero_of_not_mem (h.listed.2 e he).2,
          List.count_eq_one_of_mem h.listed.1 he]
  · refine ((hl'.alive e).mp halive).2 ?_
    rw [hreleased]
    exact List.mem_append_right _ he
  · refine circular_nil.mp ?_
    simpa [hempty] using hl'.ring

/-- A reactor with two events, both of them closing and listed. -/
def linkedPair : Linked Kq where
  reactor :=
    { reactorCreate kqueue socketTable 0 with
      created := 2
      obj := fun _ => ⟨{ eventInit 3 none 0 .sockEv with closing := true }, kqueue.unregistered⟩ }
  nodes
    | .head => some ⟨some (.event 0), some (.event 1)⟩
    | .event 0 => some ⟨some (.event 1), some .head⟩
    | .event 1 => some ⟨some .head, some (.event 0)⟩
    | .event _ => none

theorem linkedGc_drains_two :
    ∃ l', Exec.Returns (fun fuel => linkedPair.reactorGc kqueue true fuel) l' ∧
      l'.reactor.released = [0, 1] ∧ l'.nodes .head = some ⟨some .head, some .head⟩ := by
  have hrefines : linkedPair.Refines { linkedPair.reactor with gcEvents := [0, 1] } := by
    refine ⟨rfl, ⟨by decide, by decide, by decide⟩, fun e => ?_⟩
    match e with
    | 0 => exact iff_of_true rfl (by decide)
    | 1 => exact iff_of_true rfl (by decide)
    | e + 2 => exact iff_of_false nofun fun hold => Nat.not_lt_of_le (Nat.le_add_left 2 e) hold.1
  obtain ⟨-, l', r', hreturns, -, hl', hreleased, -, hhead⟩ :=
    linkedGc_drains (P := kqueue) hrefines fun _ _ => rfl
  refine ⟨l', hreturns, ?_, hhead⟩
  rw [hl'.reactor]
  exact hreleased

end Posixc
