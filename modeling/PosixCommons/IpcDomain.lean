import Mathlib.Data.List.Basic
import Mathlib.Data.Option.Basic
import PosixCommons.Framework.Programs

/-!
# The sockets of a process

What the system keeps of the sockets with a path that the functions of `ipc.c` open, name and
connect: `UnixDomain`, with each of its calls.

A socket is not its descriptor: when a descriptor is closed its number is given again, to the
next socket if it is the lowest. The surroundings may close any descriptor but those that a
function has opened and not returned yet, which nobody else has (`UnixSock.returned`).

`Moves` is what a call of one thread may do to the sockets: it leaves those of the others as they
are, opens its own, takes no descriptor, and no socket loses a name or a peer. For each call of
the system a lemma says all that it can do.
-/

open Framework

namespace Posixc

/-! ### The system -/

/-- The bytes of a path, which is not empty. Paths that are written differently are different
paths. -/
abbrev SockPath := { bytes : List UInt8 // bytes ≠ [] ∧ 0 ∉ bytes }

/-- `SOCK_DGRAM` and `SOCK_STREAM`. -/
inductive SockKind
  | dgram
  | stream
deriving DecidableEq

/-- What the calls leave in `errno`. -/
inductive Errno
  | ebadf
  | enotsock
  | einval
  | emfile
  | eacces
  | eperm
  | enoent
  | eaddrinuse
  | econnrefused
  | eprototype
  | eopnotsupp
  | enotconn
  | eagain
deriving DecidableEq

/-- What a call answers. -/
abbrev Answer := Except Errno ℤ

/-- What a call returns. -/
def Answer.rv : Answer → ℤ
  | .ok n => n
  | .error _ => -1

theorem Answer.rv_error (e : Errno) : Answer.rv (.error e) = -1 := rfl

/-- A socket. `owner` is the thread that opened it, `fd` the descriptor that it got, `returned`
whether the function that opened it has returned, and `listening` whether `listen` succeeded, if
it was called. -/
structure UnixSock (T : Type) where
  kind : SockKind
  owner : T
  fd : ℤ
  isOpen : Bool
  returned : Bool
  name : Option SockPath
  listening : Option Bool
  peer : Option ℕ

/-- What a descriptor is of: a socket, or another file. -/
inductive FdUse
  | socket (id : ℕ)
  | other
deriving DecidableEq

/-- What is at a path. -/
inductive PathEntry
  | socket (id : ℕ)
  | file
  | directory
deriving DecidableEq

/-- The descriptors of the process by their numbers, the sockets that were opened, in order, what
is at the paths, and the datagrams that have come to each socket. `full` is what a `connect`
answers when a socket that listens has no room for it: `EAGAIN` on Linux, `ECONNREFUSED` on
macOS. -/
structure UnixDomain (T : Type) where
  fds : List (Option FdUse)
  opened : ℕ
  sock : ℕ → Option (UnixSock T)
  names : SockPath → Option PathEntry
  mail : ℕ → List (List UInt8)
  full : Errno

variable {T : Type}

namespace UnixDomain

/-- What a number is the descriptor of. -/
def use (d : UnixDomain T) (fd : ℤ) : Option FdUse :=
  if 0 ≤ fd then d.fds[fd.toNat]?.join else none

/-- The lowest number that is free. -/
def lowestFree (d : UnixDomain T) : ℕ := d.fds.findIdx Option.isNone

/-- The descriptors when that number is given. -/
def giveFd (d : UnixDomain T) (u : FdUse) : List (Option FdUse) :=
  if d.lowestFree < d.fds.length then d.fds.set d.lowestFree (some u) else d.fds ++ [some u]

/-- The domain with another record of a socket. -/
def setSock (d : UnixDomain T) (id : ℕ) (s : UnixSock T) : UnixDomain T :=
  { d with sock := Function.update d.sock id (some s) }

/-- The socket, if it is open. -/
def openSock (d : UnixDomain T) (id : ℕ) : Option (UnixSock T) :=
  (d.sock id).filter (·.isOpen)

/-- The socket of a descriptor. -/
def sockAt (d : UnixDomain T) (fd : ℤ) : Except Errno (ℕ × UnixSock T) :=
  match d.use fd with
  | none => .error .ebadf
  | some .other => .error .enotsock
  | some (.socket id) => match d.openSock id with
    | none => .error .ebadf
    | some s => .ok (id, s)

/-- `socket`. -/
def socket (d : UnixDomain T) (t : T) (kind : SockKind) (granted : Bool) :
    Answer × UnixDomain T :=
  if granted then
    (.ok d.lowestFree,
      { d.setSock d.opened ⟨kind, t, d.lowestFree, true, false, none, none, none⟩ with
        fds := d.giveFd (.socket d.opened), opened := d.opened + 1 })
  else (.error .emfile, d)

/-- `unlink`. -/
def unlink (d : UnixDomain T) (path : SockPath) (granted : Bool) : Answer × UnixDomain T :=
  match d.names path with
  | none => (.error .enoent, d)
  | some .directory => (.error .eperm, d)
  | some _ =>
    if granted then (.ok 0, { d with names := Function.update d.names path none })
    else (.error .eacces, d)

/-- `bind`. -/
def bind (d : UnixDomain T) (fd : ℤ) (path : SockPath) (granted : Bool) :
    Answer × UnixDomain T :=
  match d.sockAt fd with
  | .error e => (.error e, d)
  | .ok (id, s) =>
    if s.name.isSome then (.error .einval, d)
    else if (d.names path).isSome then (.error .eaddrinuse, d)
    else if granted then
      (.ok 0, { d.setSock id { s with name := some path } with
        names := Function.update d.names path (some (.socket id)) })
    else (.error .eacces, d)

/-- `listen`. -/
def listen (d : UnixDomain T) (fd : ℤ) (granted : Bool) : Answer × UnixDomain T :=
  match d.sockAt fd with
  | .error e => (.error e, d)
  | .ok (id, s) =>
    if s.kind ≠ .stream then (.error .eopnotsupp, d)
    else if s.name = none then (.error .einval, d)
    else if granted then (.ok 0, d.setSock id { s with listening := some true })
    else (.error .eacces, d.setSock id { s with listening := some (s.listening.getD false) })

/-- The socket that a `connect` of a socket of this kind comes to. -/
def target (d : UnixDomain T) (path : SockPath) (kind : SockKind) : Except Errno ℕ :=
  match d.names path with
  | none => .error .enoent
  | some (.socket id) => match d.openSock id with
    | none => .error .econnrefused
    | some s =>
      if s.kind ≠ kind then .error .eprototype
      else if kind = .stream ∧ s.listening ≠ some true then .error .econnrefused
      else .ok id
  | some _ => .error .econnrefused

/-- `connect`. A stream socket is refused where the queue is full, another socket where the path
may not be written. -/
def connect (d : UnixDomain T) (fd : ℤ) (path : SockPath) (granted : Bool) :
    Answer × UnixDomain T :=
  match d.sockAt fd with
  | .error e => (.error e, d)
  | .ok (id, s) => match d.target path s.kind with
    | .error e => (.error e, d)
    | .ok peer =>
      if granted then (.ok 0, d.setSock id { s with peer := some peer })
      else (.error (if s.kind = .stream then d.full else .eacces), d)

/-- `write` of a datagram. Another file takes what is written. -/
def write (d : UnixDomain T) (fd : ℤ) (msg : List UInt8) (granted : Bool) :
    Answer × UnixDomain T :=
  match d.sockAt fd with
  | .error e => (if e = .enotsock then .ok msg.length else .error e, d)
  | .ok (_, s) => match s.peer with
    | none => (.error .enotconn, d)
    | some peer =>
      if (d.openSock peer).isNone then (.error .econnrefused, d)
      else if granted then
        (.ok msg.length, { d with mail := Function.update d.mail peer (d.mail peer ++ [msg]) })
      else (.error .eagain, d)

/-- A descriptor is closed by who has it, or because its process ends. Nobody has one that a
function is still at. -/
def close (d : UnixDomain T) (fd : ℤ) : UnixDomain T :=
  match d.use fd with
  | none => d
  | some .other => { d with fds := d.fds.set fd.toNat none }
  | some (.socket id) => match d.sock id with
    | none => d
    | some s =>
      if s.returned then
        { d.setSock id { s with isOpen := false } with fds := d.fds.set fd.toNat none }
      else d

/-- A function of the thread returns. Whoever called it has the descriptor now. -/
def returns [DecidableEq T] (d : UnixDomain T) (t : T) : UnixDomain T :=
  { d with sock := fun id => (d.sock id).map fun s =>
      if s.owner = t then { s with returned := true } else s }

end UnixDomain

/-- The calls that are made. -/
inductive SysCall
  | socket (kind : SockKind)
  | unlink (path : SockPath)
  | bind (fd : ℤ) (path : SockPath)
  | listen (fd : ℤ)
  | connect (fd : ℤ) (path : SockPath)
  | write (fd : ℤ) (msg : List UInt8)

/-- A call of a thread. The system may refuse one that is not wrong. -/
def SysCall.perform (t : T) (c : SysCall) (granted : Bool) (d : UnixDomain T) :
    Answer × UnixDomain T :=
  match c with
  | .socket kind => d.socket t kind granted
  | .unlink path => d.unlink path granted
  | .bind fd path => d.bind fd path granted
  | .listen fd => d.listen fd granted
  | .connect fd path => d.connect fd path granted
  | .write fd msg => d.write fd msg granted

/-! ### What one thread does to the sockets -/

namespace UnixSock

/-- What becomes of a socket: its name and its peer stay once they are set. -/
structure Grows (s s' : UnixSock T) : Prop where
  kind : s'.kind = s.kind
  owner : s'.owner = s.owner
  fd : s'.fd = s.fd
  name : ∀ path, s.name = some path → s'.name = some path
  peer : ∀ id, s.peer = some id → s'.peer = some id

theorem Grows.refl (s : UnixSock T) : s.Grows s := ⟨rfl, rfl, rfl, fun _ => id, fun _ => id⟩

theorem Grows.trans {s₁ s₂ s₃ : UnixSock T} (h : s₁.Grows s₂) (h' : s₂.Grows s₃) : s₁.Grows s₃ :=
  ⟨h'.kind.trans h.kind, h'.owner.trans h.owner, h'.fd.trans h.fd,
    fun n hn => h'.name n (h.name n hn), fun id hid => h'.peer id (h.peer id hid)⟩

/-- A stream socket that has a name and waits for its `listen`. -/
def Unlistened (s : UnixSock T) : Prop :=
  s.isOpen = true ∧ s.kind = .stream ∧ s.name.isSome ∧ s.listening = none

end UnixSock

namespace UnixDomain

/-- Every socket was opened, a descriptor of a socket is the one that it got, and a path with a
socket is its name. -/
structure Sound (d : UnixDomain T) : Prop where
  given : ∀ id s, d.sock id = some s → id < d.opened
  used : ∀ fd id, d.use fd = some (.socket id) →
    ∃ s, d.sock id = some s ∧ s.fd = fd ∧ s.isOpen = true
  named : ∀ path id, d.names path = some (.socket id) →
    ∃ s, d.sock id = some s ∧ s.name = some path

/-- What a thread does: it leaves the sockets of others as they are, what it opens is its own,
and it closes nothing. -/
structure Moves (t : T) (d d' : UnixDomain T) : Prop where
  others : ∀ id s, d.sock id = some s → s.owner ≠ t → d'.sock id = some s
  own : ∀ id s, d.sock id = some s →
    ∃ s', d'.sock id = some s' ∧ s.Grows s' ∧ s'.isOpen = s.isOpen
  new : ∀ id s', d'.sock id = some s' → d.sock id = none → s'.owner = t
  used : ∀ fd u, d.use fd = some u → d'.use fd = some u
  sound : d.Sound → d'.Sound

variable {d d' : UnixDomain T} {t : T} {fd : ℤ} {id : ℕ} {s s' : UnixSock T} {path : SockPath}
  {kind : SockKind} {granted : Bool} {a : Answer} {msg : List UInt8}

@[simp] theorem setSock_sock (d : UnixDomain T) (id : ℕ) (s : UnixSock T) :
    (d.setSock id s).sock = Function.update d.sock id (some s) := rfl

@[simp] theorem setSock_names (d : UnixDomain T) (id : ℕ) (s : UnixSock T) :
    (d.setSock id s).names = d.names := rfl

theorem openSock_eq_some : d.openSock id = some s ↔ d.sock id = some s ∧ s.isOpen = true :=
  Option.filter_eq_some_iff

theorem sockAt_eq_ok : d.sockAt fd = .ok (id, s) ↔
    d.use fd = some (.socket id) ∧ d.sock id = some s ∧ s.isOpen = true := by
  rw [← openSock_eq_some, sockAt]
  constructor
  · intro h
    split at h
    · cases h
    · cases h
    · next i huse =>
      split at h
      · cases h
      · next r hr =>
        obtain ⟨rfl, rfl⟩ := Prod.mk.inj (Except.ok.inj h)
        exact ⟨huse, hr⟩
  · rintro ⟨huse, hs⟩
    rw [huse]
    dsimp only
    rw [hs]

theorem sockAt_congr (huse : ∀ fd, d'.use fd = d.use fd) (hsock : d'.sock = d.sock) (fd : ℤ) :
    d'.sockAt fd = d.sockAt fd := by
  simp only [sockAt, openSock, huse, hsock]

/-- A descriptor is no negative number. -/
theorem use_nonneg {u : FdUse} (h : d.use fd = some u) : 0 ≤ fd := by
  unfold use at h
  split_ifs at h with hfd
  exact hfd

/-! ### Numbers that are given again -/

theorem use_lowestFree (d : UnixDomain T) : d.use d.lowestFree = none := by
  rw [use, if_pos (Int.natCast_nonneg _), Int.toNat_natCast]
  cases hlt : d.fds[d.lowestFree]? with
  | none => rfl
  | some u =>
    -- the number was found because it is free
    obtain ⟨hlen, hu⟩ := List.getElem?_eq_some_iff.mp hlt
    have hfree : (d.fds[d.lowestFree]).isNone = true := List.findIdx_getElem (w := hlen)
    rw [hu, Option.isNone_iff_eq_none] at hfree
    rw [hfree]
    rfl

/-- No number below it is free. -/
theorem use_of_lt_lowestFree {n : ℕ} (h : n < d.lowestFree) : ∃ u, d.use n = some u := by
  have hlen : n < d.fds.length := h.trans_le List.findIdx_le_length
  have hused := List.not_of_lt_findIdx h
  rw [Option.isNone_eq_false_iff, Option.isSome_iff_exists] at hused
  obtain ⟨u, hu⟩ := hused
  refine ⟨u, ?_⟩
  rw [use, if_pos (Int.natCast_nonneg _), Int.toNat_natCast, List.getElem?_eq_getElem hlen, hu]
  rfl

/-- The number is given, and the others stay as they are. -/
theorem use_giveFd (u : FdUse) (fd : ℤ) : use { d with fds := d.giveFd u } fd =
    if fd = d.lowestFree then some u else d.use fd := by
  by_cases hneg : 0 ≤ fd
  swap
  · have hne : fd ≠ d.lowestFree := by
      have := Int.natCast_nonneg d.lowestFree
      omega
    rw [use, use, if_neg hneg, if_neg hneg, if_neg hne]
  obtain ⟨n, rfl⟩ := Int.eq_ofNat_of_zero_le hneg
  have hlen : d.lowestFree ≤ d.fds.length := List.findIdx_le_length
  rw [use, use, if_pos hneg, if_pos hneg]
  dsimp only
  rw [Int.toNat_natCast, giveFd]
  simp only [Int.natCast_inj]
  split_ifs with hlt hn hn
  · rw [hn, List.getElem?_set_self hlt]
    rfl
  · rw [List.getElem?_set_ne (Ne.symm hn)]
  · -- every number below was in use, so the list grows by this one
    have hlast : n = d.fds.length := by omega
    rw [hlast, List.getElem?_concat_length]
    rfl
  · have hne : n ≠ d.fds.length := by omega
    rw [List.getElem?_append]
    split_ifs with hshort
    · rfl
    · have hlong : ¬ n < d.fds.length := hshort
      rw [List.getElem?_eq_none (by simp; omega), List.getElem?_eq_none (by omega)]

/-- A number is free after it was closed, and the others stay as they are. -/
theorem use_set_none (hfd : 0 ≤ fd) (fd' : ℤ) :
    use { d with fds := d.fds.set fd.toNat none } fd' = if fd' = fd then none else d.use fd' := by
  rw [use, use]
  dsimp only
  by_cases hneg : 0 ≤ fd'
  swap
  · rw [if_neg hneg]
    split_ifs <;> rfl
  rw [if_pos hneg, if_pos hneg]
  by_cases heq : fd' = fd
  · subst heq
    rw [if_pos rfl, List.getElem?_set, if_pos rfl]
    split_ifs <;> rfl
  · have hne : fd.toNat ≠ fd'.toNat := by omega
    rw [if_neg heq, List.getElem?_set_ne hne]

/-! ### Moves -/

/-- What is known of the old records is known of the new ones, and what is new at a path or a
number is a socket that has the name or the descriptor. -/
theorem Sound.of_grows (h : d.Sound) (hgiven : ∀ i r, d'.sock i = some r → i < d'.opened)
    (hrecord : ∀ i r, d.sock i = some r → ∃ r', d'.sock i = some r' ∧ r.Grows r' ∧
      r'.isOpen = r.isOpen)
    (huse : ∀ fd i, d'.use fd = some (.socket i) → d.use fd = some (.socket i) ∨
      ∃ r, d'.sock i = some r ∧ r.fd = fd ∧ r.isOpen = true)
    (hnames : ∀ path i, d'.names path = some (.socket i) → d.names path = some (.socket i) ∨
      ∃ r, d'.sock i = some r ∧ r.name = some path) : d'.Sound := by
  refine ⟨hgiven, fun fd i hfd => ?_, fun path i hpath => ?_⟩
  · rcases huse fd i hfd with hold | hnew
    · obtain ⟨r, hr, hrfd, hopen⟩ := h.used fd i hold
      obtain ⟨r', hr', hgrows, hopen'⟩ := hrecord i r hr
      exact ⟨r', hr', hgrows.fd.trans hrfd, hopen'.trans hopen⟩
    · exact hnew
  · rcases hnames path i hpath with hold | hnew
    · obtain ⟨r, hr, hname⟩ := h.named path i hold
      obtain ⟨r', hr', hgrows, -⟩ := hrecord i r hr
      exact ⟨r', hr', hgrows.name path hname⟩
    · exact hnew

/-- Sockets are not touched, and no path or number gets a socket. -/
theorem Moves.of_sock_eq (hopened : d'.opened = d.opened) (hsock : d'.sock = d.sock)
    (huse : ∀ fd, d'.use fd = d.use fd)
    (hnames : ∀ path id, d'.names path = some (.socket id) → d.names path = some (.socket id)) :
    Moves t d d' := by
  have hrecord : ∀ i r, d.sock i = some r → ∃ r', d'.sock i = some r' ∧ r.Grows r' ∧
      r'.isOpen = r.isOpen := fun i r hr => ⟨r, hsock ▸ hr, .refl r, rfl⟩
  refine ⟨fun i r hr _ => hsock ▸ hr, hrecord, fun i r hr hnone => ?_,
    fun fd u hu => (huse fd).trans hu, fun h => h.of_grows (fun i r hr => ?_) hrecord
      (fun fd i hfd => .inl ((huse fd).symm.trans hfd)) fun n i hn => .inl (hnames n i hn)⟩
  · rw [hsock, hnone] at hr
    cases hr
  · rw [hopened]
    exact h.given i r (hsock ▸ hr)

theorem Moves.refl (t : T) (d : UnixDomain T) : Moves t d d :=
  .of_sock_eq rfl rfl (fun _ => rfl) fun _ _ h => h

/-- A socket of the thread gets another record, and a path may get the socket. -/
theorem Moves.of_update (hopened : d'.opened = d.opened)
    (hsock : d'.sock = Function.update d.sock id (some s')) (huse : ∀ fd, d'.use fd = d.use fd)
    (hs : d.sock id = some s) (howner : s.owner = t) (hgrows : s.Grows s')
    (hopen : s'.isOpen = s.isOpen)
    (hnames : ∀ path i, d'.names path = some (.socket i) →
      d.names path = some (.socket i) ∨ i = id ∧ s'.name = some path) : Moves t d d' := by
  have hself : d'.sock id = some s' := by rw [hsock, Function.update_self]
  have hother : ∀ i, i ≠ id → d'.sock i = d.sock i := fun i hi => by
    rw [hsock, Function.update_of_ne hi]
  have hrecord : ∀ i r, d.sock i = some r → ∃ r', d'.sock i = some r' ∧ r.Grows r' ∧
      r'.isOpen = r.isOpen := by
    intro i r hr
    by_cases hi : i = id
    · subst hi
      obtain rfl := Option.some.inj (hs.symm.trans hr)
      exact ⟨s', hself, hgrows, hopen⟩
    · exact ⟨r, (hother i hi).trans hr, .refl r, rfl⟩
  -- every socket that there is was there before
  have hback : ∀ i r, d'.sock i = some r → ∃ r₀, d.sock i = some r₀ := by
    intro i r hr
    by_cases hi : i = id
    · exact ⟨s, hi ▸ hs⟩
    · exact ⟨r, (hother i hi).symm.trans hr⟩
  refine ⟨fun i r hr hne => ?_, hrecord, fun i r hr hnone => ?_,
    fun fd u hu => (huse fd).trans hu, fun h => h.of_grows (fun i r hr => ?_) hrecord
      (fun fd i hfd => .inl ((huse fd).symm.trans hfd)) fun n i hn => ?_⟩
  · -- the socket is the thread's own
    have hi : i ≠ id := by
      rintro rfl
      obtain rfl := Option.some.inj (hs.symm.trans hr)
      exact hne howner
    exact (hother i hi).trans hr
  · obtain ⟨r₀, hr₀⟩ := hback i r hr
    rw [hr₀] at hnone
    cases hnone
  · obtain ⟨r₀, hr₀⟩ := hback i r hr
    rw [hopened]
    exact h.given i r₀ hr₀
  · exact (hnames n i hn).imp_right fun ⟨hi, hname⟩ => ⟨s', hi ▸ hself, hname⟩

/-! ### Every call -/

theorem socket_cases (h : d.socket t kind granted = (a, d')) :
    (a.rv = -1 ∧ granted = false ∧ d' = d) ∨ (a = .ok d.lowestFree ∧
      d' = { d.setSock d.opened ⟨kind, t, d.lowestFree, true, false, none, none, none⟩ with
        fds := d.giveFd (.socket d.opened), opened := d.opened + 1 }) := by
  cases granted with
  | false =>
    obtain ⟨rfl, rfl⟩ := Prod.mk.inj h
    exact .inl ⟨rfl, rfl, rfl⟩
  | true =>
    obtain ⟨rfl, rfl⟩ := Prod.mk.inj h
    exact .inr ⟨rfl, rfl⟩

/-- A `socket` that is granted takes nobody's descriptor, and in a domain that is sound nobody's
socket. -/
theorem socket_granted (d : UnixDomain T) (t : T) (kind : SockKind) :
    ∃ d', d.socket t kind true = (.ok d.lowestFree, d') ∧
      d'.sockAt d.lowestFree =
        .ok (d.opened, ⟨kind, t, d.lowestFree, true, false, none, none, none⟩) ∧
      (∀ fd i r, i ≠ d.opened → d.sockAt fd = .ok (i, r) → d'.sockAt fd = .ok (i, r)) ∧
      d'.opened = d.opened + 1 ∧ d'.names = d.names ∧ (d.Sound → Moves t d d') := by
  set new : UnixSock T := ⟨kind, t, d.lowestFree, true, false, none, none, none⟩ with hnew
  set d₁ : UnixDomain T := { d.setSock d.opened new with
    fds := d.giveFd (.socket d.opened), opened := d.opened + 1 } with hd₁
  have hsock : d₁.sock = Function.update d.sock d.opened (some new) := rfl
  have huse : ∀ fd, d₁.use fd = if fd = d.lowestFree then some (.socket d.opened)
      else d.use fd := fun fd => use_giveFd (.socket d.opened) fd
  have hnewSock : d₁.sock d.opened = some new := by rw [hsock, Function.update_self]
  have holdUse : ∀ fd u, d.use fd = some u → d₁.use fd = some u := by
    intro fd u hu
    have hfd : fd ≠ d.lowestFree := by
      rintro rfl
      rw [use_lowestFree] at hu
      cases hu
    rw [huse, if_neg hfd, hu]
  refine ⟨d₁, rfl, sockAt_eq_ok.mpr ⟨?_, hnewSock, rfl⟩, fun fd i r hi hr => ?_, rfl, rfl,
    fun hsound => ?_⟩
  · rw [huse, if_pos rfl]
  · obtain ⟨hfd, hs, hopen⟩ := sockAt_eq_ok.mp hr
    exact sockAt_eq_ok.mpr ⟨holdUse fd _ hfd, by rw [hsock, Function.update_of_ne hi, hs], hopen⟩
  -- no socket was opened with this number
  have hnone : d.sock d.opened = none := by
    rw [Option.eq_none_iff_forall_ne_some]
    intro s hs
    exact absurd (hsound.given _ s hs) (Nat.lt_irrefl _)
  have holdSock : ∀ i r, d.sock i = some r → d₁.sock i = some r := by
    intro i r hr
    have hi : i ≠ d.opened := by
      rintro rfl
      rw [hnone] at hr
      cases hr
    rw [hsock, Function.update_of_ne hi, hr]
  have hrecord : ∀ i r, d.sock i = some r → ∃ r', d₁.sock i = some r' ∧ r.Grows r' ∧
      r'.isOpen = r.isOpen := fun i r hr => ⟨r, holdSock i r hr, .refl r, rfl⟩
  refine ⟨fun i r hr _ => holdSock i r hr, hrecord, fun i r hr hi => ?_, holdUse,
    fun _ => hsound.of_grows (fun i r hr => ?_) hrecord (fun fd i hfd => ?_) fun _ _ => .inl⟩
  · rw [hsock] at hr
    by_cases hopened : i = d.opened
    · rw [hopened, Function.update_self] at hr
      rw [← Option.some.inj hr]
    · rw [Function.update_of_ne hopened, hi] at hr
      cases hr
  · change i < d.opened + 1
    by_cases hopened : i = d.opened
    · omega
    · rw [hsock, Function.update_of_ne hopened] at hr
      have hlt := hsound.given i r hr
      omega
  · rw [huse] at hfd
    split_ifs at hfd with hlowest
    · obtain rfl := FdUse.socket.inj (Option.some.inj hfd)
      exact .inr ⟨new, hnewSock, hlowest.symm, rfl⟩
    · exact .inl hfd

theorem unlink_cases (h : d.unlink path granted = (a, d')) :
    d' = d ∧ (granted = true → d.names path = none ∨ d.names path = some .directory) ∨
      d' = { d with names := Function.update d.names path none } ∧
        d.names path ≠ some .directory := by
  unfold unlink at h
  split at h
  · next hnone =>
    obtain ⟨-, rfl⟩ := Prod.mk.inj h
    exact .inl ⟨rfl, fun _ => .inl hnone⟩
  · next hdir =>
    obtain ⟨-, rfl⟩ := Prod.mk.inj h
    exact .inl ⟨rfl, fun _ => .inr hdir⟩
  · next e hdir he =>
    split_ifs at h with hg
    · obtain ⟨-, rfl⟩ := Prod.mk.inj h
      exact .inr ⟨rfl, fun hpath => hdir (Option.some.inj (he.symm.trans hpath))⟩
    · obtain ⟨-, rfl⟩ := Prod.mk.inj h
      exact .inl ⟨rfl, fun hgranted => absurd hgranted hg⟩

theorem bind_cases (h : d.bind fd path granted = (a, d')) :
    (a.rv = -1 ∧ d' = d) ∨ ∃ id s, a = .ok 0 ∧ d.sockAt fd = .ok (id, s) ∧ s.name = none ∧
      d.names path = none ∧ d' = { d.setSock id { s with name := some path } with
        names := Function.update d.names path (some (.socket id)) } := by
  unfold bind at h
  split at h
  · obtain ⟨rfl, rfl⟩ := Prod.mk.inj h
    exact .inl ⟨rfl, rfl⟩
  · next id s hs =>
    split_ifs at h with hname hpath hg
    · obtain ⟨rfl, rfl⟩ := Prod.mk.inj h
      exact .inl ⟨rfl, rfl⟩
    · obtain ⟨rfl, rfl⟩ := Prod.mk.inj h
      exact .inl ⟨rfl, rfl⟩
    · obtain ⟨rfl, rfl⟩ := Prod.mk.inj h
      exact .inr ⟨id, s, rfl, hs, Option.not_isSome_iff_eq_none.mp hname,
        Option.not_isSome_iff_eq_none.mp hpath, rfl⟩
    · obtain ⟨rfl, rfl⟩ := Prod.mk.inj h
      exact .inl ⟨rfl, rfl⟩

theorem bind_taken (hs : d.sockAt fd = .ok (id, s)) (hname : s.name = none) {e : PathEntry}
    (hpath : d.names path = some e) : d.bind fd path granted = (.error .eaddrinuse, d) := by
  simp [bind, hs, hname, hpath]

theorem bind_free (hs : d.sockAt fd = .ok (id, s)) (hname : s.name = none)
    (hpath : d.names path = none) : d.bind fd path true =
      (.ok 0, { d.setSock id { s with name := some path } with
        names := Function.update d.names path (some (.socket id)) }) := by
  simp [bind, hs, hname, hpath]

/-- Of two sockets that are bound to a free path the second is refused. -/
theorem bind_twice {fd' : ℤ} {id' : ℕ} (hid : id ≠ id') (hs : d.sockAt fd = .ok (id, s))
    (hname : s.name = none) (hs' : d.sockAt fd' = .ok (id', s')) (hname' : s'.name = none)
    (hpath : d.names path = none) :
    ∃ d', d.bind fd path true = (.ok 0, d') ∧
      d'.bind fd' path true = (.error .eaddrinuse, d') := by
  obtain ⟨huse', hsock', hopen'⟩ := sockAt_eq_ok.mp hs'
  -- the second socket is as it was
  have hother : ({ d.setSock id { s with name := some path } with
      names := Function.update d.names path (some (.socket id)) } : UnixDomain T).sock id' =
      some s' := (Function.update_of_ne hid.symm _ _).trans hsock'
  exact ⟨_, bind_free hs hname hpath, bind_taken (sockAt_eq_ok.mpr ⟨huse', hother, hopen'⟩)
    hname' (Function.update_self _ _ _)⟩

theorem listen_cases (h : d.listen fd granted = (a, d')) :
    (a.rv = -1 ∧ d' = d ∧
        ∀ id s, d.sockAt fd = .ok (id, s) → s.kind ≠ .stream ∨ s.name = none) ∨
      ∃ id s b, d.sockAt fd = .ok (id, s) ∧ d' = d.setSock id { s with listening := some b } ∧
        (a.rv = -1 ∨ a.rv = 0 ∧ b = true) := by
  unfold listen at h
  split at h
  · next e he =>
    obtain ⟨rfl, rfl⟩ := Prod.mk.inj h
    refine .inl ⟨rfl, rfl, fun id s hs => ?_⟩
    rw [he] at hs
    cases hs
  · next id s hs =>
    split_ifs at h with hkind hname hg
    · obtain ⟨rfl, rfl⟩ := Prod.mk.inj h
      refine .inl ⟨rfl, rfl, fun i r hr => .inl ?_⟩
      obtain ⟨rfl, rfl⟩ := Prod.mk.inj (Except.ok.inj (hs.symm.trans hr))
      exact hkind
    · obtain ⟨rfl, rfl⟩ := Prod.mk.inj h
      refine .inl ⟨rfl, rfl, fun i r hr => .inr ?_⟩
      obtain ⟨rfl, rfl⟩ := Prod.mk.inj (Except.ok.inj (hs.symm.trans hr))
      exact hname
    · obtain ⟨rfl, rfl⟩ := Prod.mk.inj h
      exact .inr ⟨id, s, true, hs, rfl, .inr ⟨rfl, rfl⟩⟩
    · -- a `listen` that is refused is remembered
      obtain ⟨rfl, rfl⟩ := Prod.mk.inj h
      exact .inr ⟨id, s, _, hs, rfl, .inl rfl⟩

/-- The socket that a `connect` comes to has the path for its name. -/
theorem target_eq_ok (h : d.target path kind = .ok id) :
    d.names path = some (.socket id) ∧ ∃ s, d.openSock id = some s ∧ s.kind = kind ∧
      (kind = .stream → s.listening = some true) := by
  unfold target at h
  split at h
  · cases h
  · next i hpath =>
    split at h
    · cases h
    · next s hs =>
      split_ifs at h with hkind hlisten
      obtain rfl := Except.ok.inj h
      exact ⟨hpath, s, hs, not_not.mp hkind, fun hstream =>
        not_not.mp fun hnot => hlisten ⟨hstream, hnot⟩⟩
  · cases h

theorem connect_cases (h : d.connect fd path granted = (a, d')) :
    (a.rv = -1 ∧ d' = d) ∨ ∃ id s peer, a = .ok 0 ∧ d.sockAt fd = .ok (id, s) ∧
      d.target path s.kind = .ok peer ∧ d' = d.setSock id { s with peer := some peer } := by
  unfold connect at h
  split at h
  · obtain ⟨rfl, rfl⟩ := Prod.mk.inj h
    exact .inl ⟨rfl, rfl⟩
  · next id s hs =>
    split at h
    · obtain ⟨rfl, rfl⟩ := Prod.mk.inj h
      exact .inl ⟨rfl, rfl⟩
    · next peer hpeer =>
      split_ifs at h
      all_goals obtain ⟨rfl, rfl⟩ := Prod.mk.inj h
      · exact .inr ⟨id, s, peer, rfl, hs, hpeer, rfl⟩
      all_goals exact .inl ⟨rfl, rfl⟩

theorem write_cases (h : d.write fd msg granted = (a, d')) :
    d' = d ∨ ∃ id s peer, d.sockAt fd = .ok (id, s) ∧ s.peer = some peer ∧
      (d.openSock peer).isSome ∧
      d' = { d with mail := Function.update d.mail peer (d.mail peer ++ [msg]) } := by
  unfold write at h
  split at h
  · exact .inl (Prod.mk.inj h).2.symm
  · next id s hs =>
    split at h
    · exact .inl (Prod.mk.inj h).2.symm
    · next peer hpeer =>
      split_ifs at h with hnone hg
      · exact .inl (Prod.mk.inj h).2.symm
      · refine .inr ⟨id, s, peer, hs, hpeer, ?_, (Prod.mk.inj h).2.symm⟩
        rw [Option.isNone_iff_eq_none] at hnone
        exact Option.isSome_iff_ne_none.mpr hnone
      · exact .inl (Prod.mk.inj h).2.symm

/-! ### What others do besides -/

/-- What a `close` leaves: the sockets of functions at work with their descriptors, and of any
other socket all but that it is open. -/
structure Closes (fd : ℤ) (d d' : UnixDomain T) : Prop where
  sock : ∀ i r, d.sock i = some r → d'.sock i = some r ∨ r.returned = true ∧
    d.use fd = some (.socket i) ∧ d'.use fd = none ∧ d'.sock i = some { r with isOpen := false }
  back : ∀ i r', d'.sock i = some r' → ∃ r, d.sock i = some r
  others : ∀ fd', fd' ≠ fd → d'.use fd' = d.use fd'
  used : ∀ u, d'.use fd = some u → d.use fd = some u
  busy : ∀ i r, d.use fd = some (.socket i) → d.sock i = some r → r.returned = false → d' = d
  names : d'.names = d.names
  opened : d'.opened = d.opened

theorem Closes.refl (fd : ℤ) (d : UnixDomain T) : Closes fd d d :=
  ⟨fun _ _ h => .inl h, fun _ r h => ⟨r, h⟩, fun _ _ => rfl, fun _ h => h,
    fun _ _ _ _ _ => rfl, rfl, rfl⟩

theorem Closes.grows (h : Closes fd d d') (hs : d.sock id = some s) :
    ∃ s', d'.sock id = some s' ∧ s.Grows s' := by
  rcases h.sock id s hs with hsame | ⟨-, -, -, hclosed⟩
  · exact ⟨s, hsame, .refl s⟩
  · exact ⟨_, hclosed, rfl, rfl, rfl, fun _ h => h, fun _ h => h⟩

theorem Closes.sound (h : Closes fd d d') (hd : d.Sound) : d'.Sound := by
  refine ⟨fun i r hr => ?_, fun fd' i hfd' => ?_, fun p i hp => ?_⟩
  · obtain ⟨r₀, hr₀⟩ := h.back i r hr
    rw [h.opened]
    exact hd.given i r₀ hr₀
  · have hused : d.use fd' = some (.socket i) := by
      by_cases hfd : fd' = fd
      · rw [hfd] at hfd' ⊢
        exact h.used _ hfd'
      · rwa [h.others fd' hfd] at hfd'
    obtain ⟨r, hr, hrfd, hopen⟩ := hd.used fd' i hused
    rcases h.sock i r hr with hsame | ⟨-, hclosed, hfree, -⟩
    · exact ⟨r, hsame, hrfd, hopen⟩
    · -- a socket that is closed had one descriptor, which is free now
      obtain ⟨r₀, hr₀, hr₀fd, -⟩ := hd.used fd i hclosed
      obtain rfl := Option.some.inj (hr.symm.trans hr₀)
      rw [← hrfd, hr₀fd, hfree] at hfd'
      cases hfd'
  · rw [h.names] at hp
    obtain ⟨r, hr, hname⟩ := hd.named p i hp
    obtain ⟨r', hr', hgrows⟩ := h.grows hr
    exact ⟨r', hr', hgrows.name p hname⟩

theorem close_leaves (d : UnixDomain T) (fd : ℤ) : Closes fd d (d.close fd) := by
  unfold close
  split
  · exact .refl fd d
  · next hfd =>
    refine ⟨fun _ _ h => .inl h, fun _ r h => ⟨r, h⟩, fun fd' hne => ?_, fun u hu => ?_,
      fun i r huse => ?_, rfl, rfl⟩
    · rw [use_set_none (use_nonneg hfd), if_neg hne]
    · rw [use_set_none (use_nonneg hfd), if_pos rfl] at hu
      cases hu
    · cases hfd.symm.trans huse
  · next id hfd =>
    split
    · exact .refl fd d
    next s hs =>
    split_ifs with hreturned
    · have huse : ∀ fd', ({ d.setSock id { s with isOpen := false } with
          fds := d.fds.set fd.toNat none } : UnixDomain T).use fd' =
          if fd' = fd then none else d.use fd' := use_set_none (use_nonneg hfd)
      refine ⟨fun i r hr => ?_, fun i r hr => ?_, fun fd' hne => ?_, fun u hu => ?_,
        fun i r hi hr hnot => ?_, rfl, rfl⟩
      · by_cases hi : i = id
        · subst hi
          obtain rfl := Option.some.inj (hs.symm.trans hr)
          exact .inr ⟨hreturned, hfd, (huse fd).trans (if_pos rfl), Function.update_self _ _ _⟩
        · exact .inl ((Function.update_of_ne hi _ _).trans hr)
      · by_cases hi : i = id
        · exact ⟨s, hi ▸ hs⟩
        · exact ⟨r, (Function.update_of_ne hi _ _).symm.trans hr⟩
      · rw [huse, if_neg hne]
      · rw [huse, if_pos rfl] at hu
        cases hu
      · -- the socket of a function at work is not closed
        obtain rfl := FdUse.socket.inj (Option.some.inj (hfd.symm.trans hi))
        obtain rfl := Option.some.inj (hs.symm.trans hr)
        cases hreturned.symm.trans hnot
    · exact .refl fd d

/-- What is known of a socket when a function of the thread has returned. -/
theorem returns_sock [DecidableEq T] (d : UnixDomain T) (t : T) (id : ℕ) :
    (d.returns t).sock id = (d.sock id).map fun s =>
      if s.owner = t then { s with returned := true } else s := rfl

/-- A function that returns changes nothing of the sockets but who may have them. -/
theorem returns_moves [DecidableEq T] (d : UnixDomain T) (t : T) : Moves t d (d.returns t) := by
  have hgrows : ∀ i r, d.sock i = some r → ∃ r', (d.returns t).sock i = some r' ∧ r.Grows r' ∧
      r'.isOpen = r.isOpen := by
    intro i r hr
    rw [returns_sock, hr]
    refine ⟨_, rfl, ?_⟩
    dsimp only
    split_ifs
    · exact ⟨⟨rfl, rfl, rfl, fun _ => id, fun _ => id⟩, rfl⟩
    · exact ⟨.refl r, rfl⟩
  refine ⟨fun i r hr hne => ?_, hgrows, fun i r hr hnone => ?_, fun _ _ h => h,
    fun h => h.of_grows (fun i r hr => ?_) hgrows (fun _ _ => .inl) fun _ _ => .inl⟩
  · rw [returns_sock, hr]
    exact congrArg some (if_neg hne)
  · rw [returns_sock, hnone] at hr
    cases hr
  · rw [returns_sock, Option.map_eq_some_iff] at hr
    obtain ⟨r₀, hr₀, -⟩ := hr
    exact h.given i r₀ hr₀

end UnixDomain

end Posixc
