import PosixCommons.IpcSockets

/-!
# Threads that open sockets

The functions of `ipc.c` in the company of other threads. `ipcContract` is what a thread can
rely on, and guarantees, at each of its calls. What makes the contracts fit together is that a
descriptor comes to be known when its function returns, so that nobody else acts on a socket that
a function is still at, or closes it, and its number is not given to another. The rules of calls
then need an assertion for each place of a function (`Clean`, `Mine`, `Named`).

From the discipline of all threads come what a descriptor is that a function returns
(`ipc_returns`), what the answer of `posixc_ipc_usockpath_already_used` says (`ipc_probe_false`),
and that a client stays with the server that it found (`ipc_clients_stay`).
-/

open Framework

namespace Posixc

open UnixDomain

variable {T : Type} [DecidableEq T] {size : ℕ+}

/-! ### What the threads guarantee each other -/

/-- The sockets of a thread that has no call of `posixc_ipc_nonblock_stream_socket`. -/
structure Clean (t : T) (d : UnixDomain T) : Prop where
  sound : d.Sound
  listened : ∀ id s, d.sock id = some s → s.owner = t → ¬ s.Unlistened

/-- A descriptor that a function of the thread has opened and not returned yet, and what is known
of its socket. -/
def Mine (t : T) (fd : ℤ) (φ : UnixSock T → Prop) (d : UnixDomain T) : Prop :=
  ∃ id s, d.use fd = some (.socket id) ∧ d.sock id = some s ∧ s.owner = t ∧
    s.returned = false ∧ s.isOpen = true ∧ φ s

/-- A datagram socket that was given a name. -/
def NamedDgram (id : ℕ) (path : SockPath) (d : UnixDomain T) : Prop :=
  ∃ s, d.sock id = some s ∧ s.kind = .dgram ∧ s.name = some path

/-- A socket that nothing was done with. -/
def UnixSock.Blank (kind : SockKind) (s : UnixSock T) : Prop :=
  s.kind = kind ∧ s.name = none ∧ s.peer = none ∧ s.listening = none

/-- While a thread is at a call, the sockets that it has bound and not listened on are those of
`posixc_ipc_nonblock_stream_socket`, with its path. -/
structure AtCall (size : ℕ+) (t : T) (job : IpcJob) (d : UnixDomain T) : Prop where
  sound : d.Sound
  unlistened : ∀ id s, d.sock id = some s → s.owner = t → s.Unlistened →
    ∃ usockpath, job = .nonblockStreamSocket usockpath ∧ s.name = some (sunPath size usockpath)

/-- What a function returns. -/
def Returned (size : ℕ+) (t : T) : IpcJob → ℤ → UnixDomain T → Prop
  | .dgramSocket usockpath, r, d => r = -1 ∨
      Mine t r (fun s => s.kind = .dgram ∧ s.name = some (sunPath size usockpath)) d
  | .nonblockStreamSocket usockpath, r, d => r = -1 ∨
      Mine t r (fun s => s.kind = .stream ∧ s.name = some (sunPath size usockpath) ∧
        s.listening = some true) d
  | .connectDgram usockpath, r, d => r = -1 ∨ ∃ id,
      Mine t r (fun s => s.kind = .dgram ∧ s.peer = some id) d ∧
        NamedDgram id (sunPath size usockpath) d
  | .usockpathAlreadyUsed _, r, _ => r = 0 ∨ r = 1
  | .sendDgram _ _, r, _ => r = 0

/-- The contract of a thread at a call. -/
def ipcContract (size : ℕ+) (t : T) (job : IpcJob) : Contract ℤ (UnixDomain T) :=
  ⟨(ipc T size).others Moves t, Moves t, AtCall size t job,
    fun r d => Clean t d ∧ Returned size t job r d⟩

section Stable

variable {d d' : UnixDomain T} {t : T} {fd : ℤ} {id : ℕ} {s s' : UnixSock T}
  {φ : UnixSock T → Prop} {path : SockPath}

/-- What the others leave of a socket, whoever has it. -/
theorem others_grows (h : (ipc T size).others Moves t d d') (hs : d.sock id = some s) :
    ∃ s', d'.sock id = some s' ∧ s.Grows s' := by
  rcases h with ⟨u, -, hmoves⟩ | ⟨fd, rfl⟩
  · obtain ⟨s', hs', hgrows, -⟩ := hmoves.own id s hs
    exact ⟨s', hs', hgrows⟩
  · exact (close_leaves d fd).grows hs

theorem others_sound (h : (ipc T size).others Moves t d d') (hd : d.Sound) : d'.Sound := by
  rcases h with ⟨u, -, hmoves⟩ | ⟨fd, rfl⟩
  · exact hmoves.sound hd
  · exact (close_leaves d fd).sound hd

/-- The others leave a descriptor that the thread has not returned, with its socket. -/
theorem others_mine (h : (ipc T size).others Moves t d d') (huse : d.use fd = some (.socket id))
    (hs : d.sock id = some s) (ht : s.owner = t) (hreturned : s.returned = false) :
    d'.use fd = some (.socket id) ∧ d'.sock id = some s := by
  rcases h with ⟨u, hu, hmoves⟩ | ⟨fd', rfl⟩
  · exact ⟨hmoves.used fd _ huse, hmoves.others id s hs (ht ▸ Ne.symm hu)⟩
  · have hcloses : Closes fd' d ((ipc T size).disturb fd' d) := close_leaves d fd'
    by_cases hfd : fd = fd'
    · -- nobody has the descriptor who could close it
      subst hfd
      rw [hcloses.busy id s huse hs hreturned]
      exact ⟨huse, hs⟩
    · refine ⟨(hcloses.others fd hfd).trans huse, (hcloses.sock id s hs).resolve_right ?_⟩
      rintro ⟨hclosed, -⟩
      cases hreturned.symm.trans hclosed

/-- The others open no socket for the thread, and may close one. -/
theorem others_back (h : (ipc T size).others Moves t d d') (hs : d'.sock id = some s')
    (ht : s'.owner = t) :
    ∃ s, d.sock id = some s ∧ s.owner = t ∧ (s' = s ∨ s'.isOpen = false) := by
  rcases h with ⟨u, hu, hmoves⟩ | ⟨fd, rfl⟩
  · -- a new socket has its owner from the step
    obtain ⟨s, hs₀⟩ : ∃ s, d.sock id = some s := by
      rw [← Option.ne_none_iff_exists']
      exact fun hnone => hu ((hmoves.new id s' hs hnone).symm.trans ht)
    obtain ⟨r, hr, hgrows, -⟩ := hmoves.own id s hs₀
    obtain rfl := Option.some.inj (hs.symm.trans hr)
    have howner : s.owner = t := hgrows.owner.symm.trans ht
    have hsame := hmoves.others id s hs₀ (howner ▸ Ne.symm hu)
    exact ⟨s, hs₀, howner, .inl (Option.some.inj (hs.symm.trans hsame))⟩
  · have hcloses : Closes fd d ((ipc T size).disturb fd d) := close_leaves d fd
    obtain ⟨s, hs₀⟩ := hcloses.back id s' hs
    obtain ⟨r, hr, hgrows⟩ := hcloses.grows hs₀
    obtain rfl := Option.some.inj (hs.symm.trans hr)
    refine ⟨s, hs₀, hgrows.owner.symm.trans ht, ?_⟩
    rcases hcloses.sock id s hs₀ with hsame | ⟨-, -, -, hclosed⟩
    · exact .inl (Option.some.inj (hs.symm.trans hsame))
    · exact .inr (congrArg UnixSock.isOpen (Option.some.inj (hs.symm.trans hclosed)))

theorem stable_clean : Stable ((ipc T size).others Moves t) (Clean t) := by
  refine fun d d' h hclean => ⟨others_sound h hclean.sound, fun id s' hs' ht hun => ?_⟩
  -- the socket was there before, and one that was closed does not wait for its `listen`
  obtain ⟨s, hs, hmine, rfl | hclosed⟩ := others_back h hs' ht
  · exact hclean.listened id _ hs hmine hun
  · cases hclosed.symm.trans hun.1

theorem stable_mine : Stable ((ipc T size).others Moves t) (Mine t fd φ) := by
  rintro d d' h ⟨id, s, huse, hs, ht, hreturned, hopen⟩
  obtain ⟨huse', hs'⟩ := others_mine h huse hs ht hreturned
  exact ⟨id, s, huse', hs', ht, hreturned, hopen⟩

theorem stable_namedDgram : Stable ((ipc T size).others Moves t) (NamedDgram id path) := by
  rintro d d' h ⟨s, hs, hkind, hname⟩
  obtain ⟨s', hs', hgrows⟩ := others_grows h hs
  exact ⟨s', hs', hgrows.kind.trans hkind, hgrows.name path hname⟩

omit [DecidableEq T]

theorem Clean.atCall (h : Clean t d) (job : IpcJob) : AtCall size t job d :=
  ⟨h.sound, fun id s hs ht hun => absurd hun (h.listened id s hs ht)⟩

theorem Clean.of_sock_eq (h : Clean t d) (hsound : d'.Sound) (hsock : d'.sock = d.sock) :
    Clean t d' := by
  refine ⟨hsound, fun id s hs => ?_⟩
  rw [hsock] at hs
  exact h.listened id s hs

theorem Clean.of_update (h : Clean t d) (hsound : d'.Sound)
    (hsock : d'.sock = Function.update d.sock id (some s')) (hs' : ¬ s'.Unlistened) :
    Clean t d' := by
  refine ⟨hsound, fun i s hs ht => ?_⟩
  rw [hsock] at hs
  by_cases hi : i = id
  · subst hi
    rw [Function.update_self] at hs
    obtain rfl := Option.some.inj hs
    exact hs'
  · rw [Function.update_of_ne hi] at hs
    exact h.listened i s hs ht

theorem Clean.returns [DecidableEq T] (h : Clean t d) : Clean t (d.returns t) := by
  refine ⟨(returns_moves d t).sound h.sound, fun id s hs ht hun => ?_⟩
  rw [returns_sock, Option.map_eq_some_iff] at hs
  obtain ⟨r, hr, rfl⟩ := hs
  -- the record of the socket is the one that it had, but for who may have it
  split_ifs at ht hun with howner
  · exact h.listened id r hr howner hun
  · exact howner ht

theorem Mine.of_sock_eq (h : Mine t fd φ d) (huse : ∀ fd, d'.use fd = d.use fd)
    (hsock : d'.sock = d.sock) : Mine t fd φ d' := by
  obtain ⟨id, s, hfd, hs, hmine⟩ := h
  exact ⟨id, s, (huse fd).trans hfd, by rw [hsock, hs], hmine⟩

/-- What an unlink leaves. -/
theorem unlink_leaves {granted : Bool} {a : Answer} (h : d.unlink path granted = (a, d')) :
    Moves t d d' ∧ (∀ fd, d'.use fd = d.use fd) ∧ d'.sock = d.sock := by
  obtain ⟨rfl, -⟩ | ⟨rfl, -⟩ := unlink_cases h
  · exact ⟨.refl t _, fun _ => rfl, rfl⟩
  · refine ⟨.of_sock_eq rfl rfl (fun _ => rfl) fun n id hn => ?_, fun _ => rfl, rfl⟩
    change Function.update d.names path none n = _ at hn
    by_cases hpath : n = path
    · subst hpath
      rw [Function.update_self] at hn
      cases hn
    · rwa [Function.update_of_ne hpath] at hn

/-- What `socket` leaves. -/
theorem socket_leaves {kind : SockKind} {granted : Bool} {a : Answer} (hclean : Clean t d)
    (h : d.socket t kind granted = (a, d')) :
    Moves t d d' ∧ Clean t d' ∧ (a.rv = -1 ∨ Mine t a.rv (UnixSock.Blank kind) d') := by
  obtain ⟨hrv, -, rfl⟩ | ⟨rfl, hd'⟩ := socket_cases h
  · exact ⟨.refl t _, hclean, .inl hrv⟩
  obtain ⟨d₁, hsocket, hat, -, -, -, hmove⟩ := socket_granted d t kind
  have hmoves := hmove hclean.sound
  obtain rfl : d' = d₁ := hd'.trans (Prod.mk.inj hsocket).2
  obtain ⟨huse, hs, hopen⟩ := sockAt_eq_ok.mp hat
  have hsock : d'.sock = Function.update d.sock d.opened (some _) := congrArg UnixDomain.sock hd'
  refine ⟨hmoves, hclean.of_update (hmoves.sound hclean.sound) hsock fun hun => ?_,
    .inr ⟨d.opened, _, huse, hs, rfl, rfl, hopen, rfl, rfl, rfl, rfl⟩⟩
  cases hun.2.2.1

/-- What `bind` leaves: of the sockets of the thread only this one can wait for its `listen`. -/
theorem bind_leaves {kind : SockKind} {granted : Bool} {a : Answer} (hclean : Clean t d)
    (hmine : Mine t fd (UnixSock.Blank kind) d) (h : d.bind fd path granted = (a, d')) :
    Moves t d d' ∧ (a.rv = -1 ∧ d' = d ∨ a.rv ≠ -1 ∧
      (∀ id s, d'.sock id = some s → s.owner = t → s.Unlistened →
        d'.use fd = some (.socket id)) ∧
      Mine t fd (fun s => s.kind = kind ∧ s.name = some path) d') := by
  obtain ⟨hrv, rfl⟩ | ⟨id, s, rfl, hat, hname, hpath, rfl⟩ := bind_cases h
  · exact ⟨.refl t _, .inl ⟨hrv, rfl⟩⟩
  obtain ⟨i, r, huse, hr, ht, hreturned, hopen, hblank⟩ := hmine
  obtain ⟨huse', hs, -⟩ := sockAt_eq_ok.mp hat
  obtain rfl := FdUse.socket.inj (Option.some.inj (huse.symm.trans huse'))
  obtain rfl := Option.some.inj (hs.symm.trans hr)
  refine ⟨.of_update rfl rfl (fun _ => rfl) hs ht ⟨rfl, rfl, rfl, fun n hn => ?_, fun _ h => h⟩ rfl
    fun n j hn => ?_, .inr ⟨by decide, fun j r hr howner hun => ?_,
      ⟨i, _, huse, Function.update_self _ _ _, ht, hreturned, hopen, hblank.1, rfl⟩⟩⟩
  · -- the socket had no name to lose
    rw [hname] at hn
    cases hn
  · change Function.update d.names path _ n = _ at hn
    by_cases hnp : n = path
    · subst hnp
      rw [Function.update_self] at hn
      exact .inr ⟨(PathEntry.socket.inj (Option.some.inj hn)).symm, rfl⟩
    · rw [Function.update_of_ne hnp] at hn
      exact .inl hn
  · by_cases hj : j = i
    · rw [hj]
      exact huse
    · have hold : d.sock j = some r := (Function.update_of_ne hj _ _).symm.trans hr
      exact absurd hun (hclean.listened j r hold howner)

/-- What `connect` leaves. -/
theorem connect_leaves {kind : SockKind} {granted : Bool} {a : Answer} (hclean : Clean t d)
    (hmine : Mine t fd (UnixSock.Blank kind) d) (h : d.connect fd path granted = (a, d')) :
    Moves t d d' ∧ Clean t d' ∧ (a.rv = -1 ∨ ∃ id,
      Mine t fd (fun s => s.kind = kind ∧ s.peer = some id) d' ∧
        ∃ s, d'.sock id = some s ∧ s.kind = kind ∧ s.name = some path) := by
  obtain ⟨hrv, rfl⟩ | ⟨id, s, peer, rfl, hat, htarget, rfl⟩ := connect_cases h
  · exact ⟨.refl t _, hclean, .inl hrv⟩
  obtain ⟨i, r, huse, hr, ht, hreturned, hopen, hkind, hname, hpeer, hlisten⟩ := hmine
  obtain ⟨huse', hs, -⟩ := sockAt_eq_ok.mp hat
  obtain rfl := FdUse.socket.inj (Option.some.inj (huse.symm.trans huse'))
  obtain rfl := Option.some.inj (hs.symm.trans hr)
  have hmoves : Moves t d (d.setSock i { s with peer := some peer }) := by
    refine .of_update rfl rfl (fun _ => rfl) hs ht ⟨rfl, rfl, rfl, fun _ h => h, fun p hp => ?_⟩ rfl
      fun _ _ => .inl
    rw [hpeer] at hp
    cases hp
  have hunnamed : ¬ ({ s with peer := some peer } : UnixSock T).Unlistened := fun hun => by
    rw [UnixSock.Unlistened, hname] at hun
    cases hun.2.2.1
  refine ⟨hmoves, hclean.of_update (hmoves.sound hclean.sound) rfl hunnamed, .inr ⟨peer,
    ⟨i, _, huse, Function.update_self _ _ _, ht, hreturned, hopen, hkind, rfl⟩, ?_⟩⟩
  -- the socket with the name is another one, since this one has none
  obtain ⟨hpath, r, hropen, hrkind, -⟩ := target_eq_ok htarget
  obtain ⟨r', hr', hrname⟩ := hclean.sound.named path peer hpath
  obtain rfl := Option.some.inj ((openSock_eq_some.mp hropen).1.symm.trans hr')
  have hne : peer ≠ i := by
    rintro rfl
    obtain rfl := Option.some.inj (hs.symm.trans hr')
    rw [hname] at hrname
    cases hrname
  exact ⟨r, by rw [setSock_sock, Function.update_of_ne hne, hr'], hrkind.trans hkind, hrname⟩

/-- What `listen` leaves of a socket with a name. -/
theorem listen_leaves {granted : Bool} {a : Answer}
    (hat : ∀ id s, d.sock id = some s → s.owner = t → s.Unlistened →
      d.use fd = some (.socket id))
    (hsound : d.Sound) (hmine : Mine t fd (fun s => s.kind = .stream ∧ s.name = some path) d)
    (h : d.listen fd granted = (a, d')) :
    Moves t d d' ∧ Clean t d' ∧ (a.rv ≠ 0 ∨ Mine t fd
      (fun s => s.kind = .stream ∧ s.name = some path ∧ s.listening = some true) d') := by
  obtain ⟨i, r, huse, hr, ht, hreturned, hopen, hkind, hname⟩ := hmine
  obtain ⟨-, -, hnot⟩ | ⟨id, s, b, hs, rfl, hrv⟩ := listen_cases h
  · -- the call is not wrong, whatever the system makes of it
    rcases hnot i r (sockAt_eq_ok.mpr ⟨huse, hr, hopen⟩) with hne | hnone
    · exact absurd hkind hne
    · rw [hname] at hnone
      cases hnone
  obtain ⟨huse', hs, -⟩ := sockAt_eq_ok.mp hs
  obtain rfl := FdUse.socket.inj (Option.some.inj (huse.symm.trans huse'))
  obtain rfl := Option.some.inj (hs.symm.trans hr)
  have hmoves : Moves t d (d.setSock i { s with listening := some b }) :=
    .of_update rfl rfl (fun _ => rfl) hs ht ⟨rfl, rfl, rfl, fun _ h => h, fun _ h => h⟩ rfl
      fun _ _ => .inl
  refine ⟨hmoves, ⟨hmoves.sound hsound, fun j r hr howner hun => ?_⟩, ?_⟩
  · rw [setSock_sock] at hr
    by_cases hj : j = i
    · subst hj
      rw [Function.update_self] at hr
      obtain rfl := Option.some.inj hr
      cases hun.2.2.2
    · rw [Function.update_of_ne hj] at hr
      have hother := hat j r hr howner hun
      exact hj (FdUse.socket.inj (Option.some.inj (hother.symm.trans huse)))
  · rcases hrv with hrv | ⟨-, rfl⟩
    · refine .inl ?_
      rw [hrv]
      decide
    · exact .inr ⟨i, _, huse, Function.update_self _ _ _, ht, hreturned, hopen, hkind, hname, rfl⟩

end Stable

/-! ### Every function -/

theorem stable_returned (t : T) (job : IpcJob) (r : ℤ) :
    Stable ((ipc T size).others Moves t) fun d => Clean t d ∧ Returned size t job r d := by
  refine stable_clean.and ?_
  cases job with
  | dgramSocket usockpath =>
    rintro d d' h (hr | hmine)
    · exact .inl hr
    · exact .inr (stable_mine d d' h hmine)
  | usockpathAlreadyUsed usockpath => exact fun _ _ _ hr => hr
  | nonblockStreamSocket usockpath =>
    rintro d d' h (hr | hmine)
    · exact .inl hr
    · exact .inr (stable_mine d d' h hmine)
  | connectDgram usockpath =>
    rintro d d' h (hr | ⟨id, hmine, hnamed⟩)
    · exact .inl hr
    · exact .inr ⟨id, stable_mine d d' h hmine, stable_namedDgram d d' h hnamed⟩
  | sendDgram fd msg => exact fun _ _ _ hr => hr

/-- A function that returns. -/
theorem meets_return {t : T} {job : IpcJob} {r : ℤ} {d : UnixDomain T} (hclean : Clean t d)
    (hr : Returned size t job r d) :
    (Prog.done r : Prog SysCall Answer ℤ).Meets (SysCall.perform t) (fun _ _ => True)
      (ipcContract size t job) d := meets_done (stable_returned t job r) ⟨hclean, hr⟩

/-- What a thread has after `socket`: its own socket, with nothing done to it. -/
theorem stable_blank (t : T) (fd : ℤ) (kind : SockKind) :
    Stable ((ipc T size).others Moves t) fun d => Clean t d ∧ Mine t fd (UnixSock.Blank kind) d :=
  stable_clean.and stable_mine

section Functions

variable {d : UnixDomain T} {t : T}

/-- A function that opens a socket. -/
theorem socket_meets {kind : SockKind} {job : IpcJob} {next : Answer → Prog SysCall Answer ℤ}
    (h : Clean t d)
    (hfailed : ∀ a d, a.rv = -1 → Clean t d →
      (next a).Meets (SysCall.perform t) (fun _ _ => True) (ipcContract size t job) d)
    (hopened : ∀ a d, a.rv ≠ -1 → Clean t d ∧ Mine t a.rv (UnixSock.Blank kind) d →
      (next a).Meets (SysCall.perform t) (fun _ _ => True) (ipcContract size t job) d) :
    (Prog.call (.socket kind) next).Meets (SysCall.perform t) (fun _ _ => True)
      (ipcContract size t job) d := by
  refine meets_call stable_clean h (fun d h => h.atCall _) fun d g hclean _ => ?_
  rcases hx : SysCall.perform t (.socket kind) g d with ⟨a, d₁⟩
  obtain ⟨hmoves, hclean₁, hmine⟩ := socket_leaves hclean hx
  refine ⟨hmoves, ?_⟩
  by_cases hfd : a.rv = -1
  · exact hfailed a d₁ hfd hclean₁
  · exact hopened a d₁ hfd ⟨hclean₁, hmine.resolve_left hfd⟩

/-- A function that gives its socket a name, once the path is unlinked. -/
theorem name_meets {fd : ℤ} {kind : SockKind} {job : IpcJob} {usockpath path : SockPath}
    {next : Answer → Prog SysCall Answer ℤ} (h : Clean t d ∧ Mine t fd (UnixSock.Blank kind) d)
    (hfailed : ∀ a d, a.rv = -1 → Clean t d →
      (next a).Meets (SysCall.perform t) (fun _ _ => True) (ipcContract size t job) d)
    (hnamed : ∀ a d, a.rv ≠ -1 → d.Sound →
      (∀ id s, d.sock id = some s → s.owner = t → s.Unlistened →
        d.use fd = some (.socket id)) →
      Mine t fd (fun s => s.kind = kind ∧ s.name = some path) d →
      (next a).Meets (SysCall.perform t) (fun _ _ => True) (ipcContract size t job) d) :
    (Prog.call (.unlink usockpath) fun _ => .call (.bind fd path) next).Meets
      (SysCall.perform t) (fun _ _ => True) (ipcContract size t job) d := by
  refine meets_call (stable_blank t fd kind) h (fun d h => h.1.atCall _) fun d g hP _ => ?_
  rcases hx : SysCall.perform t (.unlink usockpath) g d with ⟨b, d₁⟩
  obtain ⟨hmoves, huse, hsock⟩ := unlink_leaves hx
  refine ⟨hmoves, meets_call (stable_blank t fd kind)
    ⟨hP.1.of_sock_eq (hmoves.sound hP.1.sound) hsock, hP.2.of_sock_eq huse hsock⟩
    (fun d h => h.1.atCall _) fun d g hP _ => ?_⟩
  rcases hx : SysCall.perform t (.bind fd path) g d with ⟨a, d₂⟩
  obtain ⟨hmoves, ⟨hrv, rfl⟩ | ⟨hrv, honly, hmine⟩⟩ := bind_leaves hP.1 hP.2 hx
  · exact ⟨hmoves, hfailed a d₂ hrv hP.1⟩
  · exact ⟨hmoves, hnamed a d₂ hrv (hmoves.sound hP.1.sound) honly hmine⟩

theorem dgramSocket_meets (h : Clean t d) (usockpath : SockPath) :
    (ipcDgramSocket size usockpath).Meets (SysCall.perform t) (fun _ _ => True)
      (ipcContract size t (.dgramSocket usockpath)) d := by
  rw [ipcDgramSocket_eq]
  refine socket_meets h (fun a d hfd hclean => ?_) fun a d hfd hblank => ?_
  · rw [if_pos hfd]
    exact meets_return hclean (.inl rfl)
  rw [if_neg hfd]
  refine name_meets hblank (fun b d hrv hclean => ?_) fun b d hrv hsound honly hmine => ?_
  · rw [if_pos hrv]
    exact meets_return hclean (.inl rfl)
  rw [if_neg hrv]
  refine meets_return ⟨hsound, fun id s hs ht hun => ?_⟩ (.inr hmine)
  -- a datagram socket needs no `listen`
  obtain ⟨i, r, huse, hr, -, -, -, hkind, -⟩ := hmine
  obtain rfl := FdUse.socket.inj (Option.some.inj (huse.symm.trans (honly id s hs ht hun)))
  obtain rfl := Option.some.inj (hs.symm.trans hr)
  cases hkind.symm.trans hun.2.1

theorem connectDgram_meets (h : Clean t d) (usockpath : SockPath) :
    (ipcConnectDgram size usockpath).Meets (SysCall.perform t) (fun _ _ => True)
      (ipcContract size t (.connectDgram usockpath)) d := by
  rw [ipcConnectDgram_eq]
  refine socket_meets h (fun a d hfd hclean => ?_) fun a d hfd hblank => ?_
  · rw [if_pos hfd]
    exact meets_return hclean (.inl rfl)
  rw [if_neg hfd]
  refine meets_call (stable_blank t a.rv .dgram) hblank (fun d h => h.1.atCall _)
    fun d g hP _ => ?_
  rcases hx : SysCall.perform t (.connect a.rv (sunPath size usockpath)) g d with ⟨b, d₂⟩
  obtain ⟨hmoves, hclean₂, hpeer⟩ := connect_leaves hP.1 hP.2 hx
  refine ⟨hmoves, ?_⟩
  dsimp only
  by_cases hrv : b.rv = -1
  · rw [if_pos hrv]
    exact meets_return hclean₂ (.inl rfl)
  · rw [if_neg hrv]
    exact meets_return hclean₂ (.inr (hpeer.resolve_left hrv))

theorem usockpathAlreadyUsed_meets (h : Clean t d) (usockpath : SockPath) :
    ((IpcJob.usockpathAlreadyUsed usockpath).code size).Meets (SysCall.perform t) (fun _ _ => True)
      (ipcContract size t (.usockpathAlreadyUsed usockpath)) d := by
  rw [usockpathAlreadyUsed_eq]
  have hresult : ∀ {b : Answer} {d : UnixDomain T}, Clean t d →
      (Prog.done (if b = .error .econnrefused then 0 else 1) : Prog SysCall Answer ℤ).Meets
        (SysCall.perform t) (fun _ _ => True)
        (ipcContract size t (.usockpathAlreadyUsed usockpath)) d := by
    intro b d hclean
    refine meets_return hclean ?_
    split_ifs
    · exact .inl rfl
    · exact .inr rfl
  refine socket_meets h (fun a d hfd hclean => ?_) fun a d hfd hblank => ?_
  · -- the call is made on a descriptor that there is not
    rw [hfd]
    refine meets_call stable_clean hclean (fun d h => h.atCall _) fun d g hclean _ => ?_
    rcases hx : d.connect (-1) (sunPath size usockpath) g with ⟨b, d₂⟩
    rw [show SysCall.perform t (.connect (-1) (sunPath size usockpath)) g d = _ from hx]
    obtain ⟨-, rfl⟩ | ⟨id, s, peer, -, hat, -⟩ := connect_cases hx
    · exact ⟨.refl t _, hresult hclean⟩
    · have hnonneg := use_nonneg (sockAt_eq_ok.mp hat).1
      omega
  · refine meets_call (stable_blank t a.rv .stream) hblank (fun d h => h.1.atCall _)
      fun d g hP _ => ?_
    rcases hx : SysCall.perform t (.connect a.rv (sunPath size usockpath)) g d with ⟨b, d₂⟩
    obtain ⟨hmoves, hclean₂, -⟩ := connect_leaves hP.1 hP.2 hx
    exact ⟨hmoves, hresult hclean₂⟩

theorem sendDgram_meets (h : Clean t d) (fd : ℤ) (msg : List UInt8) :
    ((IpcJob.sendDgram fd msg).code size).Meets (SysCall.perform t) (fun _ _ => True)
      (ipcContract size t (.sendDgram fd msg)) d := by
  change (Prog.call (SysCall.write fd msg) fun _ => .done 0).Meets _ _ _ _
  refine meets_call stable_clean h (fun d h => h.atCall _) fun d g hclean _ => ?_
  rcases hx : SysCall.perform t (.write fd msg) g d with ⟨a, d₁⟩
  obtain rfl | ⟨id, s, peer, -, -, -, rfl⟩ := write_cases hx
  · exact ⟨.refl t _, meets_return hclean rfl⟩
  · have hmoves : Moves t d
        { d with mail := Function.update d.mail peer (d.mail peer ++ [msg]) } :=
      .of_sock_eq rfl rfl (fun _ => rfl) fun _ _ h => h
    exact ⟨hmoves, meets_return (hclean.of_sock_eq (hmoves.sound hclean.sound) rfl) rfl⟩

/-- Between `bind` and `listen`. -/
structure Named (t : T) (fd : ℤ) (path : SockPath) (d : UnixDomain T) : Prop where
  sound : d.Sound
  only : ∀ id s, d.sock id = some s → s.owner = t → s.Unlistened → d.use fd = some (.socket id)
  mine : Mine t fd (fun s => s.kind = .stream ∧ s.name = some path) d

theorem stable_named (fd : ℤ) (path : SockPath) :
    Stable ((ipc T size).others Moves t) (Named t fd path) := by
  refine fun d d' h hnamed => ⟨others_sound h hnamed.sound, fun id s' hs' ht hun => ?_,
    stable_mine d d' h hnamed.mine⟩
  obtain ⟨s, hs, hmine, rfl | hclosed⟩ := others_back h hs' ht
  · -- the descriptor is still of the one socket that it was of
    have huse := hnamed.only id _ hs hmine hun
    obtain ⟨i, r, hfd, hr, hrt, hreturned, -⟩ := hnamed.mine
    obtain ⟨huse', -⟩ := others_mine h hfd hr hrt hreturned
    exact huse' ▸ hfd ▸ huse
  · cases hclosed.symm.trans hun.1

theorem nonblockStreamSocket_meets (h : Clean t d) (usockpath : SockPath) :
    (ipcNonblockStreamSocket size usockpath).Meets (SysCall.perform t) (fun _ _ => True)
      (ipcContract size t (.nonblockStreamSocket usockpath)) d := by
  rw [ipcNonblockStreamSocket_eq]
  refine socket_meets h (fun a d hfd hclean => ?_) fun a d hfd hblank => ?_
  · rw [if_pos hfd]
    exact meets_return hclean (.inl rfl)
  rw [if_neg hfd]
  refine name_meets hblank (fun b d hrv hclean => ?_) fun b d hrv hsound honly hmine => ?_
  · rw [if_pos hrv]
    exact meets_return hclean (.inl rfl)
  rw [if_neg hrv]
  have hnamed : Named t a.rv (sunPath size usockpath) d := ⟨hsound, honly, hmine⟩
  refine meets_call (stable_named a.rv _) hnamed (fun d h => ?_) fun d g hnamed _ => ?_
  · refine ⟨h.sound, fun id r hr howner hun => ⟨usockpath, rfl, ?_⟩⟩
    obtain ⟨i, r', huse, hr', -, -, -, -, hname⟩ := h.mine
    obtain rfl := FdUse.socket.inj (Option.some.inj (huse.symm.trans (h.only id r hr howner hun)))
    obtain rfl := Option.some.inj (hr.symm.trans hr')
    exact hname
  rcases hx : SysCall.perform t (.listen a.rv) g d with ⟨c, d₄⟩
  obtain ⟨hmoves, hclean₄, hlisten⟩ := listen_leaves hnamed.only hnamed.sound hnamed.mine hx
  refine ⟨hmoves, ?_⟩
  dsimp only
  by_cases hrv : c.rv = 0
  · rw [if_neg (not_not.mpr hrv)]
    exact meets_return hclean₄ (.inr (hlisten.resolve_left (not_not.mpr hrv)))
  rw [if_pos hrv]
  -- a `listen` that failed is over, so the unlink is made with nothing pending
  refine meets_call stable_clean hclean₄ (fun d h => h.atCall _) fun d g hclean _ => ?_
  rcases hx : SysCall.perform t (.unlink usockpath) g d with ⟨b, d₅⟩
  obtain ⟨hmoves, -, hsock⟩ := unlink_leaves hx
  exact ⟨hmoves,
    meets_return (hclean.of_sock_eq (hmoves.sound hclean.sound) hsock) (.inl rfl)⟩

end Functions

/-- The threads at the functions. -/
def ipcDiscipline (T : Type) [DecidableEq T] (size : ℕ+) :
    Discipline (ipc T size) (fun _ _ => True) where
  guar := Moves
  idle := Clean
  during := AtCall size
  post t job r d := Clean t d ∧ Returned size t job r d
  init t d hinit := by
    obtain ⟨-, hsock, hfds, hnames⟩ := hinit
    refine ⟨⟨fun id s hs => ?_, fun fd id hfd => absurd hfd (hfds fd id),
      fun path id hpath => absurd hpath (hnames path id)⟩, fun id s hs => ?_⟩
    all_goals
      rw [hsock id] at hs
      cases hs
  stable _ := stable_clean
  meets t job d h := by
    cases job with
    | dgramSocket usockpath => exact dgramSocket_meets h usockpath
    | usockpathAlreadyUsed usockpath => exact usockpathAlreadyUsed_meets h usockpath
    | nonblockStreamSocket usockpath => exact nonblockStreamSocket_meets h usockpath
    | connectDgram usockpath => exact connectDgram_meets h usockpath
    | sendDgram fd msg => exact sendDgram_meets h fd msg
  finishes t _ _ d _ := returns_moves d t
  leaves t _ _ d h := h.1.returns

/-! ### Every run -/

section Runs

variable {s s' s'' : Pool T IpcJob SysCall Answer ℤ (UnixDomain T)}
  {ls ls' : List (PoolLabel T IpcJob Bool ℤ)} {t : T} {job : IpcJob} {r : ℤ}
  {usockpath : SockPath}

omit [DecidableEq T] in
theorem ipc_allowed (s : Pool T IpcJob SysCall Answer ℤ (UnixDomain T))
    (l : PoolLabel T IpcJob Bool ℤ) : Discipline.Allowed (fun _ _ => True) s l :=
  Discipline.allowed_of_forall (fun _ _ => trivial) s l

/-- All threads keep to the discipline. -/
theorem ipc_kept (hinit : (ipc T size).system.init s)
    (hrun : (ipc T size).system.run s ls = some s') : (ipcDiscipline T size).Kept s' :=
  Discipline.keeps hinit (Discipline.guarded_allowed fun _ _ => trivial) hrun

theorem kept_sound (h : (ipcDiscipline T size).Kept s) (t : T) : s.shared.Sound := by
  have hat := h t
  cases ht : s.thread t with
  | none =>
    rw [ht] at hat
    exact Clean.sound hat
  | some o =>
    obtain ⟨job, p⟩ := o
    cases p with
    | done r => exact (h.at_work ht).post.1.sound
    | call c next => exact (h.at_work ht).during.sound

/-- A socket that waits for its `listen` is one of a thread between `bind` and `listen`. -/
theorem kept_listens {id : ℕ} {sock : UnixSock T}
    (h : (ipcDiscipline T size).Kept s) (hs : s.shared.sock id = some sock)
    (hun : sock.Unlistened) : ∃ usockpath p,
      s.thread sock.owner = some (.nonblockStreamSocket usockpath, p) ∧
        sock.name = some (sunPath size usockpath) := by
  have hat := h sock.owner
  cases ht : s.thread sock.owner with
  | none =>
    rw [ht] at hat
    exact absurd hun (Clean.listened hat id sock hs rfl)
  | some o =>
    obtain ⟨job, p⟩ := o
    cases p with
    | done r => exact absurd hun ((h.at_work ht).post.1.listened id sock hs rfl)
    | call c next =>
      obtain ⟨usockpath, rfl, hname⟩ := (h.at_work ht).during.unlistened id sock hs rfl hun
      exact ⟨usockpath, _, rfl, hname⟩

/-- **What the functions return.** However the threads mix, a descriptor that is returned is one
of an open socket that the thread has opened, with the name or the peer that the function is for.
Descriptors that functions have returned are closed in between, and their numbers given again. -/
theorem ipc_returns (hinit : (ipc T size).system.init s)
    (hrun : (ipc T size).system.run s ls = some s') (ht : s'.thread t = some (job, .done r)) :
    Returned size t job r s'.shared :=
  ((ipc_kept hinit hrun).at_work ht).post.2

/-- No threads at work, and nothing opened. -/
def ipcStart (T : Type) : Pool T IpcJob SysCall Answer ℤ (UnixDomain T) :=
  ⟨fun _ => none, [], 0, fun _ => none, fun _ => none, fun _ => [], .econnrefused⟩

theorem ipcStart_shared : (ipc T size).init (ipcStart T).shared := by
  refine ⟨rfl, fun _ => rfl, fun fd id hfd => ?_, fun _ _ => nofun⟩
  unfold ipcStart UnixDomain.use at hfd
  split_ifs at hfd
  cases hfd

/-- A path of one byte. -/
def somePath : SockPath := ⟨[97], by decide⟩

/-- A server that is started again, when its first descriptor was closed. -/
theorem ipc_returns_dgram : ∃ s', (ipc Bool 107).system.run (ipcStart Bool)
      [.start true (.dgramSocket somePath), .step true true, .step true true, .step true true,
        .leave true, .env 0, .start true (.dgramSocket somePath), .step true true,
        .step true true, .step true true] = some s' ∧
    Returned 107 true (.dgramSocket somePath) 0 s'.shared := by
  obtain ⟨s', hrun, ht⟩ : ∃ s', (ipc Bool 107).system.run (ipcStart Bool)
      [.start true (.dgramSocket somePath), .step true true, .step true true, .step true true,
        .leave true, .env 0, .start true (.dgramSocket somePath), .step true true,
        .step true true, .step true true] = some s' ∧
      s'.thread true = some (.dgramSocket somePath, .done 0) := ⟨_, rfl, rfl⟩
  exact ⟨s', hrun, ipc_returns ⟨fun _ => rfl, ipcStart_shared⟩ hrun ht⟩

/-! ### The probe -/

/-- The step in which a probe gets its answer. -/
theorem probe_connects {p : Prog SysCall Answer ℤ} {g : Bool}
    (hleft : ((IpcJob.usockpathAlreadyUsed usockpath).code size).Left p)
    (ht : s.thread t = some (.usockpathAlreadyUsed usockpath, p))
    (hnext : (ipc T size).system.next s (.step t g) = some s')
    (ht' : s'.thread t = some (job, .done r)) : ∃ fd, r = if
      (s.shared.connect fd (sunPath size usockpath) g).1 = .error .econnrefused then 0 else 1 := by
  obtain ⟨_, _, h, -⟩ | ⟨u, g', job', c, next, h, hu, rfl⟩ | ⟨_, _, _, h, -⟩ | ⟨_, h, -⟩ :=
    Service.next_cases hnext
  · cases h
  · cases h
    obtain ⟨rfl, rfl⟩ := Prod.mk.inj (Option.some.inj (ht.symm.trans hu))
    dsimp only at ht'
    rw [Function.update_self] at ht'
    have hdone := (Prod.mk.inj (Option.some.inj ht')).2
    rw [usockpathAlreadyUsed_eq] at hleft
    -- the thread is not at `socket`, after which it would not be done
    obtain hcall | ⟨a, hleft⟩ := left_call hleft
    · cases hcall
      cases hdone
    obtain hcall | ⟨b, hleft⟩ := left_call hleft
    · cases hcall
      exact ⟨a.rv, (Prog.done.inj hdone).symm⟩
    · cases left_done hleft
  · cases h
  · cases h

/-- Nothing at the path takes a connection now: there is a file or a directory, or a socket that
was closed, or a stream socket on which `listen` failed, or that another thread has bound and is
about to listen on. -/
def Unserved (size : ℕ+) (usockpath : SockPath)
    (s : Pool T IpcJob SysCall Answer ℤ (UnixDomain T)) : Prop :=
  s.shared.names (sunPath size usockpath) = some .file ∨
    s.shared.names (sunPath size usockpath) = some .directory ∨ ∃ id sock,
      s.shared.names (sunPath size usockpath) = some (.socket id) ∧
      s.shared.sock id = some sock ∧ (sock.isOpen = false ∨ sock.kind = .stream ∧
        (sock.listening = some false ∨ ∃ usockpath' p',
          s.thread sock.owner = some (.nonblockStreamSocket usockpath', p') ∧
          sunPath size usockpath' = sunPath size usockpath))

/-- A stream socket that listens has the path, on a system that answers `ECONNREFUSED` when there
is no room for a connection. -/
def Crowded (size : ℕ+) (usockpath : SockPath) (d : UnixDomain T) : Prop :=
  d.full = .econnrefused ∧ ∃ id sock, d.names (sunPath size usockpath) = some (.socket id) ∧
    d.openSock id = some sock ∧ sock.kind = .stream ∧ sock.listening = some true

theorem unserved_of_target {kind : SockKind} (hkept : (ipcDiscipline T size).Kept s)
    (h : s.shared.target (sunPath size usockpath) kind = .error .econnrefused) (t : T) :
    Unserved size usockpath s := by
  unfold target at h
  split at h
  · cases h
  · next id hpath =>
    obtain ⟨sock, hs, hname⟩ := (kept_sound hkept t).named _ id hpath
    refine .inr (.inr ⟨id, sock, hpath, hs, ?_⟩)
    cases hopen : sock.isOpen with
    | false => exact .inl rfl
    | true =>
      rw [openSock_eq_some.mpr ⟨hs, hopen⟩] at h
      dsimp only at h
      by_cases hkind : sock.kind = kind
      swap
      · rw [if_pos hkind] at h
        cases h
      by_cases hlisten : kind = .stream ∧ sock.listening ≠ some true
      swap
      · rw [if_neg (not_not.mpr hkind), if_neg hlisten] at h
        cases h
      obtain ⟨rfl, hlisten⟩ := hlisten
      refine .inr ⟨hkind, ?_⟩
      cases hl : sock.listening with
      | none =>
        -- a socket that waits for its `listen` is one of a thread that is about to make it
        obtain ⟨usockpath', p', hthread, hname'⟩ := kept_listens hkept hs
          ⟨hopen, hkind, by rw [hname]; rfl, hl⟩
        exact .inr ⟨usockpath', p', hthread, Option.some.inj (hname'.symm.trans hname)⟩
      | some b =>
        cases b with
        | false => exact .inl rfl
        | true => exact absurd hl hlisten
  · next e hne hpath =>
    cases e with
    | socket id => exact absurd rfl (hne id)
    | file => exact .inl hpath
    | directory => exact .inr (.inl hpath)

omit [DecidableEq T] in
/-- A `connect` that is answered with `ECONNREFUSED`. -/
theorem connect_refused {d : UnixDomain T} {fd : ℤ} {g : Bool}
    (h : (d.connect fd (sunPath size usockpath) g).1 = .error .econnrefused) :
    (∃ kind, d.target (sunPath size usockpath) kind = .error .econnrefused) ∨
      g = false ∧ Crowded size usockpath d := by
  unfold connect at h
  split at h
  · next e he =>
    -- a descriptor is not answered so, whatever it is of
    obtain rfl := Except.error.inj h
    unfold sockAt at he
    split at he
    · cases he
    · cases he
    · split at he <;> cases he
  · next id s hat =>
    split at h
    · next e he =>
      obtain rfl := Except.error.inj h
      exact .inl ⟨s.kind, he⟩
    · next peer hpeer =>
      obtain ⟨hpath, sock, hopen, hkind, hlisten⟩ := target_eq_ok hpeer
      by_cases hg : g = true
      · rw [if_pos hg] at h
        cases h
      rw [if_neg hg] at h
      by_cases hstream : s.kind = .stream
      · -- the system had no room for the connection
        rw [if_pos hstream] at h
        exact .inr ⟨eq_false_of_ne_true hg, Except.error.inj h, peer, sock, hpath, hopen,
          hkind.trans hstream, hlisten hstream⟩
      · rw [if_neg hstream] at h
        cases h

/-- **What the probe says.** When `posixc_ipc_usockpath_already_used` is false, then at the time
of its `connect` nothing at the path takes a connection: no datagram socket that is open has the
path, and no stream socket that listens, unless its queue is full and the system answers so
(`Crowded`). A path that another thread has bound and is about to listen on is not excluded.
Where there is nothing at all the answer is true. -/
theorem ipc_probe_false {p : Prog SysCall Answer ℤ} {g : Bool}
    (hinit : (ipc T size).system.init s) (hrun : (ipc T size).system.run s ls = some s')
    (ht : s'.thread t = some (.usockpathAlreadyUsed usockpath, p))
    (hnext : (ipc T size).system.next s' (.step t g) = some s'')
    (ht' : s''.thread t = some (job, .done r)) :
    (r = 0 → Unserved size usockpath s' ∨ g = false ∧ Crowded size usockpath s'.shared) ∧
      (s'.shared.names (sunPath size usockpath) = none → r = 1) := by
  obtain ⟨fd, hr⟩ := probe_connects (Service.left hinit hrun ht) ht hnext ht'
  constructor
  · intro hzero
    rw [hzero] at hr
    split_ifs at hr with hrefused
    swap
    · cases hr
    obtain ⟨kind, htarget⟩ | hcrowded := connect_refused hrefused
    · exact .inl (unserved_of_target (ipc_kept hinit hrun) htarget t)
    · exact .inr hcrowded
  · intro hnone
    -- the error is `ENOENT`, or `EBADF` where there was no descriptor
    rw [hr, if_neg]
    intro hrefused
    obtain ⟨kind, htarget⟩ | ⟨-, -, id, sock, hpath, -⟩ := connect_refused hrefused
    · unfold target at htarget
      rw [hnone] at htarget
      cases htarget
    · cases hnone.symm.trans hpath

/-- A probe between the `bind` and the `listen` of another thread. -/
theorem ipc_probe_false_window : ∃ s', (ipc Bool 107).system.run (ipcStart Bool)
      [.start true (.nonblockStreamSocket somePath), .step true true, .step true true,
        .step true true, .start false (.usockpathAlreadyUsed somePath), .step false true] =
        some s' ∧
    Unserved 107 somePath s' := by
  obtain ⟨s', s'', p, hrun, ht, hnext, ht'⟩ : ∃ s' s'' p,
      (ipc Bool 107).system.run (ipcStart Bool)
        [.start true (.nonblockStreamSocket somePath), .step true true, .step true true,
          .step true true, .start false (.usockpathAlreadyUsed somePath), .step false true] =
        some s' ∧
      s'.thread false = some (.usockpathAlreadyUsed somePath, p) ∧
      (ipc Bool 107).system.next s' (.step false true) = some s'' ∧
      s''.thread false = some (.usockpathAlreadyUsed somePath, .done 0) :=
    ⟨_, _, _, rfl, rfl, rfl, rfl⟩
  have hprobe := ipc_probe_false ⟨fun _ => rfl, ipcStart_shared⟩ hrun ht hnext ht'
  exact ⟨s', hrun, (hprobe.1 rfl).resolve_right fun hcrowded => nomatch hcrowded.1⟩

/-! ### Clients -/

/-- A descriptor that nobody closes stays one of the same socket, which keeps its name and its
peer. -/
theorem sockAt_run (hkept : (ipcDiscipline T size).Kept s) {fd : ℤ} {id : ℕ} {sock : UnixSock T}
    (hat : s.shared.sockAt fd = .ok (id, sock)) (hopen : PoolLabel.env fd ∉ ls)
    (hrun : (ipc T size).system.run s ls = some s') :
    ∃ sock', s'.shared.sockAt fd = .ok (id, sock') ∧ sock.Grows sock' := by
  have hlabels : (ipc T size).system.Guarded (fun _ l => l ≠ .env fd) s ls :=
    System.Guarded.of_forall fun l hl hfd => hopen (hfd ▸ hl)
  refine (System.run_invariant (P := fun _ l => l ≠ .env fd)
    (I := fun s => (ipcDiscipline T size).Kept s ∧
      ∃ sock', s.shared.sockAt fd = .ok (id, sock') ∧ sock.Grows sock')
    (fun s l s' ⟨hkept, r, hr, hgrows⟩ hl hnext => ⟨hkept.next (ipc_allowed s l) hnext, ?_⟩)
    ⟨hkept, sock, hat, .refl sock⟩ hlabels hrun).2
  obtain ⟨huse, hs, hropen⟩ := sockAt_eq_ok.mp hr
  obtain ⟨u, -, hmoves⟩ | ⟨fd', rfl, hshared⟩ | hshared := hkept.effect (ipc_allowed s l) hnext
  · -- no thread closes anything
    obtain ⟨r', hr', hgrows', hopen'⟩ := UnixDomain.Moves.own hmoves id r hs
    exact ⟨r', sockAt_eq_ok.mpr
      ⟨UnixDomain.Moves.used hmoves fd _ huse, hr', hopen'.trans hropen⟩, hgrows.trans hgrows'⟩
  · have hcloses : Closes fd' s.shared s'.shared := hshared ▸ close_leaves s.shared fd'
    have hfd : fd ≠ fd' := by
      rintro rfl
      exact hl rfl
    -- the socket has no other descriptor, by which it could be closed
    have hsame : s'.shared.sock id = some r := by
      refine (hcloses.sock id r hs).resolve_right ?_
      rintro ⟨-, hused, -⟩
      obtain ⟨r₁, hr₁, hfd₁, -⟩ := (kept_sound hkept sock.owner).used fd id huse
      obtain ⟨r₂, hr₂, hfd₂, -⟩ := (kept_sound hkept sock.owner).used fd' id hused
      obtain rfl := Option.some.inj (hr₁.symm.trans hr₂)
      exact hfd (hfd₁.symm.trans hfd₂)
    exact ⟨r, sockAt_eq_ok.mpr ⟨(hcloses.others fd hfd).trans huse, hsame, hropen⟩, hgrows⟩
  · exact ⟨r, by rw [hshared, hr], hgrows⟩

/-- The step in which a datagram is sent. -/
theorem send_writes {p : Prog SysCall Answer ℤ} {g : Bool} {fd : ℤ} {msg : List UInt8}
    (hleft : ((IpcJob.sendDgram fd msg).code size).Left p)
    (ht : s.thread t = some (.sendDgram fd msg, p))
    (hnext : (ipc T size).system.next s (.step t g) = some s') :
    s'.shared = (s.shared.write fd msg g).2 := by
  obtain ⟨_, _, h, -⟩ | ⟨u, g', job', c, next, h, hu, rfl⟩ | ⟨_, _, _, h, -⟩ | ⟨_, h, -⟩ :=
    Service.next_cases hnext
  · cases h
  · cases h
    obtain ⟨rfl, rfl⟩ := Prod.mk.inj (Option.some.inj (ht.symm.trans hu))
    have hcode : (IpcJob.sendDgram fd msg).code size =
        .call (SysCall.write fd msg) fun _ => .done 0 := rfl
    rw [hcode] at hleft
    obtain hcall | ⟨a, hleft⟩ := left_call hleft
    · cases hcall
      rfl
    · cases left_done hleft
  · cases h
  · cases h

/-- **Clients stay.** A client that is connected goes on to the socket that had the path when it
was connected, as long as its descriptor is not closed, whoever takes the path afterwards. Each
datagram that is sent on the descriptor comes to that socket, as long as it is open and the
system takes it, and to no other; it is lost when the server has gone, also when there is
another, with the same path or the same number for its descriptor. -/
theorem ipc_clients_stay (hinit : (ipc T size).system.init s)
    (hrun : (ipc T size).system.run s ls = some s')
    (ht : s'.thread t = some (.connectDgram usockpath, .done r)) (hr : r ≠ -1)
    (hrun' : (ipc T size).system.run s' ls' = some s'') (hopen : PoolLabel.env r ∉ ls') :
    ∃ id, NamedDgram id (sunPath size usockpath) s'.shared ∧
      (∃ i sock, s''.shared.sockAt r = .ok (i, sock) ∧ sock.peer = some id) ∧
      ∀ u msg p g s₃, s''.thread u = some (.sendDgram r msg, p) →
        (ipc T size).system.next s'' (.step u g) = some s₃ →
        s₃.shared.mail =
          if (s''.shared.openSock id).isSome ∧ g = true then
            Function.update s''.shared.mail id (s''.shared.mail id ++ [msg])
          else s''.shared.mail := by
  obtain hr' | ⟨id, ⟨i, sock, huse, hs, -, -, hsopen, -, hpeer⟩, hnamed⟩ :=
    ipc_returns hinit hrun ht
  · exact absurd hr' hr
  obtain ⟨sock', hat', hgrows⟩ :=
    sockAt_run (ipc_kept hinit hrun) (sockAt_eq_ok.mpr ⟨huse, hs, hsopen⟩) hopen hrun'
  have hpeer' := hgrows.peer id hpeer
  refine ⟨id, hnamed, ⟨i, sock', hat', hpeer'⟩, fun u msg p g s₃ hu hnext => ?_⟩
  have hrun₂ : (ipc T size).system.run s (ls ++ ls') = some s'' := by
    rw [System.run_append, hrun]
    exact hrun'
  -- whoever sends, `write` looks at the peer of the descriptor, which is still the first one
  rw [send_writes (Service.left hinit hrun₂ hu) hu hnext]
  unfold UnixDomain.write
  rw [hat']
  simp only [hpeer']
  cases s''.shared.openSock id <;> cases g <;> simp

/-- A client of a server that was closed, and started again with the descriptor that it had. -/
theorem ipc_clients_stay_restart : ∃ s' s'' id, (ipc Bool 107).system.run (ipcStart Bool)
      [.start true (.dgramSocket somePath), .step true true, .step true true, .step true true,
        .leave true, .start false (.connectDgram somePath), .step false true, .step false true] =
        some s' ∧
    (ipc Bool 107).system.run s' [.env 0, .start true (.dgramSocket somePath), .step true true,
      .step true true, .step true true] = some s'' ∧
    s''.thread true = some (.dgramSocket somePath, .done 0) ∧
    ∃ i sock, s''.shared.sockAt 1 = .ok (i, sock) ∧ sock.peer = some id := by
  obtain ⟨s', s'', hrun, ht, hrun', ht'⟩ : ∃ s' s'', (ipc Bool 107).system.run (ipcStart Bool)
      [.start true (.dgramSocket somePath), .step true true, .step true true, .step true true,
        .leave true, .start false (.connectDgram somePath), .step false true, .step false true] =
        some s' ∧
      s'.thread false = some (.connectDgram somePath, .done 1) ∧
      (ipc Bool 107).system.run s' [.env 0, .start true (.dgramSocket somePath), .step true true,
        .step true true, .step true true] = some s'' ∧
      s''.thread true = some (.dgramSocket somePath, .done 0) := ⟨_, _, rfl, rfl, rfl, rfl⟩
  obtain ⟨id, -, hpeer, -⟩ :=
    ipc_clients_stay ⟨fun _ => rfl, ipcStart_shared⟩ hrun ht (by decide) hrun' (by simp)
  exact ⟨s', s'', id, hrun, hrun', ht', hpeer⟩

end Runs

end Posixc
