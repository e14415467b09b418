import PosixCommons.IpcThreads

/-!
# The name of a server

`posixc_ipc_dgram_socket` unlinks its path and binds it, in two steps. A thread that has the path
for itself takes the name from whoever had it, when the path is short enough for the unlink to
be one of the name (`ipc_dgram_socket_alone`). Two threads with one path can each unlink it
before either binds, and then one of them fails (`ipc_dgram_socket_races`), which
`posixc_asynclogsvr_init` takes to be impossible.
-/

open Framework

namespace Posixc

open UnixDomain

variable {T : Type} [DecidableEq T] {size : ℕ+}

/-! ### A name for one socket -/

/-- What the others leave to a thread that has a name for itself: what is at the name. -/
def LeavesName (size : ℕ+) (t : T) (usockpath : SockPath) (d d' : UnixDomain T) : Prop :=
  (ipc T size).others Moves t d d' ∧
    d'.names (sunPath size usockpath) = d.names (sunPath size usockpath)

/-- What a `posixc_ipc_dgram_socket` that began at `d₀` comes to: it fails when the name was
taken, unless the path is short, so that its unlink is one of the name, and no directory is
there. The socket that was opened is left open in either case. -/
structure TakesName (size : ℕ+) (t : T) (usockpath : SockPath) (d₀ : UnixDomain T) (r : ℤ)
    (d : UnixDomain T) : Prop where
  succeeds : r ≠ -1 ↔ d₀.names (sunPath size usockpath) = none ∨
    usockpath.1.length ≤ size ∧ d₀.names (sunPath size usockpath) ≠ some .directory
  name : r ≠ -1 → ∃ id, d.use r = some (.socket id) ∧
    d.names (sunPath size usockpath) = some (.socket id)
  leaves : ∃ id s, d₀.sock id = none ∧ d.sock id = some s ∧ d.use s.fd = some (.socket id) ∧
    s.owner = t ∧ s.isOpen = true ∧ s.returned = false ∧ (r ≠ -1 → r = s.fd)

section Alone

variable {d₀ d d' : UnixDomain T} {t : T} {usockpath : SockPath} {fd r : ℤ} {id : ℕ}
  {e : Option PathEntry}

/-- The contract of a thread that calls `posixc_ipc_dgram_socket` and has the name for itself. -/
def aloneContract (size : ℕ+) (t : T) (usockpath : SockPath) (d₀ : UnixDomain T) :
    Contract ℤ (UnixDomain T) :=
  ⟨LeavesName size t usockpath, fun _ _ => True, fun _ => True, TakesName size t usockpath d₀⟩

/-- Before the socket is opened. -/
structure Begun (size : ℕ+) (usockpath : SockPath) (d₀ d : UnixDomain T) : Prop where
  sound : d.Sound
  name : d.names (sunPath size usockpath) = d₀.names (sunPath size usockpath)
  opened : ∀ id, d.sock id = none → d₀.sock id = none

/-- The socket is open, with `e` at the name. -/
structure HasSocket (size : ℕ+) (t : T) (usockpath : SockPath) (d₀ : UnixDomain T) (fd : ℤ)
    (id : ℕ) (e : Option PathEntry) (d : UnixDomain T) : Prop where
  name : d.names (sunPath size usockpath) = e
  fresh : d₀.sock id = none
  use : d.use fd = some (.socket id)
  sock : d.sock id = some ⟨.dgram, t, fd, true, false, none, none, none⟩

theorem stable_begun :
    Stable (aloneContract size t usockpath d₀).rely (Begun size usockpath d₀) := by
  rintro d d' ⟨hothers, hname⟩ h
  refine ⟨others_sound hothers h.sound, hname.trans h.name, fun id hid => h.opened id ?_⟩
  -- a socket that there is not now was not there before
  rw [Option.eq_none_iff_forall_ne_some]
  intro s hs
  obtain ⟨s', hs', -⟩ := others_grows hothers hs
  rw [hid] at hs'
  cases hs'

theorem stable_hasSocket :
    Stable (aloneContract size t usockpath d₀).rely
      (HasSocket size t usockpath d₀ fd id e) := by
  rintro d d' ⟨hothers, hname⟩ h
  obtain ⟨huse, hsock⟩ := others_mine hothers h.use h.sock rfl rfl
  exact ⟨hname.trans h.name, h.fresh, huse, hsock⟩

theorem stable_takesName :
    Stable (aloneContract size t usockpath d₀).rely (TakesName size t usockpath d₀ r) := by
  rintro d d' ⟨hothers, hname⟩ h
  obtain ⟨id, s, hfresh, hs, huse, ht, hopen, hreturned, hr⟩ := h.leaves
  obtain ⟨huse', hs'⟩ := others_mine hothers huse hs ht hreturned
  refine ⟨h.succeeds, fun hne => ?_, id, s, hfresh, hs', huse', ht, hopen, hreturned, hr⟩
  -- what is returned is the descriptor of that socket
  obtain ⟨i, hi, hpath⟩ := h.name hne
  rw [hr hne] at hi ⊢
  exact ⟨i, huse'.trans (huse.symm.trans hi), hname.trans hpath⟩

omit [DecidableEq T] in
/-- What the unlink of the path leaves at the name. -/
theorem unlink_name (size : ℕ+) {granted : Bool} {a : Answer}
    (hgranted : granted = true) (h : d.unlink usockpath granted = (a, d')) :
    d'.names (sunPath size usockpath) = none ↔ d.names (sunPath size usockpath) = none ∨
      usockpath.1.length ≤ size ∧ d.names (sunPath size usockpath) ≠ some .directory := by
  by_cases hshort : usockpath.1.length ≤ size
  · rw [sunPath_eq_self.mpr hshort]
    obtain ⟨rfl, hleft⟩ | ⟨rfl, hne⟩ := unlink_cases h
    · rcases hleft hgranted with hnone | hdir
      · simp [hnone]
      · simp [hdir]
    · simp [hne, hshort]
  · -- the name is shorter than the path, so it is not what is unlinked
    have hpath : sunPath size usockpath ≠ usockpath := mt sunPath_eq_self.mp hshort
    have hsame : d'.names (sunPath size usockpath) = d.names (sunPath size usockpath) := by
      obtain ⟨rfl, -⟩ | ⟨rfl, -⟩ := unlink_cases h
      · rfl
      · exact Function.update_of_ne hpath _ _
    rw [hsame]
    simp [hshort]

theorem dgramSocket_alone (hsound : d₀.Sound) :
    (ipcDgramSocket size usockpath).Meets (SysCall.perform t) (fun _ g => g = true)
      (aloneContract size t usockpath d₀) d₀ := by
  rw [ipcDgramSocket_eq]
  refine meets_call stable_begun ⟨hsound, rfl, fun _ => id⟩ (fun _ _ => trivial)
    fun d g hbegun hg => ⟨trivial, ?_⟩
  rcases hx : SysCall.perform t (.socket .dgram) g d with ⟨a, d₁⟩
  -- `socket` is granted, with a descriptor that was free
  subst hg
  obtain ⟨d₁', hsocket, hat, -, -, hnames, -⟩ := socket_granted d t .dgram
  obtain ⟨rfl, rfl⟩ := Prod.mk.inj (hsocket.symm.trans hx)
  have hnone : d.sock d.opened = none := by
    rw [Option.eq_none_iff_forall_ne_some]
    intro s hs
    exact absurd (hbegun.sound.given _ s hs) (Nat.lt_irrefl _)
  have hfd : Answer.rv (.ok d.lowestFree) ≠ -1 := by
    change (d.lowestFree : ℤ) ≠ -1
    omega
  dsimp only
  rw [if_neg hfd]
  obtain ⟨huse, hsock, -⟩ := sockAt_eq_ok.mp hat
  have hsocket : HasSocket size t usockpath d₀ d.lowestFree d.opened
      (d₀.names (sunPath size usockpath)) d₁' :=
    ⟨(congrFun hnames _).trans hbegun.name, hbegun.opened _ hnone, huse, hsock⟩
  refine meets_call stable_hasSocket hsocket (fun _ _ => trivial)
    fun d₂ g hsocket hg => ⟨trivial, ?_⟩
  rcases hx : SysCall.perform t (.unlink usockpath) g d₂ with ⟨b, d₃⟩
  have hfree := unlink_name size hg hx
  obtain ⟨-, huse, hsock⟩ := unlink_leaves (t := t) hx
  rw [hsocket.name] at hfree
  refine meets_call stable_hasSocket ⟨rfl, hsocket.fresh, (huse _).trans hsocket.use,
    by rw [hsock]; exact hsocket.sock⟩ (fun _ _ => trivial) fun d₄ g hsocket hg => ⟨trivial, ?_⟩
  -- what `bind` answers depends on what the unlink left at the name
  have hat : d₄.sockAt (Answer.rv (.ok d.lowestFree)) =
      .ok (d.opened, ⟨.dgram, t, d.lowestFree, true, false, none, none, none⟩) :=
    sockAt_eq_ok.mpr ⟨hsocket.use, hsocket.sock, rfl⟩
  cases hname : d₃.names (sunPath size usockpath) with
  | some entry =>
    rw [show SysCall.perform t (.bind _ _) g d₄ = _ from
      bind_taken hat rfl (hsocket.name.trans hname)]
    dsimp only
    rw [if_pos (Answer.rv_error _)]
    refine meets_done stable_takesName ⟨⟨fun h => absurd rfl h, fun h => ?_⟩,
      fun h => absurd rfl h, d.opened, _, hsocket.fresh, hsocket.sock, hsocket.use, rfl, rfl, rfl,
      fun h => absurd rfl h⟩
    rw [hname] at hfree
    cases hfree.mpr h
  | none =>
    rw [hg, show SysCall.perform t (.bind _ _) true d₄ = _ from
      bind_free hat rfl (hsocket.name.trans hname)]
    have hbound : Answer.rv (.ok 0) ≠ -1 := by decide
    dsimp only
    rw [if_neg hbound]
    exact meets_done stable_takesName ⟨⟨fun _ => hfree.mp hname, fun _ => hfd⟩,
      fun _ => ⟨d.opened, hsocket.use, Function.update_self _ _ _⟩, d.opened, _, hsocket.fresh,
      Function.update_self _ _ _, hsocket.use, rfl, rfl, rfl, fun _ => rfl⟩

end Alone

section Runs

variable {s s' s'' : Pool T IpcJob SysCall Answer ℤ (UnixDomain T)}
  {ls ls' : List (PoolLabel T IpcJob Bool ℤ)} {t : T} {job : IpcJob} {r : ℤ}
  {usockpath : SockPath}

/-! ### Taking a name -/

/-- A step that leaves a thread its path: its own calls are not refused, and nobody else changes
what is at the name. -/
structure AloneStep (size : ℕ+) (t : T) (usockpath : SockPath)
    (s : Pool T IpcJob SysCall Answer ℤ (UnixDomain T)) (l : PoolLabel T IpcJob Bool ℤ) :
    Prop where
  granted : ∀ g, l = .step t g → g = true
  stays : l ≠ .leave t
  name : (∀ g, l ≠ .step t g) → ∀ s', (ipc T size).system.next s l = some s' →
    s'.shared.names (sunPath size usockpath) = s.shared.names (sunPath size usockpath)

theorem AloneStep.goesAlong {d₀ : UnixDomain T} {l : PoolLabel T IpcJob Bool ℤ}
    (hkept : (ipcDiscipline T size).Kept s) (hl : AloneStep size t usockpath s l)
    (hnext : (ipc T size).system.next s l = some s') :
    GoesAlong (fun _ g => g = true) (aloneContract size t usockpath d₀).rely t s l s' := by
  refine ⟨fun g _ _ _ hstep _ => hl.granted g hstep, hl.stays, fun hother => ?_⟩
  -- besides what the others guarantee they leave the name
  exact (hkept.others (ipc_allowed s l) hnext hother hl.stays).imp_left fun h =>
    ⟨h, hl.name hother s' hnext⟩

/-- **A name is taken.** A call of `posixc_ipc_dgram_socket` in any run in which the others leave
the name to it, and no call of the system is refused: with a path that `sun_path` has room for it
takes the name, whoever had it, unless a directory is there; a path that is cut is bound only
where the name is free, since the unlink is not one of the name. When it fails its socket stays
open. -/
theorem ipc_dgram_socket_alone (hinit : (ipc T size).system.init s)
    (hrun : (ipc T size).system.run s ls = some s')
    (hrun' : (ipc T size).system.run s' (.start t (.dgramSocket usockpath) :: ls') = some s'')
    (halone : (ipc T size).system.Guarded (AloneStep size t usockpath) s'
      (.start t (.dgramSocket usockpath) :: ls'))
    (ht : s''.thread t = some (job, .done r)) :
    TakesName size t usockpath s'.shared r s''.shared := by
  have hkept := ipc_kept hinit hrun
  obtain ⟨s₁, hstart, hrun₁⟩ := System.run_cons_eq_some.mp hrun'
  have hkept₁ : (ipcDiscipline T size).Kept s₁ := hkept.next (ipc_allowed _ _) hstart
  have hguard := halone.2 s₁ hstart
  obtain ⟨_, _, h, -, rfl⟩ | ⟨_, _, _, _, _, h, -⟩ | ⟨_, _, _, h, -⟩ | ⟨_, h, -⟩ :=
    Service.next_cases hstart
  · cases h
    obtain ⟨p, hp, hmeets⟩ := run_meets
      (fun s l s' hkept hl hnext =>
        ⟨hkept.next (ipc_allowed s l) hnext, hl.goesAlong hkept hnext⟩)
      hkept₁ (Function.update_self _ _ _) (dgramSocket_alone (kept_sound hkept t)) hguard
      hrun₁
    rw [ht] at hp
    obtain ⟨-, rfl⟩ := Prod.mk.inj (Option.some.inj hp)
    exact hmeets.post
  · cases h
  · cases h
  · cases h

/-- A thread that is alone. -/
theorem ipc_dgram_socket_alone_one : ∃ s', (ipc Bool 107).system.run (ipcStart Bool)
      [.start true (.dgramSocket somePath), .step true true, .step true true, .step true true] =
        some s' ∧
    TakesName 107 true somePath (ipcStart Bool).shared 0 s'.shared := by
  obtain ⟨s', hrun, ht⟩ : ∃ s', (ipc Bool 107).system.run (ipcStart Bool)
      [.start true (.dgramSocket somePath), .step true true, .step true true, .step true true] =
        some s' ∧ s'.thread true = some (.dgramSocket somePath, .done 0) := ⟨_, rfl, rfl⟩
  have hown : ∀ s, AloneStep 107 true somePath s (.step true true) := fun s =>
    ⟨fun g hg => (PoolLabel.step.inj hg).2.symm, nofun, fun h => absurd rfl (h true)⟩
  have hstart :
      AloneStep 107 true somePath (ipcStart Bool) (.start true (.dgramSocket somePath)) := by
    refine ⟨nofun, nofun, fun _ s hs => ?_⟩
    cases hs
    rfl
  have hbefore : (ipc Bool 107).system.run (ipcStart Bool) [] = some (ipcStart Bool) := rfl
  exact ⟨s', hrun, ipc_dgram_socket_alone
    ⟨fun _ => rfl, ipcStart_shared⟩ hbefore hrun ⟨hstart, fun _ _ => ⟨hown _, fun _ _ =>
      ⟨hown _, fun _ _ => ⟨hown _, fun _ _ => trivial⟩⟩⟩⟩ ht⟩

/-- **A name can be lost to another.** When two threads call `posixc_ipc_dgram_socket` with one
path, the steps can mix so that one of the calls fails, though no call of the system is refused
and both threads unlink the path first. -/
theorem ipc_dgram_socket_races {u : T} (htu : t ≠ u) (hshort : usockpath.1.length ≤ size)
    (ht : s.thread t = none) (hu : s.thread u = none)
    (hdir : s.shared.names usockpath ≠ some .directory) :
    ∃ ls s', (∀ l ∈ ls, ∀ v g, l = .step v g → g = true) ∧
      (ipc T size).system.run s ls = some s' ∧
      s'.thread t = some (.dgramSocket usockpath, .done s.shared.lowestFree) ∧
      s'.thread u = some (.dgramSocket usockpath, .done (-1)) := by
  have hpath : sunPath size usockpath = usockpath := sunPath_eq_self.mpr hshort
  have hcode : (ipc T size).code (.dgramSocket usockpath) = _ :=
    ipcDgramSocket_eq size usockpath
  obtain ⟨s₁, hnext₁, ht₁, hothers₁, hshared₁⟩ :=
    Service.starts (v := ipc T size) ht (.dgramSocket usockpath)
  obtain ⟨s₂, hnext₂, hu₂, hothers₂, hshared₂⟩ :=
    Service.starts (v := ipc T size) ((hothers₁ u htu.symm).trans hu) (.dgramSocket usockpath)
  rw [hcode] at ht₁ hu₂
  -- each opens a socket
  obtain ⟨d₃, hsocket₃, hat₃, -, hopened₃, hnames₃, -⟩ := socket_granted s₂.shared t .dgram
  obtain ⟨s₃, hnext₃, ht₃, hothers₃, rfl⟩ :=
    Service.steps (v := ipc T size) (g := true) ((hothers₂ t htu).trans ht₁) hsocket₃
  obtain ⟨d₄, hsocket₄, hat₄, hkeep₄, -, hnames₄, -⟩ := socket_granted s₃.shared u .dgram
  obtain ⟨s₄, hnext₄, hu₄, hothers₄, rfl⟩ :=
    Service.steps (v := ipc T size) (g := true) ((hothers₃ u htu.symm).trans hu₂) hsocket₄
  have hne₃ : Answer.rv (.ok s₂.shared.lowestFree) ≠ -1 := by
    change (s₂.shared.lowestFree : ℤ) ≠ -1
    omega
  have hne₄ : Answer.rv (.ok s₃.shared.lowestFree) ≠ -1 := by
    change (s₃.shared.lowestFree : ℤ) ≠ -1
    omega
  rw [if_neg hne₃] at ht₃
  rw [if_neg hne₄] at hu₄
  -- each unlinks the path
  rcases hunlink₅ : s₄.shared.unlink usockpath true with ⟨b₅, d₅⟩
  obtain ⟨s₅, hnext₅, ht₅, hothers₅, rfl⟩ :=
    Service.steps (v := ipc T size) (g := true) ((hothers₄ t htu).trans ht₃) hunlink₅
  rcases hunlink₆ : s₅.shared.unlink usockpath true with ⟨b₆, d₆⟩
  obtain ⟨s₆, hnext₆, hu₆, hothers₆, rfl⟩ :=
    Service.steps (v := ipc T size) (g := true) ((hothers₅ u htu.symm).trans hu₄) hunlink₆
  obtain ⟨-, huse₅, hsock₅⟩ := unlink_leaves (t := t) hunlink₅
  obtain ⟨-, huse₆, hsock₆⟩ := unlink_leaves (t := t) hunlink₆
  have hat : ∀ fd, s₆.shared.sockAt fd = s₄.shared.sockAt fd :=
    sockAt_congr (fun fd => (huse₆ fd).trans (huse₅ fd)) (hsock₆.trans hsock₅)
  have hdir₄ : s₄.shared.names (sunPath size usockpath) ≠ some .directory := by
    rw [hnames₄, hnames₃, hshared₂, hshared₁, hpath]
    exact hdir
  have hname₅ := (unlink_name size rfl hunlink₅).mpr (.inr ⟨hshort, hdir₄⟩)
  have hname₆ := (unlink_name size rfl hunlink₆).mpr (.inl hname₅)
  -- the path is free once
  have hne : s₂.shared.opened ≠ s₃.shared.opened := by omega
  obtain ⟨d₇, hbind₇, hbind₈⟩ := bind_twice hne
    ((hat _).trans (hkeep₄ _ _ _ hne hat₃)) rfl ((hat _).trans hat₄) rfl hname₆
  obtain ⟨s₇, hnext₇, ht₇, hothers₇, rfl⟩ :=
    Service.steps (v := ipc T size) (g := true) ((hothers₆ t htu).trans ht₅) hbind₇
  obtain ⟨s₈, hnext₈, hu₈, hothers₈, -⟩ :=
    Service.steps (v := ipc T size) (g := true) ((hothers₇ u htu.symm).trans hu₆) hbind₈
  refine ⟨[.start t (.dgramSocket usockpath), .start u (.dgramSocket usockpath), .step t true,
    .step u true, .step t true, .step u true, .step t true, .step u true], s₈, by simp, ?_, ?_, hu₈⟩
  · simp only [System.run, hnext₁, hnext₂, hnext₃, hnext₄, hnext₅, hnext₆, hnext₇, hnext₈,
      Option.bind_some]
  · rw [hothers₈ t htu, ht₇, ← hshared₁, ← hshared₂]
    rfl

/-- Two servers that are started at the same time. -/
theorem ipc_dgram_socket_races_two :
    ∃ ls s', (ipc Bool 107).system.run (ipcStart Bool) ls = some s' ∧
      s'.thread true = some (.dgramSocket somePath, .done 0) ∧
      s'.thread false = some (.dgramSocket somePath, .done (-1)) := by
  have htu : true ≠ false := by decide
  have hshort : somePath.1.length ≤ (107 : ℕ+) := by decide
  obtain ⟨ls, s', -, hrun, ht, hu⟩ :=
    ipc_dgram_socket_races (s := ipcStart Bool) htu hshort rfl rfl nofun
  exact ⟨ls, s', hrun, ht, hu⟩

end Runs

end Posixc
