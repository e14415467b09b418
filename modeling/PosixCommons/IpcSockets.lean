import Mathlib.Data.PNat.Defs
import PosixCommons.IpcDomain

/-!
# Sockets with a path

The functions of `ipc.c` that open, name and connect sockets, as programs of threads: each call
of the system is a step, and the steps of different threads mix.

The functions cut a path to what `sun_path` has room for (`sunPath`), but `set_sockaddr_un`
unlinks the path as it is. No function closes a socket, so one that fails leaves its socket
open.
-/

open Framework

namespace Posixc

/-- A call, with what it returns. -/
def sys (c : SysCall) : Prog SysCall Answer ℤ := .call c fun a => .done a.rv

/-- A path in a `sun_path`, which has room for `size` bytes and the NUL after them. -/
def sunPath (size : ℕ+) (usockpath : SockPath) : SockPath :=
  ⟨usockpath.1.take size,
    fun hnil => (List.take_eq_nil_iff.mp hnil).elim size.ne_zero usockpath.2.1,
    fun hmem => usockpath.2.2 (List.mem_of_mem_take hmem)⟩

/-- A path is cut unless there is room for it. -/
theorem sunPath_eq_self {size : ℕ+} {usockpath : SockPath} :
    sunPath size usockpath = usockpath ↔ usockpath.1.length ≤ size := by
  constructor
  · intro heq
    have hlen : (sunPath size usockpath).1.length = min (size : ℕ) usockpath.1.length :=
      List.length_take
    rw [heq] at hlen
    omega
  · exact fun hroom => Subtype.ext (List.take_of_length_le hroom)

/-- `set_sockaddr_un`. -/
def setSockaddrUn (size : ℕ+) (usockpath : SockPath) : Prog SysCall Answer SockPath := do
  -- the path as it is, whether or not there is room for it
  let _ ← sys (.unlink usockpath)
  return sunPath size usockpath

/-- `posixc_ipc_dgram_socket`. -/
def ipcDgramSocket (size : ℕ+) (usockpath : SockPath) : Prog SysCall Answer ℤ := do
  let fd ← sys (.socket .dgram)
  if fd = -1 then return -1
  else do
    let addr ← setSockaddrUn size usockpath
    let rv ← sys (.bind fd addr)
    -- `fd` is not closed, here and where the other functions fail
    if rv = -1 then return -1
    else return fd

/-- `posixc_ipc_usockpath_already_used`. The descriptor is not looked at before it is used. -/
def ipcUsockpathAlreadyUsed (size : ℕ+) (usockpath : SockPath) : Prog SysCall Answer Bool := do
  let fd ← sys (.socket .stream)
  -- `fd` may be -1, and then the call answers `EBADF`; a call that would wait answers `EAGAIN`
  let answer ← Prog.call (.connect fd (sunPath size usockpath)) .done
  if answer = .error .econnrefused then return false
  else return true

/-- `posixc_ipc_nonblock_stream_socket`. -/
def ipcNonblockStreamSocket (size : ℕ+) (usockpath : SockPath) : Prog SysCall Answer ℤ := do
  let fd ← sys (.socket .stream)
  if fd = -1 then return -1
  else do
    let addr ← setSockaddrUn size usockpath
    let rv ← sys (.bind fd addr)
    if rv = -1 then return -1
    else do
      let rv ← sys (.listen fd)
      if rv ≠ 0 then do
        -- what is at the path now, which need not be the socket that was bound
        let _ ← sys (.unlink usockpath)
        return -1
      else return fd

/-- `posixc_ipc_connect_dgram`. -/
def ipcConnectDgram (size : ℕ+) (usockpath : SockPath) : Prog SysCall Answer ℤ := do
  let fd ← sys (.socket .dgram)
  if fd = -1 then return -1
  else do
    let rv ← sys (.connect fd (sunPath size usockpath))
    if rv = -1 then return -1
    else return fd

/-- `posixc_ipc_send_dgram`. -/
def ipcSendDgram (fd : ℤ) (msg : List UInt8) : Prog SysCall Answer Unit := do
  let _ ← sys (.write fd msg)
  return ()

/-- The calls of the functions. -/
inductive IpcJob
  | dgramSocket (usockpath : SockPath)
  | usockpathAlreadyUsed (usockpath : SockPath)
  | nonblockStreamSocket (usockpath : SockPath)
  | connectDgram (usockpath : SockPath)
  | sendDgram (fd : ℤ) (msg : List UInt8)

/-- The function of a call, with its result as an `int`. -/
def IpcJob.code (size : ℕ+) : IpcJob → Prog SysCall Answer ℤ
  | .dgramSocket usockpath => ipcDgramSocket size usockpath
  | .usockpathAlreadyUsed usockpath => do
    let used ← ipcUsockpathAlreadyUsed size usockpath
    return if used then 1 else 0
  | .nonblockStreamSocket usockpath => ipcNonblockStreamSocket size usockpath
  | .connectDgram usockpath => ipcConnectDgram size usockpath
  | .sendDgram fd msg => do
    ipcSendDgram fd msg
    return 0

/-- Threads that call the functions, and close descriptors. At first there are no sockets. -/
def ipc (T : Type) [DecidableEq T] (size : ℕ+) :
    Service T IpcJob SysCall Answer Bool ℤ ℤ (UnixDomain T) where
  code := IpcJob.code size
  perform := SysCall.perform
  finish t _ d := d.returns t
  disturb fd d := d.close fd
  -- files and directories may be there, and descriptors of files
  init d := d.opened = 0 ∧ (∀ id, d.sock id = none) ∧
    (∀ fd id, d.use fd ≠ some (.socket id)) ∧ ∀ path id, d.names path ≠ some (.socket id)

theorem ipcDgramSocket_eq (size : ℕ+) (usockpath : SockPath) :
    ipcDgramSocket size usockpath = .call (.socket .dgram) fun a =>
      if a.rv = -1 then .done (-1) else .call (.unlink usockpath) fun _ =>
        .call (.bind a.rv (sunPath size usockpath)) fun b =>
          if b.rv = -1 then .done (-1) else .done a.rv := by
  refine congrArg (Prog.call _) (funext fun a => ?_)
  change Prog.bind (.done a.rv) _ = _
  dsimp only [Prog.bind]
  split_ifs
  · rfl
  · rfl

theorem ipcNonblockStreamSocket_eq (size : ℕ+) (usockpath : SockPath) :
    ipcNonblockStreamSocket size usockpath = .call (.socket .stream) fun a =>
      if a.rv = -1 then .done (-1) else .call (.unlink usockpath) fun _ =>
        .call (.bind a.rv (sunPath size usockpath)) fun b =>
          if b.rv = -1 then .done (-1) else .call (.listen a.rv) fun c =>
            if c.rv ≠ 0 then .call (.unlink usockpath) fun _ => .done (-1) else .done a.rv := by
  refine congrArg (Prog.call _) (funext fun a => ?_)
  change Prog.bind (.done a.rv) _ = _
  dsimp only [Prog.bind]
  split_ifs
  · rfl
  · refine congrArg (Prog.call _) (funext fun _ => congrArg (Prog.call _) (funext fun b => ?_))
    change Prog.bind (.done b.rv) _ = _
    dsimp only [Prog.bind]
    split_ifs
    · rfl
    · refine congrArg (Prog.call _) (funext fun c => ?_)
      change Prog.bind (.done c.rv) _ = _
      dsimp only [Prog.bind]
      split_ifs <;> rfl

theorem ipcConnectDgram_eq (size : ℕ+) (usockpath : SockPath) :
    ipcConnectDgram size usockpath = .call (.socket .dgram) fun a =>
      if a.rv = -1 then .done (-1) else .call (.connect a.rv (sunPath size usockpath)) fun b =>
        if b.rv = -1 then .done (-1) else .done a.rv := by
  refine congrArg (Prog.call _) (funext fun a => ?_)
  change Prog.bind (.done a.rv) _ = _
  dsimp only [Prog.bind]
  split_ifs <;> rfl

theorem usockpathAlreadyUsed_eq (size : ℕ+) (usockpath : SockPath) :
    (IpcJob.usockpathAlreadyUsed usockpath).code size = .call (.socket .stream) fun a =>
      .call (.connect a.rv (sunPath size usockpath)) fun b =>
        .done (if b = .error .econnrefused then 0 else 1) := by
  refine congrArg (Prog.call _) (funext fun a => congrArg (Prog.call _) (funext fun b => ?_))
  dsimp only [bind, Prog.bind]
  split_ifs <;> rfl

end Posixc
