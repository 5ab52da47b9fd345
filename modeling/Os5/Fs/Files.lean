import Os5.Fs.Pipes
import Os5.Lib.Cells

/-!
# Descriptors and inodes

Every process has a table of 256 slots that point to descriptors, which several
slots may share; a descriptor points to an inode. Both are freed when their count
of users drops to zero, an inode of the mount tree excepted. The names along a
path are taken for what they lead to. A system call that indexes the table outside
its bounds, or follows a null pointer or a pointer to freed memory, has no result.
-/

namespace Os5

abbrev Pid := Nat
abbrev Ino := Nat
abbrev DescId := Nat
abbrev EntryId := Nat
abbrev PipeId := Nat

abbrev numFiledes : Nat := 256

inductive Errno
  | EBADF
  | EMFILE
  | ENOENT
  | EACCES
  | EFAULT
  | EINVAL
  | ESPIPE
  deriving DecidableEq, Repr

/-- The driver of an inode, and the part of its data that finds its place there. -/
inductive Driver
  | tarfs (e : EntryId)
  | pipe (k : PipeId) (e : PipeEnd)
  | debug
  deriving DecidableEq, Repr

structure Inode where
  driver : Driver
  /-- `in_vfs_tree` -/
  inTree : Bool
  users : Nat
  deriving DecidableEq, Repr

structure FileDesc where
  ino : Option Ino
  offset : Nat
  flags : Nat
  users : Nat
  deriving DecidableEq, Repr

structure TarfsEntry where
  buffer : Option Ino
  users : Nat
  deriving DecidableEq, Repr

structure Files where
  live : Finset Pid
  nextPid : Pid
  fd : Pid → Nat → Option DescId
  desc : DescId → Option FileDesc
  nextDesc : DescId
  inode : Ino → Option Inode
  nextIno : Ino
  entry : EntryId → TarfsEntry
  pipe : PipeId → Pipe
  nextPipe : PipeId
  /-- How often a driver opened an inode for itself, as `keyboard_init` does. -/
  kept : Ino → Nat

abbrev Reply := Except Errno Int

namespace Files

def setFd (s : Files) (p : Pid) (i : Nat) (d : Option DescId) : Files :=
  { s with fd := Function.update s.fd p (Function.update (s.fd p) i d) }
def setDesc (s : Files) (d : DescId) (f : Option FileDesc) : Files :=
  { s with desc := Function.update s.desc d f }
def setInode (s : Files) (i : Ino) (n : Option Inode) : Files :=
  { s with inode := Function.update s.inode i n }
def setEntry (s : Files) (e : EntryId) (t : TarfsEntry) : Files :=
  { s with entry := Function.update s.entry e t }
def setPipe (s : Files) (k : PipeId) (p : Pipe) : Files :=
  { s with pipe := Function.update s.pipe k p }

-- ---------------------------------------------------------------------------
-- Inodes
-- ---------------------------------------------------------------------------

/-- `open` of the driver: `open_tar`, `pipe_open` and `debug_open` return 0. -/
def driverOpen (s : Files) : Driver → Int × Files
  | .tarfs _ => (0, s)
  | .pipe k e => (0, s.setPipe k (pipeOpen (s.pipe k) e))
  | .debug => (0, s)

def driverClose (s : Files) : Driver → Int × Files
  | .tarfs _ => (0, s)
  | .pipe k e => (0, s.setPipe k (pipeClose (s.pipe k) e))
  | .debug => (0, s)

def vfsOpen (s : Files) (ino : Ino) : Option (Int × Files) := do
  let n ← s.inode ino
  return (s.setInode ino (some { n with users := n.users + 1 })).driverOpen n.driver

def vfsClose (s : Files) (ino : Ino) : Option (Int × Files) := do
  let n ← s.inode ino
  return (s.setInode ino (some { n with users := decr n.users })).driverClose n.driver

def flushTar (s : Files) (e : EntryId) : Files :=
  let t := s.entry e
  if decr t.users = 0 then
    let s := match t.buffer with
      | some b => s.setInode b none
      | none => s
    s.setEntry e ⟨none, 0⟩
  else s.setEntry e { t with users := decr t.users }

def vfsFree (s : Files) (ino : Ino) : Option Files := do
  let n ← s.inode ino
  if n.inTree then
    return s
  if 0 < n.users then
    return s
  match n.driver with
  | .tarfs e => return s.flushTar e
  | .pipe _ _ => return s.setInode ino none
  | .debug => return s.setInode ino none

def tarGetInode (s : Files) (e : EntryId) : Ino × Files :=
  match (s.entry e).buffer with
  | some b => (b, s.setEntry e { s.entry e with users := (s.entry e).users + 1 })
  | none =>
    (s.nextIno, { (s.setInode s.nextIno (some ⟨.tarfs e, false, 0⟩)).setEntry e ⟨some s.nextIno, 1⟩ with
      nextIno := s.nextIno + 1 })

/-- What a name on the path leads to: a node of the mount tree or an entry of a
tarfs directory. -/
inductive Hop
  | mounted (ino : Ino)
  | entry (e : EntryId)
  deriving DecidableEq, Repr

def vfsFinddir (s : Files) : Hop → Option (Ino × Files)
  | .mounted ino => do
    let n ← s.inode ino
    if n.inTree then return (ino, s) else none
  | .entry e => some (s.tarGetInode e)

/-- The loop of `vfs_namei_mount` from `current` on; the last name may be missing. -/
def walk (s : Files) (current : Ino) (missing : Bool) : List Hop → Option (Option Ino × Files)
  | [] =>
    if missing then do
      let s ← s.vfsFree current
      return (none, s)
    else some (some current, s)
  | hop :: hops => do
    let (next, s) ← s.vfsFinddir hop
    let s ← s.vfsFree current
    s.walk next missing hops

structure Path where
  mount : Ino
  hops : List Hop
  missing : Bool
  deriving DecidableEq, Repr

def vfsNamei (s : Files) (path : Path) : Option (Option Ino × Files) := do
  let (root, s) ← s.vfsFinddir (.mounted path.mount)
  s.walk root path.missing path.hops

-- ---------------------------------------------------------------------------
-- Descriptors
-- ---------------------------------------------------------------------------

def fdGet (s : Files) (d : DescId) : Option Files := do
  let f ← s.desc d
  return s.setDesc d (some { f with users := f.users + 1 })

def fdPut (s : Files) (d : DescId) : Option Files := do
  let f ← s.desc d
  return s.setDesc d (if decr f.users = 0 then none else some { f with users := decr f.users })

def freeFd (s : Files) (p : Pid) : Option Nat :=
  (List.range numFiledes).find? fun i => (s.fd p i).isNone

def allocFd (s : Files) (p : Pid) (i : Nat) : DescId × Files :=
  (s.nextDesc, { (s.setDesc s.nextDesc (some ⟨none, 0, 0, 1⟩)).setFd p i (some s.nextDesc) with
    nextDesc := s.nextDesc + 1 })

/-- The slot `p->fd[file]` means. -/
def index (file : Int) : Option Nat :=
  if 0 ≤ file ∧ file < numFiledes then some file.toNat else none

def closeSlot (s : Files) (p : Pid) (i : Nat) : Option (Reply × Files) := do
  let d ← s.fd p i
  let f ← s.desc d
  match f.ino with
  | none => return (.error .EBADF, s)
  | some ino =>
    let (retval, s) ← s.vfsClose ino
    let s ← s.vfsFree ino
    let s ← s.fdPut d
    return (.ok retval, s.setFd p i none)

def close (s : Files) (p : Pid) (file : Int) : Option (Reply × Files) := do
  let i ← index file
  s.closeSlot p i

def «open» (s : Files) (p : Pid) (path : Path) (flags : Nat) : Option (Reply × Files) :=
  match s.freeFd p with
  | none => return (.error .EMFILE, s)
  | some fd => do
    let (d, s) := s.allocFd p fd
    let (node, s) ← s.vfsNamei path
    match node with
    | none =>
      let s ← s.fdPut d
      return (.error .ENOENT, s.setFd p fd none)
    | some node =>
      let (retval, s) ← s.vfsOpen node
      if retval < 0 then
        let s ← s.vfsFree node
        let s ← s.fdPut d
        return (.error .EACCES, s.setFd p fd none)
      let f ← s.desc d
      return (.ok fd, s.setDesc d (some { f with ino := some node, offset := 0, flags := flags }))

/-- `fildes` is compared with zero when the slot has been read. -/
def dup (s : Files) (p : Pid) (fildes : Int) : Option (Reply × Files) := do
  let i ← index fildes
  match s.fd p i with
  | none => return (.error .EBADF, s)
  | some d =>
    match s.freeFd p with
    | none => return (.error .EMFILE, s)
    | some fd =>
      let s ← (s.setFd p fd (some d)).fdGet d
      return (.ok fd, s)

def dup2 (s : Files) (p : Pid) (fildes1 fildes2 : Int) : Option (Reply × Files) := do
  let i ← index fildes1
  match s.fd p i with
  | none => return (.error .EBADF, s)
  | some d =>
    if fildes2 < 0 then
      return (.error .EBADF, s)
    if numFiledes ≤ fildes2 then
      return (.error .EMFILE, s)
    if fildes1 = fildes2 then
      return (.ok fildes2, s)
    let j := fildes2.toNat
    let s ←
      if (s.fd p j).isSome then do
        let (_, s) ← s.closeSlot p j
        pure s
      else pure s
    let s ← (s.setFd p j (some d)).fdGet d
    return (.ok fildes2, s)

def newPipe (s : Files) (size : Nat) : (Ino × Ino) × Files :=
  let s := s.setPipe s.nextPipe (Os5.newPipe size fun _ => 0)
  let s := s.setInode s.nextIno (some ⟨.pipe s.nextPipe .read, false, 0⟩)
  let s := s.setInode (s.nextIno + 1) (some ⟨.pipe s.nextPipe .write, false, 0⟩)
  ((s.nextIno, s.nextIno + 1), { s with nextPipe := s.nextPipe + 1, nextIno := s.nextIno + 2 })

def setupFd (s : Files) (d : DescId) (ino : Ino) (flags : Nat) : Option Files := do
  let f ← s.desc d
  let (_, s) ← (s.setDesc d (some { f with ino := some ino, flags := flags })).vfsOpen ino
  return s

/-- If there is no second free slot, the first one is left with a descriptor. -/
def pipeCall (s : Files) (p : Pid) : Option (Reply × Files) :=
  match s.freeFd p with
  | none => return (.error .EMFILE, s)
  | some i =>
    let (d, s) := s.allocFd p i
    match s.freeFd p with
    | none => return (.error .EMFILE, s)
    | some j => do
      let (e, s) := s.allocFd p j
      let ((r, w), s) := s.newPipe 512
      let s ← s.setupFd d r 0
      let s ← s.setupFd e w 1
      return (.ok 0, s)

/-- One turn of the loop of `fork_process` over the descriptors of the child. -/
def forkFd (child : Pid) (s : Files) (i : Nat) : Option Files :=
  match s.fd child i with
  | none => some s
  | some d => do
    let s ← s.fdGet d
    let f ← s.desc d
    let ino ← f.ino
    let (_, s) ← s.vfsOpen ino
    return s

def forkProcess (s : Files) (p : Pid) : Option (Reply × Files) := do
  let child := s.nextPid
  let s := { s with nextPid := child + 1, fd := Function.update s.fd child (s.fd p) }
  let s ← (List.range numFiledes).foldlM (forkFd child) s
  return (.ok child, { s with live := insert child s.live })

def exitFd (p : Pid) (s : Files) (i : Nat) : Option Files :=
  match s.fd p i with
  | none => some s
  | some _ => do
    let (_, s) ← s.closeSlot p i
    return s

def exit (s : Files) (p : Pid) : Option (Reply × Files) := do
  let s ← (List.range numFiledes).foldlM (exitFd p) s
  return (.ok 0, { s with live := s.live.erase p })

end Files

inductive FileCall
  | open (path : Files.Path) (flags : Nat)
  | close (file : Int)
  | dup (fildes : Int)
  | dup2 (fildes1 fildes2 : Int)
  | pipe
  | fork
  | exit
  deriving Repr

def Files.call (s : Files) (p : Pid) : FileCall → Option (Reply × Files)
  | .open path flags => s.open p path flags
  | .close file => s.close p file
  | .dup fildes => s.dup p fildes
  | .dup2 fildes1 fildes2 => s.dup2 p fildes1 fildes2
  | .pipe => s.pipeCall p
  | .fork => s.forkProcess p
  | .exit => s.exit p

def Files.step (s : Files) (a : Pid × FileCall) : Option Files :=
  if a.1 ∈ s.live then (s.call a.1 a.2).map (·.2) else none

end Os5
