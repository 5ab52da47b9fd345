import Os5.Fs.Tarfs
import Os5.Lib.Outcome

/-!
# The virtual file system

Inodes are records at addresses; the mount tree is made of their `parent`,
`child`, `older` and `younger` pointers. Directories that are not in the mount
tree, and names that have no mounted child, are looked up by the driver: the tar
file system, whose nodes make an inode when they are asked for one and keep it
while it is in use. An address is not given out a second time, so that a pointer
to a freed inode stays recognisable.
-/

namespace Os5.Vfs

open Tarfs (dot dotdot)
open Outcome (bind_ok)

abbrev fsFile : Nat := 0x1
abbrev fsDirectory : Nat := 0x2
abbrev fsMount : Nat := 0x8
abbrev fsTypeMask : Nat := 0x7

/-- The driver of an inode, with its data: the kernel's only file system with
directories is tarfs, the devices and pipes have no `finddir`, `readdir` or
`flush`. The inode of `vfs_init` has no driver. -/
inductive Driver
  | none
  | device
  | tarfs (tn : Nat)
  deriving DecidableEq, Repr

structure Inode where
  name : Name
  parent : Option Nat
  child : Option Nat
  older : Option Nat
  younger : Option Nat
  d : Driver
  type : Nat
  users : Nat
  deriving DecidableEq, Repr

/-- A node of a tar tree: what the archive says of it, and the inode that stands
for it with the number of its uses. -/
structure TarNode where
  name : Name
  parent : Option Nat
  children : List Nat
  directory : Bool
  buffer : Option Nat
  users : Nat
  deriving DecidableEq, Repr

/-- Addresses from `next` on have never been allocated. -/
structure State where
  vfsRoot : Nat
  inode : Nat → Option Inode
  next : Nat
  tar : Nat → TarNode

/-- A freed or null pointer is followed, or a chain is walked without end. -/
inductive Halt
  | fault
  | hang
  deriving DecidableEq, Repr

abbrev Run := Except Halt

def deref {α : Type} : Option α → Run α
  | some x => .ok x
  | none => .error .fault

namespace State

def get (s : State) (ino : Nat) : Run Inode := deref (s.inode ino)

def put (s : State) (ino : Nat) (n : Inode) : State :=
  { s with inode := Function.update s.inode ino (some n) }

def assign (s : State) (ino : Nat) (f : Inode → Inode) : Run State := do
  return s.put ino (f (← s.get ino))

def setParent (s : State) (ino : Nat) (p : Option Nat) : Run State :=
  s.assign ino fun n => { n with parent := p }
def setChild (s : State) (ino : Nat) (p : Option Nat) : Run State :=
  s.assign ino fun n => { n with child := p }
def setOlder (s : State) (ino : Nat) (p : Option Nat) : Run State :=
  s.assign ino fun n => { n with older := p }
def setYounger (s : State) (ino : Nat) (p : Option Nat) : Run State :=
  s.assign ino fun n => { n with younger := p }

def release (s : State) (ino : Nat) : State :=
  { s with inode := Function.update s.inode ino none }

def putTar (s : State) (tn : Nat) (t : TarNode) : State :=
  { s with tar := Function.update s.tar tn t }

def tarChild (s : State) (tn : Nat) (name : Name) : Option Nat :=
  (s.tar tn).children.find? fun c => (s.tar c).name = name

end State

def vfsInit (tar : Nat → TarNode) : State where
  vfsRoot := 0
  inode := Function.update (fun _ => none) 0 (some ⟨[slash], some 0, none, none, none, .none, 0, 0⟩)
  next := 1
  tar := tar

/-- What `debug_dev_init` and `new_pipe` leave, an inode `v` that is not mounted, and
`tarfs_init`, for which it is the inode of the root of the archive too. -/
def newRoot (s : State) (v : Inode) : State :=
  let s :=
    match v.d with
    | .tarfs tn => s.putTar tn { s.tar tn with buffer := some s.next, users := 1 }
    | _ => s
  { s.put s.next v with next := s.next + 1 }

-- ---------------------------------------------------------------------------
-- The tar file system
-- ---------------------------------------------------------------------------

def newInode (t : TarNode) (tn : Nat) : Inode :=
  ⟨t.name, none, none, none, none, .tarfs tn, if t.directory then fsDirectory else fsFile, 0⟩

def tarGetInode (s : State) (tn : Nat) : Nat × State :=
  let t := s.tar tn
  match t.buffer with
  | some ino => (ino, s.putTar tn { t with users := t.users + 1 })
  | none =>
    (s.next, { (s.put s.next (newInode t tn)).putTar tn
      { t with buffer := some s.next, users := 1 } with next := s.next + 1 })

def flushTar (s : State) (tn : Nat) : Run State :=
  let t := s.tar tn
  let users := t.users - 1
  if users = 0 then
    match t.buffer with
    | some ino => .ok ((s.release ino).putTar tn { t with buffer := none, users := 0 })
    | none => .ok (s.putTar tn { t with users := 0 })
  else .ok (s.putTar tn { t with users := users })

/-- The parent of the root of a tar tree is a null pointer. -/
def tarFinddir (s : State) (tn : Nat) (name : Name) : Run (Option Nat × State) :=
  if name = dot then
    let (ino, s) := tarGetInode s tn
    .ok (some ino, s)
  else if name = dotdot then do
    let parent ← deref (s.tar tn).parent
    let (ino, s) := tarGetInode s parent
    return (some ino, s)
  else
    match s.tarChild tn name with
    | some cn =>
      let (ino, s) := tarGetInode s cn
      .ok (some ino, s)
    | none => .ok (none, s)

-- ---------------------------------------------------------------------------
-- Inodes
-- ---------------------------------------------------------------------------

def vfsFree (s : State) (ino : Nat) : Run State := do
  let n ← s.get ino
  if n.parent ≠ none then return s
  if 0 < n.users then return s
  match n.d with
  | .tarfs tn => flushTar s tn
  | _ => return s.release ino

/-- The walk along `older` from a child, for a name. A chain longer than the number
of inodes has a cycle. -/
def findSibling (s : State) (name : Name) : Nat → Option Nat → Run (Option Nat)
  | _, none => .ok none
  | 0, some _ => .error .hang
  | fuel + 1, some ino => do
    let n ← s.get ino
    if n.name = name then return some ino
    findSibling s name fuel n.older

def findChild (s : State) (ino : Nat) (name : Name) : Run (Option Nat) := do
  let n ← s.get ino
  findSibling s name (s.next + 1) n.child

def driverFinddir (s : State) (d : Driver) (name : Name) : Run (Option Nat × State) :=
  match d with
  | .none => .error .fault
  | .device => .ok (none, s)
  | .tarfs tn => tarFinddir s tn name

def vfsFinddir (s : State) (ino : Nat) (name : Name) : Run (Option Nat × State) := do
  let n ← s.get ino
  if n.type &&& fsTypeMask ≠ fsDirectory then return (none, s)
  match n.parent with
  | some parent =>
    -- the inode is in the mount tree
    if name = dot then return (some ino, s)
    else if name = dotdot then return (some parent, s)
    else do
      match ← findChild s ino name with
      | some c => return (some c, s)
      | none => driverFinddir s n.d name
  | none => driverFinddir s n.d name

-- ---------------------------------------------------------------------------
-- Paths
-- ---------------------------------------------------------------------------

/-- The tokens newlib's `strsep` returns: empty ones between adjacent slashes, none
at the end of the string. -/
def strsepTokens (path : Name) : List Name :=
  if (pieces path).getLast? = some [] then (pieces path).dropLast else pieces path

/-- `vfs_find_root`: the closest inode of the mount tree, and the tokens left. -/
def vfsFindRoot (s : State) : Nat → List Name → Run (Nat × List Name)
  | mount, [] => .ok (mount, [])
  | mount, name :: names => do
    match ← findChild s mount name with
    | some c => vfsFindRoot s c names
    | none => return (mount, name :: names)

/-- A node found on the way to a mount point is put at the head of the children. -/
def pushNode (s : State) (current next : Nat) : Run State := do
  let s ← s.setParent next (some current)
  let c ← s.get current
  let s ← s.setOlder next c.child
  s.setChild current (some next)

def walkTokens (mounting : Bool) (s : State) (current : Nat) :
    List Name → Run (Option Nat × State)
  | [] => .ok (some current, s)
  | name :: names => do
    let (next, s) ← vfsFinddir s current name
    match next with
    | none => do
      let s ← vfsFree s current
      return (none, s)
    | some next => do
      let s ← if mounting then pushNode s current next else pure s
      let s ← vfsFree s current
      walkTokens mounting s next names

/-- `root` takes over the parent of `current`, which leaves the mount tree. -/
def replaceParent (s : State) (current root : Nat) : Run State := do
  let c ← s.get current
  let s ← s.setParent root c.parent
  let s ← s.setParent current none
  let r ← s.get root
  let p ← deref r.parent
  let pn ← s.get p
  if pn.child = some current then s.setChild p (some root) else return s

def replaceOlder (s : State) (current root : Nat) : Run State := do
  let c ← s.get current
  let s ← s.setOlder root c.older
  match c.older with
  | some o => s.setYounger o (some current)
  | none => return s

def replaceYounger (s : State) (current root : Nat) : Run State := do
  let c ← s.get current
  let s ← s.setYounger root c.younger
  match c.younger with
  | some y => s.setOlder y (some current)
  | none => return s

def replaceName (s : State) (current root : Nat) : Run State := do
  let c ← s.get current
  let s ← s.assign root fun n => { n with name := c.name, type := n.type ||| fsMount }
  return if current = s.vfsRoot then { s with vfsRoot := root } else s

def replaceNode (s : State) (current root : Nat) : Run State := do
  let s ← replaceParent s current root
  let s ← replaceOlder s current root
  let s ← replaceYounger s current root
  let s ← replaceName s current root
  let s ← vfsFree s current
  vfsFree s root

def walkPath (mounting : Bool) (s : State) (path : Name) : Run (Option Nat × State) := do
  let (current, names) ← vfsFindRoot s s.vfsRoot (strsepTokens (path.drop 1))
  walkTokens mounting s current names

def vfsNamei (s : State) (path : Name) : Run (Option Nat × State) := walkPath false s path

def vfsMount (s : State) (path : Name) (root : Nat) : Run (Option Nat × State) := do
  let (found, s) ← walkPath true s path
  match found with
  | none => return (none, s)
  | some current => do
    let s ← replaceNode s current root
    return (some root, s)

def joinYounger (s : State) (y o : Option Nat) : Run State :=
  match y with
  | some y => s.setOlder y o
  | none => .ok s

def joinOlder (s : State) (y o : Option Nat) : Run State :=
  match o with
  | some o => s.setYounger o y
  | none => .ok s

/-- The part of `vfs_umount` that takes `ino` out of the mount tree. -/
def removeNode (s : State) (ino : Nat) : Run State := do
  let n ← s.get ino
  let p ← deref n.parent
  let pn ← s.get p
  if pn.child = some ino then do
    let s ← s.setChild p n.older
    let s ← joinYounger s n.younger n.older
    joinOlder s n.younger n.older
  else do
    let s ← joinYounger s n.younger n.older
    joinOlder s n.younger n.older

def vfsUmount (s : State) (path : Name) : Run (Option Nat × State) := do
  let (ino, names) ← vfsFindRoot s s.vfsRoot (strsepTokens (path.drop 1))
  if names ≠ [] then return (none, s)
  let n ← s.get ino
  if n.child ≠ none then return (none, s)
  let s ← removeNode s ino
  return (some ino, s)

end Os5.Vfs
