import Os5.Lib.Circular
import Os5.Mem.Vmm

/-!
# The memory areas of processes

A process owns a list of areas. An area that was forked is linked into the ring
of its copies through `copies`; these links are kept as the pointers they are.
The list `mm.mem` of a process is written as the sequence of its areas.
-/

namespace Os5

open Machine

structure MmFlags where
  read : Bool
  write : Bool
  shared : Bool
  noshare : Bool
  cow : Bool
  growsdown : Bool
  autogrow : Bool
  addonuse : Bool
  deriving DecidableEq, Repr

structure MemArea where
  start : Nat
  stop : Nat
  flags : MmFlags
  type : Nat
  owner : Nat
  deriving DecidableEq, Repr

structure Process where
  pd : Frame
  stackLimit : Nat
  mem : List Nat

/-- The machine, the processes by their pid and the areas by their address. -/
structure Mem where
  machine : Machine
  proc : Nat → Process
  nextPid : Nat
  current : Nat
  area : Nat → MemArea
  nextArea : Nat
  copies : Circular.Heap Nat

def MemArea.covers (a : MemArea) (x : Nat) : Bool := a.start ≤ x && x < a.stop

namespace Mem

def living (w : Mem) (p : Nat) : Bool := 0 < p && p < w.nextPid
def mem (w : Mem) (p : Nat) : List Nat := (w.proc p).mem
def pd (w : Mem) (p : Nat) : Frame := (w.proc p).pd

def setProc (w : Mem) (p : Nat) (v : Process) : Mem := { w with proc := Function.update w.proc p v }

def setMem (w : Mem) (p : Nat) (l : List Nat) : Mem := w.setProc p { w.proc p with mem := l }

def setArea (w : Mem) (a : Nat) (v : MemArea) : Mem :=
  { w with area := Function.update w.area a v }

end Mem

open Mem

def pagesFrom (start stop : Nat) : List Nat :=
  (List.range ((stop - start + 0xfff) / 0x1000)).map fun k => start + 0x1000 * k

def allocArea (w : Mem) (start stop : Nat) (flags : MmFlags) (type owner : Nat) : Nat × Mem :=
  (w.nextArea,
    { w with area := Function.update w.area w.nextArea ⟨start, stop, flags, type, owner⟩
             nextArea := w.nextArea + 1
             copies := Circular.init w.copies w.nextArea })

def findIncluding (w : Mem) (p addr : Nat) : Option Nat :=
  (w.mem p).find? fun a => (w.area a).covers addr

/-- The walk of `find_above` from the end of the list, given here from its last
area on; the first area of the list is never returned by it. -/
def findAboveWalk (w : Mem) (addr : Nat) : List Nat → Option Nat
  | a :: b :: rest => if (w.area b).stop < addr then some a else findAboveWalk w addr (b :: rest)
  | _ => none

def findAbove (w : Mem) (p addr : Nat) : Option Nat :=
  match findIncluding w p addr with
  | some a => some a
  | none => findAboveWalk w addr (w.mem p).reverse

/-- `free_area`: the area leaves the list of its owner and the ring of its copies. -/
def freeArea (w : Mem) (ma : Nat) : Mem :=
  let owner := (w.area ma).owner
  { w.setMem owner ((w.mem owner).erase ma) with copies := Circular.remove w.copies ma }

def insertToLeft (l : List Nat) (right item : Nat) : List Nat :=
  l.flatMap fun a => if a = right then [item, a] else [a]

def insertToRight (l : List Nat) (left item : Nat) : List Nat :=
  l.flatMap fun a => if a = left then [a, item] else [a]

def splitLeft (w : Mem) (mid start : Nat) : Nat × Mem :=
  let a := w.area mid
  let (l, w) := allocArea w a.start start a.flags a.type a.owner
  (l, w.setMem a.owner (insertToLeft (w.mem a.owner) mid l))

def splitRight (w : Mem) (mid stop : Nat) : Nat × Mem :=
  let a := w.area mid
  let (r, w) := allocArea w stop a.stop a.flags a.type a.owner
  (r, w.setMem a.owner (insertToRight (w.mem a.owner) mid r))

def reshape (w : Mem) (mid start stop : Nat) : Mem :=
  w.setArea mid { w.area mid with start := start, stop := stop }

/-- The part a copy loses to the left is listed as a copy of the part `left`. -/
def copyLeft (left : Option Nat) (start : Nat) (w : Mem) (mid : Nat) : Mem :=
  match left with
  | none => w
  | some left =>
    let (l, w) := splitLeft w mid start
    { w with copies := Circular.append w.copies left l }

def copyRight (right : Option Nat) (stop : Nat) (w : Mem) (mid : Nat) : Mem :=
  match right with
  | none => w
  | some right =>
    let (r, w) := splitRight w mid stop
    { w with copies := Circular.append w.copies right r }

def splitCopy (left right : Option Nat) (start stop : Nat) (w : Mem) (mid : Nat) : Mem :=
  reshape (copyRight right stop (copyLeft left start w mid) mid) mid start stop

def headLeft (w : Mem) (ma start : Nat) : Option Nat × Mem :=
  if (w.area ma).start < start then
    let (l, w) := splitLeft w ma start
    (some l, w)
  else (none, w)

def headRight (w : Mem) (ma stop : Nat) : Option Nat × Mem :=
  if stop < (w.area ma).stop then
    let (r, w) := splitRight w ma stop
    (some r, w)
  else (none, w)

/-- The ring of `ma` itself is not changed by the loop, so its members are read
off before; a ring that does not close keeps the loop going. -/
def splitArea (w : Mem) (ma start stop : Nat) : Except Stop Mem :=
  let start := pageMask start
  let stop := pageMask stop
  if (w.area ma).start = start ∧ (w.area ma).stop = stop then .ok w
  else
    let (left, w) := headLeft w ma start
    let (right, w) := headRight w ma stop
    let w := reshape w ma start stop
    match Circular.members w.copies ma w.nextArea with
    | none => .error .hang
    | some mids => .ok (mids.foldl (splitCopy left right start stop) w)

def glues (w : Mem) (a ma : Nat) : Bool :=
  a ≠ ma && (w.area a).flags = (w.area ma).flags && (w.area a).type = (w.area ma).type

def glueArea (w : Mem) (ma : Nat) : Nat × Mem :=
  if ¬ Circular.isEmpty w.copies ma then (ma, w)
  else if (w.area ma).flags.cow then (ma, w)
  else
    let owner := (w.area ma).owner
    let (ma, w) :=
      match (w.mem owner).find? fun a => (w.area a).stop = (w.area ma).start && glues w a ma with
      | some a => (a, freeArea (w.setArea a { w.area a with stop := (w.area ma).stop }) ma)
      | none => (ma, w)
    match (w.mem owner).find? fun a => (w.area a).start = (w.area ma).stop && glues w a ma with
    | some a => (ma, freeArea (w.setArea ma { w.area ma with stop := (w.area a).stop }) a)
    | none => (ma, w)

def populate (m : Machine) (pd : Frame) (start stop : Nat) (write : Bool) : Except Stop Machine := do
  let (old, m) := vmmExdirSet m pd
  let m ← (pagesFrom start stop).foldlM (fun m i => do
    let (f, m) ← pmmAllocPage m
    vmmExpageSet m i (vmmPageVal f ⟨true, write, true⟩)) m
  return (vmmExdirSet m old).2

/-- In front of the first area that starts above `stop`. -/
def insertSorted (w : Mem) (stop item : Nat) : List Nat → List Nat
  | [] => [item]
  | a :: l => if stop < (w.area a).start then item :: a :: l else a :: insertSorted w stop item l

/-- `new_area`. The scan for a collision, `i <= end`, ends in an endless loop when
it finds one; it does not end either when `i` wraps round before it passes `end`. -/
def newArea (w : Mem) (p start stop : Nat) (flags : MmFlags) (type : Nat) : Except Stop (Nat × Mem) := do
  let start := pageMask start
  let stop := pageMask (if pageFlagMask stop ≠ 0 then wrap (stop + pageSize) else stop)
  if lastPage ≤ stop ∨ (pagesFrom start (stop + 1)).any fun i => (findIncluding w p i).isSome then
    throw .hang
  let (area, w) := allocArea w start stop flags type p
  let w ←
    if ¬ flags.addonuse ∧ ¬ flags.cow then do
      let m ← populate w.machine (w.pd p) start stop flags.write
      pure { w with machine := m }
    else pure w
  let w := w.setMem p (insertSorted w stop area (w.mem p))
  return glueArea w area

/-- Clearing the write bit of every page of an area, from `share_area`. -/
def writeProtect (m : Machine) (pd : Frame) (start stop : Nat) : Except Stop Machine := do
  let (old, m) := vmmExdirSet m pd
  let m ← rewritePages (fun e => { e with write := false }) m (pagesFrom start stop)
  return (vmmExdirSet m old).2

def shareArea (w : Mem) (copy ma : Nat) : Except Stop Mem := do
  let w := w.setArea ma { w.area ma with flags := { (w.area ma).flags with shared := true } }
  let a := w.area ma
  let w ←
    if a.flags.write ∨ a.flags.cow then do
      let w := w.setArea ma { a with flags := { a.flags with write := false, cow := true } }
      let m ← writeProtect w.machine (w.pd a.owner) a.start a.stop
      pure { w with machine := m }
    else pure w
  let a := w.area ma
  let (new, w) ← newArea w copy a.start a.stop a.flags a.type
  return { w with copies := Circular.append w.copies ma new }

/-- The area stops being copy on write; from `procmm_handle_page_fault`. -/
def unCow (w : Mem) (a : Nat) : Mem :=
  w.setArea a { w.area a with flags := { (w.area a).flags with cow := false, write := true } }

/-- The result is whether the fault was resolved (the C function returns 0 then).
`present` and `write` are the bits of the error code it looks at. -/
def procmmHandlePageFault (w : Mem) (address : Nat) (present write : Bool) : Except Stop (Bool × Mem) :=
  let page := pageMask address
  match findIncluding w w.current address with
  | some inside =>
    if (w.area inside).flags.cow && present && write then do
      let w ← splitArea w inside page (wrap (page + pageSize))
      let pval := vmmPageGet w.machine address
      if Circular.isEmpty w.copies inside then
        let m ← vmmPageSet w.machine page { pval with write := true }
        return (true, unCow { w with machine := m } inside)
      else
        let (f, m) ← pmmAllocPage w.machine
        let m ← vmmPageSet m page (vmmPageVal f { pval.toPageFlags with write := true })
        let w := unCow { w with machine := m.copyBytes pval.frame f } inside
        return (true, { w with copies := Circular.remove w.copies inside })
    else if (w.area inside).flags.addonuse && !present then do
      let (f, m) ← pmmAllocPage w.machine
      let m ← vmmPageSet m page (vmmPageVal f ⟨true, (w.area inside).flags.write, true⟩)
      return (true, { w with machine := m })
    else return (false, w)
  | none =>
    match findAbove w w.current address with
    | none => return (false, w)
    | some above =>
      let a := w.area above
      if wrap (a.start + 2 ^ 32 - address) ≥ pageSize then return (false, w)
      else if ¬ a.flags.growsdown then return (false, w)
      else if address ≤ (w.proc w.current).stackLimit then return (false, w)
      else do
        let (_, w) ← newArea w w.current page a.start a.flags a.type
        return (true, w)

/-- 0: refused, 1: present, not writable, 2: on the stack, 3: present, writable. -/
def procmmCheckAddress (w : Mem) (address : Nat) : Nat :=
  match findIncluding w w.current address with
  | some area => if (w.area area).flags.write || (w.area area).flags.cow then 3 else 1
  | none =>
    match findAbove w w.current address with
    | some area => if (w.area area).flags.growsdown then 2 else 0
    | none => 0

def procmmFork (w : Mem) (parent child : Nat) : Except Stop Mem :=
  let w := w.setProc child { w.proc child with stackLimit := (w.proc parent).stackLimit, mem := [] }
  (w.mem parent).foldlM
    (fun w ma => if (w.area ma).flags.noshare then .ok w else shareArea w child ma) w

def allocProcess (w : Mem) : Nat × Mem :=
  (w.nextPid, { w.setProc w.nextPid ⟨0, 0, []⟩ with nextPid := w.nextPid + 1 })

/-- The part of `fork_process` that is about memory. -/
def forkProcess (w : Mem) : Except Stop (Nat × Mem) := do
  let parent := w.current
  let (child, w) := allocProcess w
  let w ← procmmFork w parent child
  let (pd, m) ← vmmClonePd w.machine
  let w := { w with machine := m }
  return (child, w.setProc child { w.proc child with pd := pd })

def procmmExit (w : Mem) (p : Nat) : Mem := (w.mem p).foldl freeArea w

def removeArea (p : Nat) (w : Mem) (ma : Nat) : Except Stop Mem := do
  let (old, m) := vmmExdirSet w.machine (w.pd p)
  let m ← (pagesFrom (w.area ma).start (w.area ma).stop).foldlM
    (fun m j => vmmExpageSet m j Entry.zero) m
  return freeArea { w with machine := (vmmExdirSet m old).2 } ma

def procmmRemoveall (w : Mem) (p : Nat) : Except Stop Mem := (w.mem p).foldlM (removeArea p) w

def switchProcess (w : Mem) (p : Nat) : Mem :=
  { w with current := p, machine := { w.machine with cr3 := w.pd p } }

-- ---------------------------------------------------------------------------
-- Memory accesses
-- ---------------------------------------------------------------------------

def Machine.userRead (m : Machine) (pd : Frame) (x : Nat) : Option Byte :=
  let t := m.pde pd x
  let e := m.pte pd x
  if t.present && t.user && e.present && e.user then some (m.byte e.frame (pageFlagMask x)) else none

def Machine.mapped (m : Machine) (pd : Frame) (x : Nat) : Bool :=
  (m.pde pd x).present && (m.pte pd x).present

def Machine.userWritable (m : Machine) (pd : Frame) (x : Nat) : Bool :=
  let t := m.pde pd x
  let e := m.pte pd x
  t.present && t.write && t.user && e.present && e.write && e.user

def Machine.store (m : Machine) (pd : Frame) (x : Nat) (b : Byte) : Machine :=
  m.setByte (m.pte pd x).frame (pageFlagMask x) b

/-- A store of the running program. A fault that is resolved restarts the
instruction; no access takes more than the restarts allowed for here. -/
def userWrite (x : Nat) (b : Byte) : Nat → Mem → Except Stop Mem
  | 0, _ => .error .hang
  | restarts + 1, w =>
    let m := w.machine
    if m.userWritable m.cr3 x then .ok { w with machine := m.store m.cr3 x b }
    else do
      let (resolved, w) ← procmmHandlePageFault w x (m.mapped m.cr3 x) true
      if resolved then userWrite x b restarts w else throw .segv

/-- A store of the kernel. The processor looks at the present bits only, the
write bits do not stop a supervisor; an unresolved fault ends in a loop. -/
def kernelStore (x : Nat) (b : Byte) : Nat → Mem → Except Stop Mem
  | 0, _ => .error .hang
  | restarts + 1, w =>
    let m := w.machine
    if m.mapped m.cr3 x then .ok { w with machine := m.store m.cr3 x b }
    else do
      let (resolved, w) ← procmmHandlePageFault w x false true
      if resolved then kernelStore x b restarts w
      else if kernelOffset ≤ x then do
        let m ← kernelPageFault w.machine x
        kernelStore x b restarts { w with machine := m }
      else throw .fault

/-- More than any access needs: a stack page may be added, then given a frame. -/
abbrev maxRestarts : Nat := 4

def copyOut (w : Mem) (ptr : Nat) : List Byte → Except Stop Mem
  | [] => .ok w
  | b :: data => do
    let w ← kernelStore ptr b maxRestarts w
    copyOut w (ptr + 1) data

end Os5
