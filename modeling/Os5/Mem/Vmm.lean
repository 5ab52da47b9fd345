import Os5.Lib.Outcome
import Os5.Mem.Machine

/-!
# The virtual memory manager

The windows `page_directory`, `page_tables`, `expage_directory` and
`expage_tables` are written as the entries of physical memory they show: the
current directory and its tables, and the directory in slot 1022 of the current
one and its tables. The windows `VMM_TEMP1` and `VMM_TEMP2`, through which a
frame is cleared or copied, are written as the clearing and copying itself.
-/

namespace Os5

abbrev exdirSlot : Nat := 1022

namespace Machine

def exdir (m : Machine) : Entry := m.table m.cr3 exdirSlot
def pageDirectory (m : Machine) (i : Nat) : Entry := m.table m.cr3 i
def setPageDirectory (m : Machine) (i : Nat) (e : Entry) : Machine := m.setTable m.cr3 i e
def expageDirectory (m : Machine) (i : Nat) : Entry := m.table m.exdir.frame i
def setExpageDirectory (m : Machine) (i : Nat) (e : Entry) : Machine := m.setTable m.exdir.frame i e

/-- Clearing a page table through the window that shows it: the window is mapped
only if the directory entry is present. -/
def clearTable (m : Machine) (e : Entry) : Except Stop Machine :=
  if e.present then
    .ok { m with table := Function.update m.table e.frame fun _ => Entry.zero }
  else .error .fault

/-- The copy of a physical page, seen as a table or as bytes. -/
def copyFrame (m : Machine) (src dst : Frame) : Machine :=
  { m with table := Function.update m.table dst (m.table src)
           byte := Function.update m.byte dst (m.byte src) }

/-- A copy between two mapped pages of data. -/
def copyBytes (m : Machine) (src dst : Frame) : Machine :=
  { m with byte := Function.update m.byte dst (m.byte src) }

theorem copyBytes_byte (m : Machine) (src dst g : Frame) :
    (m.copyBytes src dst).byte g = if g = dst then m.byte src else m.byte g := by
  by_cases h : g = dst
  · subst h
    simp [copyBytes]
  · simp [copyBytes, h]

end Machine

open Machine

def vmmPageGet (m : Machine) (page : Nat) : Entry :=
  let page := pageMask page
  let t := m.pageDirectory (dirIdx page)
  if t.present then
    let e := m.table t.frame (tableIdx page)
    if e.present then e else Entry.zero
  else Entry.zero

def vmmTableSet (m : Machine) (page : Nat) (value : Entry) : Machine :=
  m.setPageDirectory (dirIdx (pageMask page)) value

/-- The old external directory, and the machine with `pd` loaded as the new one. -/
def vmmExdirSet (m : Machine) (pd : Frame) : Frame × Machine :=
  (m.exdir.frame,
    m.setPageDirectory exdirSlot (if pd = 0 then Entry.zero else ⟨⟨true, true, false⟩, pd⟩))

def vmmPageTouch (m : Machine) (page : Nat) (flags : PageFlags) : Except Stop Machine := do
  let page := pageMask page
  let i := dirIdx page
  if (m.pageDirectory i).present then
    return m
  let m ←
    if kernelOffset ≤ page ∧ m.vmmRunning then do
      let (oldExdir, m) := vmmExdirSet m m.kernelPd
      let m ←
        if (m.expageDirectory i).present then
          -- the master directory has the table: only its entry is copied
          pure (m.setPageDirectory i (m.expageDirectory i))
        else do
          let (f, m) ← pmmAllocPage m
          let m := m.setPageDirectory i ⟨flags, f⟩
          pure (m.setExpageDirectory i (m.pageDirectory i))
      pure (vmmExdirSet m oldExdir).2
    else do
      let (f, m) ← pmmAllocPage m
      pure (m.setPageDirectory i ⟨flags, f⟩)
  -- the table is cleared on every one of these paths
  m.clearTable (m.pageDirectory i)

def vmmPageSet (m : Machine) (page : Nat) (value : Entry) : Except Stop Machine := do
  let page := pageMask page
  let m ← vmmPageTouch m page value.toPageFlags
  return m.setTable (m.pageDirectory (dirIdx page)).frame (tableIdx page) value

def vmmExpageGet (m : Machine) (page : Nat) : Entry :=
  if m.exdir = Entry.zero then Entry.zero
  else
    let page := pageMask page
    let t := m.expageDirectory (dirIdx page)
    if t.present then
      let e := m.table t.frame (tableIdx page)
      if e.present then e else Entry.zero
    else Entry.zero

def vmmExtableGet (m : Machine) (page : Nat) : Entry :=
  let t := m.expageDirectory (dirIdx (pageMask page))
  if t.present then t else Entry.zero

def vmmExpageTouch (m : Machine) (page : Nat) (flags : PageFlags) : Except Stop Machine := do
  let i := dirIdx (pageMask page)
  if m.exdir = Entry.zero then
    return m
  if (m.expageDirectory i).present then
    return m
  let (f, m) ← pmmAllocPage m
  let m := m.setExpageDirectory i ⟨flags, f⟩
  m.clearTable (m.expageDirectory i)

/-- With no external directory loaded the window `expage_tables` is not mapped. -/
def vmmExpageSet (m : Machine) (page : Nat) (value : Entry) : Except Stop Machine := do
  let page := pageMask page
  let m ← vmmExpageTouch m page value.toPageFlags
  if m.exdir = Entry.zero then
    throw .fault
  return m.setTable (m.expageDirectory (dirIdx page)).frame (tableIdx page) value

/-- A loop that rewrites the entry of every page of a list through the external
directory window. -/
def rewritePages (g : Entry → Entry) (m : Machine) (pages : List Nat) : Except Stop Machine :=
  pages.foldlM (fun m i => vmmExpageSet m i (g (vmmExpageGet m i))) m

def vmmCopyPage (m : Machine) (src dst : Frame) : Machine := m.copyFrame src dst

def vmmNewPd (m : Machine) : Except Stop (Frame × Machine) := do
  let (pd, m) ← pmmAllocPage m
  let m := { m with table := Function.update m.table pd fun _ => Entry.zero }
  return (pd, m.setTable pd 1023 (vmmPageVal pd ⟨true, true, false⟩))

/-- One turn of the loop of `vmm_clone_pd` over the user tables. -/
def cloneTable (m : Machine) (i : Nat) : Except Stop Machine :=
  if m.pageDirectory i ≠ Entry.zero then do
    let (f, m) ← pmmAllocPage m
    let m := m.setExpageDirectory i (vmmPageVal f (m.pageDirectory i).toPageFlags)
    return vmmCopyPage m (m.pageDirectory i).frame (m.expageDirectory i).frame
  else return m

def shareTable (m : Machine) (i : Nat) : Machine := m.setExpageDirectory i (m.pageDirectory i)

def vmmClonePd (m : Machine) : Except Stop (Frame × Machine) := do
  let (pd, m) ← vmmNewPd m
  let (oldExdir, m) := vmmExdirSet m pd
  let m ← (List.range (dirIdx kernelOffset)).foldlM cloneTable m
  let m := (List.range' (dirIdx kernelOffset) (1022 - dirIdx kernelOffset)).foldl shareTable m
  return (pd, (vmmExdirSet m oldExdir).2)

/-- The part of `page_fault_handler` for a fault of kernel code on a kernel
address with no page present: a table the master directory has is copied over. -/
def kernelPageFault (m : Machine) (faultAddress : Nat) : Except Stop Machine :=
  let (oldExdir, m) := vmmExdirSet m m.kernelPd
  let ptVal := vmmExtableGet m faultAddress
  if ptVal.present then
    .ok (vmmExdirSet (vmmTableSet m faultAddress ptVal) oldExdir).2
  else .error .fault

end Os5
