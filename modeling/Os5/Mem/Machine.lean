import Mathlib.Logic.Function.Basic
import Mathlib.Tactic

/-!
# Physical memory and the page walk

A linear address is a natural number below `2 ^ 32`; a sum that can leave that
range is taken modulo `2 ^ 32`. A frame is the number of a physical page. A
frame holds either a table of 1024 entries or 4096 bytes of data, and the two
views are kept apart; nothing in the kernel reads one as the other.
-/

namespace Os5

abbrev Frame := Nat
abbrev Byte := UInt8

abbrev pageSize : Nat := 0x1000
abbrev kernelOffset : Nat := 0xC0000000
abbrev lastPage : Nat := 0xFFFFF000

def wrap (n : Nat) : Nat := n % 2 ^ 32

/-- `addr & PAGE_MASK` -/
def pageMask (addr : Nat) : Nat := addr / 0x1000 * 0x1000
/-- `addr & PAGE_FLAG_MASK` -/
def pageFlagMask (addr : Nat) : Nat := addr % 0x1000

def dirIdx (page : Nat) : Nat := page / 0x400000
/-- `vmm_table_idx` numbers the entries of all tables one after the other; this
is the place inside the table of `dirIdx page`. -/
def tableIdx (page : Nat) : Nat := page / 0x1000 % 1024

structure PageFlags where
  present : Bool
  write : Bool
  user : Bool
  deriving DecidableEq, Repr

structure Entry extends PageFlags where
  frame : Frame
  deriving DecidableEq, Repr

def Entry.zero : Entry := ⟨⟨false, false, false⟩, 0⟩

def vmmPageVal (frame : Frame) (flags : PageFlags) : Entry := ⟨flags, frame⟩

/-- Why the kernel does not come back: `pmm_alloc_page` panics, a loop never
ends, kernel code faults on an unmapped address, the running program is sent
SIGSEGV. `refused` marks an action that is not possible in the state. -/
inductive Stop
  | outOfMemory
  | hang
  | fault
  | segv
  | refused
  deriving DecidableEq, Repr

structure Machine where
  cr3 : Frame
  kernelPd : Frame
  vmmRunning : Bool
  table : Frame → Nat → Entry
  byte : Frame → Nat → Byte
  /-- The frames `pmm_alloc_page` hands out, in order. -/
  free : List Frame

namespace Machine

def setTable (m : Machine) (f : Frame) (i : Nat) (e : Entry) : Machine :=
  { m with table := Function.update m.table f (Function.update (m.table f) i e) }

def setByte (m : Machine) (f : Frame) (i : Nat) (b : Byte) : Machine :=
  { m with byte := Function.update m.byte f (Function.update (m.byte f) i b) }

/-- The two entries the processor reads for an address under a directory. -/
def pde (m : Machine) (pd : Frame) (addr : Nat) : Entry := m.table pd (dirIdx addr)
def pte (m : Machine) (pd : Frame) (addr : Nat) : Entry := m.table (m.pde pd addr).frame (tableIdx addr)

theorem setTable_table (m : Machine) (f g : Frame) (i j : Nat) (e : Entry) :
    (m.setTable f i e).table g j = if g = f ∧ j = i then e else m.table g j := by
  by_cases hg : g = f
  · subst hg
    by_cases hj : j = i <;> simp [setTable, hj]
  · simp [setTable, hg]

section
variable (m : Machine) (f : Frame) (i : Nat) (e : Entry)
@[simp] theorem setTable_cr3 : (m.setTable f i e).cr3 = m.cr3 := rfl
@[simp] theorem setTable_kernelPd : (m.setTable f i e).kernelPd = m.kernelPd := rfl
@[simp] theorem setTable_vmmRunning : (m.setTable f i e).vmmRunning = m.vmmRunning := rfl
@[simp] theorem setTable_byte : (m.setTable f i e).byte = m.byte := rfl
@[simp] theorem setTable_free : (m.setTable f i e).free = m.free := rfl
@[simp] theorem setByte_cr3 (b : Byte) : (m.setByte f i b).cr3 = m.cr3 := rfl
@[simp] theorem setByte_table (b : Byte) : (m.setByte f i b).table = m.table := rfl
@[simp] theorem setByte_free (b : Byte) : (m.setByte f i b).free = m.free := rfl
end

theorem setByte_byte (m : Machine) (f g : Frame) (i j : Nat) (b : Byte) :
    (m.setByte f i b).byte g j = if g = f ∧ j = i then b else m.byte g j := by
  by_cases hg : g = f
  · subst hg
    by_cases hj : j = i <;> simp [setByte, hj]
  · simp [setByte, hg]

end Machine

def pmmAllocPage (m : Machine) : Except Stop (Frame × Machine) :=
  match m.free with
  | [] => .error .outOfMemory
  | f :: rest => .ok (f, { m with free := rest })

-- ---------------------------------------------------------------------------
-- Page arithmetic
-- ---------------------------------------------------------------------------

theorem samePage_iff {x y : Nat} :
    pageMask x = pageMask y ↔ dirIdx x = dirIdx y ∧ tableIdx x = tableIdx y := by
  unfold pageMask dirIdx tableIdx
  omega

theorem dirIdx_lt {x : Nat} (h : x < kernelOffset) : dirIdx x < 768 := by
  unfold dirIdx
  unfold kernelOffset at h
  omega

theorem pageMask_le (x : Nat) : pageMask x ≤ x := Nat.div_mul_le_self _ _

theorem dirIdx_pageMask (x : Nat) : dirIdx (pageMask x) = dirIdx x := by
  unfold dirIdx pageMask
  omega

theorem tableIdx_pageMask (x : Nat) : tableIdx (pageMask x) = tableIdx x := by
  unfold tableIdx pageMask
  omega

theorem tableIdx_lt (x : Nat) : tableIdx x < 1024 := Nat.mod_lt _ (by omega)

theorem pageMask_pageMask (x : Nat) : pageMask (pageMask x) = pageMask x := by
  unfold pageMask
  omega

end Os5
