import Os5.Mem.KernelTables

/-!
# The kernel's heap

`sbrk` as the kernel calls it moves `kmem_ptr` and maps the pages up to `kmem_top`. The
increment is signed, and the sums are those of 32-bit addresses.
-/

namespace Os5

open Outcome Transition

abbrev kernelHeapStart : Nat := 0xE0000000
abbrev kernelHeapEnd : Nat := 0xF0000000

def addInt (addr : Nat) (incr : Int) : Nat := ((addr + incr) % 2 ^ 32).toNat

inductive SbrkErrno
  | SYSCALL_OK
  | ENOMEM
  deriving DecidableEq, Repr

structure HeapRun where
  kmemPtr : Nat
  kmemTop : Nat
  space : KernelSpace

namespace HeapRun

def mapTop (s : HeapRun) : Except Stop HeapRun := do
  let (f, m) ← pmmAllocPage s.space.machine
  let value := vmmPageVal f ⟨true, true, false⟩
  let m ← vmmPageSet m s.kmemTop value
  return { s with kmemTop := wrap (s.kmemTop + pageSize)
                  space := { s.space with machine := m, last := setLast s.space.last s.kmemTop value } }

def grow (target : Nat) : Nat → HeapRun → Except Stop HeapRun
  | 0, _ => .error .hang
  | fuel + 1, s =>
    if s.kmemTop < target then do
      let s ← s.mapTop
      grow target fuel s
    else .ok s

/-- `sbrk`, with what it returns and the error number. -/
def sbrk (s : HeapRun) (incr : Int) : Except Stop ((Nat × SbrkErrno) × HeapRun) :=
  if kernelHeapEnd ≤ addInt s.kmemPtr incr then .ok ((0, .ENOMEM), s)
  else do
    let s ← s.grow (addInt s.kmemPtr incr) 0x10001
    let s := { s with kmemPtr := addInt s.kmemPtr incr }
    return ((addInt s.kmemPtr (-incr), .SYSCALL_OK), s)

def step (s : HeapRun) (incr : Int) : Option HeapRun := (s.sbrk incr).toOption.map Prod.snd

def Empty (s : HeapRun) : Prop := s.kmemPtr = kernelHeapStart ∧ s.kmemTop = kernelHeapStart

structure Ok (s : HeapRun) : Prop where
  start : kernelHeapStart ≤ s.kmemPtr
  le : s.kmemPtr ≤ s.kmemTop
  lt : s.kmemPtr < kernelHeapEnd
  top : s.kmemTop ≤ kernelHeapEnd
  aligned : s.kmemTop % pageSize = 0
  mapped : ∀ page, kernelHeapStart ≤ page → page < s.kmemTop → (s.space.last page).present = true

def IsInt (i : Int) : Prop := -2 ^ 31 ≤ i ∧ i < 2 ^ 31

instance (i : Int) : Decidable (IsInt i) := inferInstanceAs (Decidable (_ ∧ _))

/-- The sum is not below the heap, and does not wrap around. -/
def Meets (s : HeapRun) (incr : Int) : Prop :=
  IsInt incr ∧ kernelHeapStart ≤ s.kmemPtr + incr ∧ s.kmemPtr + incr < 2 ^ 32

/-- What a call has to do, where memory does not run out. -/
def CallRight (s : HeapRun) (incr : Int) : Prop :=
  match s.sbrk incr with
  | .ok ((ret, errno), s') =>
    if kernelHeapStart ≤ s.kmemPtr + incr ∧ s.kmemPtr + incr < kernelHeapEnd then
      ret = s.kmemPtr ∧ errno = .SYSCALL_OK ∧ (s'.kmemPtr : Int) = s.kmemPtr + incr ∧ s'.Ok
    else
      ret = 0 ∧ errno = .ENOMEM ∧ s'.kmemPtr = s.kmemPtr ∧ s'.kmemTop = s.kmemTop
  | .error e => e = .outOfMemory

-- ---------------------------------------------------------------------------
-- The loop
-- ---------------------------------------------------------------------------

section
variable {s s' : HeapRun} {incr : Int} {target fuel : Nat}

theorem clearTable_yields {m : Machine} {e : Entry} (he : e.present = true) :
    Yields (m.clearTable e) (· = .outOfMemory) fun _ => True := by
  rw [Machine.clearTable, if_pos he]
  exact trivial

theorem pmmAllocPage_yields (m : Machine) :
    Yields (pmmAllocPage m) (· = .outOfMemory) fun _ => True := by
  rw [pmmAllocPage]
  split
  · exact rfl
  · exact trivial

theorem setPageDirectory_self (m : Machine) (i : Nat) (e : Entry) :
    (m.setPageDirectory i e).pageDirectory i = e := by
  rw [Machine.pageDirectory, Machine.setPageDirectory, Machine.setTable_cr3, Machine.setTable_table,
    if_pos ⟨rfl, rfl⟩]

theorem vmmExdirSet_pageDirectory (m : Machine) (pd : Frame) {i : Nat} (hi : i ≠ exdirSlot) :
    (vmmExdirSet m pd).2.pageDirectory i = m.pageDirectory i := by
  rw [vmmExdirSet, Machine.pageDirectory, Machine.setPageDirectory, Machine.setTable_cr3,
    Machine.setTable_table, if_neg fun h => hi h.2, Machine.pageDirectory]

theorem setExpageDirectory_pageDirectory (m : Machine) (i : Nat) :
    (m.setExpageDirectory i (m.pageDirectory i)).pageDirectory i = m.pageDirectory i := by
  rw [Machine.setExpageDirectory, Machine.pageDirectory, Machine.setTable_cr3, Machine.setTable_table]
  split
  · rfl
  · rfl

theorem vmmPageTouch_yields {m : Machine} {page : Nat} {flags : PageFlags}
    (hflags : flags.present = true) (hpage : dirIdx page ≠ exdirSlot) :
    Yields (vmmPageTouch m page flags) (· = .outOfMemory) fun _ => True := by
  have hslot : dirIdx (pageMask page) ≠ exdirSlot := by rwa [dirIdx_pageMask]
  simp only [vmmPageTouch]
  split
  · exact trivial
  split
  · split
    · next hmaster =>
      refine clearTable_yields ?_
      rw [vmmExdirSet_pageDirectory _ _ hslot, setPageDirectory_self]
      exact hmaster
    · refine (pmmAllocPage_yields _).bind fun r _ => clearTable_yields ?_
      rw [vmmExdirSet_pageDirectory _ _ hslot, setExpageDirectory_pageDirectory,
        setPageDirectory_self]
      exact hflags
  · refine (pmmAllocPage_yields _).bind fun r _ => clearTable_yields ?_
    rw [setPageDirectory_self]
    exact hflags

theorem vmmPageSet_yields {m : Machine} {page : Nat} {value : Entry}
    (hv : value.present = true) (hpage : dirIdx page ≠ exdirSlot) :
    Yields (vmmPageSet m page value) (· = .outOfMemory) fun _ => True := by
  rw [vmmPageSet]
  refine (vmmPageTouch_yields hv (by rwa [dirIdx_pageMask])).bind fun m' _ => ?_
  exact trivial

structure Mapped (s s' : HeapRun) : Prop where
  ptr : s'.kmemPtr = s.kmemPtr
  top : s'.kmemTop = wrap (s.kmemTop + pageSize)
  last : ∀ page, (s'.space.last page).present = true ↔
    pageMask page = pageMask s.kmemTop ∨ (s.space.last page).present = true

theorem mapTop_yields (htop : dirIdx s.kmemTop ≠ exdirSlot) :
    Yields s.mapTop (· = .outOfMemory) (Mapped s) := by
  rw [mapTop]
  refine (pmmAllocPage_yields _).bind fun r _ => ?_
  refine (vmmPageSet_yields rfl htop).bind fun m _ => ⟨rfl, rfl, fun page => ?_⟩
  show (setLast s.space.last s.kmemTop _ page).present = true ↔ _
  rw [setLast]
  split
  · next hpage => exact iff_of_true rfl (Or.inl hpage)
  · next hpage => rw [or_iff_right hpage]

theorem Ok.grown (h : s.Ok) (hlt : s.kmemTop < kernelHeapEnd) (hm : Mapped s s') :
    s'.Ok ∧ s'.kmemTop = s.kmemTop + pageSize := by
  have haligned := h.aligned
  have hend : s.kmemTop + pageSize ≤ kernelHeapEnd := by
    unfold kernelHeapEnd pageSize at *
    omega
  have htop : s'.kmemTop = s.kmemTop + pageSize := by
    rw [hm.top, wrap, Nat.mod_eq_of_lt (lt_of_le_of_lt hend (by decide))]
  refine ⟨⟨?_, ?_, ?_, ?_, ?_, fun page hstart hpage => ?_⟩, htop⟩
  · rw [hm.ptr]
    exact h.start
  · rw [hm.ptr, htop]
    exact h.le.trans (Nat.le_add_right _ _)
  · rw [hm.ptr]
    exact h.lt
  · rw [htop]
    exact hend
  · rw [htop, Nat.add_mod_right]
    exact haligned
  · rw [htop] at hpage
    rw [hm.last]
    by_cases hold : page < s.kmemTop
    · exact Or.inr (h.mapped page hstart hold)
    · left
      unfold pageMask pageSize at *
      omega

theorem grow_yields (h : s.Ok) (htarget : target ≤ kernelHeapEnd)
    (hfuel : (kernelHeapEnd - s.kmemTop) / pageSize < fuel) :
    Yields (s.grow target fuel) (· = .outOfMemory) fun s' =>
      s'.Ok ∧ s'.kmemPtr = s.kmemPtr ∧ target ≤ s'.kmemTop := by
  induction fuel generalizing s with
  | zero => cases hfuel
  | succ fuel ih =>
    rw [grow]
    by_cases hlt : s.kmemTop < target
    · have htop := h.start.trans h.le
      have hslot : dirIdx s.kmemTop ≠ exdirSlot := by
        unfold dirIdx exdirSlot kernelHeapStart kernelHeapEnd at *
        omega
      rw [if_pos hlt]
      refine (mapTop_yields hslot).bind fun s₁ hm => ?_
      obtain ⟨hok, hs₁⟩ := h.grown (hlt.trans_le htarget) hm
      have hfuel' : (kernelHeapEnd - s₁.kmemTop) / pageSize < fuel := by
        have hend : s.kmemTop < 0xF0000000 := hlt.trans_le htarget
        have hturns : (0xF0000000 - s.kmemTop) / 0x1000 < fuel + 1 := hfuel
        have hnext : s₁.kmemTop = s.kmemTop + 0x1000 := hs₁
        have haligned : s.kmemTop % 0x1000 = 0 := h.aligned
        show (0xF0000000 - s₁.kmemTop) / 0x1000 < fuel
        omega
      refine (ih hok hfuel').imp fun s₂ h₂ => ?_
      rw [← hm.ptr]
      exact h₂
    · rw [if_neg hlt]
      exact ⟨h, rfl, Nat.le_of_not_lt hlt⟩

theorem addInt_eq {addr : Nat} {incr : Int} (h0 : 0 ≤ (addr : Int) + incr)
    (h1 : (addr : Int) + incr < 2 ^ 32) : (addInt addr incr : Int) = addr + incr := by
  rw [addInt, Int.emod_eq_of_lt h0 h1, Int.toNat_of_nonneg h0]

/-- A sum that leaves it at the top comes back at the bottom. -/
theorem addInt_wraps {addr : Nat} {incr : Int} (h0 : 2 ^ 32 ≤ (addr : Int) + incr)
    (h1 : (addr : Int) + incr < 2 ^ 33) : (addInt addr incr : Int) = addr + incr - 2 ^ 32 := by
  rw [addInt, Int.toNat_of_nonneg (Int.emod_nonneg _ (by decide))]
  omega

theorem Ok.moved (h : s.Ok) {ptr : Nat} (hstart : kernelHeapStart ≤ ptr) (hle : ptr ≤ s.kmemTop)
    (hlt : ptr < kernelHeapEnd) : Ok { s with kmemPtr := ptr } :=
  ⟨hstart, hle, hlt, h.top, h.aligned, h.mapped⟩

theorem Meets.sum (h : Meets s incr) : (addInt s.kmemPtr incr : Int) = s.kmemPtr + incr :=
  addInt_eq (le_trans (by decide) h.2.1) h.2.2

theorem Meets.test (h : Meets s incr) : kernelHeapStart ≤ s.kmemPtr + incr ∧
    s.kmemPtr + incr < kernelHeapEnd ↔ ¬kernelHeapEnd ≤ addInt s.kmemPtr incr := by
  have hsum := h.sum
  have hstart := h.2.1
  unfold kernelHeapStart kernelHeapEnd at *
  omega

theorem sbrk_meets (h : s.Ok) (hm : Meets s incr) : CallRight s incr := by
  have hstart := hm.2.1
  have hsum := hm.sum
  have hend := hm.test
  rw [CallRight, sbrk]
  by_cases hout : kernelHeapEnd ≤ addInt s.kmemPtr incr
  · rw [if_pos hout]
    show if _ then _ else _
    rw [if_neg fun hin => hend.mp hin hout]
    exact ⟨rfl, rfl, rfl, rfl⟩
  have hturns : (kernelHeapEnd - s.kmemTop) / pageSize < 0x10001 := by
    have hlow : 0xE0000000 ≤ s.kmemTop := h.start.trans h.le
    show (0xF0000000 - s.kmemTop) / 0x1000 < 0x10001
    omega
  have hgrow := grow_yields h (Nat.le_of_not_le hout) hturns
  rw [if_neg hout]
  cases hg : s.grow (addInt s.kmemPtr incr) 0x10001 with
  | error e =>
    rw [hg] at hgrow
    exact hgrow
  | ok s₁ =>
    rw [hg] at hgrow
    obtain ⟨hok, hptr, htarget⟩ := hgrow
    have hback : addInt (addInt s.kmemPtr incr) (-incr) = s.kmemPtr := by
      have hptr0 : (addInt (addInt s.kmemPtr incr) (-incr) : Int) = addInt s.kmemPtr incr + -incr :=
        addInt_eq (by omega) (by have := h.lt; unfold kernelHeapEnd at *; omega)
      omega
    simp only [Bind.bind, Except.bind, Pure.pure, Except.pure]
    show if _ then _ else _
    rw [hptr, if_pos (hend.mpr hout)]
    refine ⟨hback, trivial, hsum, hok.moved ?_ htarget (Nat.lt_of_not_le hout)⟩
    exact_mod_cast hsum ▸ hstart

/-- The other sums come out below the heap, and the call takes them for good. -/
theorem addInt_misses (h : s.Ok) (hi : IsInt incr) (hm : ¬Meets s incr) :
    addInt s.kmemPtr incr < kernelHeapStart ∧
      ¬(kernelHeapStart ≤ s.kmemPtr + incr ∧ s.kmemPtr + incr < kernelHeapEnd) := by
  obtain ⟨hlow, hhigh⟩ := hi
  have hstart : 0xE0000000 ≤ s.kmemPtr := h.start
  have hend : s.kmemPtr < 0xF0000000 := h.lt
  have hout : ¬(0xE0000000 ≤ s.kmemPtr + incr ∧ s.kmemPtr + incr < 2 ^ 32) := fun hin =>
    hm ⟨⟨hlow, hhigh⟩, hin⟩
  constructor
  · show addInt s.kmemPtr incr < 0xE0000000
    by_cases hneg : s.kmemPtr + incr < 2 ^ 32
    · have hsum : (addInt s.kmemPtr incr : Int) = s.kmemPtr + incr := addInt_eq (by omega) hneg
      omega
    · have hsum : (addInt s.kmemPtr incr : Int) = s.kmemPtr + incr - 2 ^ 32 :=
        addInt_wraps (by omega) (by omega)
      omega
  · rintro ⟨h1, h2⟩
    exact hout ⟨h1, lt_trans h2 (by decide)⟩

theorem sbrk_misses (h : s.Ok) (hi : IsInt incr) (hm : ¬Meets s incr) : ¬CallRight s incr := by
  obtain ⟨hbelow, hout⟩ := addInt_misses h hi hm
  have hend : ¬kernelHeapEnd ≤ addInt s.kmemPtr incr :=
    not_le.mpr (hbelow.trans (by decide))
  have hgrow : s.grow (addInt s.kmemPtr incr) 0x10001 = .ok s :=
    if_neg (not_lt.mpr (hbelow.le.trans (h.start.trans h.le)))
  rw [CallRight, sbrk, if_neg hend, hgrow]
  show ¬(if _ then _ else _)
  rw [if_neg hout]
  exact fun hc => nomatch hc.2.1

theorem sbrk_iff (h : s.Ok) (hi : IsInt incr) : CallRight s incr ↔ Meets s incr := by
  refine ⟨fun hc => ?_, sbrk_meets h⟩
  by_contra hm
  exact sbrk_misses h hi hm hc

-- ---------------------------------------------------------------------------
-- Runs
-- ---------------------------------------------------------------------------

theorem Empty.ok (h : s.Empty) : s.Ok := by
  obtain ⟨hptr, htop⟩ := h
  refine ⟨hptr.ge, ?_, ?_, ?_, ?_, fun page hstart hpage => ?_⟩
  · rw [hptr, htop]
  · rw [hptr]
    decide
  · rw [htop]
    decide
  · rw [htop]
    decide
  · rw [htop] at hpage
    exact absurd hpage (not_lt.mpr hstart)

theorem Ok.step (h : s.Ok) (hm : Meets s incr) (hs : s.step incr = some s') : s'.Ok := by
  have hright := sbrk_meets h hm
  obtain ⟨⟨r, s₁⟩, hr, rfl⟩ := Option.map_eq_some_iff.mp hs
  have hok : s.sbrk incr = .ok (r, s₁) := by
    cases he : s.sbrk incr with
    | ok x =>
      rw [he] at hr
      rw [Option.some.inj hr]
    | error e =>
      rw [he] at hr
      cases hr
  by_cases hout : kernelHeapEnd ≤ addInt s.kmemPtr incr
  · rw [sbrk, if_pos hout] at hok
    cases hok
    exact h
  · rw [CallRight, hok] at hright
    change if _ then _ else _ at hright
    rw [if_pos (hm.test.mpr hout)] at hright
    exact hright.2.2.2

/-- In every run of calls that meet the condition the heap is as it should be, and there a
call does what it should if and only if it meets the condition. -/
theorem heap_run (h : Reach step Meets Empty s) :
    s.Ok ∧ ∀ incr, IsInt incr → (CallRight s incr ↔ Meets s incr) := by
  have hok : s.Ok := h.invariant (fun _ h0 => h0.ok) fun _ _ _ hi hm hs => hi.step hm hs
  exact ⟨hok, fun incr hi => sbrk_iff hok hi⟩

end

def emptyHeap : HeapRun := ⟨kernelHeapStart, kernelHeapStart, afterInit⟩

instance (s : HeapRun) (incr : Int) : Decidable (Meets s incr) :=
  inferInstanceAs (Decidable ((_ ∧ _) ∧ _ ∧ _))

theorem heap_run_twoPages : ∃ s, exec step emptyHeap [0x1800, -0x1000] = some s ∧ s.Ok ∧
    CallRight s (-0x800) := by
  obtain ⟨s, hs⟩ : ∃ s, exec step emptyHeap [0x1800, -0x1000] = some s :=
    Option.isSome_iff_exists.mp (by decide +kernel)
  have hptr : (exec step emptyHeap [0x1800, -0x1000]).map kmemPtr = some 0xE0000800 := by
    decide +kernel
  rw [hs, Option.map_some, Option.some_inj] at hptr
  obtain ⟨hok, hcalls⟩ := heap_run ((Reach.start ⟨rfl, rfl⟩).along (by decide +kernel) hs)
  have hmeets : Meets s (-0x800) := by
    rw [Meets, hptr]
    decide
  exact ⟨s, hs, hok, (hcalls _ hmeets.1).mpr hmeets⟩

/-- A request of 512 MB wraps around to the address 0. -/
theorem sbrk_wraps : ¬∀ s, Reach step (fun _ incr => IsInt incr) Empty s → s.Ok := by
  intro hall
  have hgrow : grow 0 0x10001 emptyHeap = .ok emptyHeap := if_neg (by decide)
  have hsum : addInt emptyHeap.kmemPtr 0x20000000 = 0 := by decide
  have hs : step emptyHeap 0x20000000 = some { emptyHeap with kmemPtr := 0 } := by
    rw [step, sbrk, hsum, if_neg (by decide), hgrow]
    rfl
  have hok := hall _ (.next (.start ⟨rfl, rfl⟩) (by decide) hs)
  exact absurd hok.start (by decide)

end HeapRun

end Os5
