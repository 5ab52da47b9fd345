import Os5.Lib.Transition
import Os5.Mem.Clone

/-!
# Kernel page tables

The page tables of kernel space are to be shared by all directories: each
directory points to the tables it has come across, and `kernel_pd` knows them
all. They reach a directory by `vmm_clone_pd`, by the page fault handler and by
`vmm_page_touch`.
-/

namespace Os5

open Machine Outcome Transition

/-- The pages of kernel space below the windows of slots 1022 and 1023. -/
def KernelPage (page : Nat) : Prop := kernelOffset ≤ page ∧ page < 0xFF800000

instance (page : Nat) : Decidable (KernelPage page) := inferInstanceAs (Decidable (_ ∧ _))

/-- The directories of the processes, and the value last set for every page. -/
structure KernelSpace where
  machine : Machine
  dirs : List Frame
  last : Nat → Entry

inductive KernelAct
  | load (d : Frame)
  | pageSet (page : Nat) (value : Entry)
  | clonePd
  | fault (page : Nat)

def setLast (last : Nat → Entry) (page : Nat) (value : Entry) : Nat → Entry :=
  fun y => if pageMask y = pageMask page then value else last y

def KernelSpace.step (s : KernelSpace) : KernelAct → Option KernelSpace
  | .load d => if d ∈ s.dirs then some { s with machine := { s.machine with cr3 := d } } else none
  | .pageSet page value =>
    if KernelPage page then
      match vmmPageSet s.machine page value with
      | .ok m => some { s with machine := m, last := setLast s.last page value }
      | .error _ => none
    else none
  | .clonePd =>
    match vmmClonePd s.machine with
    | .ok (pd, m) => some { s with machine := m, dirs := pd :: s.dirs }
    | .error _ => none
  | .fault page =>
    if KernelPage page then
      match kernelPageFault s.machine page with
      | .ok m => some { s with machine := m }
      | .error _ => none
    else none

/-- What is found for a page while `d` is the current directory, the fault handler
having copied the table if it was missing. -/
def translation (m : Machine) (d : Frame) (page : Nat) : Entry :=
  let m := { m with cr3 := d }
  if (m.pde d page).present then m.pte d page
  else
    match kernelPageFault m page with
    | .ok m => m.pte d page
    | .error _ => Entry.zero

/-- `vmm_page_touch` finds a table in the current directory, or there is none yet. -/
def TouchesNew (s : KernelSpace) : KernelAct → Prop
  | .pageSet page _ => (s.machine.pde s.machine.cr3 page).present = true ∨
      (s.machine.pde s.machine.kernelPd page).present = false
  | _ => True

instance (s : KernelSpace) (a : KernelAct) : Decidable (TouchesNew s a) := by
  cases a <;> unfold TouchesNew <;> infer_instance

def KernelSlot (i : Nat) : Prop := 768 ≤ i ∧ i < 1022

def content (m : Machine) (t : Nat → Entry) (page : Nat) : Entry :=
  if (t (dirIdx page)).present then m.table (t (dirIdx page)).frame (tableIdx page) else Entry.zero

/-- The end of `vmm_init`: one directory, cloned from `kernel_pd`. -/
structure Booted (s : KernelSpace) : Prop where
  running : s.machine.vmmRunning = true
  dirs : s.dirs = [s.machine.cr3]
  masterNe : s.machine.kernelPd ≠ s.machine.cr3 ∧ s.machine.kernelPd ≠ 0
  masterNotFree : s.machine.kernelPd ∉ s.machine.free
  spaces : Spaces s.machine (· ∈ s.dirs)
  cloned : ∀ {i}, KernelSlot i → (s.machine.table s.machine.kernelPd i).present = true →
    s.machine.table s.machine.kernelPd i = s.machine.table s.machine.cr3 i
  slot : ∀ {i j}, KernelSlot i → KernelSlot j → (s.machine.table s.machine.cr3 i).present = true →
    (s.machine.table s.machine.cr3 j).present = true →
    (s.machine.table s.machine.cr3 i).frame = (s.machine.table s.machine.cr3 j).frame → i = j
  notDir : ∀ {i}, KernelSlot i → (s.machine.table s.machine.cr3 i).present = true →
    (s.machine.table s.machine.cr3 i).frame ≠ s.machine.cr3 ∧
    (s.machine.table s.machine.cr3 i).frame ≠ s.machine.kernelPd
  notFree : ∀ {i}, KernelSlot i → (s.machine.table s.machine.cr3 i).present = true →
    (s.machine.table s.machine.cr3 i).frame ∉ s.machine.free
  last : ∀ page, KernelPage page →
    s.last page = content s.machine (s.machine.table s.machine.cr3) page

-- ---------------------------------------------------------------------------
-- The invariant
-- ---------------------------------------------------------------------------

/-- There is one table `t i` for a slot, in every directory that has one, and each
directory either has it or can copy it from the master directory. -/
structure KernelTables (m : Machine) (dirs : List Frame) (t : Nat → Entry) : Prop where
  running : m.vmmRunning = true
  current : m.cr3 ∈ dirs
  masterNe : m.kernelPd ∉ dirs ∧ m.kernelPd ≠ 0
  masterNotFree : m.kernelPd ∉ m.free
  spaces : Spaces m (· ∈ dirs)
  row : ∀ {d i}, d ∈ m.kernelPd :: dirs → KernelSlot i → (m.table d i).present = true →
    m.table d i = t i
  known : ∀ {d i}, d ∈ dirs → KernelSlot i → (t i).present = true →
    (m.table d i).present = true ∨ (m.table m.kernelPd i).present = true
  slot : ∀ {i j}, KernelSlot i → KernelSlot j → (t i).present = true → (t j).present = true →
    (t i).frame = (t j).frame → i = j
  notDir : ∀ {i}, KernelSlot i → (t i).present = true → (t i).frame ∉ m.kernelPd :: dirs
  notFree : ∀ {i}, KernelSlot i → (t i).present = true → (t i).frame ∉ m.free

def KernelSpace.Inv (s : KernelSpace) : Prop :=
  ∃ t, KernelTables s.machine s.dirs t ∧ ∀ page, KernelPage page → s.last page = content s.machine t page

section
variable {m m' : Machine} {dirs : List Frame} {d e f : Frame} {page y i : Nat} {value : Entry}
  {t : Nat → Entry}

theorem KernelPage.slot (h : KernelPage page) : KernelSlot (dirIdx page) := by
  obtain ⟨h1, h2⟩ := h
  unfold kernelOffset at h1
  unfold KernelSlot dirIdx
  omega

theorem KernelSlot.ne_exdir (h : KernelSlot i) : i ≠ exdirSlot := Nat.ne_of_lt h.2

theorem Booted.inv {s : KernelSpace} (h : Booted s) : s.Inv := by
  refine ⟨s.machine.table s.machine.cr3, ⟨h.running, ?_, ?_, h.masterNotFree, h.spaces, ?_, ?_, h.slot,
    ?_, h.notFree⟩, h.last⟩
  · simp [h.dirs]
  · simpa [h.dirs] using h.masterNe
  · intro d i hd hi hp
    rw [h.dirs] at hd
    obtain rfl | rfl : d = s.machine.kernelPd ∨ d = s.machine.cr3 := by simpa using hd
    · exact h.cloned hi hp
    · rfl
  · intro d i hd hi hp
    rw [h.dirs] at hd
    obtain rfl : d = s.machine.cr3 := by simpa using hd
    exact .inl hp
  · intro i hi hp
    have := h.notDir hi hp
    simp [h.dirs, this]

theorem Spaces.of_rows {dirs : Frame → Prop} (hs : Spaces m dirs)
    (hrow : ∀ {d i}, dirs d → i < 768 → m'.table d i = m.table d i)
    (hfree : ∀ {g}, g ∈ m'.free → g ∈ m.free) (hnd : m'.free.Nodup) : Spaces m' dirs where
  nonzero := hs.nonzero
  tableNotDir hd he hi := by
    rw [hrow hd hi]
    exact hs.tableNotDir hd he hi
  tableUnique hd he hi hj := by
    rw [hrow hd hi, hrow he hj]
    exact hs.tableUnique hd he hi hj
  freeNotDir hf := hs.freeNotDir (hfree hf)
  freeNotTable hf hd hi := by
    rw [hrow hd hi]
    exact hs.freeNotTable (hfree hf) hd hi
  freeNonzero hf := hs.freeNonzero (hfree hf)
  freeNodup := hnd

theorem KernelTables.master_ne (h : KernelTables m dirs t) (hd : d ∈ dirs) : d ≠ m.kernelPd := by
  rintro rfl
  exact h.masterNe.1 hd

theorem KernelTables.missing (h : KernelTables m dirs t) (hi : KernelSlot i)
    (hc : (m.table m.cr3 i).present = false) (hk : (m.table m.kernelPd i).present = false) :
    (t i).present = false := by
  by_contra hp
  rcases h.known h.current hi (by simpa using hp) with h1 | h1
  · rw [hc] at h1
    cases h1
  · rw [hk] at h1
    cases h1

theorem KernelTables.load (h : KernelTables m dirs t) (hd : d ∈ dirs) :
    KernelTables { m with cr3 := d } dirs t :=
  { h with current := hd, spaces := h.spaces.of_tables rfl rfl }

-- ---------------------------------------------------------------------------
-- Touching a page
-- ---------------------------------------------------------------------------

structure NewTable (m : Machine) (page : Nat) (flags : PageFlags) (f : Frame) (rest : List Frame)
    (m' : Machine) : Prop where
  present : flags.present = true
  free : m.free = f :: rest
  cr3 : m'.cr3 = m.cr3
  kernelPd : m'.kernelPd = m.kernelPd
  vmmRunning : m'.vmmRunning = m.vmmRunning
  rest : m'.free = rest
  cleared : ∀ j, m'.table f j = Entry.zero
  table : ∀ {g j}, g ≠ f → g ≠ m.cr3 ∨ j ≠ exdirSlot →
    m'.table g j = if (g = m.cr3 ∨ g = m.kernelPd) ∧ j = dirIdx page then ⟨flags, f⟩ else m.table g j

theorem vmmPageTouch_missing {flags : PageFlags} (h : KernelTables m dirs t) (hp : KernelPage page)
    (hc : (m.pde m.cr3 page).present = false) (hk : (m.pde m.kernelPd page).present = false)
    (hok : vmmPageTouch m page flags = .ok m') : ∃ f rest, NewTable m page flags f rest m' := by
  have hi : dirIdx page ≠ exdirSlot := hp.slot.ne_exdir
  have hoff : kernelOffset ≤ pageMask page := by
    obtain ⟨h1, -⟩ := hp
    unfold kernelOffset pageMask at *
    omega
  have hne : m.cr3 ≠ m.kernelPd := fun he => h.masterNe.1 (he ▸ h.current)
  unfold Machine.pde at hc hk
  set m1 := (vmmExdirSet m m.kernelPd).2 with hm1
  have hl1 : m1.exdir.frame = m.kernelPd := by rw [hm1, vmmExdirSet_loaded h.masterNe.2]
  have hmaster : (m1.expageDirectory (dirIdx page)).present = false := by
    rw [expageDirectory, hl1, vmmExdirSet_table (.inr hi)]
    exact hk
  unfold vmmPageTouch at hok
  simp only [dirIdx_pageMask, pageDirectory, hc, Bool.false_eq_true, if_false, hoff, h.running, and_self,
    if_true, bind, Except.bind, pure, Except.pure, ← hm1, hmaster] at hok
  cases hfree : m.free with
  | nil =>
    have halloc : pmmAllocPage m1 = .error .outOfMemory := by
      rw [pmmAllocPage, show m1.free = [] from hfree]
    rw [halloc] at hok
    cases hok
  | cons f rest =>
    have halloc : pmmAllocPage m1 = .ok (f, { m1 with free := rest }) := by
      rw [pmmAllocPage, show m1.free = f :: rest from hfree]
    rw [halloc] at hok
    -- the current directory has the entry, then the master directory
    set m2 := setPageDirectory { m1 with free := rest } (dirIdx page) ⟨flags, f⟩ with hm2
    have h2 : ∀ g j, m2.table g j =
        if g = m.cr3 ∧ j = dirIdx page then ⟨flags, f⟩ else m1.table g j := fun g j =>
      setTable_table { m1 with free := rest } m.cr3 g (dirIdx page) j ⟨flags, f⟩
    have hl2 : m2.exdir.frame = m.kernelPd := by
      rw [exdir, h2, if_neg (fun hh => hi hh.2.symm)]
      exact hl1
    have hread : m2.table m2.cr3 (dirIdx page) = ⟨flags, f⟩ := by
      rw [h2, if_pos ⟨rfl, rfl⟩]
    simp only [← hm2, hread] at hok
    set m3 := m2.setExpageDirectory (dirIdx page) ⟨flags, f⟩ with hm3
    have h3 : ∀ g j, m3.table g j =
        if g = m.kernelPd ∧ j = dirIdx page then ⟨flags, f⟩ else m2.table g j := by
      intro g j
      rw [hm3, setExpageDirectory, hl2, setTable_table]
    set m4 := (vmmExdirSet m3 (vmmExdirSet m m.kernelPd).1).2 with hm4
    have h4 : ∀ {g j}, g ≠ m.cr3 ∨ j ≠ exdirSlot → m4.table g j = m3.table g j :=
      fun hg => vmmExdirSet_table hg
    have hread4 : m4.table m4.cr3 (dirIdx page) = ⟨flags, f⟩ := by
      rw [h4 (.inr hi), h3, if_neg (fun hh => hne hh.1), h2, if_pos ⟨rfl, rfl⟩]
    rw [hread4, clearTable] at hok
    split at hok
    swap
    · cases hok
    next hpres =>
    obtain rfl := (Except.ok.inj hok).symm
    refine ⟨f, rest, hpres, hfree, rfl, rfl, rfl, rfl, fun j => by simp, fun {g j} hg hj => ?_⟩
    rw [show ∀ (t : Frame → Nat → Entry), ({ m4 with table := t } : Machine).table = t from
      fun _ => rfl, Function.update_of_ne hg, h4 hj, h3, h2, hm1, vmmExdirSet_table hj]
    by_cases hs : j = dirIdx page <;> by_cases h1 : g = m.cr3 <;> by_cases h2 : g = m.kernelPd <;>
      simp [hs, h1, h2]

theorem NewTable.kernelTables {flags : PageFlags} {rest : List Frame} (h : NewTable m page flags f rest m')
    (hi : KernelTables m dirs t) (hp : KernelPage page)
    (hc : (m.pde m.cr3 page).present = false) (hk : (m.pde m.kernelPd page).present = false) :
    KernelTables m' dirs (Function.update t (dirIdx page) ⟨flags, f⟩) := by
  have hf : f ∈ m.free := by simp [h.free]
  have hfdir : f ∉ m.kernelPd :: dirs := by
    rintro hmem
    rcases List.mem_cons.mp hmem with rfl | hd
    · exact hi.masterNotFree hf
    · exact hi.spaces.freeNotDir hf hd
  have hne : ∀ {g}, g ∈ m.kernelPd :: dirs → g ≠ f := by
    rintro g hg rfl
    exact hfdir hg
  have hnd : f ∉ rest ∧ rest.Nodup := List.nodup_cons.mp (h.free ▸ hi.spaces.freeNodup)
  have hsub : ∀ {g}, g ∈ m'.free → g ∈ m.free := by
    intro g hg
    rw [h.rest] at hg
    simp [h.free, hg]
  have hrow : ∀ {g j}, g ∈ m.kernelPd :: dirs → j ≠ exdirSlot → m'.table g j =
      if (g = m.cr3 ∨ g = m.kernelPd) ∧ j = dirIdx page then ⟨flags, f⟩ else m.table g j :=
    fun hg hj => h.table (hne hg) (.inr hj)
  have hmiss := hi.missing hp.slot hc hk
  -- the entry of a slot is the new one or an old one
  have ht : ∀ {j}, KernelSlot j → (Function.update t (dirIdx page) ⟨flags, f⟩ j).present = true →
      (j = dirIdx page ∧ Function.update t (dirIdx page) ⟨flags, f⟩ j = ⟨flags, f⟩) ∨
      (j ≠ dirIdx page ∧ Function.update t (dirIdx page) ⟨flags, f⟩ j = t j ∧ (t j).present = true) := by
    intro j hj hpj
    by_cases hji : j = dirIdx page
    · subst hji
      simp
    · rw [Function.update_of_ne hji] at hpj ⊢
      exact .inr ⟨hji, rfl, hpj⟩
  refine ⟨h.vmmRunning.trans hi.running, h.cr3 ▸ hi.current, h.kernelPd ▸ hi.masterNe, ?_, ?_, ?_, ?_, ?_,
    ?_, ?_⟩
  · rw [h.kernelPd]
    exact fun hm => hi.masterNotFree (hsub hm)
  · refine hi.spaces.of_rows (fun {d j} hd hj => ?_) hsub (h.rest ▸ hnd.2)
    have hslot := hp.slot.1
    rw [hrow (List.mem_cons_of_mem _ hd) (by unfold exdirSlot; omega), if_neg (by omega)]
  · intro d j hd hj hpd
    rw [h.kernelPd] at hd
    rw [hrow hd hj.ne_exdir] at hpd ⊢
    split at hpd
    · next hs => rw [if_pos hs, hs.2, Function.update_self]
    · next hs =>
      rw [if_neg hs, hi.row hd hj hpd]
      rw [Function.update_of_ne]
      rintro rfl
      rw [hi.row hd hj hpd, hmiss] at hpd
      cases hpd
  · intro d j hd hj hpj
    rw [h.kernelPd, hrow (List.mem_cons_self) hj.ne_exdir, hrow (List.mem_cons_of_mem _ hd) hj.ne_exdir]
    rcases ht hj hpj with ⟨rfl, -⟩ | ⟨hji, -, hpt⟩
    · exact .inr (by simpa using h.present)
    · rw [if_neg (fun hh => hji hh.2), if_neg (fun hh => hji hh.2)]
      exact hi.known hd hj hpt
  · intro j k hj hk' hpj hpk hfr
    rcases ht hj hpj with ⟨rfl, h1⟩ | ⟨hji, h1, hptj⟩ <;>
      rcases ht hk' hpk with ⟨rfl, h2⟩ | ⟨hki, h2, hptk⟩
    · rfl
    · rw [h1, h2] at hfr
      exact absurd (show (t k).frame ∈ m.free from hfr ▸ hf) (hi.notFree hk' hptk)
    · rw [h1, h2] at hfr
      exact absurd (show (t j).frame ∈ m.free from hfr ▸ hf) (hi.notFree hj hptj)
    · rw [h1, h2] at hfr
      exact hi.slot hj hk' hptj hptk hfr
  · intro j hj hpj
    rw [h.kernelPd]
    rcases ht hj hpj with ⟨-, h1⟩ | ⟨-, h1, hptj⟩
    · rw [h1]
      exact hfdir
    · rw [h1]
      exact hi.notDir hj hptj
  · intro j hj hpj
    rcases ht hj hpj with ⟨-, h1⟩ | ⟨-, h1, hptj⟩
    · rw [h1, h.rest]
      exact hnd.1
    · rw [h1]
      exact fun hm => hi.notFree hj hptj (hsub hm)

theorem NewTable.content {flags : PageFlags} {rest : List Frame} (h : NewTable m page flags f rest m')
    (hi : KernelTables m dirs t) (hy : KernelPage y)
    (hmiss : (t (dirIdx page)).present = false) :
    content m' (Function.update t (dirIdx page) ⟨flags, f⟩) y = content m t y := by
  unfold Os5.content
  by_cases hs : dirIdx y = dirIdx page
  · rw [hs, Function.update_self, if_pos h.present, h.cleared, hmiss]
    rfl
  · rw [Function.update_of_ne hs]
    split
    · next hpt =>
      have hf : (t (dirIdx y)).frame ≠ f := by
        rintro rfl
        exact hi.notFree hy.slot hpt (by simp [h.free])
      have hd := hi.notDir hy.slot hpt
      simp only [List.mem_cons, not_or] at hd
      have hcur : (t (dirIdx y)).frame ≠ m.cr3 := fun e => hd.2 (e ▸ hi.current)
      rw [h.table hf (.inl hcur), if_neg]
      rintro ⟨h1 | h1, -⟩
      · exact hcur h1
      · exact hd.1 h1
    · rfl

theorem KernelTables.setEntry (h : KernelTables m dirs t) (hp : KernelPage page)
    (hpt : (t (dirIdx page)).present = true) (value : Entry) :
    KernelTables (m.setTable (t (dirIdx page)).frame (tableIdx page) value) dirs t ∧
    ∀ y, KernelPage y → content (m.setTable (t (dirIdx page)).frame (tableIdx page) value) t y =
      if pageMask y = pageMask page then value else content m t y := by
  have hd := h.notDir hp.slot hpt
  have hrow : ∀ {g j}, g ∈ m.kernelPd :: dirs →
      (m.setTable (t (dirIdx page)).frame (tableIdx page) value).table g j = m.table g j := by
    intro g j hg
    rw [setTable_table, if_neg]
    rintro ⟨rfl, -⟩
    exact hd hg
  constructor
  · refine ⟨h.running, h.current, h.masterNe, h.masterNotFree, ?_, ?_, ?_, h.slot, h.notDir, h.notFree⟩
    · exact h.spaces.of_rows (fun hd _ => hrow (List.mem_cons_of_mem _ hd)) (fun hg => hg)
        h.spaces.freeNodup
    · intro g j hg hj
      rw [hrow hg]
      exact h.row hg hj
    · intro g j hg hj
      rw [hrow (List.mem_cons_of_mem _ hg), setTable_kernelPd, hrow List.mem_cons_self]
      exact h.known hg hj
  · intro y hy
    unfold content
    by_cases hpy : (t (dirIdx y)).present = true
    · simp only [if_pos hpy, setTable_table, samePage_iff]
      by_cases hs : dirIdx y = dirIdx page
      · simp [hs]
      · rw [if_neg, if_neg (fun hh => hs hh.1)]
        rintro ⟨hfr, -⟩
        exact hs (h.slot hy.slot hp.slot hpy hpt hfr)
    · simp only [if_neg hpy, samePage_iff]
      rw [if_neg]
      rintro ⟨hs, -⟩
      rw [hs] at hpy
      exact hpy hpt

theorem vmmPageSet_ok (hok : vmmPageSet m page value = .ok m') :
    ∃ m1, vmmPageTouch m page value.toPageFlags = .ok m1 ∧
      m' = m1.setTable (m1.pde m1.cr3 page).frame (tableIdx page) value := by
  unfold vmmPageSet at hok
  obtain ⟨m1, h1, h2⟩ := bind_ok.mp hok
  refine ⟨m1, ?_, ?_⟩
  · rw [← h1]
    unfold vmmPageTouch
    simp only [pageMask_pageMask]
  · rw [← Except.ok.inj h2, pageDirectory, dirIdx_pageMask, tableIdx_pageMask]
    rfl

-- ---------------------------------------------------------------------------
-- The steps
-- ---------------------------------------------------------------------------

theorem KernelSpace.Inv.pageSet {s : KernelSpace} (h : s.Inv) (hp : KernelPage page)
    (hok : TouchesNew s (.pageSet page value)) (hm : vmmPageSet s.machine page value = .ok m') :
    KernelSpace.Inv { s with machine := m', last := setLast s.last page value } := by
  obtain ⟨t, hi, hlast⟩ := h
  -- the table is there, in the end
  obtain ⟨m1, t', hi', hlast', hpt, rfl⟩ : ∃ m1 t', KernelTables m1 s.dirs t' ∧
      (∀ y, KernelPage y → s.last y = content m1 t' y) ∧ (t' (dirIdx page)).present = true ∧
      m' = m1.setTable (t' (dirIdx page)).frame (tableIdx page) value := by
    cases hc : (s.machine.pde s.machine.cr3 page).present with
    | true =>
      rw [vmmPageSet_present hc] at hm
      have hrow := hi.row (List.mem_cons_of_mem _ hi.current) hp.slot hc
      refine ⟨s.machine, t, hi, hlast, hrow ▸ hc, ?_⟩
      rw [← hrow]
      exact (Except.ok.inj hm).symm
    | false =>
      have hk : (s.machine.pde s.machine.kernelPd page).present = false := by
        rcases hok with h1 | h1
        · rw [hc] at h1
          cases h1
        · exact h1
      obtain ⟨m1, htouch, rfl⟩ := vmmPageSet_ok hm
      obtain ⟨f, rest, hnew⟩ := vmmPageTouch_missing hi hp hc hk htouch
      have hi' := hnew.kernelTables hi hp hc hk
      have hf : s.machine.cr3 ≠ f := by
        rintro rfl
        exact hi.spaces.freeNotDir (by simp [hnew.free]) hi.current
      have hpde : m1.pde m1.cr3 page = ⟨value.toPageFlags, f⟩ := by
        rw [Machine.pde, hnew.cr3, hnew.table hf (.inr hp.slot.ne_exdir), if_pos ⟨.inl rfl, rfl⟩]
      refine ⟨m1, _, hi', fun y hy => ?_, ?_, ?_⟩
      · rw [hnew.content hi hy (hi.missing hp.slot hc hk)]
        exact hlast y hy
      · rw [Function.update_self]
        exact hnew.present
      · rw [Function.update_self, hpde]
  obtain ⟨h1, h2⟩ := hi'.setEntry hp hpt value
  refine ⟨t', h1, fun y hy => ?_⟩
  rw [h2 y hy]
  simp only [setLast, hlast' y hy]

theorem kernelPageFault_spec (h : KernelTables m dirs t) (hp : KernelPage page) :
    if (m.pde m.kernelPd page).present then
      ∃ m', kernelPageFault m page = .ok m' ∧ m'.cr3 = m.cr3 ∧ m'.kernelPd = m.kernelPd ∧
        m'.vmmRunning = m.vmmRunning ∧ m'.free = m.free ∧
        ∀ {g j}, g ≠ m.cr3 ∨ j ≠ exdirSlot → m'.table g j =
          if g = m.cr3 ∧ j = dirIdx page then m.pde m.kernelPd page else m.table g j
    else kernelPageFault m page = .error .fault := by
  have hi : dirIdx page ≠ exdirSlot := hp.slot.ne_exdir
  set m1 := (vmmExdirSet m m.kernelPd).2 with hm1
  have hl1 : m1.exdir.frame = m.kernelPd := by rw [hm1, vmmExdirSet_loaded h.masterNe.2]
  have hmaster : m1.expageDirectory (dirIdx page) = m.pde m.kernelPd page := by
    rw [expageDirectory, hl1, vmmExdirSet_table (.inr hi), Machine.pde]
  unfold kernelPageFault
  simp only [← hm1, vmmExtableGet, dirIdx_pageMask, hmaster]
  split
  · next hpk =>
    refine ⟨_, rfl, rfl, rfl, rfl, rfl, fun {g j} hj => ?_⟩
    have hm1g : m1.table g j = m.table g j := vmmExdirSet_table hj
    have hm2 : g ≠ (vmmTableSet m1 page (m.pde m.kernelPd page)).cr3 ∨ j ≠ exdirSlot := hj
    rw [vmmExdirSet_table hm2, vmmTableSet, setPageDirectory, setTable_table, dirIdx_pageMask, hm1g]
    rfl
  · next hpk => rw [if_neg (by simp [Entry.zero])]

theorem KernelTables.fault (h : KernelTables m dirs t) (hp : KernelPage page)
    (hok : kernelPageFault m page = .ok m') :
    KernelTables m' dirs t ∧ ∀ y, KernelPage y → content m' t y = content m t y := by
  have hspec := kernelPageFault_spec h hp
  split at hspec
  swap
  · rw [hok] at hspec
    cases hspec
  next hpk =>
  obtain ⟨_, hok', hcr3, hkpd, hrun, hfree, htable⟩ := hspec
  obtain rfl := Except.ok.inj (hok.symm.trans hok')
  have hrow : ∀ {g j}, j ≠ exdirSlot → m'.table g j =
      if g = m.cr3 ∧ j = dirIdx page then m.pde m.kernelPd page else m.table g j := fun hj =>
    htable (.inr hj)
  have hkrow : ∀ {j}, j ≠ exdirSlot → m'.table m'.kernelPd j = m.table m.kernelPd j := by
    intro j hj
    rw [hkpd, hrow hj, if_neg (fun hh => h.master_ne h.current hh.1.symm)]
  have hcopy : m.pde m.kernelPd page = t (dirIdx page) := h.row List.mem_cons_self hp.slot hpk
  constructor
  · refine ⟨hrun.trans h.running, hcr3 ▸ h.current, hkpd ▸ h.masterNe, hkpd ▸ hfree ▸ h.masterNotFree,
      ?_, ?_, ?_, h.slot, fun hj hpj => hkpd ▸ h.notDir hj hpj, fun hj hpj => hfree ▸ h.notFree hj hpj⟩
    · refine h.spaces.of_rows (fun {d j} _ hj => ?_) (fun hg => hfree ▸ hg) (hfree ▸ h.spaces.freeNodup)
      have hslot := hp.slot.1
      rw [hrow (by unfold exdirSlot; omega), if_neg (by omega)]
    · intro d j hd hj hpd
      rw [hkpd] at hd
      rw [hrow hj.ne_exdir] at hpd ⊢
      split at hpd
      · next hs => rw [if_pos hs, hs.2, hcopy]
      · next hs =>
        rw [if_neg hs]
        exact h.row hd hj hpd
    · intro d j hd hj hpj
      rw [hkrow hj.ne_exdir, hrow hj.ne_exdir]
      rcases h.known hd hj hpj with h1 | h1
      · left
        split
        · exact hpk
        · exact h1
      · exact .inr h1
  · intro y hy
    unfold content
    split
    · next hpy =>
      have hd := h.notDir hy.slot hpy
      have hcur : (t (dirIdx y)).frame ≠ m.cr3 := by
        rintro he
        exact hd (he ▸ List.mem_cons_of_mem _ h.current)
      rw [htable (.inl hcur), if_neg (fun hh => hcur hh.1)]
    · rfl

theorem KernelTables.clonePd (h : KernelTables m dirs t) (hok : vmmClonePd m = .ok (d, m')) :
    KernelTables m' (d :: dirs) t ∧ ∀ y, KernelPage y → content m' t y = content m t y := by
  have hc : Cloned (· ∈ dirs) m d m' := (vmmClonePd_spec h.spaces h.current).of_eq_ok hok
  have hdk : d ≠ m.kernelPd := by
    rintro rfl
    exact h.masterNotFree hc.fresh
  have hold : ∀ {g}, g ∈ m.kernelPd :: dirs → g ∉ m.free := by
    intro g hg
    rcases List.mem_cons.mp hg with rfl | hg
    · exact h.masterNotFree
    · exact fun hm => h.spaces.freeNotDir hm hg
  have hrow : ∀ {g j}, g ∈ m.kernelPd :: dirs → KernelSlot j → m'.table g j = m.table g j :=
    fun hg hj => hc.table (hold hg) (.inr hj.ne_exdir)
  have hcur : m.cr3 ∈ m.kernelPd :: dirs := List.mem_cons_of_mem _ h.current
  constructor
  · refine ⟨hc.vmmRunning.trans h.running, ?_, ?_, ?_, ?_, ?_, ?_, h.slot, ?_, ?_⟩
    · rw [hc.cr3]
      exact List.mem_cons_of_mem _ h.current
    · rw [hc.kernelPd]
      refine ⟨?_, h.masterNe.2⟩
      rintro hm
      rcases List.mem_cons.mp hm with he | hm
      · exact hdk he.symm
      · exact h.masterNe.1 hm
    · rw [hc.kernelPd]
      exact fun hm => h.masterNotFree (hc.freeSub hm)
    · exact hc.spaces.mono fun g hg => by
        rcases List.mem_cons.mp hg with rfl | hg
        · exact .inr rfl
        · exact .inl hg
    · intro g j hg hj hpg
      by_cases hgd : g = d
      · subst hgd
        rw [hc.kernel hj.1 hj.2] at hpg ⊢
        exact h.row hcur hj hpg
      · have hg' : g ∈ m.kernelPd :: dirs := by
          rw [hc.kernelPd] at hg
          simpa [hgd] using hg
        rw [hrow hg' hj] at hpg ⊢
        exact h.row hg' hj hpg
    · intro g j hg hj hpj
      rw [hc.kernelPd, hrow List.mem_cons_self hj]
      rcases List.mem_cons.mp hg with rfl | hg
      · rw [hc.kernel hj.1 hj.2]
        exact h.known h.current hj hpj
      · rw [hrow (List.mem_cons_of_mem _ hg) hj]
        exact h.known hg hj hpj
    · intro j hj hpj
      rw [hc.kernelPd]
      have h1 := h.notDir hj hpj
      have h2 : (t j).frame ≠ d := by
        rintro rfl
        exact h.notFree hj hpj hc.fresh
      simp only [List.mem_cons, not_or] at h1 ⊢
      exact ⟨h1.1, h2, h1.2⟩
    · intro j hj hpj
      exact fun hm => h.notFree hj hpj (hc.freeSub hm)
  · intro y hy
    unfold content
    split
    · next hpy =>
      have hcr : (t (dirIdx y)).frame ≠ m.cr3 := by
        rintro he
        exact h.notDir hy.slot hpy (he ▸ hcur)
      rw [hc.table (h.notFree hy.slot hpy) (.inl hcr)]
    · rfl

theorem KernelSpace.Inv.step {s s' : KernelSpace} {a : KernelAct} (h : s.Inv) (hok : TouchesNew s a)
    (hs : s.step a = some s') : s'.Inv := by
  cases a with
  | load d =>
    simp only [KernelSpace.step] at hs
    split at hs
    swap
    · cases hs
    next hd =>
    cases hs
    obtain ⟨t, hi, hlast⟩ := h
    exact ⟨t, hi.load hd, hlast⟩
  | pageSet page value =>
    simp only [KernelSpace.step] at hs
    split at hs
    swap
    · cases hs
    next hp =>
    split at hs
    swap
    · cases hs
    next m hm =>
    cases hs
    exact h.pageSet hp hok hm
  | clonePd =>
    simp only [KernelSpace.step] at hs
    split at hs
    swap
    · cases hs
    next d m hm =>
    cases hs
    obtain ⟨t, hi, hlast⟩ := h
    obtain ⟨h1, h2⟩ := hi.clonePd hm
    exact ⟨t, h1, fun y hy => (hlast y hy).trans (h2 y hy).symm⟩
  | fault page =>
    simp only [KernelSpace.step] at hs
    split at hs
    swap
    · cases hs
    next hp =>
    split at hs
    swap
    · cases hs
    next m hm =>
    cases hs
    obtain ⟨t, hi, hlast⟩ := h
    obtain ⟨h1, h2⟩ := hi.fault hp hm
    exact ⟨t, h1, fun y hy => (hlast y hy).trans (h2 y hy).symm⟩

theorem KernelTables.translation (h : KernelTables m dirs t) (hd : d ∈ dirs) (hp : KernelPage page) :
    translation m d page = content m t page := by
  have hd' := h.load hd
  unfold Os5.translation content
  by_cases hpd : (m.table d (dirIdx page)).present = true
  · have hrow := h.row (List.mem_cons_of_mem _ hd) hp.slot hpd
    rw [if_pos (show (Machine.pde { m with cr3 := d } d page).present = true from hpd),
      if_pos (hrow ▸ hpd), ← hrow]
    rfl
  · rw [if_neg (show ¬ (Machine.pde { m with cr3 := d } d page).present = true from hpd)]
    have hspec := kernelPageFault_spec hd' hp
    split at hspec
    · next hpk =>
      obtain ⟨m', hok, -, -, -, -, htable⟩ := hspec
      have hrow : (m.pde m.kernelPd page) = t (dirIdx page) := h.row List.mem_cons_self hp.slot hpk
      have hpt : (t (dirIdx page)).present = true := hrow ▸ hpk
      have hpde : m'.pde d page = t (dirIdx page) := by
        rw [Machine.pde, htable (.inr hp.slot.ne_exdir), if_pos ⟨rfl, rfl⟩]
        exact hrow
      have hne : (t (dirIdx page)).frame ≠ d := by
        rintro he
        exact h.notDir hp.slot hpt (he ▸ List.mem_cons_of_mem _ hd)
      rw [hok, if_pos hpt]
      show m'.pte d page = _
      rw [Machine.pte, hpde, htable (.inl hne), if_neg (fun hh => hne hh.1)]
    · next hpk =>
      rw [hspec, if_neg]
      rw [hd'.missing hp.slot (by simpa using hpd) (by simpa [Machine.pde] using hpk)]
      decide

-- ---------------------------------------------------------------------------
-- No mapping is lost
-- ---------------------------------------------------------------------------

/-- In a run that never touches a table the current directory has yet to copy, what was
last set for a kernel page is found from every directory. -/
theorem pageSet_kept {s : KernelSpace} (h : Reach KernelSpace.step TouchesNew Booted s) (hd : d ∈ s.dirs)
    (hp : KernelPage page) : translation s.machine d page = s.last page := by
  obtain ⟨t, hi, hlast⟩ := h.invariant (fun _ => Booted.inv) fun _ _ _ hinv hok hs => hinv.step hok hs
  rw [hi.translation hd hp, hlast page hp]

end

def afterInit : KernelSpace where
  machine := { cr3 := 1, kernelPd := 2, vmmRunning := true, table := fun _ _ => Entry.zero
               byte := fun _ _ => 0, free := [3, 4, 5] }
  dirs := [1]
  last := fun _ => Entry.zero

theorem afterInit_booted : Booted afterInit where
  running := rfl
  dirs := rfl
  masterNe := by decide
  masterNotFree := by decide
  spaces :=
    { nonzero := by simp [afterInit]
      tableNotDir := fun _ _ _ hp => by cases hp
      tableUnique := fun _ _ _ _ hp => by cases hp
      freeNotDir := by simp [afterInit]
      freeNotTable := fun _ _ _ hp => by cases hp
      freeNonzero := by decide
      freeNodup := by decide }
  cloned := fun _ _ => rfl
  slot := fun _ _ hp => by cases hp
  notDir := fun _ hp => by cases hp
  notFree := fun _ hp => by cases hp
  last := fun _ _ => rfl

/-- After a fork the child sets one page; the parent finds it, copies the table and
sets the page after it. -/
theorem pageSet_kept_faultFirst : ∃ s, exec KernelSpace.step afterInit
      [.clonePd, .load 3, .pageSet 0xC0400000 (vmmPageVal 8 ⟨true, true, false⟩), .load 1,
        .fault 0xC0400000, .pageSet 0xC0401000 (vmmPageVal 9 ⟨true, true, false⟩)] = some s ∧
    translation s.machine 3 0xC0401000 = s.last 0xC0401000 := by
  obtain ⟨s, hs⟩ : ∃ s, exec KernelSpace.step afterInit
      [.clonePd, .load 3, .pageSet 0xC0400000 (vmmPageVal 8 ⟨true, true, false⟩), .load 1,
        .fault 0xC0400000, .pageSet 0xC0401000 (vmmPageVal 9 ⟨true, true, false⟩)] = some s :=
    Option.isSome_iff_exists.mp (by decide +kernel)
  have hdirs : (exec KernelSpace.step afterInit
      [.clonePd, .load 3, .pageSet 0xC0400000 (vmmPageVal 8 ⟨true, true, false⟩), .load 1,
        .fault 0xC0400000, .pageSet 0xC0401000 (vmmPageVal 9 ⟨true, true, false⟩)]).map
      KernelSpace.dirs = some [3, 1] := by decide +kernel
  have hreach : Reach KernelSpace.step TouchesNew Booted s :=
    (Reach.start afterInit_booted).along (by decide +kernel) hs
  rw [hs, Option.map_some, Option.some_inj] at hdirs
  exact ⟨s, hs, pageSet_kept hreach (by simp [hdirs]) (by decide)⟩

/-- The parent sets the page after the child's without the fault in between: the table it
gets from the master directory is cleared under the child. -/
theorem pageSet_lost : ∃ s, Reach KernelSpace.step Any Booted s ∧ 3 ∈ s.dirs ∧
    KernelPage 0xC0400000 ∧ s.last 0xC0400000 = vmmPageVal 8 ⟨true, true, false⟩ ∧
    translation s.machine 3 0xC0400000 = Entry.zero := by
  obtain ⟨s, hs⟩ : ∃ s, exec KernelSpace.step afterInit
      [.clonePd, .load 3, .pageSet 0xC0400000 (vmmPageVal 8 ⟨true, true, false⟩), .load 1,
        .pageSet 0xC0401000 (vmmPageVal 9 ⟨true, true, false⟩)] = some s :=
    Option.isSome_iff_exists.mp (by decide +kernel)
  have hseen : (exec KernelSpace.step afterInit
      [.clonePd, .load 3, .pageSet 0xC0400000 (vmmPageVal 8 ⟨true, true, false⟩), .load 1,
        .pageSet 0xC0401000 (vmmPageVal 9 ⟨true, true, false⟩)]).map
      (fun s => (s.dirs, s.last 0xC0400000, translation s.machine 3 0xC0400000)) =
      some ([3, 1], vmmPageVal 8 ⟨true, true, false⟩, Entry.zero) := by decide +kernel
  rw [hs, Option.map_some, Option.some_inj, Prod.mk.injEq, Prod.mk.injEq] at hseen
  obtain ⟨h1, h2, h3⟩ := hseen
  exact ⟨s, (Reach.start afterInit_booted).exec hs, by simp [h1], by decide, h2, h3⟩

end Os5
