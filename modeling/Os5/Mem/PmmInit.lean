import Os5.Lib.Outcome
import Os5.Mem.Pmm

/-!
# The memory map

`pmm_init` goes through the records of the multiboot memory map and frees a page at a
time, from the base of each free region up to and with its end. A page that gets past the
test of `pmm_free_page` is recorded as passed to the stack.
-/

namespace Os5

/-- The fields of `mboot_mmap_entry_t` that are read. -/
structure MmapEntry where
  size : Nat
  baseAddrLower : Nat
  lengthLower : Nat
  type : Nat
  deriving DecidableEq, Repr

/-- The fields of `mboot_info_t` that are read, the end of the last module, and the
records of the memory map at their addresses. -/
structure Mboot where
  memUpper : Nat
  modEnd : Nat
  mmapAddr : Nat
  mmapLength : Nat
  entry : Nat → MmapEntry

abbrev mbootMemFlagFree : Nat := 1

def assertHigher (val : Nat) : Nat := if kernelOffset < val then val else wrap (val + kernelOffset)

def pmmPos (mboot : Mboot) : Nat :=
  let pos := pageMask (wrap (mboot.memUpper + pageSize))
  if pos < mboot.modEnd then pageMask (wrap (mboot.modEnd + pageSize)) else pos

structure Freeing where
  pmm : Pmm
  passed : List Frame

def Freeing.freePage (s : Freeing) (f : Frame) : Except Stop Freeing := do
  let pmm ← s.pmm.freePage f
  return ⟨pmm, if f < s.pmm.pos + 1 then s.passed else s.passed ++ [f]⟩

def freeLoop (me : MmapEntry) : Nat → Nat → Freeing → Except Stop Freeing
  | 0, _, _ => .error .hang
  | fuel + 1, j, s =>
    if j ≤ wrap (me.baseAddrLower + me.lengthLower) then do
      let s ← s.freePage (j / pageSize)
      freeLoop me fuel (wrap (j + pageSize)) s
    else .ok s

/-- A loop that has not ended after all pages of the address space never does. -/
def freeEntry (me : MmapEntry) (s : Freeing) : Except Stop Freeing :=
  if me.type = mbootMemFlagFree then freeLoop me (2 ^ 20 + 1) me.baseAddrLower s else .ok s

/-- The loop over the records; each of them takes at least one turn's worth of bytes. -/
def mmapLoop (mboot : Mboot) (mmapEnd : Nat) : Nat → Nat → Freeing → Except Stop Freeing
  | 0, _, _ => .error .hang
  | fuel + 1, me, s =>
    if me < mmapEnd then do
      let s ← freeEntry (mboot.entry me) s
      mmapLoop mboot mmapEnd fuel (wrap (me + (mboot.entry me).size + 4)) s
    else .ok s

def pmmInit (mboot : Mboot) (pmm : Pmm) : Except Stop Freeing :=
  let pmm := { pmm with pos := pmmPos mboot / pageSize, running := false }
  let me := assertHigher mboot.mmapAddr
  mmapLoop mboot (wrap (me + mboot.mmapLength)) (mboot.mmapLength + 1) me ⟨pmm, []⟩

-- ---------------------------------------------------------------------------
-- Memory maps
-- ---------------------------------------------------------------------------

namespace MmapEntry

def Free (me : MmapEntry) : Prop := me.type = mbootMemFlagFree

instance (me : MmapEntry) : Decidable me.Free := inferInstanceAs (Decidable (_ = _))

def finish (me : MmapEntry) : Nat := me.baseAddrLower + me.lengthLower

/-- The frame lies completely inside of the region. -/
def Whole (me : MmapEntry) (f : Frame) : Prop :=
  me.baseAddrLower ≤ f * pageSize ∧ f * pageSize + pageSize ≤ me.finish

instance (me : MmapEntry) (f : Frame) : Decidable (me.Whole f) := inferInstanceAs (Decidable (_ ∧ _))

def Apart (me me' : MmapEntry) : Prop :=
  me.finish ≤ me'.baseAddrLower ∨ me'.finish ≤ me.baseAddrLower

instance (me me' : MmapEntry) : Decidable (me.Apart me') := inferInstanceAs (Decidable (_ ∨ _))

structure InRange (me : MmapEntry) : Prop where
  length : me.lengthLower < 2 ^ 32
  finish : me.finish ≤ 2 ^ 32

instance (me : MmapEntry) : Decidable me.InRange :=
  decidable_of_iff (me.lengthLower < 2 ^ 32 ∧ me.finish ≤ 2 ^ 32)
    ⟨fun h => ⟨h.1, h.2⟩, fun h => ⟨h.length, h.finish⟩⟩

def firstFrame (me : MmapEntry) : Frame := me.baseAddrLower / pageSize
def lastFrame (me : MmapEntry) : Frame := me.baseAddrLower / pageSize + me.lengthLower / pageSize

/-- Free, and not up to the end of the address space: there the end wraps around to 0 and
no page is freed. -/
def Walked (me : MmapEntry) : Prop := me.Free ∧ me.finish < 2 ^ 32

instance (me : MmapEntry) : Decidable me.Walked := inferInstanceAs (Decidable (_ ∧ _))

/-- The step after the last page wraps around, back below the end. -/
def Runaway (me : MmapEntry) : Prop :=
  me.Walked ∧ 2 ^ 32 ≤ me.baseAddrLower + (me.lengthLower / pageSize + 1) * pageSize

instance (me : MmapEntry) : Decidable me.Runaway := inferInstanceAs (Decidable (_ ∧ _))

/-- The frames the loop visits that are not whole in the region: the page of a base that
is not aligned, and the page of the last turn. -/
def strays (me : MmapEntry) : List Frame :=
  [me.firstFrame, me.lastFrame].filter fun f => ¬me.Whole f

end MmapEntry

def Records (entry : Nat → MmapEntry) (mmapEnd : Nat) : Nat → List MmapEntry → Prop
  | a, [] => a = mmapEnd
  | a, me :: mes => entry a = me ∧ Records entry mmapEnd (a + me.size + 4) mes

instance Records.decide (entry : Nat → MmapEntry) (mmapEnd : Nat) :
    (a : Nat) → (mes : List MmapEntry) → Decidable (Records entry mmapEnd a mes)
  | a, [] => inferInstanceAs (Decidable (a = mmapEnd))
  | a, me :: mes =>
    have := Records.decide entry mmapEnd (a + me.size + 4) mes
    inferInstanceAs (Decidable (entry a = me ∧ Records entry mmapEnd (a + me.size + 4) mes))

/-- The memory map, from its records on. The pages for the setup, behind the modules, are
pages of the address space. -/
structure MemoryMap (mboot : Mboot) (mes : List MmapEntry) : Prop where
  records : Records mboot.entry (assertHigher mboot.mmapAddr + mboot.mmapLength)
    (assertHigher mboot.mmapAddr) mes
  below : assertHigher mboot.mmapAddr + mboot.mmapLength < 2 ^ 32
  setup : pmmPos mboot + 2 * pageSize < 2 ^ 32
  inRange : ∀ me ∈ mes, me.InRange
  apart : mes.Pairwise MmapEntry.Apart

def MmapEntry.visits (me : MmapEntry) : List Frame :=
  if me.Walked then List.range' me.firstFrame (me.lengthLower / pageSize + 1) else []

def visits (mes : List MmapEntry) : List Frame := mes.flatMap MmapEntry.visits

def firstVisit (pos : Frame) (mes : List MmapEntry) : Option Frame :=
  (visits mes).find? fun f => pos + 1 ≤ f

/-- The first frame that is taken is held against `pos + 1`, all later ones against
`pos + 2`. -/
def passedFrames (pos : Frame) (mes : List MmapEntry) : List Frame :=
  (if firstVisit pos mes = some (pos + 1) then [pos + 1] else []) ++
    (visits mes).filter fun f => pos + 2 ≤ f

/-- The loops end; the frame after the first two, if it is taken first, is whole in a free
region; and a stray frame behind it is whole in a free region that reaches the end of the
address space, and of one region only. -/
structure Tidy (pos : Frame) (mes : List MmapEntry) : Prop where
  ends : ∀ me ∈ mes, ¬me.Runaway
  first : firstVisit pos mes = some (pos + 1) → ∃ me ∈ mes, me.Free ∧ me.Whole (pos + 1)
  strays : ∀ me ∈ mes, me.Walked → ∀ f ∈ me.strays, pos + 2 ≤ f →
    ∃ me' ∈ mes, me'.Free ∧ me'.finish = 2 ^ 32 ∧ me'.Whole f
  once : mes.Pairwise fun me me' => me.Walked → me'.Walked → ∀ f ∈ me.strays, pos + 2 ≤ f →
    f ∉ me'.strays

structure Pmm.Fresh (s : Pmm) : Prop where
  stackMax : s.stackMax = 0
  stackPtr : s.stackPtr = 0
  table : s.table = none

/-- What `pmm_init` has to do with a memory map. -/
def FreesFrames (mboot : Mboot) (mes : List MmapEntry) (pmm : Pmm) : Prop :=
  ∃ s, pmmInit mboot pmm = .ok s ∧ s.passed.Nodup ∧
    ∀ f ∈ s.passed, ∃ me ∈ mes, me.Free ∧ me.Whole f

-- ---------------------------------------------------------------------------
-- The loops
-- ---------------------------------------------------------------------------

section
variable {me : MmapEntry} {mes : List MmapEntry} {mboot : Mboot} {s s' : Freeing} {fuel i j : Nat}

theorem freeLoop_eq (hend : me.finish < 2 ^ 32)
    (hrun : me.baseAddrLower + (me.lengthLower / pageSize + 1) * pageSize < 2 ^ 32)
    (hi : i ≤ me.lengthLower / pageSize + 1) (hfuel : me.lengthLower / pageSize + 1 - i < fuel) :
    freeLoop me fuel (me.baseAddrLower + i * pageSize) s =
      (List.range' (me.firstFrame + i) (me.lengthLower / pageSize + 1 - i)).foldlM
        Freeing.freePage s := by
  have hwrap : wrap (me.baseAddrLower + me.lengthLower) = me.baseAddrLower + me.lengthLower :=
    Nat.mod_eq_of_lt hend
  induction fuel generalizing i s with
  | zero => cases hfuel
  | succ fuel ih =>
    rw [freeLoop, hwrap]
    by_cases hlast : i = me.lengthLower / pageSize + 1
    · have hpast : ¬me.baseAddrLower + i * pageSize ≤ me.baseAddrLower + me.lengthLower := by
        rw [hlast]
        unfold pageSize
        omega
      rw [if_neg hpast, hlast, Nat.sub_self]
      rfl
    · have hturn : me.baseAddrLower + i * pageSize ≤ me.baseAddrLower + me.lengthLower := by
        unfold pageSize at *
        omega
      have hframe : (me.baseAddrLower + i * pageSize) / pageSize = me.firstFrame + i := by
        rw [MmapEntry.firstFrame, Nat.add_mul_div_right _ _ (by decide)]
      have hnext : wrap (me.baseAddrLower + i * pageSize + pageSize) =
          me.baseAddrLower + (i + 1) * pageSize := by
        rw [wrap, Nat.add_assoc, ← Nat.succ_mul]
        refine Nat.mod_eq_of_lt (lt_of_le_of_lt (Nat.add_le_add_left ?_ _) hrun)
        exact Nat.mul_le_mul_right _ (by omega)
      have hn : me.lengthLower / pageSize + 1 - i = me.lengthLower / pageSize + 1 - (i + 1) + 1 := by
        omega
      rw [if_pos hturn, hframe, hnext, hn, List.range'_succ, List.foldlM_cons]
      refine bind_congr fun s₁ => ?_
      rw [ih (by omega) (by omega), ← Nat.add_assoc]

/-- A sum of 2 ^ 32 is 0, and the base is not. -/
theorem freeLoop_top (h : me.InRange) (hend : me.finish = 2 ^ 32) :
    freeLoop me (2 ^ 20 + 1) me.baseAddrLower s = .ok s := by
  have hwrap : wrap (me.baseAddrLower + me.lengthLower) = 0 := by
    rw [MmapEntry.finish] at hend
    rw [hend]
    rfl
  have hlength := h.length
  rw [MmapEntry.finish] at hend
  refine if_neg ?_
  rw [hwrap]
  omega

theorem freeLoop_runaway (h : me.Runaway) (hj : j < 2 ^ 32)
    (hclass : j % pageSize = me.baseAddrLower % pageSize) : freeLoop me fuel j s ≠ .ok s' := by
  induction fuel generalizing j s with
  | zero => exact fun hc => nomatch hc
  | succ fuel ih =>
    obtain ⟨⟨-, hend⟩, hrun⟩ := h
    have hwrap : wrap (me.baseAddrLower + me.lengthLower) = me.baseAddrLower + me.lengthLower :=
      Nat.mod_eq_of_lt hend
    have hturn : j ≤ me.baseAddrLower + me.lengthLower := by
      unfold pageSize at *
      omega
    have hnext : wrap (j + pageSize) % pageSize = me.baseAddrLower % pageSize := by
      rw [← hclass]
      unfold wrap pageSize
      omega
    rw [freeLoop, hwrap, if_pos hturn]
    intro hc
    obtain ⟨s₁, -, hrest⟩ := Outcome.bind_ok.mp hc
    exact ih (Nat.mod_lt _ (by decide)) hnext hrest

theorem freeEntry_eq (h : me.InRange) (hrun : ¬me.Runaway) :
    freeEntry me s = me.visits.foldlM Freeing.freePage s := by
  rw [freeEntry, MmapEntry.visits]
  by_cases hfree : me.type = mbootMemFlagFree
  · rw [if_pos hfree]
    by_cases hend : me.finish < 2 ^ 32
    · have hw : me.Walked := ⟨hfree, hend⟩
      have hno : me.baseAddrLower + (me.lengthLower / pageSize + 1) * pageSize < 2 ^ 32 :=
        Nat.lt_of_not_le fun hle => hrun ⟨hw, hle⟩
      have hlength := h.length
      have heq := @freeLoop_eq me s (2 ^ 20 + 1) 0 hend hno (Nat.zero_le _)
        (by unfold pageSize; omega)
      rw [if_pos hw]
      rw [Nat.zero_mul, Nat.add_zero, Nat.add_zero, Nat.sub_zero] at heq
      exact heq
    · rw [if_neg fun hw => hend hw.2, freeLoop_top h (le_antisymm h.finish (Nat.le_of_not_lt hend))]
      rfl
  · rw [if_neg hfree, if_neg fun hw => hfree hw.1]
    rfl

theorem freeEntry_runaway (h : me.Runaway) : freeEntry me s ≠ .ok s' := by
  have hfree : me.type = mbootMemFlagFree := h.1.1
  rw [freeEntry, if_pos hfree]
  exact freeLoop_runaway h (lt_of_le_of_lt (Nat.le_add_right _ _) h.1.2) rfl

theorem Records.le {entry : Nat → MmapEntry} {mmapEnd a : Nat}
    (h : Records entry mmapEnd a mes) : a + 4 * mes.length ≤ mmapEnd := by
  induction mes generalizing a with
  | nil =>
    obtain rfl : a = mmapEnd := h
    exact le_rfl
  | cons me mes ih =>
    have hrest := ih h.2
    rw [List.length_cons]
    omega

theorem mmapLoop_eq {mmapEnd a : Nat} (h : Records mboot.entry mmapEnd a mes)
    (hend : mmapEnd < 2 ^ 32) (hfuel : mes.length < fuel) :
    mmapLoop mboot mmapEnd fuel a s = mes.foldlM (fun s me => freeEntry me s) s := by
  induction mes generalizing a fuel s with
  | nil =>
    obtain rfl : a = mmapEnd := h
    cases fuel with
    | zero => cases hfuel
    | succ fuel =>
      rw [mmapLoop, if_neg (lt_irrefl _)]
      rfl
  | cons me mes ih =>
    obtain ⟨rfl, hrest⟩ := h
    have hle := hrest.le
    cases fuel with
    | zero => cases hfuel
    | succ fuel =>
      have hnext : wrap (a + (mboot.entry a).size + 4) = a + (mboot.entry a).size + 4 :=
        Nat.mod_eq_of_lt (by omega)
      rw [mmapLoop, if_pos (by omega), hnext, List.foldlM_cons]
      exact bind_congr fun s₁ => ih hrest (Nat.lt_of_succ_lt_succ hfuel)

theorem foldlM_freeEntry (h : ∀ me ∈ mes, me.InRange) (hends : ∀ me ∈ mes, ¬me.Runaway) :
    mes.foldlM (fun s me => freeEntry me s) s = (visits mes).foldlM Freeing.freePage s := by
  induction mes generalizing s with
  | nil => rfl
  | cons me mes ih =>
    rw [List.foldlM_cons, freeEntry_eq (h me List.mem_cons_self) (hends me List.mem_cons_self),
      visits, List.flatMap_cons, List.foldlM_append]
    exact bind_congr fun s₁ => ih (fun x hx => h x (List.mem_cons_of_mem _ hx))
      fun x hx => hends x (List.mem_cons_of_mem _ hx)

theorem foldlM_runaway (hme : me ∈ mes) (hrun : me.Runaway) :
    mes.foldlM (fun s me => freeEntry me s) s ≠ .ok s' := by
  induction mes generalizing s with
  | nil => cases hme
  | cons x mes ih =>
    rw [List.foldlM_cons]
    intro hc
    obtain ⟨s₁, hx, hrest⟩ := Outcome.bind_ok.mp hc
    obtain rfl | hme := List.mem_cons.mp hme
    · exact freeEntry_runaway hrun hx
    · exact ih hme hrest

-- ---------------------------------------------------------------------------
-- What is passed to the stack
-- ---------------------------------------------------------------------------

structure Waiting (s : Freeing) : Prop where
  ok : s.pmm.Ok
  table : s.pmm.table = none
  passed : s.passed = []

theorem filter_low {f : Frame} {fs : List Frame} {pos : Nat} (h : f < pos) :
    (f :: fs).filter (fun f => pos ≤ f) = fs.filter fun f => pos ≤ f :=
  List.filter_cons_of_neg (by simpa using h)

theorem filter_high {f : Frame} {fs : List Frame} {pos : Nat} (h : pos ≤ f) :
    (f :: fs).filter (fun f => pos ≤ f) = f :: fs.filter fun f => pos ≤ f :=
  List.filter_cons_of_pos (by simpa using h)

theorem freePage_running {f : Frame} (h : s.pmm.Ok) (hrun : s.pmm.table.isSome = true) :
    ∃ s', s.freePage f = .ok s' ∧ s'.pmm.Ok ∧ s'.pmm.table.isSome = true ∧ s'.pmm.pos = s.pmm.pos ∧
      s'.passed = s.passed ++ [f].filter fun f => s.pmm.pos + 1 ≤ f := by
  by_cases hf : f < s.pmm.pos + 1
  · have hsame : s.pmm.freePage f = .ok s.pmm := if_pos hf
    refine ⟨s, ?_, h, hrun, rfl, ?_⟩
    · simp only [Freeing.freePage, hsame, if_pos hf, Bind.bind, Except.bind]
      rfl
    · rw [List.filter_cons_of_neg (by simpa using hf), List.filter_nil, List.append_nil]
  · obtain ⟨pmm, hok, hpmm, hrunning, -, htable⟩ := Pmm.freePage_spec h (Nat.le_of_not_lt hf)
    have hpos : pmm.pos = s.pmm.pos := by
      obtain ⟨-, hpos⟩ | ⟨hnone, -⟩ := htable
      · exact hpos
      · rw [hnone] at hrun
        cases hrun
    refine ⟨⟨pmm, s.passed ++ [f]⟩, ?_, hpmm, hpmm.table hrunning, hpos, ?_⟩
    · simp only [Freeing.freePage, hok, if_neg hf, Bind.bind, Except.bind]
      rfl
    · rw [List.filter_cons_of_pos (by simpa using Nat.le_of_not_lt hf), List.filter_nil]

theorem foldlM_running {fs : List Frame} (h : s.pmm.Ok) (hrun : s.pmm.table.isSome = true) :
    ∃ s', fs.foldlM Freeing.freePage s = .ok s' ∧
      s'.passed = s.passed ++ fs.filter fun f => s.pmm.pos + 1 ≤ f := by
  induction fs generalizing s with
  | nil => exact ⟨s, rfl, by rw [List.filter_nil, List.append_nil]⟩
  | cons f fs ih =>
    obtain ⟨s₁, hok, h₁, hrun₁, hpos, hpassed⟩ := freePage_running (f := f) h hrun
    obtain ⟨s', hfold, hall⟩ := ih h₁ hrun₁
    refine ⟨s', ?_, ?_⟩
    · rw [List.foldlM_cons, hok]
      exact hfold
    · rw [hall, hpassed, hpos, List.append_assoc, ← List.filter_append]
      rfl

theorem foldlM_waiting {fs : List Frame} (h : Waiting s) :
    ∃ s', fs.foldlM Freeing.freePage s = .ok s' ∧ s'.passed =
      (if fs.find? (fun f => s.pmm.pos + 1 ≤ f) = some (s.pmm.pos + 1) then [s.pmm.pos + 1] else []) ++
        fs.filter fun f => s.pmm.pos + 2 ≤ f := by
  induction fs with
  | nil => exact ⟨s, rfl, by rw [h.passed]; rfl⟩
  | cons f fs ih =>
    by_cases hf : f < s.pmm.pos + 1
    · have hsame : s.freePage f = .ok s := by
        have hpmm : s.pmm.freePage f = .ok s.pmm := if_pos hf
        simp only [Freeing.freePage, hpmm, if_pos hf, Bind.bind, Except.bind]
        rfl
      obtain ⟨s', hfold, hall⟩ := ih
      refine ⟨s', ?_, ?_⟩
      · rw [List.foldlM_cons, hsame]
        exact hfold
      · rw [hall, List.find?_cons_of_neg (by simpa using hf), filter_low (Nat.lt_succ_of_lt hf)]
    · obtain ⟨pmm, hok, hpmm, hrunning, -, htable⟩ := Pmm.freePage_spec h.ok (Nat.le_of_not_lt hf)
      have hpos : pmm.pos = s.pmm.pos + 1 := by
        obtain ⟨hsame, -⟩ | ⟨-, -, hpos⟩ := htable
        · have hsome := hpmm.table hrunning
          rw [hsame, h.table] at hsome
          cases hsome
        · exact hpos
      obtain ⟨s', hfold, hall⟩ := @foldlM_running ⟨pmm, [f]⟩ fs hpmm (hpmm.table hrunning)
      refine ⟨s', ?_, ?_⟩
      · have hstep : s.freePage f = .ok ⟨pmm, [f]⟩ := by
          simp only [Freeing.freePage, hok, if_neg hf, h.passed, Bind.bind, Except.bind]
          rfl
        rw [List.foldlM_cons, hstep]
        exact hfold
      · rw [hall, List.find?_cons_of_pos (by simpa using Nat.le_of_not_lt hf)]
        show [f] ++ fs.filter (fun f => pmm.pos + 1 ≤ f) = _
        rw [hpos]
        by_cases heq : f = s.pmm.pos + 1
        · rw [if_pos (congrArg some heq), filter_low (Nat.lt_succ_of_le heq.le), heq]
        · have htake : s.pmm.pos + 2 ≤ f := Nat.lt_of_le_of_ne (Nat.le_of_not_lt hf) (Ne.symm heq)
          rw [if_neg fun hc => heq (Option.some.inj hc), filter_high htake]
          rfl

-- ---------------------------------------------------------------------------
-- Stray frames
-- ---------------------------------------------------------------------------

theorem mem_visits {f : Frame} (hw : me.Walked) :
    f ∈ me.visits ↔ me.firstFrame ≤ f ∧ f ≤ me.lastFrame := by
  rw [MmapEntry.visits, if_pos hw, List.mem_range'_1, MmapEntry.lastFrame, MmapEntry.firstFrame]
  exact and_congr_right fun _ => by rw [← Nat.add_assoc, Nat.lt_succ_iff]

theorem walked_of_mem {f : Frame} (h : f ∈ me.visits) : me.Walked := by
  rw [MmapEntry.visits] at h
  split at h
  · next hw => exact hw
  · cases h

theorem visits_nodup (me : MmapEntry) : me.visits.Nodup := by
  rw [MmapEntry.visits]
  split
  · exact List.nodup_range'
  · exact List.nodup_nil

theorem mem_strays {f : Frame} : f ∈ me.strays ↔ (f = me.firstFrame ∨ f = me.lastFrame) ∧ ¬me.Whole f := by
  simp [MmapEntry.strays]

theorem strays_visits {f : Frame} (hw : me.Walked) (hf : f ∈ me.strays) : f ∈ me.visits := by
  rw [mem_visits hw, MmapEntry.lastFrame, MmapEntry.firstFrame]
  obtain ⟨rfl | rfl, -⟩ := mem_strays.mp hf
  · exact ⟨le_rfl, Nat.le_add_right _ _⟩
  · exact ⟨Nat.le_add_right _ _, le_rfl⟩

theorem visits_cases {f : Frame} (hf : f ∈ me.visits) : me.Whole f ∨ f ∈ me.strays := by
  have hw := walked_of_mem hf
  obtain ⟨hfirst, hlast⟩ := (mem_visits hw).mp hf
  by_cases hwhole : me.Whole f
  · exact Or.inl hwhole
  refine Or.inr (mem_strays.mpr ⟨?_, hwhole⟩)
  by_contra hno
  rw [not_or] at hno
  have hbetween : ∀ base length f : Nat, base / 0x1000 ≤ f → f ≤ base / 0x1000 + length / 0x1000 →
      f ≠ base / 0x1000 → f ≠ base / 0x1000 + length / 0x1000 →
      base ≤ f * 0x1000 ∧ f * 0x1000 + 0x1000 ≤ base + length := by
    intro base length f h1 h2 h3 h4
    omega
  exact hwhole (hbetween _ _ f hfirst hlast hno.1 hno.2)

theorem whole_visits {f : Frame} (hw : me.Walked) (h : me.Whole f) : f ∈ me.visits := by
  have hrange : ∀ base length f : Nat, base ≤ f * 0x1000 → f * 0x1000 + 0x1000 ≤ base + length →
      base / 0x1000 ≤ f ∧ f ≤ base / 0x1000 + length / 0x1000 := by
    intro base length f h1 h2
    omega
  exact (mem_visits hw).mpr (hrange _ _ f h.1 h.2)

theorem whole_unique {me' : MmapEntry} {f : Frame} (happart : me.Apart me') (h : me.Whole f) :
    ¬me'.Whole f := by
  intro h'
  have hbyte : f * pageSize < f * pageSize + pageSize := Nat.lt_add_of_pos_right (by decide)
  obtain happart | happart := happart
  · exact absurd ((h.2.trans happart).trans h'.1) (not_le.mpr hbyte)
  · exact absurd ((h'.2.trans happart).trans h.1) (not_le.mpr hbyte)

instance : Std.Symm MmapEntry.Apart := ⟨fun _ _ => Or.symm⟩

theorem MemoryMap.whole_eq {me' : MmapEntry} {f : Frame} (h : MemoryMap mboot mes) (hme : me ∈ mes)
    (hme' : me' ∈ mes) (hw : me.Whole f) (hw' : me'.Whole f) : me = me' := by
  by_contra hne
  exact whole_unique (h.apart.forall hme hme' hne) hw hw'

theorem Tidy.notWhole {pos : Frame} {me' : MmapEntry} {f : Frame} (ht : Tidy pos mes)
    (h : MemoryMap mboot mes) (hme : me ∈ mes) (hw : me.Walked) (hf : f ∈ me.strays)
    (hpos : pos + 2 ≤ f) (hme' : me' ∈ mes) (hw' : me'.Walked) : ¬me'.Whole f := by
  intro hwhole
  obtain ⟨top, htop, -, hend, hin⟩ := ht.strays me hme hw f hf hpos
  obtain rfl := h.whole_eq htop hme' hin hwhole
  exact absurd hw'.2 (not_lt.mpr hend.ge)

theorem visits_filter_nodup {pos : Frame} (h : MemoryMap mboot mes) (ht : Tidy pos mes) :
    ((visits mes).filter fun f => pos + 2 ≤ f).Nodup := by
  rw [visits, List.filter_flatMap, List.nodup_flatMap]
  refine ⟨fun me _ => (visits_nodup me).filter _, ?_⟩
  refine (h.apart.and ht.once).imp_of_mem fun {me me'} hme hme' hboth => ?_
  obtain ⟨hapart, honce⟩ := hboth
  intro f hf hf'
  obtain ⟨hf, hpos⟩ := List.mem_filter.mp hf
  obtain ⟨hf', -⟩ := List.mem_filter.mp hf'
  have hpos : pos + 2 ≤ f := by simpa using hpos
  have hw := walked_of_mem hf
  have hw' := walked_of_mem hf'
  obtain hin | hstray := visits_cases hf
  · obtain hin' | hstray' := visits_cases hf'
    · exact whole_unique hapart hin hin'
    · exact ht.notWhole h hme' hw' hstray' hpos hme hw hin
  · obtain hin' | hstray' := visits_cases hf'
    · exact ht.notWhole h hme hw hstray hpos hme' hw' hin'
    · exact honce hw hw' f hstray hpos hstray'

theorem pmmInit_entries {pmm : Pmm} (h : MemoryMap mboot mes) : pmmInit mboot pmm =
    mes.foldlM (fun s me => freeEntry me s)
      ⟨{ pmm with pos := pmmPos mboot / pageSize, running := false }, []⟩ := by
  have hfuel : mes.length < mboot.mmapLength + 1 := by
    have hle := h.records.le
    omega
  have hend : wrap (assertHigher mboot.mmapAddr + mboot.mmapLength) =
      assertHigher mboot.mmapAddr + mboot.mmapLength := Nat.mod_eq_of_lt h.below
  rw [pmmInit]
  simp only [hend]
  exact mmapLoop_eq h.records h.below hfuel

theorem Pmm.Fresh.waiting {pmm : Pmm} {pos : Frame} (h : pmm.Fresh) :
    Waiting ⟨{ pmm with pos := pos, running := false }, []⟩ where
  ok := {
    whole := by rw [h.stackMax]; exact dvd_zero _
    le := by rw [h.stackMax, h.stackPtr]
    short := by rw [h.stackMax]; exact Nat.zero_le _
    mapped := fun k hk => by rw [h.stackMax] at hk; cases hk
    running := by rw [h.stackMax]; exact ⟨Bool.noConfusion, fun hr => absurd hr (lt_irrefl 0)⟩
    table := fun hr => nomatch hr }
  table := h.table
  passed := rfl

theorem pmmInit_ends {pmm : Pmm} (h : MemoryMap mboot mes) (hfresh : pmm.Fresh)
    (hends : ∀ me ∈ mes, ¬me.Runaway) :
    ∃ s, pmmInit mboot pmm = .ok s ∧ s.passed = passedFrames (pmmPos mboot / pageSize) mes := by
  rw [pmmInit_entries h, foldlM_freeEntry h.inRange hends]
  exact foldlM_waiting hfresh.waiting

theorem mem_visits_flatMap {f : Frame} (hme : me ∈ mes) (hf : f ∈ me.visits) : f ∈ visits mes :=
  List.mem_flatMap.mpr ⟨me, hme, hf⟩

theorem mem_passedFrames {pos f : Frame} (hf : f ∈ visits mes) (hpos : pos + 2 ≤ f) :
    f ∈ passedFrames pos mes :=
  List.mem_append_right _ (List.mem_filter.mpr ⟨hf, by simpa using hpos⟩)

theorem Tidy.whole {pos f : Frame} (ht : Tidy pos mes) (hf : f ∈ passedFrames pos mes) :
    ∃ me ∈ mes, me.Free ∧ me.Whole f := by
  obtain hfirst | hrest := List.mem_append.mp hf
  · split at hfirst
    · next hvisit =>
      obtain rfl := List.mem_singleton.mp hfirst
      exact ht.first hvisit
    · cases hfirst
  · obtain ⟨hvisit, hpos⟩ := List.mem_filter.mp hrest
    obtain ⟨me, hme, hin⟩ := List.mem_flatMap.mp hvisit
    have hw := walked_of_mem hin
    obtain hwhole | hstray := visits_cases hin
    · exact ⟨me, hme, hw.1, hwhole⟩
    · obtain ⟨me', hme', hfree, -, hwhole⟩ := ht.strays me hme hw f hstray (by simpa using hpos)
      exact ⟨me', hme', hfree, hwhole⟩

theorem Tidy.nodup {pos : Frame} (ht : Tidy pos mes) (h : MemoryMap mboot mes) :
    (passedFrames pos mes).Nodup := by
  refine List.Nodup.append ?_ (visits_filter_nodup h ht) ?_
  · split
    · exact List.nodup_singleton _
    · exact List.nodup_nil
  · intro f hf hf'
    have hpos : pos + 2 ≤ f := by simpa using (List.mem_filter.mp hf').2
    split at hf
    · rw [List.mem_singleton.mp hf] at hpos
      exact absurd hpos (Nat.not_succ_le_self _)
    · cases hf

theorem tidy_of_passed {pos : Frame} (h : MemoryMap mboot mes) (hends : ∀ me ∈ mes, ¬me.Runaway)
    (hnodup : (passedFrames pos mes).Nodup)
    (hwhole : ∀ f ∈ passedFrames pos mes, ∃ me ∈ mes, me.Free ∧ me.Whole f) : Tidy pos mes := by
  have hdisjoint : mes.Pairwise fun me me' =>
      ∀ f, f ∈ me.visits → pos + 2 ≤ f → f ∉ me'.visits := by
    have hrest := (List.nodup_append.mp hnodup).2.1
    rw [visits, List.filter_flatMap, List.nodup_flatMap] at hrest
    refine hrest.2.imp fun {me me'} hd f hf hpos hf' => ?_
    have hpos : decide (pos + 2 ≤ f) = true := by simpa using hpos
    exact hd (List.mem_filter.mpr ⟨hf, hpos⟩) (List.mem_filter.mpr ⟨hf', hpos⟩)
  refine ⟨hends, fun hvisit => ?_, fun me hme hw f hstray hpos => ?_, ?_⟩
  · exact hwhole _ (List.mem_append_left _ (by rw [if_pos hvisit]; exact List.mem_singleton_self _))
  · have hvisit := strays_visits hw hstray
    obtain ⟨me', hme', hfree, hin⟩ := hwhole f (mem_passedFrames (mem_visits_flatMap hme hvisit) hpos)
    refine ⟨me', hme', hfree, le_antisymm (h.inRange me' hme').finish (Nat.le_of_not_lt ?_), hin⟩
    intro hend
    have hvisit' := whole_visits ⟨hfree, hend⟩ hin
    have hne : me ≠ me' := by
      rintro rfl
      exact (mem_strays.mp hstray).2 hin
    have : Std.Symm fun me me' : MmapEntry => ∀ f, f ∈ me.visits → pos + 2 ≤ f → f ∉ me'.visits :=
      ⟨fun _ _ hd f hf hpos hf' => hd f hf' hpos hf⟩
    exact hdisjoint.forall hme hme' hne f hvisit hpos hvisit'
  · exact hdisjoint.imp fun {me me'} hd hw hw' f hf hpos hf' =>
      hd f (strays_visits hw hf) hpos (strays_visits hw' hf')

/-- `pmm_init` frees each frame once, and only frames of free regions, if and only if the
memory map is tidy. -/
theorem pmmInit_frees {pmm : Pmm} (h : MemoryMap mboot mes) (hfresh : pmm.Fresh) :
    FreesFrames mboot mes pmm ↔ Tidy (pmmPos mboot / pageSize) mes := by
  constructor
  · rintro ⟨s, hok, hnodup, hwhole⟩
    have hends : ∀ me ∈ mes, ¬me.Runaway := by
      intro me hme hrun
      rw [pmmInit_entries h] at hok
      exact foldlM_runaway hme hrun hok
    obtain ⟨s', hok', hpassed⟩ := pmmInit_ends h hfresh hends
    obtain rfl : s = s' := Except.ok.inj (hok.symm.trans hok')
    rw [hpassed] at hnodup hwhole
    exact tidy_of_passed h hends hnodup hwhole
  · intro ht
    obtain ⟨s, hok, hpassed⟩ := pmmInit_ends h hfresh ht.ends
    refine ⟨s, hok, ?_, fun f hf => ?_⟩
    · rw [hpassed]
      exact ht.nodup h
    · rw [hpassed] at hf
      exact ht.whole hf

end

def mbootOf (mes : List MmapEntry) : Mboot where
  memUpper := 0
  modEnd := 0x100000
  mmapAddr := 0x9000
  mmapLength := 24 * mes.length
  entry a := mes.getD ((a - (kernelOffset + 0x9000)) / 24) ⟨20, 0, 0, 0⟩

def twoRegions : List MmapEntry :=
  [⟨20, 0x200000, 0x2000, 1⟩, ⟨20, 0x202000, 2 ^ 32 - 0x202000, 1⟩]

theorem pmmInit_frees_twoRegions : FreesFrames (mbootOf twoRegions) twoRegions bootPmm := by
  have hmap : MemoryMap (mbootOf twoRegions) twoRegions :=
    ⟨by decide +kernel, by decide +kernel, by decide +kernel, by decide +kernel, by decide +kernel⟩
  have hfresh : bootPmm.Fresh := ⟨rfl, rfl, rfl⟩
  exact (pmmInit_frees hmap hfresh).mpr
    ⟨by decide +kernel, by decide +kernel, by decide +kernel, by decide +kernel⟩

def lonePage : List MmapEntry := [⟨20, 0x200000, 0x1000, 1⟩]

/-- The page behind the region is freed too. -/
theorem pmmInit_behind : MemoryMap (mbootOf lonePage) lonePage ∧ bootPmm.Fresh ∧
    ¬FreesFrames (mbootOf lonePage) lonePage bootPmm := by
  have hmap : MemoryMap (mbootOf lonePage) lonePage :=
    ⟨by decide +kernel, by decide +kernel, by decide +kernel, by decide +kernel, by decide +kernel⟩
  have hfresh : bootPmm.Fresh := ⟨rfl, rfl, rfl⟩
  refine ⟨hmap, hfresh, ?_⟩
  rintro ⟨s, hok, -, hwhole⟩
  obtain ⟨s', hok', hpassed⟩ := pmmInit_ends hmap hfresh (by decide +kernel)
  obtain rfl : s = s' := Except.ok.inj (hok.symm.trans hok')
  have hbehind : 0x201 ∈ s.passed := by
    rw [hpassed]
    decide +kernel
  obtain ⟨me, hme, -, hin⟩ := hwhole _ hbehind
  obtain rfl := List.mem_singleton.mp hme
  revert hin
  decide

end Os5
