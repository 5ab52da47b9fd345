import Os5.Lib.Outcome
import Os5.Mem.Machine

/-!
# The page-table windows

Physical memory as words, read and written through the page walk of the current
directory. The functions of the virtual memory manager are given here as loads
and stores at the addresses of their windows; which words of which frame these
reach is a theorem. Translations are walked from memory: there is no TLB.
-/

namespace Os5

abbrev vmmExpageTables : Nat := 0xFF800000
abbrev vmmExpageDir : Nat := 0xFFBFF000
abbrev vmmPageTables : Nat := 0xFFC00000
abbrev vmmPageDir : Nat := 0xFFFFF000

abbrev pagePresent : Nat := 0x1
abbrev pageWrite : Nat := 0x2

/-- `vmm_table_idx`: over all the tables of a directory. -/
def vmmTableIdx (page : Nat) : Nat := page / 0x1000

structure Phys where
  cr3 : Frame
  kernelPd : Frame
  vmmRunning : Bool
  word : Frame → Nat → Nat
  /-- The frames `pmm_alloc_page` hands out, in order. -/
  free : List Frame

namespace Phys

def addrOf (f : Frame) : Nat := f * 0x1000
def frameOf (w : Nat) : Frame := w / 0x1000

def Present (w : Nat) : Prop := w % 2 = 1

instance (w : Nat) : Decidable (Present w) := inferInstanceAs (Decidable (w % 2 = 1))

def setWord (m : Phys) (f : Frame) (i w : Nat) : Phys :=
  { m with word := Function.update m.word f (Function.update (m.word f) i w) }

theorem setWord_word (m : Phys) (f g : Frame) (i j w : Nat) :
    (m.setWord f i w).word g j = if g = f ∧ j = i then w else m.word g j := by
  by_cases hg : g = f
  · subst hg
    by_cases hj : j = i <;> simp [setWord, hj]
  · simp [setWord, hg]

@[simp] theorem setWord_cr3 (m : Phys) (f : Frame) (i w : Nat) : (m.setWord f i w).cr3 = m.cr3 :=
  rfl
@[simp] theorem setWord_free (m : Phys) (f : Frame) (i w : Nat) :
    (m.setWord f i w).free = m.free := rfl

-- ---------------------------------------------------------------------------
-- The processor
-- ---------------------------------------------------------------------------

/-- The page walk: the entry of the table the directory entry points to. -/
def entryAt (m : Phys) (pd : Frame) (addr : Nat) : Option Nat :=
  let d := m.word pd (dirIdx addr)
  if Present d then
    let t := m.word (frameOf d) (tableIdx addr)
    if Present t then some t else none
  else none

def translate (m : Phys) (addr : Nat) : Except Stop (Frame × Nat) :=
  match m.entryAt m.cr3 addr with
  | some t => .ok (frameOf t, addr % 0x1000 / 4)
  | none => .error .fault

def load (m : Phys) (addr : Nat) : Except Stop Nat := do
  let (f, i) ← m.translate addr
  return m.word f i

def store (m : Phys) (addr w : Nat) : Except Stop Phys := do
  let (f, i) ← m.translate addr
  return m.setWord f i w

/-- `memset(page, 0, PAGE_SIZE)` -/
def clear (m : Phys) (page : Nat) : Except Stop Phys :=
  (List.range 1024).foldlM (fun m i => m.store (page + 4 * i) 0) m

-- ---------------------------------------------------------------------------
-- The functions of the virtual memory manager
-- ---------------------------------------------------------------------------

def pageDirectory (i : Nat) : Nat := vmmPageDir + 4 * i
def pageTables (i : Nat) : Nat := vmmPageTables + 4 * i
def expageDirectory (i : Nat) : Nat := vmmExpageDir + 4 * i
def expageTables (i : Nat) : Nat := vmmExpageTables + 4 * i

def vmmPdSet (m : Phys) (pd : Nat) : Phys := { m with cr3 := frameOf pd }

def vmmPageGet (m : Phys) (page : Nat) : Except Stop Nat := do
  let page := pageMask page
  if Present (← m.load (pageDirectory (dirIdx page))) then
    let e ← m.load (pageTables (vmmTableIdx page))
    if Present e then
      return e
  return 0

def vmmTableSet (m : Phys) (page value : Nat) : Except Stop Phys :=
  m.store (pageDirectory (dirIdx (pageMask page))) value

def pmmAllocPage (m : Phys) : Except Stop (Nat × Phys) :=
  match m.free with
  | [] => .error .outOfMemory
  | f :: rest => .ok (addrOf f, { m with free := rest })

def vmmExdirSet (m : Phys) (pd : Nat) : Except Stop (Nat × Phys) := do
  let old := pageMask (← m.load (pageDirectory (dirIdx vmmExpageDir)))
  let m ←
    if pd ≠ 0 then
      m.store (pageDirectory (dirIdx vmmExpageDir)) (pd ||| pagePresent ||| pageWrite)
    else m.store (pageDirectory (dirIdx vmmExpageDir)) 0
  return (old, m)

/-- The branch of `vmm_page_touch` for a kernel page: the table is the one of the
master directory, or a new one for both. -/
def touchKernel (m : Phys) (page flags : Nat) : Except Stop Phys := do
  let (oldExdir, m) ← vmmExdirSet m (addrOf m.kernelPd)
  let e ← m.load (expageDirectory (dirIdx page))
  let m ←
    if Present e then m.store (pageDirectory (dirIdx page)) e
    else do
      let (f, m) ← m.pmmAllocPage
      let m ← m.store (pageDirectory (dirIdx page)) (f ||| flags)
      m.store (expageDirectory (dirIdx page)) (← m.load (pageDirectory (dirIdx page)))
  let (_, m) ← vmmExdirSet m oldExdir
  return m

def touchUser (m : Phys) (page flags : Nat) : Except Stop Phys := do
  let (f, m) ← m.pmmAllocPage
  m.store (pageDirectory (dirIdx page)) (f ||| flags)

def vmmPageTouch (m : Phys) (page flags : Nat) : Except Stop Phys := do
  let page := pageMask page
  let flags := pageFlagMask flags
  if Present (← m.load (pageDirectory (dirIdx page))) then
    return m
  let m ←
    if kernelOffset ≤ page ∧ m.vmmRunning then touchKernel m page flags
    else touchUser m page flags
  m.clear (pageMask (pageTables (vmmTableIdx page)))

def vmmPageSet (m : Phys) (page value : Nat) : Except Stop Phys := do
  let page := pageMask page
  let m ← vmmPageTouch m page (pageFlagMask value)
  m.store (pageTables (vmmTableIdx page)) value

def vmmExpageGet (m : Phys) (page : Nat) : Except Stop Nat := do
  if (← m.load (pageDirectory (dirIdx vmmExpageDir))) = 0 then
    return 0
  let page := pageMask page
  if Present (← m.load (expageDirectory (dirIdx page))) then
    let e ← m.load (expageTables (vmmTableIdx page))
    if Present e then
      return e
  return 0

def vmmExtableGet (m : Phys) (page : Nat) : Except Stop Nat := do
  let e ← m.load (expageDirectory (dirIdx (pageMask page)))
  if Present e then
    return e
  return 0

def vmmExpageTouch (m : Phys) (page flags : Nat) : Except Stop Phys := do
  let page := pageMask page
  let flags := pageFlagMask flags
  if (← m.load (pageDirectory (dirIdx vmmExpageDir))) = 0 then
    return m
  if Present (← m.load (expageDirectory (dirIdx page))) then
    return m
  let (f, m) ← m.pmmAllocPage
  let m ← m.store (expageDirectory (dirIdx page)) (f ||| flags)
  m.clear (pageMask (expageTables (vmmTableIdx page)))

def vmmExpageSet (m : Phys) (page value : Nat) : Except Stop Phys := do
  let page := pageMask page
  let m ← vmmExpageTouch m page (pageFlagMask value)
  m.store (expageTables (vmmTableIdx page)) value

/-- The part of `page_fault_handler` that copies a table from the master directory. -/
def kernelPageFault (m : Phys) (faultAddress : Nat) : Except Stop Phys := do
  let (oldExdir, m) ← vmmExdirSet m (addrOf m.kernelPd)
  let ptVal ← vmmExtableGet m faultAddress
  if ¬Present ptVal then
    throw .fault
  let m ← vmmTableSet m faultAddress ptVal
  let (_, m) ← vmmExdirSet m oldExdir
  return m

-- ---------------------------------------------------------------------------
-- What the windows show
-- ---------------------------------------------------------------------------

/-- The last slot of a directory holds the directory itself. -/
def SelfMapped (m : Phys) (pd : Frame) : Prop :=
  Present (m.word pd 1023) ∧ frameOf (m.word pd 1023) = pd

/-- `pd` is the external directory. -/
structure Loaded (m : Phys) (pd : Frame) : Prop where
  present : Present (m.word m.cr3 1022)
  frame : frameOf (m.word m.cr3 1022) = pd
  here : SelfMapped m m.cr3
  there : SelfMapped m pd

theorem entryAt_eq {m : Phys} {pd : Frame} {a : Nat} (hd : Present (m.word pd (dirIdx a)))
    (ht : Present (m.word (frameOf (m.word pd (dirIdx a))) (tableIdx a))) :
    m.entryAt pd a = some (m.word (frameOf (m.word pd (dirIdx a))) (tableIdx a)) := by
  rw [entryAt, if_pos hd, if_pos ht]

theorem translate_eq {m : Phys} {f : Frame} {a d t : Nat} (hd : dirIdx a = d) (ht : tableIdx a = t)
    (hp : Present (m.word m.cr3 d)) (hq : Present (m.word (frameOf (m.word m.cr3 d)) t))
    (hf : frameOf (m.word (frameOf (m.word m.cr3 d)) t) = f) :
    m.translate a = .ok (f, a % 0x1000 / 4) := by
  subst hd ht
  simp only [translate, entryAt_eq hp hq, hf]

theorem translate_pageDirectory {m : Phys} {i : Nat} (h : SelfMapped m m.cr3) (hi : i < 1024) :
    m.translate (pageDirectory i) = .ok (m.cr3, i) := by
  have hd : dirIdx (pageDirectory i) = 1023 := by
    simp only [dirIdx, pageDirectory, vmmPageDir]
    omega
  have ht : tableIdx (pageDirectory i) = 1023 := by
    simp only [tableIdx, pageDirectory, vmmPageDir]
    omega
  have ho : pageDirectory i % 0x1000 / 4 = i := by
    simp only [pageDirectory, vmmPageDir]
    omega
  obtain ⟨hp, hf⟩ := h
  rw [translate_eq hd ht hp (by rwa [hf]) (by rw [hf, hf]), ho]

theorem dirIdx_pageTables {q : Nat} (hq : q < 2 ^ 32) :
    dirIdx (pageTables (vmmTableIdx q)) = 1023 := by
  simp only [dirIdx, pageTables, vmmPageTables, vmmTableIdx]
  omega

theorem tableIdx_pageTables {q : Nat} (hq : q < 2 ^ 32) :
    tableIdx (pageTables (vmmTableIdx q)) = dirIdx q := by
  simp only [tableIdx, dirIdx, pageTables, vmmPageTables, vmmTableIdx]
  omega

theorem translate_pageTables {m : Phys} {q : Nat} (h : SelfMapped m m.cr3) (hq : q < 2 ^ 32)
    (he : Present (m.word m.cr3 (dirIdx q))) :
    m.translate (pageTables (vmmTableIdx q)) =
      .ok (frameOf (m.word m.cr3 (dirIdx q)), tableIdx q) := by
  have ho : pageTables (vmmTableIdx q) % 0x1000 / 4 = tableIdx q := by
    simp only [tableIdx, pageTables, vmmPageTables, vmmTableIdx]
    omega
  obtain ⟨hp, hf⟩ := h
  rw [translate_eq (dirIdx_pageTables hq) (tableIdx_pageTables hq) hp (by rwa [hf]) (by rw [hf]), ho]

theorem translate_expageDirectory {m : Phys} {pd : Frame} {i : Nat} (h : Loaded m pd)
    (hi : i < 1024) : m.translate (expageDirectory i) = .ok (pd, i) := by
  have hd : dirIdx (expageDirectory i) = 1022 := by
    simp only [dirIdx, expageDirectory, vmmExpageDir]
    omega
  have ht : tableIdx (expageDirectory i) = 1023 := by
    simp only [tableIdx, expageDirectory, vmmExpageDir]
    omega
  have ho : expageDirectory i % 0x1000 / 4 = i := by
    simp only [expageDirectory, vmmExpageDir]
    omega
  obtain ⟨hp, hf⟩ := h.there
  rw [translate_eq hd ht h.present (by rwa [h.frame]) (by rw [h.frame, hf]), ho]

theorem dirIdx_expageTables {q : Nat} (hq : q < 2 ^ 32) :
    dirIdx (expageTables (vmmTableIdx q)) = 1022 := by
  simp only [dirIdx, expageTables, vmmExpageTables, vmmTableIdx]
  omega

theorem tableIdx_expageTables {q : Nat} (hq : q < 2 ^ 32) :
    tableIdx (expageTables (vmmTableIdx q)) = dirIdx q := by
  simp only [tableIdx, dirIdx, expageTables, vmmExpageTables, vmmTableIdx]
  omega

theorem translate_expageTables {m : Phys} {pd : Frame} {q : Nat} (h : Loaded m pd)
    (hq : q < 2 ^ 32) (he : Present (m.word pd (dirIdx q))) :
    m.translate (expageTables (vmmTableIdx q)) =
      .ok (frameOf (m.word pd (dirIdx q)), tableIdx q) := by
  have ho : expageTables (vmmTableIdx q) % 0x1000 / 4 = tableIdx q := by
    simp only [tableIdx, expageTables, vmmExpageTables, vmmTableIdx]
    omega
  rw [translate_eq (dirIdx_expageTables hq) (tableIdx_expageTables hq) h.present
    (by rwa [h.frame]) (by rw [h.frame]), ho]

theorem load_eq {m : Phys} {f : Frame} {a i : Nat} (h : m.translate a = .ok (f, i)) :
    m.load a = .ok (m.word f i) := by
  rw [load, h]
  rfl

theorem store_eq {m : Phys} {f : Frame} {a i w : Nat} (h : m.translate a = .ok (f, i)) :
    m.store a w = .ok (m.setWord f i w) := by
  rw [store, h]
  rfl

-- ---------------------------------------------------------------------------
-- Clearing a table
-- ---------------------------------------------------------------------------

def zeroed (m : Phys) (f : Frame) (n : Nat) : Phys :=
  { m with word := fun g i => if g = f ∧ i < n then 0 else m.word g i }

theorem setWord_zeroed (m : Phys) (f : Frame) (n : Nat) :
    (m.zeroed f n).setWord f n 0 = m.zeroed f (n + 1) := by
  have h : ((m.zeroed f n).setWord f n 0).word = (m.zeroed f (n + 1)).word := by
    funext g i
    rw [setWord_word]
    simp only [zeroed]
    grind
  exact congrArg (fun w => { m with word := w }) h

theorem zeroed_zero (m : Phys) (f : Frame) : m.zeroed f 0 = m := by
  simp [zeroed]

/-- The current directory shows `f` at `page`, and the walk there does not read
`f` itself. -/
structure Shows (m : Phys) (page : Nat) (f : Frame) : Prop where
  dir : Present (m.word m.cr3 (dirIdx page))
  entry : Present (m.word (frameOf (m.word m.cr3 (dirIdx page))) (tableIdx page))
  frame : frameOf (m.word (frameOf (m.word m.cr3 (dirIdx page))) (tableIdx page)) = f
  ne_cr3 : m.cr3 ≠ f
  ne_table : frameOf (m.word m.cr3 (dirIdx page)) ≠ f

theorem zeroed_word {m : Phys} {f g : Frame} {n : Nat} (hg : g ≠ f) :
    (m.zeroed f n).word g = m.word g := by
  funext i
  exact if_neg fun h => hg h.1

theorem Shows.zeroed {m : Phys} {page : Nat} {f : Frame} (h : Shows m page f) (n : Nat) :
    Shows (m.zeroed f n) page f := by
  have hd : (m.zeroed f n).word (m.zeroed f n).cr3 = m.word m.cr3 := zeroed_word h.ne_cr3
  have ht := zeroed_word (m := m) (n := n) h.ne_table
  refine ⟨?_, ?_, ?_, h.ne_cr3, ?_⟩ <;> simp only [hd, ht]
  · exact h.dir
  · exact h.entry
  · exact h.frame
  · exact h.ne_table

theorem Shows.translate {m : Phys} {page i : Nat} {f : Frame} (h : Shows m page f)
    (hpage : page % 0x1000 = 0) (hi : i < 1024) : m.translate (page + 4 * i) = .ok (f, i) := by
  have hd : dirIdx (page + 4 * i) = dirIdx page := by
    simp only [dirIdx]
    omega
  have ht : tableIdx (page + 4 * i) = tableIdx page := by
    simp only [tableIdx]
    omega
  have ho : (page + 4 * i) % 0x1000 / 4 = i := by omega
  rw [translate_eq hd ht h.dir h.entry h.frame, ho]

/-- The words are cleared one by one, each through the page walk. -/
theorem clear_eq {m : Phys} {f : Frame} {page : Nat} (h : Shows m page f)
    (hpage : page % 0x1000 = 0) : m.clear page = .ok (m.zeroed f 1024) := by
  suffices hn : ∀ n ≤ 1024,
      (List.range n).foldlM (fun m i => m.store (page + 4 * i) 0) m = .ok (m.zeroed f n) from
    hn 1024 le_rfl
  intro n hn
  induction n with
  | zero =>
    rw [zeroed_zero]
    rfl
  | succ n ih =>
    have hs : (m.zeroed f n).store (page + 4 * n) 0 = .ok (m.zeroed f (n + 1)) := by
      rw [store_eq ((h.zeroed n).translate hpage hn), setWord_zeroed]
    rw [List.range_succ, List.foldlM_append, ih (Nat.le_of_succ_le hn)]
    simp [hs, Bind.bind, Except.bind, pure, Except.pure]

-- ---------------------------------------------------------------------------
-- Setting a page
-- ---------------------------------------------------------------------------

def tableAdded (m : Phys) (pd f : Frame) (rest : List Frame) (i k : Nat) : Phys :=
  ({ m with free := rest }.setWord pd i (addrOf f ||| k)).zeroed f 1024

def touched (m : Phys) (pd : Frame) (page k : Nat) : Phys :=
  if Present (m.word pd (dirIdx page)) then m
  else
    match m.free with
    | [] => m
    | f :: rest => m.tableAdded pd f rest (dirIdx page) k

def edited (m : Phys) (pd : Frame) (page v : Nat) : Phys :=
  let m := m.touched pd page (pageFlagMask v)
  m.setWord (frameOf (m.word pd (dirIdx page))) (tableIdx page) v

theorem edited_pageMask {m : Phys} {pd : Frame} {page v : Nat} :
    m.edited pd (pageMask page) v = m.edited pd page v := by
  simp only [edited, touched, dirIdx_pageMask, tableIdx_pageMask]

def Unused (m : Phys) (pd f : Frame) : Prop :=
  ∀ i < 1024, Present (m.word pd i) → frameOf (m.word pd i) ≠ f

/-- A table for `page` exists in `pd`, or `pmm_alloc_page` returns a frame that
neither `pd` nor the current directory uses. -/
def Room (m : Phys) (pd : Frame) (page : Nat) : Prop :=
  Present (m.word pd (dirIdx page)) ∨
    ∃ f rest, m.free = f :: rest ∧ Unused m pd f ∧ Unused m m.cr3 f

theorem Unused.ne {m : Phys} {pd f : Frame} (h : Unused m pd f) (hs : SelfMapped m pd) :
    pd ≠ f := by
  have := h 1023 (by decide) hs.1
  rwa [hs.2] at this

theorem addrOf_or (f : Frame) {k : Nat} (h : k < 0x1000) :
    addrOf f ||| k = f * 0x1000 + k := by
  have := Nat.two_pow_add_eq_or_of_lt (i := 12) h f
  rw [Nat.mul_comm] at this
  exact this.symm

@[simp] theorem frameOf_addrOf_or (f : Frame) {k : Nat} (h : k < 0x1000) :
    frameOf (addrOf f ||| k) = f := by
  rw [addrOf_or f h, frameOf, Nat.mul_comm, Nat.mul_add_div (by decide), Nat.div_eq_of_lt h]
  rfl

theorem present_addrOf_or (f : Frame) {k : Nat} (h : k < 0x1000) :
    Present (addrOf f ||| k) ↔ Present k := by
  rw [addrOf_or f h, Present, Present]
  omega

theorem pageFlagMask_lt (v : Nat) : pageFlagMask v < 0x1000 := Nat.mod_lt _ (by decide)

theorem present_pageFlagMask {v : Nat} : Present (pageFlagMask v) ↔ Present v := by
  unfold Present pageFlagMask
  omega

@[simp] theorem pageFlagMask_pageFlagMask (v : Nat) :
    pageFlagMask (pageFlagMask v) = pageFlagMask v := Nat.mod_mod _ _

theorem touched_of_present {m : Phys} {pd : Frame} {page k : Nat}
    (h : Present (m.word pd (dirIdx page))) : m.touched pd page k = m := if_pos h

theorem touched_of_free {m : Phys} {pd f : Frame} {rest : List Frame} {page k : Nat}
    (h : ¬Present (m.word pd (dirIdx page))) (hf : m.free = f :: rest) :
    m.touched pd page k = m.tableAdded pd f rest (dirIdx page) k := by
  rw [touched, if_neg h, hf]

theorem tableAdded_word {m : Phys} {pd f g : Frame} {rest : List Frame} {i j k : Nat}
    (hg : g ≠ f) (hj : ¬(g = pd ∧ j = i)) : (m.tableAdded pd f rest i k).word g j = m.word g j := by
  rw [tableAdded, zeroed_word hg, setWord_word, if_neg hj]

theorem tableAdded_slot {m : Phys} {pd f : Frame} {rest : List Frame} {i k : Nat}
    (hpd : pd ≠ f) : (m.tableAdded pd f rest i k).word pd i = addrOf f ||| k := by
  rw [tableAdded, zeroed_word hpd, setWord_word, if_pos ⟨rfl, rfl⟩]

theorem tableAdded_table {m : Phys} {pd f : Frame} {rest : List Frame} {i j k : Nat}
    (hj : j < 1024) : (m.tableAdded pd f rest i k).word f j = 0 := if_pos ⟨rfl, hj⟩

theorem SelfMapped.setWord {m : Phys} {d g : Frame} {i w : Nat} (h : SelfMapped m d)
    (hi : i ≠ 1023) : SelfMapped (m.setWord g i w) d := by
  unfold SelfMapped
  rw [setWord_word, if_neg fun hc => hi hc.2.symm]
  exact h

theorem Loaded.setWord {m : Phys} {pd : Frame} {i w : Nat} (h : Loaded m pd) (hi : i < 1022) :
    Loaded (m.setWord pd i w) pd := by
  have hw : (m.setWord pd i w).word m.cr3 1022 = m.word m.cr3 1022 := by
    rw [setWord_word, if_neg fun hc => by omega]
  refine ⟨?_, ?_, h.here.setWord (by omega), h.there.setWord (by omega)⟩
  · exact hw ▸ h.present
  · exact hw ▸ h.frame

-- ---------------------------------------------------------------------------
-- The code computes the edit
-- ---------------------------------------------------------------------------

theorem load_exdir {m : Phys} (h : SelfMapped m m.cr3) :
    m.load (pageDirectory (dirIdx vmmExpageDir)) = .ok (m.word m.cr3 1022) :=
  load_eq (translate_pageDirectory h (by decide))

def exdirWord (pd : Nat) : Nat := if pd = 0 then 0 else pd ||| pagePresent ||| pageWrite

theorem vmmExdirSet_eq {m : Phys} (h : SelfMapped m m.cr3) (pd : Nat) :
    vmmExdirSet m pd = .ok (pageMask (m.word m.cr3 1022), m.setWord m.cr3 1022 (exdirWord pd)) := by
  have hs (w : Nat) : m.store (pageDirectory (dirIdx vmmExpageDir)) w =
      .ok (m.setWord m.cr3 1022 w) := store_eq (translate_pageDirectory h (by decide))
  simp only [vmmExdirSet, load_exdir h, hs, exdirWord]
  by_cases hpd : pd = 0
  · simp [hpd, Bind.bind, Except.bind, pure, Except.pure]
  · simp [hpd, Bind.bind, Except.bind, pure, Except.pure]

theorem exdirWord_addrOf {pd : Frame} (h : pd ≠ 0) : exdirWord (addrOf pd) = addrOf pd ||| 3 := by
  have hne : addrOf pd ≠ 0 := Nat.mul_ne_zero h (by decide)
  rw [exdirWord, if_neg hne, Nat.or_assoc]
  rfl

theorem loaded_exdirSet {m : Phys} {pd : Frame} (hne : pd ≠ 0) (hc : SelfMapped m m.cr3)
    (hp : SelfMapped m pd) : Loaded (m.setWord m.cr3 1022 (exdirWord (addrOf pd))) pd := by
  have hw : (m.setWord m.cr3 1022 (exdirWord (addrOf pd))).word m.cr3 1022 = addrOf pd ||| 3 := by
    rw [setWord_word, if_pos ⟨rfl, rfl⟩, exdirWord_addrOf hne]
  refine ⟨?_, ?_, hc.setWord (by decide), hp.setWord (by decide)⟩
  · exact hw ▸ (present_addrOf_or pd (by decide)).mpr rfl
  · exact hw ▸ frameOf_addrOf_or pd (by decide)

theorem Loaded.load_ne {m : Phys} {pd : Frame} (h : Loaded m pd) : m.word m.cr3 1022 ≠ 0 := by
  intro hz
  have := h.present
  rw [hz] at this
  exact absurd this (by decide)

/-- While `pd` is loaded, `vmm_expage_get` is the page walk of `pd`. -/
theorem vmmExpageGet_eq {m : Phys} {pd : Frame} {q : Nat} (h : Loaded m pd) (hq : q < 2 ^ 32) :
    vmmExpageGet m q = .ok ((m.entryAt pd q).getD 0) := by
  have hpage : pageMask q < 2 ^ 32 := (pageMask_le q).trans_lt hq
  have hi : dirIdx q < 1024 := by
    unfold dirIdx
    omega
  simp only [vmmExpageGet, load_exdir h.here, dirIdx_pageMask, entryAt,
    load_eq (translate_expageDirectory h hi)]
  by_cases hp : Present (m.word pd (dirIdx q))
  · have ht := load_eq (translate_expageTables h hpage (by rwa [dirIdx_pageMask]))
    rw [dirIdx_pageMask, tableIdx_pageMask] at ht
    simp only [ht]
    by_cases he : Present (m.word (frameOf (m.word pd (dirIdx q))) (tableIdx q))
    · simp [hp, he, h.load_ne, Bind.bind, Except.bind, pure, Except.pure]
    · simp [hp, he, h.load_ne, Bind.bind, Except.bind, pure, Except.pure]
  · simp [hp, h.load_ne, Bind.bind, Except.bind, pure, Except.pure]

theorem pageMask_mod (a : Nat) : pageMask a % 0x1000 = 0 := Nat.mul_mod_left _ _

theorem clear_expageTables {m : Phys} {pd f : Frame} {q : Nat} (h : Loaded m pd) (hq : q < 2 ^ 32)
    (he : Present (m.word pd (dirIdx q))) (hf : frameOf (m.word pd (dirIdx q)) = f)
    (hcr3 : m.cr3 ≠ f) (hpd : pd ≠ f) :
    m.clear (pageMask (expageTables (vmmTableIdx q))) = .ok (m.zeroed f 1024) := by
  refine clear_eq ⟨?_, ?_, ?_, hcr3, ?_⟩ (pageMask_mod _) <;>
    simp only [dirIdx_pageMask, tableIdx_pageMask, dirIdx_expageTables hq,
      tableIdx_expageTables hq, h.frame]
  · exact h.present
  · exact he
  · exact hf
  · exact hpd

theorem clear_pageTables {m : Phys} {f : Frame} {q : Nat} (h : SelfMapped m m.cr3) (hq : q < 2 ^ 32)
    (he : Present (m.word m.cr3 (dirIdx q))) (hf : frameOf (m.word m.cr3 (dirIdx q)) = f)
    (hcr3 : m.cr3 ≠ f) :
    m.clear (pageMask (pageTables (vmmTableIdx q))) = .ok (m.zeroed f 1024) := by
  refine clear_eq ⟨?_, ?_, ?_, hcr3, ?_⟩ (pageMask_mod _) <;>
    simp only [dirIdx_pageMask, tableIdx_pageMask, dirIdx_pageTables hq, tableIdx_pageTables hq,
      h.2]
  · exact h.1
  · exact he
  · exact hf
  · exact hcr3

section
variable {m : Phys} {pd : Frame} {page v : Nat}

theorem vmmExpageTouch_eq (h : Loaded m pd) (hpage : page < kernelOffset) (hv : Present v)
    (hroom : Room m pd page) :
    vmmExpageTouch m page (pageFlagMask v) = .ok (m.touched pd page (pageFlagMask v)) := by
  have hi : dirIdx page < 768 := dirIdx_lt hpage
  have hdir := load_eq (translate_expageDirectory h (hi.trans (by decide)))
  simp only [vmmExpageTouch, load_exdir h.here, dirIdx_pageMask, pageFlagMask_pageFlagMask, hdir]
  by_cases hp : Present (m.word pd (dirIdx page))
  · simp [hp, h.load_ne, touched_of_present, Bind.bind, Except.bind, pure, Except.pure]
  obtain hp' | ⟨f, rest, hfree, hunused, hcur⟩ := hroom
  · exact absurd hp' hp
  rw [touched_of_free hp hfree]
  have hpd : pd ≠ f := hunused.ne h.there
  have hload : Loaded { m with free := rest } pd := ⟨h.present, h.frame, h.here, h.there⟩
  have hstore (w : Nat) : ({ m with free := rest } : Phys).store (expageDirectory (dirIdx page)) w =
      .ok (({ m with free := rest } : Phys).setWord pd (dirIdx page) w) :=
    store_eq (translate_expageDirectory hload (hi.trans (by decide)))
  have hclear := clear_expageTables (f := f) (q := pageMask page)
    (hload.setWord (w := addrOf f ||| pageFlagMask v) (hi.trans (by decide)))
    ((pageMask_le page).trans_lt (hpage.trans (by decide)))
    (by
      rw [dirIdx_pageMask, setWord_word, if_pos ⟨rfl, rfl⟩, present_addrOf_or f (pageFlagMask_lt _),
        present_pageFlagMask]
      exact hv)
    (by
      rw [dirIdx_pageMask, setWord_word, if_pos ⟨rfl, rfl⟩,
        frameOf_addrOf_or f (pageFlagMask_lt _)])
    (hcur.ne h.here) hpd
  simp [hp, h.load_ne, pmmAllocPage, hfree, hstore, hclear, tableAdded, Bind.bind, Except.bind]

theorem touched_cr3 : (m.touched pd page v).cr3 = m.cr3 := by
  unfold touched
  split
  · rfl
  · cases m.free <;> rfl

theorem Room.present (hroom : Room m pd page) (hs : SelfMapped m pd) (hv : Present v) :
    Present ((m.touched pd page (pageFlagMask v)).word pd (dirIdx page)) := by
  by_cases hp : Present (m.word pd (dirIdx page))
  · rwa [touched_of_present hp]
  obtain hp' | ⟨f, rest, hfree, hunused, _⟩ := hroom
  · exact absurd hp' hp
  rw [touched_of_free hp hfree, tableAdded_slot (hunused.ne hs),
    present_addrOf_or f (pageFlagMask_lt _), present_pageFlagMask]
  exact hv

/-- Adding a table changes no slot of the two directories but its own. -/
theorem Room.kept {g : Frame} {j k : Nat} (hroom : Room m pd page)
    (hg : SelfMapped m g) (hd : g = pd ∨ g = m.cr3) (hj : j ≠ dirIdx page) :
    (m.touched pd page k).word g j = m.word g j := by
  by_cases hp : Present (m.word pd (dirIdx page))
  · rw [touched_of_present hp]
  obtain hp' | ⟨f, rest, hfree, hunused, hcur⟩ := hroom
  · exact absurd hp' hp
  rw [touched_of_free hp hfree]
  have hgf : g ≠ f := by
    obtain rfl | rfl := hd
    · exact hunused.ne hg
    · exact hcur.ne hg
  exact tableAdded_word hgf fun hc => hj hc.2

theorem SelfMapped.touched {g : Frame} {k : Nat} (h : SelfMapped m g) (hroom : Room m pd page)
    (hpage : page < kernelOffset) (hd : g = pd ∨ g = m.cr3) :
    SelfMapped (m.touched pd page k) g := by
  have hi := dirIdx_lt hpage
  unfold SelfMapped
  rw [hroom.kept h hd (by omega)]
  exact h

theorem Loaded.touched {k : Nat} (h : Loaded m pd) (hroom : Room m pd page)
    (hpage : page < kernelOffset) : Loaded (m.touched pd page k) pd := by
  have hi := dirIdx_lt hpage
  have hw := hroom.kept (k := k) h.here (Or.inr rfl) (show 1022 ≠ dirIdx page by omega)
  refine ⟨?_, ?_, ?_, h.there.touched hroom hpage (Or.inl rfl)⟩ <;> rw [touched_cr3]
  · exact hw ▸ h.present
  · exact hw ▸ h.frame
  · exact h.here.touched hroom hpage (Or.inr rfl)

theorem vmmExpageSet_eq (h : Loaded m pd) (hpage : page < kernelOffset) (hv : Present v)
    (hroom : Room m pd page) : vmmExpageSet m page v = .ok (m.edited pd page v) := by
  have hmask : pageMask page < kernelOffset := (pageMask_le page).trans_lt hpage
  have hroom' : Room m pd (pageMask page) := by
    unfold Room
    rwa [dirIdx_pageMask]
  have htouch := vmmExpageTouch_eq (v := v) h hmask hv hroom'
  have hstore (w : Nat) := store_eq (w := w) (translate_expageTables (h.touched hroom' hmask)
    (hmask.trans (by decide)) (hroom'.present h.there hv))
  simp only [vmmExpageSet, htouch, hstore, Bind.bind, Except.bind]
  exact congrArg Except.ok edited_pageMask

theorem vmmPageTouch_eq (h : SelfMapped m m.cr3) (hpage : page < kernelOffset) (hv : Present v)
    (hroom : Room m m.cr3 page) :
    vmmPageTouch m page (pageFlagMask v) =
      .ok (m.touched m.cr3 page (pageFlagMask v)) := by
  have hi : dirIdx page < 768 := dirIdx_lt hpage
  have hdir := load_eq (translate_pageDirectory h (hi.trans (by decide)))
  have huser : ¬kernelOffset ≤ pageMask page :=
    Nat.not_le.mpr ((pageMask_le page).trans_lt hpage)
  simp only [vmmPageTouch, dirIdx_pageMask, pageFlagMask_pageFlagMask, hdir]
  by_cases hp : Present (m.word m.cr3 (dirIdx page))
  · simp [hp, touched_of_present, Bind.bind, Except.bind, pure, Except.pure]
  obtain hp' | ⟨f, rest, hfree, hunused, -⟩ := hroom
  · exact absurd hp' hp
  rw [touched_of_free hp hfree]
  have hcr3 : m.cr3 ≠ f := hunused.ne h
  have hstore (w : Nat) : ({ m with free := rest } : Phys).store (pageDirectory (dirIdx page)) w =
      .ok (({ m with free := rest } : Phys).setWord m.cr3 (dirIdx page) w) :=
    store_eq (translate_pageDirectory h (hi.trans (by decide)))
  have hclear := clear_pageTables (f := f) (q := pageMask page)
    (m := ({ m with free := rest } : Phys).setWord m.cr3 (dirIdx page)
      (addrOf f ||| pageFlagMask v))
    (SelfMapped.setWord (m := { m with free := rest }) h (by omega))
    ((pageMask_le page).trans_lt (hpage.trans (by decide)))
    (by
      rw [dirIdx_pageMask, setWord_word, if_pos ⟨rfl, rfl⟩, present_addrOf_or f (pageFlagMask_lt _),
        present_pageFlagMask]
      exact hv)
    (by
      rw [dirIdx_pageMask, setWord_word, if_pos ⟨rfl, rfl⟩,
        frameOf_addrOf_or f (pageFlagMask_lt _)])
    hcr3
  simp [hp, huser, touchUser, pmmAllocPage, hfree, hstore, hclear, tableAdded, dirIdx_pageMask,
    Bind.bind, Except.bind]

theorem vmmPageSet_eq (h : SelfMapped m m.cr3) (hpage : page < kernelOffset) (hv : Present v)
    (hroom : Room m m.cr3 page) : vmmPageSet m page v = .ok (m.edited m.cr3 page v) := by
  have hmask : pageMask page < kernelOffset := (pageMask_le page).trans_lt hpage
  have hroom' : Room m m.cr3 (pageMask page) := by
    unfold Room
    rwa [dirIdx_pageMask]
  have htouch := vmmPageTouch_eq (v := v) h hmask hv hroom'
  have hself := h.touched (k := pageFlagMask v) hroom' hmask (Or.inl rfl)
  have hc : (m.touched m.cr3 (pageMask page) (pageFlagMask v)).cr3 = m.cr3 := touched_cr3
  have hstore := store_eq (w := v) (translate_pageTables (q := pageMask page)
    (m := m.touched m.cr3 (pageMask page) (pageFlagMask v)) (by rwa [hc])
    (hmask.trans (by decide)) (by rw [hc]; exact hroom'.present h hv))
  rw [hc] at hstore
  simp only [vmmPageSet, htouch, hstore, Bind.bind, Except.bind]
  exact congrArg Except.ok edited_pageMask

end

-- ---------------------------------------------------------------------------
-- Editing another address space
-- ---------------------------------------------------------------------------

/-- What the kernel keeps about a directory it edits from another one. -/
structure External (m : Phys) (pd : Frame) : Prop where
  here : SelfMapped m m.cr3
  there : SelfMapped m pd
  nonzero : pd ≠ 0
  /-- A table below `KERNEL_OFFSET` is found in its own slot only. -/
  alone : ∀ i < 768, Present (m.word pd i) → ∀ d, d = pd ∨ d = m.cr3 → ∀ j < 1024,
    Present (m.word d j) → frameOf (m.word d j) = frameOf (m.word pd i) → d = pd ∧ j = i
  /-- The slot of the external directory is as `vmm_exdir_set` leaves it. -/
  exdir : ∃ old, m.word m.cr3 1022 = exdirWord (addrOf old)

theorem setWord_comm (m : Phys) {f g : Frame} {i j : Nat} (v w : Nat) (h : ¬(f = g ∧ i = j)) :
    (m.setWord f i v).setWord g j w = (m.setWord g j w).setWord f i v := by
  have hw : ((m.setWord f i v).setWord g j w).word = ((m.setWord g j w).setWord f i v).word := by
    funext x k
    simp only [setWord_word]
    grind
  exact congrArg (fun w => { m with word := w }) hw

theorem setWord_setWord (m : Phys) (f : Frame) (i v w : Nat) :
    (m.setWord f i v).setWord f i w = m.setWord f i w := by
  simp [setWord]

theorem setWord_self {m : Phys} {f : Frame} {i w : Nat} (h : m.word f i = w) :
    m.setWord f i w = m := by
  simp [setWord, ← h]

theorem setWord_zeroed_comm (m : Phys) {f g : Frame} (n i w : Nat) (h : g ≠ f) :
    (m.setWord g i w).zeroed f n = (m.zeroed f n).setWord g i w := by
  have hw : ((m.setWord g i w).zeroed f n).word = ((m.zeroed f n).setWord g i w).word := by
    funext x k
    simp only [zeroed, setWord_word]
    grind
  exact congrArg (fun w => { m with word := w }) hw

theorem pageMask_exdirWord (old : Frame) : pageMask (exdirWord (addrOf old)) = addrOf old := by
  by_cases h : old = 0
  · subst h
    rfl
  · rw [exdirWord_addrOf h, addrOf_or old (by decide), pageMask, addrOf]
    omega

section
variable {m : Phys} {pd : Frame} {page v : Nat}

def tableOf (m : Phys) (pd : Frame) (page v : Nat) : Frame :=
  frameOf ((m.touched pd page (pageFlagMask v)).word pd (dirIdx page))

theorem edited_eq : m.edited pd page v =
    (m.touched pd page (pageFlagMask v)).setWord (m.tableOf pd page v) (tableIdx page) v :=
  rfl

theorem External.tableOf_alone (h : External m pd) (hpage : page < kernelOffset)
    (hroom : Room m pd page) {d : Frame} {j : Nat} (hd : d = pd ∨ d = m.cr3) (hj : j < 1024)
    (hne : ¬(d = pd ∧ j = dirIdx page)) (hp : Present (m.word d j)) :
    frameOf (m.word d j) ≠ m.tableOf pd page v := by
  intro he
  by_cases hpd : Present (m.word pd (dirIdx page))
  · rw [tableOf, touched_of_present hpd] at he
    exact hne (h.alone _ (dirIdx_lt hpage) hpd d hd j hj hp he)
  obtain hp' | ⟨f, rest, hfree, hunused, hcur⟩ := hroom
  · exact absurd hp' hpd
  rw [tableOf, touched_of_free hpd hfree, tableAdded_slot (hunused.ne h.there),
    frameOf_addrOf_or f (pageFlagMask_lt _)] at he
  obtain rfl | rfl := hd
  · exact hunused j hj hp he
  · exact hcur j hj hp he

theorem External.ne_tableOf (h : External m pd) (hpage : page < kernelOffset)
    (hroom : Room m pd page) {d : Frame} (hd : d = pd ∨ d = m.cr3) (hs : SelfMapped m d) :
    d ≠ m.tableOf pd page v := by
  have hi := dirIdx_lt hpage
  have := h.tableOf_alone (v := v) hpage hroom hd (by decide : 1023 < 1024) (by omega) hs.1
  rwa [hs.2] at this

theorem Room.touched_exdir (hroom : Room m pd page) (hc : SelfMapped m m.cr3)
    (hpage : page < kernelOffset) (w k : Nat) :
    (m.setWord m.cr3 1022 w).touched pd page k =
      (m.touched pd page k).setWord m.cr3 1022 w := by
  have hi := dirIdx_lt hpage
  have hw : (m.setWord m.cr3 1022 w).word pd (dirIdx page) = m.word pd (dirIdx page) := by
    rw [setWord_word, if_neg fun hc => by omega]
  by_cases hp : Present (m.word pd (dirIdx page))
  · rw [touched_of_present hp, touched_of_present (by rwa [hw])]
  obtain hp' | ⟨f, rest, hfree, -, hcur⟩ := hroom
  · exact absurd hp' hp
  have hadd := touched_of_free (m := m.setWord m.cr3 1022 w) (k := k) (by rwa [hw]) hfree
  rw [touched_of_free hp hfree, hadd, tableAdded, tableAdded,
    ← setWord_zeroed_comm _ _ _ _ (hcur.ne hc)]
  exact congrArg (fun x => zeroed x f 1024)
    (setWord_comm { m with free := rest } _ _ fun hc => by omega)

theorem External.edited_exdir (h : External m pd) (hpage : page < kernelOffset)
    (hroom : Room m pd page) (w : Nat) :
    (m.setWord m.cr3 1022 w).edited pd page v =
      (m.edited pd page v).setWord m.cr3 1022 w := by
  have hi := dirIdx_lt hpage
  have hne := h.ne_tableOf (v := v) hpage hroom (Or.inr rfl) h.here
  have ht : (m.setWord m.cr3 1022 w).tableOf pd page v = m.tableOf pd page v := by
    rw [tableOf, hroom.touched_exdir h.here hpage, setWord_word, if_neg fun hc => by omega]
    rfl
  rw [edited_eq, edited_eq, ht, hroom.touched_exdir h.here hpage,
    setWord_comm _ _ _ fun hc => hne hc.1]

theorem Room.exdir (hroom : Room m pd page) (hpage : page < kernelOffset) (hne : pd ≠ 0)
    (hp : SelfMapped m pd) : Room (m.setWord m.cr3 1022 (exdirWord (addrOf pd))) pd page := by
  have hi := dirIdx_lt hpage
  have hw (d j) : (m.setWord m.cr3 1022 (exdirWord (addrOf pd))).word d j =
      if d = m.cr3 ∧ j = 1022 then addrOf pd ||| 3 else m.word d j := by
    rw [setWord_word, exdirWord_addrOf hne]
  obtain hroom | ⟨f, rest, hfree, hunused, hcur⟩ := hroom
  · left
    rw [hw, if_neg fun hc => by omega]
    exact hroom
  · have hpf := hunused.ne hp
    refine Or.inr ⟨f, rest, hfree, ?_, ?_⟩ <;> intro j hj <;> rw [hw] <;> split
    · exact fun _ => (frameOf_addrOf_or pd (k := 3) (by decide)).symm ▸ hpf
    · exact hunused j hj
    · exact fun _ => (frameOf_addrOf_or pd (k := 3) (by decide)).symm ▸ hpf
    · exact hcur j hj

theorem External.loaded (h : External m pd) :
    Loaded (m.setWord m.cr3 1022 (exdirWord (addrOf pd))) pd :=
  loaded_exdirSet h.nonzero h.here h.there

theorem External.edited_slot (h : External m pd) (hpage : page < kernelOffset)
    (hroom : Room m pd page) {d : Frame} {j : Nat} (hs : SelfMapped m d) (hd : d = pd ∨ d = m.cr3)
    (hj : j ≠ dirIdx page) : (m.edited pd page v).word d j = m.word d j := by
  rw [edited_eq, setWord_word, if_neg fun hc => h.ne_tableOf hpage hroom hd hs hc.1,
    hroom.kept hs hd hj]

theorem External.selfMapped_edited (h : External m pd) (hpage : page < kernelOffset)
    (hroom : Room m pd page) {d : Frame} (hs : SelfMapped m d) (hd : d = pd ∨ d = m.cr3) :
    SelfMapped (m.edited pd page v) d := by
  have hi := dirIdx_lt hpage
  unfold SelfMapped
  rw [h.edited_slot hpage hroom hs hd (by omega)]
  exact hs

/-- Loading `pd`, setting the page and restoring the old external directory writes
exactly the words of the edit. -/
theorem External.steps (h : External m pd) (hpage : page < kernelOffset) (hv : Present v)
    (hroom : Room m pd page) : ∃ old m₁ m₂ x,
      vmmExdirSet m (addrOf pd) = .ok (old, m₁) ∧ Loaded m₁ pd ∧
      vmmExpageSet m₁ page v = .ok m₂ ∧ Loaded m₂ pd ∧
      vmmExdirSet m₂ old = .ok (x, m.edited pd page v) := by
  have hi := dirIdx_lt hpage
  have hset := vmmExpageSet_eq (v := v) h.loaded hpage hv
    (hroom.exdir hpage h.nonzero h.there)
  rw [h.edited_exdir hpage hroom] at hset
  have hcr3 : (m.edited pd page v).cr3 = m.cr3 := touched_cr3
  have hhere := h.selfMapped_edited (v := v) hpage hroom h.here (Or.inr rfl)
  have hthere := h.selfMapped_edited (v := v) hpage hroom h.there (Or.inl rfl)
  have hslot := h.edited_slot (v := v) hpage hroom h.here (Or.inr rfl)
    (show 1022 ≠ dirIdx page by omega)
  have hloaded := loaded_exdirSet (m := m.edited pd page v) h.nonzero (by rwa [hcr3]) hthere
  rw [hcr3] at hloaded
  obtain ⟨old, hold⟩ := h.exdir
  have hset₁ := vmmExdirSet_eq h.here (addrOf pd)
  rw [hold, pageMask_exdirWord] at hset₁
  have hback := vmmExdirSet_eq hloaded.here (addrOf old)
  rw [setWord_cr3, hcr3, setWord_setWord, setWord_self (hslot.trans hold)] at hback
  exact ⟨_, _, _, _, hset₁, h.loaded, hset, hloaded, hback⟩

theorem touched_vmmPdSet (a k : Nat) :
    (m.vmmPdSet a).touched pd page k = (m.touched pd page k).vmmPdSet a := by
  by_cases hp : Present (m.word pd (dirIdx page))
  · rw [touched_of_present hp]
    exact touched_of_present hp
  cases hfree : m.free with
  | nil => simp only [touched, vmmPdSet, hfree, if_neg hp]
  | cons f rest =>
    rw [touched_of_free hp hfree]
    exact touched_of_free hp hfree

/-- Making `pd` current and setting the page writes the same words. -/
theorem vmmPageSet_current (h : External m pd) (hpage : page < kernelOffset) (hv : Present v)
    (hroom : Room m pd page) :
    vmmPageSet (m.vmmPdSet (addrOf pd)) page v =
      .ok ((m.edited pd page v).vmmPdSet (addrOf pd)) := by
  have hc : frameOf (addrOf pd) = pd := Nat.mul_div_cancel pd (by decide)
  have hroom' : Room (m.vmmPdSet (addrOf pd)) (m.vmmPdSet (addrOf pd)).cr3 page := by
    unfold Room Unused vmmPdSet
    rw [hc]
    obtain hp | ⟨f, rest, hfree, hunused, -⟩ := hroom
    · exact Or.inl hp
    · exact Or.inr ⟨f, rest, hfree, hunused, hunused⟩
  have hself : SelfMapped (m.vmmPdSet (addrOf pd)) (m.vmmPdSet (addrOf pd)).cr3 := by
    unfold SelfMapped vmmPdSet
    rw [hc]
    exact h.there
  rw [vmmPageSet_eq hself hpage hv hroom', edited, touched_vmmPdSet]
  simp only [vmmPdSet, hc]
  rfl

/-- The page of a window of `pd` onto itself that shows a table just made. -/
def ShowsTable (m : Phys) (pd : Frame) (page q : Nat) : Prop :=
  ¬Present (m.word pd (dirIdx page)) ∧ Present (m.word pd (dirIdx q)) ∧
    frameOf (m.word pd (dirIdx q)) = pd ∧ tableIdx q = dirIdx page

theorem entryAt_edited (hs : SelfMapped m pd) (hroom : Room m pd page) (hv : Present v)
    (hne : pd ≠ m.tableOf pd page v) : (m.edited pd page v).entryAt pd page = some v := by
  have hslot : (m.edited pd page v).word pd (dirIdx page) =
      (m.touched pd page (pageFlagMask v)).word pd (dirIdx page) := by
    rw [edited_eq, setWord_word, if_neg fun hc => hne hc.1]
  have htab : (m.edited pd page v).word (m.tableOf pd page v) (tableIdx page) = v := by
    rw [edited_eq, setWord_word, if_pos ⟨rfl, rfl⟩]
  rw [entryAt_eq (hslot ▸ hroom.present hs hv)]
  · rw [hslot]
    exact congrArg some htab
  · rw [hslot]
    exact htab.symm ▸ hv

theorem entryAt_newTable {q : Nat} (h : External m pd) (hpage : page < kernelOffset)
    (hroom : Room m pd page) (hp : ¬Present (m.word pd (dirIdx page)))
    (hd : dirIdx q = dirIdx page) (ht : tableIdx q ≠ tableIdx page) :
    (m.edited pd page v).entryAt pd q = none := by
  have hne := h.ne_tableOf (v := v) hpage hroom (Or.inl rfl) h.there
  obtain hp' | ⟨f, rest, hfree, hunused, -⟩ := hroom
  · exact absurd hp' hp
  have hpf := hunused.ne h.there
  have htable : m.tableOf pd page v = f := by
    rw [tableOf, touched_of_free hp hfree, tableAdded_slot hpf,
      frameOf_addrOf_or f (pageFlagMask_lt _)]
  have hslot : frameOf ((m.edited pd page v).word pd (dirIdx q)) = f := by
    rw [hd, edited_eq, setWord_word, if_neg fun hc => hne hc.1]
    exact htable
  have hzero : (m.edited pd page v).word f (tableIdx q) = 0 := by
    rw [edited_eq, htable, setWord_word, if_neg fun hc => ht hc.2, touched_of_free hp hfree,
      tableAdded_table (tableIdx_lt q)]
  rw [entryAt, hslot, hzero]
  split <;> rfl

theorem edited_word {g : Frame} (hroom : Room m pd page) (hg : g ≠ m.tableOf pd page v)
    {j : Nat} (hj : ¬Present (m.word pd (dirIdx page)) → ¬(g = pd ∧ j = dirIdx page))
    (hs : SelfMapped m pd) : (m.edited pd page v).word g j = m.word g j := by
  rw [edited_eq, setWord_word, if_neg fun hc => hg hc.1]
  by_cases hp : Present (m.word pd (dirIdx page))
  · rw [touched_of_present hp]
  obtain hp' | ⟨f, rest, hfree, hunused, -⟩ := hroom
  · exact absurd hp' hp
  rw [tableOf, touched_of_free hp hfree, tableAdded_slot (hunused.ne hs),
    frameOf_addrOf_or f (pageFlagMask_lt _)] at hg
  rw [touched_of_free hp hfree]
  exact tableAdded_word hg (hj hp)

theorem entryAt_other {q : Nat} (h : External m pd) (hpage : page < kernelOffset)
    (hroom : Room m pd page) (hq : q < 2 ^ 32) (hne : pageMask q ≠ pageMask page)
    (hshow : ¬ShowsTable m pd page q) :
    (m.edited pd page v).entryAt pd q = m.entryAt pd q := by
  have hpd := h.ne_tableOf (v := v) hpage hroom (Or.inl rfl) h.there
  by_cases hd : dirIdx q = dirIdx page
  · have ht : tableIdx q ≠ tableIdx page := fun ht => hne (samePage_iff.mpr ⟨hd, ht⟩)
    by_cases hp : Present (m.word pd (dirIdx page))
    · have htable : frameOf (m.word pd (dirIdx page)) = m.tableOf pd page v := by
        rw [tableOf, touched_of_present hp]
      have hdir : (m.edited pd page v).word pd (dirIdx page) = m.word pd (dirIdx page) :=
        edited_word hroom hpd (fun hc => absurd hp hc) h.there
      have hword : (m.edited pd page v).word (m.tableOf pd page v) (tableIdx q) =
          m.word (m.tableOf pd page v) (tableIdx q) := by
        rw [edited_eq, setWord_word, if_neg fun hc => ht hc.2, touched_of_present hp]
      rw [entryAt, entryAt, hd, hdir, htable, hword]
    · rw [entryAt_newTable h hpage hroom hp hd ht, entryAt, hd, if_neg hp]
  · have hi : dirIdx q < 1024 := by
      unfold dirIdx
      omega
    have hdir : (m.edited pd page v).word pd (dirIdx q) = m.word pd (dirIdx q) :=
      edited_word hroom hpd (fun _ hc => hd hc.2) h.there
    rw [entryAt, entryAt, hdir]
    by_cases hp : Present (m.word pd (dirIdx q))
    · rw [if_pos hp, if_pos hp, edited_word hroom
        (h.tableOf_alone hpage hroom (Or.inl rfl) hi (fun hc => hd hc.2) hp)
        (fun hn hc => hshow ⟨hn, hp, hc.1, hc.2⟩) h.there]
    · rw [if_neg hp, if_neg hp]

theorem entryAt_showsTable {q : Nat} (h : External m pd) (hpage : page < kernelOffset)
    (hroom : Room m pd page) (hv : Present v) (hshow : ShowsTable m pd page q) :
    m.entryAt pd q = none ∧
      (m.edited pd page v).entryAt pd q = some ((m.edited pd page v).word pd (dirIdx page)) := by
  obtain ⟨hn, hp, hf, ht⟩ := hshow
  have hpd := h.ne_tableOf (v := v) hpage hroom (Or.inl rfl) h.there
  have hd : dirIdx q ≠ dirIdx page := fun hd => hn (hd ▸ hp)
  have hdir : (m.edited pd page v).word pd (dirIdx q) = m.word pd (dirIdx q) :=
    edited_word hroom hpd (fun _ hc => hd hc.2) h.there
  have hslot : Present ((m.edited pd page v).word pd (dirIdx page)) := by
    rw [edited_eq, setWord_word, if_neg fun hc => hpd hc.1]
    exact hroom.present h.there hv
  constructor
  · rw [entryAt, if_pos hp, hf, ht, if_neg hn]
  · rw [entryAt, hdir, if_pos hp, hf, ht, if_pos hslot]

/-- The page of another directory is set through the windows as it would be with
that directory loaded, and the current directory is left as it was. One page
more can appear: the one of `pd`'s window onto itself that shows a new table. -/
theorem externalEdit (h : External m pd) (hpage : page < kernelOffset) (hv : Present v)
    (hroom : Room m pd page) : ∃ old m₁ m₂ x m₃,
      vmmExdirSet m (addrOf pd) = .ok (old, m₁) ∧ vmmExpageSet m₁ page v = .ok m₂ ∧
      vmmExdirSet m₂ old = .ok (x, m₃) ∧
      m₃.entryAt pd page = some v ∧
      (∀ q < 2 ^ 32, pageMask q ≠ pageMask page → ¬ShowsTable m pd page q →
        m₃.entryAt pd q = m.entryAt pd q) ∧
      (∀ q, ShowsTable m pd page q → m.entryAt pd q = none ∧
        m₃.entryAt pd q = some (m₃.word pd (dirIdx page))) ∧
      m₃.cr3 = m.cr3 ∧ (m.cr3 ≠ pd → ∀ i, m₃.word m.cr3 i = m.word m.cr3 i) ∧
      vmmPageSet (m.vmmPdSet (addrOf pd)) page v = .ok (m₃.vmmPdSet (addrOf pd)) ∧
      Loaded m₁ pd ∧ Loaded m₂ pd ∧
      ∀ n, Loaded n pd → ∀ q < kernelOffset, vmmExpageGet n q = .ok ((n.entryAt pd q).getD 0) := by
  obtain ⟨old, m₁, m₂, x, hset, hloaded₁, hpageSet, hloaded₂, hback⟩ :=
    h.steps (v := v) hpage hv hroom
  refine ⟨old, m₁, m₂, x, _, hset, hpageSet, hback, ?_, ?_, ?_, touched_cr3, ?_, ?_, hloaded₁,
    hloaded₂, ?_⟩
  · exact entryAt_edited h.there hroom hv (h.ne_tableOf hpage hroom (Or.inl rfl) h.there)
  · exact fun q hq hne hshow => entryAt_other h hpage hroom hq hne hshow
  · exact fun q hshow => entryAt_showsTable h hpage hroom hv hshow
  · intro hne i
    exact edited_word hroom (h.ne_tableOf hpage hroom (Or.inr rfl) h.here) (fun _ hc => hne hc.1)
      h.there
  · exact vmmPageSet_current h hpage hv hroom
  · exact fun n hn q hq => vmmExpageGet_eq hn (hq.trans (by decide))

end

def twoDirectories : Phys where
  cr3 := 1
  kernelPd := 1
  vmmRunning := true
  word := fun f i =>
    if f = 1 ∧ i = 1023 then 0x1003 else if f = 2 ∧ i = 1023 then 0x2003 else 0
  free := [3]

theorem twoDirectories_external : External twoDirectories 2 where
  here := ⟨by decide, by decide⟩
  there := ⟨by decide, by decide⟩
  nonzero := by decide
  alone := by
    intro i hi hp
    have hz : twoDirectories.word 2 i = 0 := by
      simp only [twoDirectories]
      grind
    rw [hz] at hp
    exact absurd hp (by decide)
  exdir := ⟨0, by decide⟩

theorem twoDirectories_room : Room twoDirectories 2 0 := by
  refine Or.inr ⟨3, [], rfl, ?_, ?_⟩ <;> intro i hi <;> simp only [twoDirectories] <;> split
  all_goals first | decide | (split <;> decide)

theorem externalEdit_two : ∃ old m₁ m₂ x m₃,
    vmmExdirSet twoDirectories (addrOf 2) = .ok (old, m₁) ∧ vmmExpageSet m₁ 0 0x7007 = .ok m₂ ∧
      vmmExdirSet m₂ old = .ok (x, m₃) ∧ m₃.entryAt 2 0 = some 0x7007 := by
  obtain ⟨old, m₁, m₂, x, m₃, hset, hpageSet, hback, hentry, -⟩ :=
    externalEdit (v := 0x7007) twoDirectories_external (by decide : 0 < kernelOffset)
      (by decide) twoDirectories_room
  exact ⟨old, m₁, m₂, x, m₃, hset, hpageSet, hback, hentry⟩

/-- The page at `VMM_PAGE_TABLES` is one of the other pages, and is mapped by the
edit of page 0. -/
theorem windowPage_mapped : External twoDirectories 2 ∧ Room twoDirectories 2 0 ∧
    ∃ old m₁ m₂ x m₃, vmmExdirSet twoDirectories (addrOf 2) = .ok (old, m₁) ∧
      vmmExpageSet m₁ 0 0x7007 = .ok m₂ ∧ vmmExdirSet m₂ old = .ok (x, m₃) ∧
      pageMask vmmPageTables ≠ pageMask 0 ∧
      twoDirectories.entryAt 2 vmmPageTables = none ∧
      m₃.entryAt 2 vmmPageTables = some (m₃.word 2 0) := by
  obtain ⟨old, m₁, m₂, x, hset, -, hpageSet, -, hback⟩ :=
    twoDirectories_external.steps (v := 0x7007) (by decide : 0 < kernelOffset) (by decide)
      twoDirectories_room
  have hshow : ShowsTable twoDirectories 2 0 vmmPageTables := by
    refine ⟨?_, ?_, ?_, ?_⟩ <;> decide
  obtain ⟨hnone, hsome⟩ := entryAt_showsTable (v := 0x7007) twoDirectories_external
    (by decide : 0 < kernelOffset) twoDirectories_room (by decide) hshow
  exact ⟨twoDirectories_external, twoDirectories_room, old, m₁, m₂, x, _, hset, hpageSet, hback,
    by decide, hnone, hsome⟩

end Phys

end Os5
