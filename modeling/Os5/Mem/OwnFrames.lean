import Os5.Mem.Collision

/-!
# Frames of one's own

Where no two pages of a process have the same frame, a store of the kernel changes what is at
one address of the process and nothing else. `new_area` keeps it so, since the frames it takes
are nobody's.
-/

namespace Os5

open Machine Outcome

def Machine.byteAt (m : Machine) (d : Frame) (x : Nat) : Option Byte :=
  if (m.leaf d x).present then some (m.byte (m.leaf d x).frame (pageFlagMask x)) else none

/-- Below `KERNEL_OFFSET` no two pages of directory `d` have the same frame, and none has a
frame that is still to be handed out. -/
structure OwnFrames (m : Machine) (d : Frame) : Prop where
  apart : ∀ {x y}, x < kernelOffset → y < kernelOffset → (m.leaf d x).present = true →
    (m.leaf d y).present = true → (m.leaf d x).frame = (m.leaf d y).frame → pageMask x = pageMask y
  taken : ∀ {x}, x < kernelOffset → (m.leaf d x).present = true → (m.leaf d x).frame ∉ m.free

/-- From `m` to `m'` the bytes were stored from `ptr` on. -/
structure Written (d : Frame) (ptr : Nat) (data : List Byte) (m m' : Machine) : Prop where
  cr3 : m'.cr3 = m.cr3
  table : m'.table = m.table
  free : m'.free = m.free
  byteAt : ∀ y, y < kernelOffset → m'.byteAt d y =
    if ptr ≤ y ∧ y < ptr + data.length then data[y - ptr]? else m.byteAt d y

section
variable {dirs : Frame → Prop} {d f : Frame} {m m' : Machine} {x y start stop : Nat} {v : Entry} {b : Byte}
  {flags : PageFlags} {rest : List Frame} {pages : List Nat} {write : Bool}

theorem leaf_of_tables (h : m'.table = m.table) : m'.leaf d x = m.leaf d x := by
  unfold Machine.leaf Machine.pte Machine.pde
  rw [h]

theorem byteAt_of_leaf (hleaf : m'.leaf d x = m.leaf d x) (hbyte : m'.byte = m.byte) :
    m'.byteAt d x = m.byteAt d x := by
  rw [Machine.byteAt, Machine.byteAt, hleaf, hbyte]

-- ---------------------------------------------------------------------------
-- Pages that are filled
-- ---------------------------------------------------------------------------

theorem OwnFrames.of_unmapped (h : ∀ x, x < kernelOffset → m.mapped d x = false) : OwnFrames m d where
  apart hx _ hp _ _ := by
    rw [← mapped_iff_leaf, h _ hx] at hp
    cases hp
  taken hx hp := by
    rw [← mapped_iff_leaf, h _ hx] at hp
    cases hp

theorem OwnFrames.of_leaf (h : OwnFrames m d) (hleaf : ∀ y, y < kernelOffset → m'.leaf d y = m.leaf d y)
    (hfree : m'.free = m.free) : OwnFrames m' d where
  apart hx hy := by
    rw [hleaf _ hx, hleaf _ hy]
    exact h.apart hx hy
  taken hx := by
    rw [hleaf _ hx, hfree]
    exact h.taken hx

theorem OwnFrames.sets (h : OwnFrames m d) (hs : Spaces m dirs) (hd : dirs d) (hfree : m.free = f :: rest)
    (hset : Sets dirs d x (vmmPageVal f flags) { m with free := rest } m') : OwnFrames m' d := by
  have hf : f ∈ m.free := hfree ▸ List.mem_cons_self
  have hrest : ∀ {g}, g ∈ m'.free → g ∈ rest := fun hg => hset.free.subset hg
  have hkept : ∀ {g}, g ∈ m'.free → g ∈ m.free := fun hg => hfree ▸ List.mem_cons_of_mem f (hrest hg)
  have hleaf : ∀ {y}, y < kernelOffset → m'.leaf d y =
      if pageMask y = pageMask x then vmmPageVal f flags else m.leaf d y := fun hy => by
    rw [hset.leaf hd hy]
    simp only [true_and]
    rfl
  constructor
  · intro y z hy hz hpy hpz heq
    rw [hleaf hy] at hpy heq
    rw [hleaf hz] at hpz heq
    by_cases hyx : pageMask y = pageMask x <;> by_cases hzx : pageMask z = pageMask x
    · exact hyx.trans hzx.symm
    · rw [if_pos hyx, if_neg hzx] at heq
      rw [if_neg hzx] at hpz
      exact absurd (heq ▸ hf) (h.taken hz hpz)
    · rw [if_neg hyx, if_pos hzx] at heq
      rw [if_neg hyx] at hpy
      exact absurd (heq ▸ hf) (h.taken hy hpy)
    · rw [if_neg hyx] at hpy heq
      rw [if_neg hzx] at hpz heq
      exact h.apart hy hz hpy hpz heq
  · intro y hy hpy hmem
    rw [hleaf hy] at hpy hmem
    by_cases hyx : pageMask y = pageMask x
    · rw [if_pos hyx] at hmem
      exact (List.nodup_cons.mp (hfree ▸ hs.freeNodup)).1 (hrest hmem)
    · rw [if_neg hyx] at hpy hmem
      exact h.taken hy hpy (hkept hmem)

theorem vmmExpageSet_error {e : Stop} (hs : Spaces m dirs) (hc : dirs m.cr3) (hl : Loaded m d)
    (hx : x < kernelOffset) (hv : v.present = true) (h : vmmExpageSet m x v = .error e) : e = .outOfMemory := by
  have hpage : pageMask x < kernelOffset := Nat.lt_of_le_of_lt (pageMask_le x) hx
  cases hp : (m.pde d x).present with
  | true =>
    rw [vmmExpageSet_loaded hl hp] at h
    cases h
  | false =>
    have hmissing : (m.pde d (pageMask x)).present = false := by rwa [Machine.pde, dirIdx_pageMask]
    cases hfree : m.free with
    | nil =>
      have herr : vmmExpageSet m x v = .error .outOfMemory := by
        simp only [vmmExpageSet, vmmExpageTouch_full hl hmissing hfree, bind, Except.bind]
      exact (Except.error.inj (herr.symm.trans h)).symm
    | cons f rest =>
      have hroom : tableFrames m d x ≤ m.free.length := by
        rw [tableFrames, hp, hfree]
        exact Nat.succ_le_succ (Nat.zero_le _)
      obtain ⟨m', hm'⟩ := (vmmExpageSet_ok_iff hs hc hl hx hv).mpr hroom
      rw [h] at hm'
      cases hm'

structure Filling (dirs : Frame → Prop) (d : Frame) (pages : List Nat) (m : Machine) : Prop where
  spaces : Spaces m dirs
  current : dirs m.cr3
  loaded : Loaded m d
  own : OwnFrames m d
  low : ∀ y ∈ pages, y < kernelOffset

theorem Filling.step (flags : PageFlags) (h : Filling dirs d (x :: pages) m) (hd : dirs d) (hflags : flags.present = true) :
    Yields (do
      let (f, m) ← pmmAllocPage m
      vmmExpageSet m x (vmmPageVal f flags)) (· = .outOfMemory) (Filling dirs d pages) := by
  have hx := h.low x List.mem_cons_self
  cases hfree : m.free with
  | nil =>
    have hfull : pmmAllocPage m = .error .outOfMemory := by rw [pmmAllocPage, hfree]
    rw [hfull]
    exact rfl
  | cons f rest =>
    have halloc : pmmAllocPage m = .ok (f, { m with free := rest }) := by rw [pmmAllocPage, hfree]
    have hs := h.spaces.alloc hfree
    rw [halloc]
    refine yields_iff.mpr ⟨fun m' hm' => ?_, fun e he => ?_⟩
    · obtain ⟨hset, hl⟩ := Sets.through_exdir hs h.current hd h.loaded hx hm'
      refine ⟨hset.spaces, ?_, hl, h.own.sets h.spaces hd hfree hset, fun y hy =>
        h.low y (List.mem_cons_of_mem _ hy)⟩
      rw [hset.cr3]
      exact h.current
    · exact vmmExpageSet_error (v := vmmPageVal f flags) hs h.current h.loaded hx hflags he

theorem populate_own (hs : Spaces m dirs) (hc : dirs m.cr3) (hd : dirs d) (hown : OwnFrames m d)
    (hstart : pageMask start = start) (hstop : stop ≤ kernelOffset) :
    Yields (populate m d start stop write) (· = .outOfMemory) fun m' => OwnFrames m' d := by
  have hstart : Filling dirs d (pagesFrom start stop) (vmmExdirSet m d).2 :=
    { spaces := hs.remaps (hs.exdirSet (d := d) hc d)
      current := hc
      loaded := vmmExdirSet_loaded (hs.nonzero hd)
      own := hown.of_leaf (fun y hy => exdirSet_leaf hs hc hd hy) rfl
      low := fun y hy => Nat.lt_of_lt_of_le ((mem_pagesFrom hstart).mp hy).2.1 hstop }
  have hloop := Yields.foldlM (Filling dirs d) (fun x pages m' h => h.step ⟨true, write, true⟩ hd rfl) hstart
  exact hloop.bind fun m' h => h.own.of_leaf (fun y hy => exdirSet_leaf h.spaces h.current hd hy) rfl

-- ---------------------------------------------------------------------------
-- Stores
-- ---------------------------------------------------------------------------

theorem store_byteAt (h : OwnFrames m d) (hx : x < kernelOffset) (hy : y < kernelOffset)
    (hmap : m.mapped d x = true) : (m.store d x b).byteAt d y = if y = x then some b else m.byteAt d y := by
  have hpx := mapped_iff_leaf.mp hmap
  have hframe : (m.pte d x).frame = (m.leaf d x).frame := by
    rw [leaf_present (Bool.and_eq_true _ _ |>.mp hmap).1]
  have hleaf : (m.store d x b).leaf d y = m.leaf d y := leaf_of_tables rfl
  have hbyte : (m.store d x b).byte (m.leaf d y).frame (pageFlagMask y) =
      if (m.leaf d y).frame = (m.leaf d x).frame ∧ pageFlagMask y = pageFlagMask x then b
      else m.byte (m.leaf d y).frame (pageFlagMask y) := by
    rw [← hframe]
    exact setByte_byte _ _ _ _ _ _
  rw [Machine.byteAt, hleaf, hbyte]
  by_cases hyx : y = x
  · subst hyx
    rw [if_pos hpx, if_pos ⟨rfl, rfl⟩, if_pos rfl]
  · rw [if_neg hyx, Machine.byteAt]
    by_cases hpy : (m.leaf d y).present = true
    · rw [if_pos hpy, if_pos hpy, if_neg]
      rintro ⟨hsame, hflag⟩
      have hpage := h.apart hy hx hpy hpx hsame
      unfold pageMask at hpage
      unfold pageFlagMask at hflag
      omega
    · rw [if_neg hpy, if_neg hpy]

theorem copyOut_own {w : Mem} {ptr : Nat} {data : List Byte} (h : OwnFrames w.machine w.machine.cr3)
    (hlow : ptr + data.length ≤ kernelOffset)
    (hmap : ∀ y, ptr ≤ y → y < ptr + data.length → w.machine.mapped w.machine.cr3 y = true) :
    ∃ m, copyOut w ptr data = .ok { w with machine := m } ∧ Written w.machine.cr3 ptr data w.machine m := by
  induction data generalizing w ptr with
  | nil =>
    refine ⟨w.machine, rfl, rfl, rfl, rfl, fun y _ => (if_neg fun hy => ?_).symm⟩
    exact absurd (hy.1.trans_lt hy.2) (Nat.lt_irrefl _)
  | cons b data ih =>
    rw [List.length_cons] at hlow hmap
    have hptr : ptr < kernelOffset := by omega
    have h0 : w.machine.mapped w.machine.cr3 ptr = true := hmap ptr (Nat.le_refl ptr) (by omega)
    set w1 : Mem := { w with machine := w.machine.store w.machine.cr3 ptr b } with hw1
    have hstore : kernelStore ptr b maxRestarts w = .ok w1 := by rw [kernelStore, if_pos h0]
    have hown : OwnFrames w1.machine w1.machine.cr3 := h.of_leaf (fun y _ => leaf_of_tables rfl) rfl
    have hlow' : ptr + 1 + data.length ≤ kernelOffset := by omega
    obtain ⟨m, hm, hwritten⟩ := ih hown hlow' fun y h1 h2 => hmap y (by omega) (by omega)
    refine ⟨m, by rw [copyOut, hstore]; exact hm, hwritten.cr3, hwritten.table, hwritten.free, fun y hy => ?_⟩
    have hfirst := store_byteAt (b := b) h hptr hy h0
    rw [show w.machine.cr3 = w1.machine.cr3 from rfl, hwritten.byteAt y hy]
    by_cases hyp : y = ptr
    · subst hyp
      rw [if_neg (by omega), if_pos (by rw [List.length_cons]; omega), Nat.sub_self]
      exact hfirst.trans (if_pos rfl)
    · rw [if_neg hyp] at hfirst
      by_cases hin : ptr + 1 ≤ y ∧ y < ptr + 1 + data.length
      · rw [if_pos hin, if_pos (by rw [List.length_cons]; omega), show y - ptr = y - (ptr + 1) + 1 by omega,
          List.getElem?_cons_succ]
      · rw [if_neg hin, if_neg (by rw [List.length_cons]; omega)]
        exact hfirst

end

end Os5
