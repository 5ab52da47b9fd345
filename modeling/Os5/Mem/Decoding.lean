import Os5.Mem.Vmm
import Os5.Mem.Windows

/-!
# Words as entries

The entry-level functions of the virtual memory manager compute what the loads
and stores through the windows compute, read as entries: whatever is called, the
answers are the same, and the calls stop alike.
-/

namespace Os5.Phys

open Outcome

/-- A table word as the processor reads it. -/
def entryOf (w : Nat) : Entry :=
  ⟨⟨decide (Present w), decide (w / 2 % 2 = 1), decide (w / 4 % 2 = 1)⟩, frameOf w⟩

structure Decodes (m : Phys) (n : Machine) : Prop where
  cr3 : n.cr3 = m.cr3
  kernelPd : n.kernelPd = m.kernelPd
  vmmRunning : n.vmmRunning = m.vmmRunning
  free : n.free = m.free
  table : ∀ f, ∀ i < 1024, n.table f i = entryOf (m.word f i)

@[simp] theorem entryOf_present {w : Nat} : (entryOf w).present = true ↔ Present w :=
  decide_eq_true_iff

@[simp] theorem entryOf_frame (w : Nat) : (entryOf w).frame = frameOf w := rfl

theorem entryOf_ne_zero {w : Nat} (h : Present w) : entryOf w ≠ Entry.zero := by
  intro he
  have hp := entryOf_present.mpr h
  rw [he] at hp
  exact Bool.noConfusion hp

/-- The frame number does not reach down to the flags. -/
theorem entryOf_add (f k : Nat) (hk : k < 0x1000) :
    entryOf (f * 0x1000 + k) = ⟨(entryOf k).toPageFlags, f⟩ := by
  have h0 : (f * 0x1000 + k) % 2 = k % 2 := by omega
  have h1 : (f * 0x1000 + k) / 2 % 2 = k / 2 % 2 := by omega
  have h2 : (f * 0x1000 + k) / 4 % 2 = k / 4 % 2 := by omega
  have hf : (f * 0x1000 + k) / 0x1000 = f := by omega
  simp only [entryOf, Present, frameOf, h0, h1, h2, hf]
  rfl

theorem entryOf_exdirWord (pd : Frame) :
    entryOf (exdirWord (addrOf pd)) = if pd = 0 then Entry.zero else ⟨⟨true, true, false⟩, pd⟩ := by
  by_cases h : pd = 0
  · subst h
    rfl
  · rw [exdirWord_addrOf h, if_neg h, addrOf_or pd (by decide), entryOf_add pd 3 (by decide)]
    rfl

/-- A new table entry has the flags of the value it is made for. -/
theorem entryOf_addrOf_or (f : Frame) (v : Nat) :
    entryOf (addrOf f ||| pageFlagMask v) = ⟨(entryOf v).toPageFlags, f⟩ := by
  have hv : v = frameOf v * 0x1000 + pageFlagMask v := (Nat.div_add_mod' v 0x1000).symm
  have hflags : (entryOf v).toPageFlags = (entryOf (pageFlagMask v)).toPageFlags := by
    conv_lhs => rw [hv, entryOf_add _ _ (pageFlagMask_lt v)]
  rw [addrOf_or f (pageFlagMask_lt v), entryOf_add f _ (pageFlagMask_lt v), hflags]

theorem frameOf_addrOf (f : Frame) : frameOf (addrOf f) = f := Nat.mul_div_cancel f (by decide)

theorem pageMask_word (w : Nat) : pageMask w = addrOf (frameOf w) := rfl

-- ---------------------------------------------------------------------------
-- The directories of the kernel
-- ---------------------------------------------------------------------------

/-- What may be written to a slot of a directory: the frame of a table is none of a directory
and is not free. -/
structure SlotFits (dirs : Set Frame) (free : List Frame) (i w : Nat) : Prop where
  ne : i ≠ 1023
  exdir : i = 1022 → ∃ x, (x = 0 ∨ x ∈ dirs) ∧ w = exdirWord (addrOf x)
  table : i < 1022 → Present w → frameOf w ∉ dirs ∧ frameOf w ∉ free

structure Directories (dirs : Set Frame) (m : Phys) : Prop where
  cr3 : m.cr3 ∈ dirs
  kernelPd : m.kernelPd ∈ dirs
  nonzero : 0 ∉ dirs
  self : ∀ d ∈ dirs, SelfMapped m d
  slots : ∀ d ∈ dirs, ∀ i < 1023, SlotFits dirs m.free i (m.word d i)
  nodup : m.free.Nodup
  free : ∀ f ∈ m.free, f ∉ dirs

/-- The entries are those of the words, and no page table is a directory. -/
structure Tracks (dirs : Set Frame) (m : Phys) (n : Machine) : Prop where
  dirs : Directories dirs m
  decodes : Decodes m n

section
variable {m : Phys} {n : Machine} {dirs : Set Frame} {d f pd : Frame} {rest : List Frame} {i w q v page : Nat}

theorem Directories.here (h : Directories dirs m) : SelfMapped m m.cr3 := h.self _ h.cr3

/-- Either no external directory is loaded or one of the directories. -/
theorem Directories.loaded (h : Directories dirs m) : m.word m.cr3 1022 = 0 ∨ ∃ pd ∈ dirs, Loaded m pd := by
  obtain ⟨x, hx, hw⟩ := (h.slots _ h.cr3 1022 (by decide)).exdir rfl
  obtain rfl | hx := hx
  · exact Or.inl hw
  · have hne : x ≠ 0 := fun h0 => h.nonzero (h0 ▸ hx)
    refine Or.inr ⟨x, hx, ?_, ?_, h.here, h.self x hx⟩
    · rw [hw, exdirWord_addrOf hne]
      exact (present_addrOf_or x (by decide)).mpr rfl
    · rw [hw, exdirWord_addrOf hne]
      exact frameOf_addrOf_or x (by decide)

theorem Directories.table (h : Directories dirs m) (hd : d ∈ dirs) (hi : i < 1022) (hp : Present (m.word d i)) :
    frameOf (m.word d i) ∉ dirs :=
  ((h.slots d hd i (by omega)).table hi hp).1

theorem Directories.setWord (h : Directories dirs m) (hs : f ∈ dirs → SlotFits dirs m.free i w) :
    Directories dirs (m.setWord f i w) where
  cr3 := h.cr3
  kernelPd := h.kernelPd
  nonzero := h.nonzero
  self d hd := by
    have hword : (m.setWord f i w).word d 1023 = m.word d 1023 := by
      rw [setWord_word]
      refine if_neg ?_
      rintro ⟨rfl, hi⟩
      exact (hs hd).ne hi.symm
    unfold SelfMapped
    rw [hword]
    exact h.self d hd
  slots d hd j hj := by
    rw [setWord_word]
    split_ifs with hc
    · obtain ⟨rfl, rfl⟩ := hc
      exact hs hd
    · exact h.slots d hd j hj
  nodup := h.nodup
  free := h.free

theorem Directories.zeroed (h : Directories dirs m) (hf : f ∉ dirs) : Directories dirs (m.zeroed f 1024) where
  cr3 := h.cr3
  kernelPd := h.kernelPd
  nonzero := h.nonzero
  self d hd := by
    have hne : d ≠ f := fun hc => hf (hc ▸ hd)
    unfold SelfMapped
    rw [zeroed_word hne]
    exact h.self d hd
  slots d hd j hj := by
    have hne : d ≠ f := fun hc => hf (hc ▸ hd)
    rw [zeroed_word hne]
    exact h.slots d hd j hj
  nodup := h.nodup
  free := h.free

theorem Directories.pop (h : Directories dirs m) (hf : m.free = f :: rest) : Directories dirs { m with free := rest } where
  cr3 := h.cr3
  kernelPd := h.kernelPd
  nonzero := h.nonzero
  self := h.self
  slots d hd j hj := by
    have hfit := h.slots d hd j hj
    refine ⟨hfit.ne, hfit.exdir, fun hi hp => ?_⟩
    obtain ⟨hdirs, hfree⟩ := hfit.table hi hp
    exact ⟨hdirs, fun hr => hfree (hf ▸ List.mem_cons_of_mem f hr)⟩
  nodup := (List.nodup_cons.mp (hf ▸ h.nodup)).2
  free g hg := h.free g (hf ▸ List.mem_cons_of_mem f hg)

/-- A frame that was just handed out can be the table of a slot. -/
theorem Directories.fresh (h : Directories dirs m) (hf : m.free = f :: rest) (hi : i < 1022) :
    SlotFits dirs rest i (addrOf f ||| pageFlagMask v) := by
  refine ⟨by omega, fun hc => by omega, fun _ _ => ?_⟩
  rw [frameOf_addrOf_or f (pageFlagMask_lt v)]
  exact ⟨h.free f (hf ▸ List.mem_cons_self), (List.nodup_cons.mp (hf ▸ h.nodup)).1⟩

-- ---------------------------------------------------------------------------
-- Loads, stores and clearing
-- ---------------------------------------------------------------------------

theorem Tracks.setWord (h : Tracks dirs m n) (hs : f ∈ dirs → SlotFits dirs m.free i w) :
    Tracks dirs (m.setWord f i w) (n.setTable f i (entryOf w)) := by
  refine ⟨h.dirs.setWord hs, h.decodes.cr3, h.decodes.kernelPd, h.decodes.vmmRunning, h.decodes.free, fun g j hj => ?_⟩
  rw [setWord_word, Machine.setTable_table]
  split
  · rfl
  · exact h.decodes.table g j hj

theorem Tracks.zeroed (h : Tracks dirs m n) (hf : f ∉ dirs) :
    Tracks dirs (m.zeroed f 1024) { n with table := Function.update n.table f fun _ => Entry.zero } := by
  refine ⟨h.dirs.zeroed hf, h.decodes.cr3, h.decodes.kernelPd, h.decodes.vmmRunning, h.decodes.free, fun g j hj => ?_⟩
  by_cases hg : g = f
  · subst hg
    have hz : (m.zeroed g 1024).word g j = 0 := if_pos ⟨rfl, hj⟩
    rw [hz]
    exact congrFun (Function.update_self g _ n.table) j
  · rw [zeroed_word hg]
    exact (congrFun (Function.update_of_ne hg _ n.table) j).trans (h.decodes.table g j hj)

theorem Tracks.pop (h : Tracks dirs m n) (hf : m.free = f :: rest) :
    Tracks dirs { m with free := rest } { n with free := rest } :=
  ⟨h.dirs.pop hf, h.decodes.cr3, h.decodes.kernelPd, h.decodes.vmmRunning, rfl, h.decodes.table⟩

theorem Tracks.exdir (h : Tracks dirs m n) : n.exdir = entryOf (m.word m.cr3 1022) := by
  rw [Machine.exdir, h.decodes.cr3]
  exact h.decodes.table _ _ (by decide)

theorem Tracks.pageDirectory (h : Tracks dirs m n) (hi : i < 1024) : n.pageDirectory i = entryOf (m.word m.cr3 i) := by
  rw [Machine.pageDirectory, h.decodes.cr3]
  exact h.decodes.table _ _ hi

theorem Tracks.expageDirectory (h : Tracks dirs m n) (hl : Loaded m pd) (hi : i < 1024) :
    n.expageDirectory i = entryOf (m.word pd i) := by
  rw [Machine.expageDirectory, h.exdir, entryOf_frame, hl.frame]
  exact h.decodes.table pd i hi

theorem Tracks.setPageDirectory (h : Tracks dirs m n) (hs : SlotFits dirs m.free i w) :
    Tracks dirs (m.setWord m.cr3 i w) (n.setPageDirectory i (entryOf w)) := by
  rw [Machine.setPageDirectory, h.decodes.cr3]
  exact h.setWord fun _ => hs

theorem Tracks.setExpageDirectory (h : Tracks dirs m n) (hl : Loaded m pd) (hs : SlotFits dirs m.free i w) :
    Tracks dirs (m.setWord pd i w) (n.setExpageDirectory i (entryOf w)) := by
  rw [Machine.setExpageDirectory, h.exdir, entryOf_frame, hl.frame]
  exact h.setWord fun _ => hs

theorem translate_fault (h : m.entryAt m.cr3 q = none) : m.translate q = .error .fault := by
  rw [translate, h]

/-- The first store faults. -/
theorem clear_fault (h : m.translate q = .error .fault) : m.clear q = .error .fault := by
  suffices hn : ∀ k, (List.range (k + 1)).foldlM (fun m i => m.store (q + 4 * i) 0) m = .error .fault from hn 1023
  intro k
  rw [List.range_succ_eq_map, List.foldlM_cons, Nat.mul_zero, Nat.add_zero, store, h]
  rfl

theorem slot_lt (hq : q < vmmExpageTables) : dirIdx q < 1022 := by
  have : q < 0xFF800000 := hq
  unfold dirIdx
  omega

/-- From `m` to `m'` the directories stay as they are. -/
structure KeepsDirs (dirs : Set Frame) (m m' : Phys) : Prop where
  cr3 : m'.cr3 = m.cr3
  word : ∀ d ∈ dirs, m'.word d = m.word d

theorem Tracks.clearTable (h : Tracks dirs m n) (hf : Present w → frameOf w ∉ dirs)
    (hclear : Present w → m.clear q = .ok (m.zeroed (frameOf w) 1024))
    (hfault : ¬Present w → m.translate q = .error .fault) :
    Alike (fun m' n' => Tracks dirs m' n' ∧ Present w ∧ KeepsDirs dirs m m') (m.clear q) (n.clearTable (entryOf w)) := by
  rw [Machine.clearTable]
  by_cases hp : Present w
  · rw [hclear hp, if_pos (entryOf_present.mpr hp)]
    exact .ok ⟨h.zeroed (hf hp), hp, rfl, fun d hd => zeroed_word fun hc => hf hp (hc ▸ hd)⟩
  · rw [clear_fault (hfault hp), if_neg (mt entryOf_present.mp hp)]
    exact .error

theorem Tracks.clear_pageTables (h : Tracks dirs m n) (hq : q < vmmExpageTables) :
    Alike (fun m' n' => Tracks dirs m' n' ∧ Present (m.word m.cr3 (dirIdx q)) ∧ KeepsDirs dirs m m')
      (m.clear (pageMask (pageTables (vmmTableIdx q)))) (n.clearTable (n.pageDirectory (dirIdx q))) := by
  have hi := slot_lt hq
  have hq' : q < 2 ^ 32 := hq.trans (by decide)
  rw [h.pageDirectory (hi.trans (by decide))]
  refine h.clearTable (h.dirs.table h.dirs.cr3 hi) (fun hp => ?_) fun hp => translate_fault ?_
  · exact Phys.clear_pageTables h.dirs.here hq' hp rfl fun hc => h.dirs.table h.dirs.cr3 hi hp (hc ▸ h.dirs.cr3)
  · obtain ⟨hself, hframe⟩ := h.dirs.here
    rw [entryAt, dirIdx_pageMask, tableIdx_pageMask, dirIdx_pageTables hq', tableIdx_pageTables hq', if_pos hself, hframe,
      if_neg hp]

theorem Tracks.clear_expageTables (h : Tracks dirs m n) (hl : Loaded m pd) (hd : pd ∈ dirs) (hq : q < vmmExpageTables) :
    Alike (fun m' n' => Tracks dirs m' n' ∧ Present (m.word pd (dirIdx q)) ∧ KeepsDirs dirs m m')
      (m.clear (pageMask (expageTables (vmmTableIdx q)))) (n.clearTable (n.expageDirectory (dirIdx q))) := by
  have hi := slot_lt hq
  have hq' : q < 2 ^ 32 := hq.trans (by decide)
  rw [h.expageDirectory hl (hi.trans (by decide))]
  refine h.clearTable (h.dirs.table hd hi) (fun hp => ?_) fun hp => translate_fault ?_
  · have htable := h.dirs.table hd hi hp
    exact Phys.clear_expageTables hl hq' hp rfl (fun hc => htable (hc ▸ h.dirs.cr3)) fun hc => htable (hc ▸ hd)
  · rw [entryAt, dirIdx_pageMask, tableIdx_pageMask, dirIdx_expageTables hq', tableIdx_expageTables hq', if_pos hl.present,
      hl.frame, if_neg hp]

-- ---------------------------------------------------------------------------
-- The functions of the virtual memory manager
-- ---------------------------------------------------------------------------

theorem Tracks.pdSet (h : Tracks dirs m n) (hd : d ∈ dirs) : Tracks dirs { m with cr3 := d } { n with cr3 := d } where
  dirs := { h.dirs with cr3 := hd }
  decodes := { h.decodes with cr3 := rfl }

theorem Tracks.exdirSet (h : Tracks dirs m n) (hpd : pd = 0 ∨ pd ∈ dirs) :
    Tracks dirs (m.setWord m.cr3 1022 (exdirWord (addrOf pd))) (Os5.vmmExdirSet n pd).2 := by
  have hset := h.setPageDirectory (i := 1022) ⟨by decide, fun _ => ⟨pd, hpd, rfl⟩, fun hc => absurd hc (by decide)⟩
  rwa [entryOf_exdirWord] at hset

theorem Tracks.vmmExdirSet_eq (h : Tracks dirs m n) (pd : Frame) :
    Phys.vmmExdirSet m (addrOf pd) =
      .ok (addrOf (Os5.vmmExdirSet n pd).1, m.setWord m.cr3 1022 (exdirWord (addrOf pd))) := by
  rw [Phys.vmmExdirSet_eq h.dirs.here, pageMask_word]
  simp only [Os5.vmmExdirSet, h.exdir, entryOf_frame]

/-- The directory that is given back was one or none. -/
theorem Tracks.exdir_mem (h : Tracks dirs m n) (pd : Frame) :
    (Os5.vmmExdirSet n pd).1 = 0 ∨ (Os5.vmmExdirSet n pd).1 ∈ dirs := by
  simp only [Os5.vmmExdirSet, h.exdir, entryOf_frame]
  obtain hz | ⟨x, hx, hl⟩ := h.dirs.loaded
  · rw [hz]
    exact Or.inl rfl
  · rw [hl.frame]
    exact Or.inr hx

/-- The master directory is loaded, as `vmm_page_touch` and the page fault handler begin. -/
theorem Tracks.master (h : Tracks dirs m n) : ∃ m',
    Phys.vmmExdirSet m (addrOf m.kernelPd) = .ok (addrOf (Os5.vmmExdirSet n n.kernelPd).1, m') ∧
      Tracks dirs m' (Os5.vmmExdirSet n n.kernelPd).2 ∧ Loaded m' m.kernelPd ∧
      ((Os5.vmmExdirSet n n.kernelPd).1 = 0 ∨ (Os5.vmmExdirSet n n.kernelPd).1 ∈ dirs) := by
  have hne : m.kernelPd ≠ 0 := fun hz => h.dirs.nonzero (hz ▸ h.dirs.kernelPd)
  rw [h.decodes.kernelPd]
  exact ⟨_, h.vmmExdirSet_eq _, h.exdirSet (Or.inr h.dirs.kernelPd),
    loaded_exdirSet hne h.dirs.here (h.dirs.self _ h.dirs.kernelPd), h.exdir_mem _⟩

theorem Tracks.exdir_eq_zero (h : Tracks dirs m n) : n.exdir = Entry.zero ↔ m.word m.cr3 1022 = 0 := by
  rw [h.exdir]
  obtain hz | ⟨pd, -, hl⟩ := h.dirs.loaded
  · rw [hz]
    exact iff_of_true rfl rfl
  · exact iff_of_false (entryOf_ne_zero hl.present) hl.load_ne

/-- The directory `d` has a table in slot `i`; where the windows show directories has not changed. -/
structure Touched (dirs : Set Frame) (d : Frame) (i : Nat) (m m' : Phys) (n' : Machine) : Prop where
  tracks : Tracks dirs m' n'
  cr3 : m'.cr3 = m.cr3
  exdir : m'.word m.cr3 1022 = m.word m.cr3 1022
  present : Present (m'.word d i)

theorem Loaded.kept {m' : Phys} (h : Loaded m pd) (hd : pd ∈ dirs) (h' : Directories dirs m') (hcr3 : m'.cr3 = m.cr3)
    (hword : m'.word m.cr3 1022 = m.word m.cr3 1022) : Loaded m' pd := by
  refine ⟨?_, ?_, h'.here, h'.self pd hd⟩ <;> rw [hcr3, hword]
  · exact h.present
  · exact h.frame

theorem Tracks.vmmExpageTouch (h : Tracks dirs m n) (hl : Loaded m pd) (hd : pd ∈ dirs) (hpage : page < vmmExpageTables) :
    Alike (Touched dirs pd (dirIdx page) m) (Phys.vmmExpageTouch m page (pageFlagMask v))
      (Os5.vmmExpageTouch n page (entryOf v).toPageFlags) := by
  have hi := slot_lt hpage
  simp only [Phys.vmmExpageTouch, Os5.vmmExpageTouch, load_exdir h.dirs.here, dirIdx_pageMask, pageFlagMask_pageFlagMask,
    h.exdir_eq_zero, if_neg hl.load_ne, load_eq (translate_expageDirectory hl (hi.trans (by decide))),
    h.expageDirectory hl (hi.trans (by decide)), entryOf_present, Bind.bind, Except.bind, pure, Except.pure]
  by_cases hp : Present (m.word pd (dirIdx page))
  · rw [if_pos hp, if_pos hp]
    exact .ok ⟨h, rfl, rfl, hp⟩
  rw [if_neg hp, if_neg hp]
  cases hf : m.free with
  | nil =>
    rw [Phys.pmmAllocPage, Os5.pmmAllocPage, h.decodes.free, hf]
    exact .error
  | cons f rest =>
    have hpop : Loaded { m with free := rest } pd := ⟨hl.present, hl.frame, hl.here, hl.there⟩
    have hstore := store_eq (w := addrOf f ||| pageFlagMask v) (translate_expageDirectory hpop (hi.trans (by decide)))
    have hset := (h.pop hf).setExpageDirectory hpop (h.dirs.fresh (v := v) hf hi)
    have hclear := hset.clear_expageTables (hpop.setWord hi) hd ((pageMask_le page).trans_lt hpage)
    rw [entryOf_addrOf_or, dirIdx_pageMask] at hclear
    simp only [Phys.pmmAllocPage, Os5.pmmAllocPage, h.decodes.free, hf, hstore]
    refine hclear.mono ?_
    rintro m' n' ⟨htracks, hp', hcr3, hword⟩
    refine ⟨htracks, hcr3, ?_, ?_⟩
    · rw [hword _ h.dirs.cr3, setWord_word, if_neg fun hc => by omega]
    · rw [hword _ hd]
      exact hp'

theorem Tracks.vmmExpageSet (h : Tracks dirs m n) (hpage : page < vmmExpageTables) :
    Alike (Tracks dirs) (Phys.vmmExpageSet m page v) (Os5.vmmExpageSet n page (entryOf v)) := by
  have hmask := (pageMask_le page).trans_lt hpage
  have hq : pageMask page < 2 ^ 32 := hmask.trans (by decide)
  obtain hz | ⟨pd, hd, hl⟩ := h.dirs.loaded
  · have hfault : m.translate (expageTables (vmmTableIdx (pageMask page))) = .error .fault := by
      refine translate_fault ?_
      rw [entryAt, dirIdx_expageTables hq, hz]
      rfl
    simp only [Phys.vmmExpageSet, Os5.vmmExpageSet, Phys.vmmExpageTouch, Os5.vmmExpageTouch, load_exdir h.dirs.here,
      h.exdir_eq_zero, hz, if_true, store, hfault, Bind.bind, Except.bind, pure, Except.pure]
    exact .error
  · refine (h.vmmExpageTouch (v := v) hl hd hmask).bind ?_
    intro m' n' ht
    have hl' := hl.kept hd ht.tracks.dirs ht.cr3 ht.exdir
    have hdir := ht.tracks.expageDirectory hl' ((slot_lt hmask).trans (by decide))
    rw [store_eq (translate_expageTables hl' hq ht.present)]
    simp only [ht.tracks.exdir_eq_zero, if_neg hl'.load_ne, hdir, entryOf_frame, tableIdx_pageMask, Bind.bind, Except.bind,
      pure, Except.pure]
    exact .ok (ht.tracks.setWord fun hc => absurd hc (ht.tracks.dirs.table hd (slot_lt hmask) ht.present))

theorem Tracks.cleared (h : Tracks dirs m n) (hpage : page < vmmExpageTables) :
    Alike (fun m' n' => Tracks dirs m' n' ∧ Present (m'.word m'.cr3 (dirIdx page)))
      (m.clear (pageMask (pageTables (vmmTableIdx (pageMask page))))) (n.clearTable (n.pageDirectory (dirIdx page))) := by
  have hclear := h.clear_pageTables ((pageMask_le page).trans_lt hpage)
  rw [dirIdx_pageMask] at hclear
  refine hclear.mono ?_
  rintro m' n' ⟨htracks, hp, hcr3, hword⟩
  refine ⟨htracks, ?_⟩
  rw [hcr3, hword _ h.dirs.cr3]
  exact hp

/-- With the master directory loaded the slot of the current one has been set; the old external
directory is put back. -/
theorem Tracks.putBack (h : Tracks dirs m n) (hpage : page < vmmExpageTables) (hpd : pd = 0 ∨ pd ∈ dirs) :
    Alike (fun m' n' => Tracks dirs m' n' ∧ Present (m'.word m'.cr3 (dirIdx page)))
      (match Phys.vmmExdirSet m (addrOf pd) with
        | .error e => .error e
        | .ok x => x.2.clear (pageMask (pageTables (vmmTableIdx (pageMask page)))))
      ((Os5.vmmExdirSet n pd).2.clearTable ((Os5.vmmExdirSet n pd).2.pageDirectory (dirIdx page))) := by
  rw [h.vmmExdirSet_eq]
  exact (h.exdirSet hpd).cleared hpage

theorem Tracks.vmmPageTouch (h : Tracks dirs m n) (hpage : page < vmmExpageTables) :
    Alike (fun m' n' => Tracks dirs m' n' ∧ Present (m'.word m'.cr3 (dirIdx page))) (Phys.vmmPageTouch m page (pageFlagMask v))
      (Os5.vmmPageTouch n page (entryOf v).toPageFlags) := by
  have hi := slot_lt hpage
  have hi' := hi.trans (show 1022 < 1024 by decide)
  simp only [Phys.vmmPageTouch, Os5.vmmPageTouch, load_eq (translate_pageDirectory h.dirs.here hi'),
    dirIdx_pageMask, pageFlagMask_pageFlagMask, h.pageDirectory hi', entryOf_present, h.decodes.vmmRunning, Bind.bind,
    Except.bind, pure, Except.pure]
  by_cases hp : Present (m.word m.cr3 (dirIdx page))
  · simp only [if_pos hp]
    exact .ok ⟨h, hp⟩
  simp only [if_neg hp]
  by_cases hk : kernelOffset ≤ pageMask page ∧ m.vmmRunning = true
  · obtain ⟨m1, hmaster, h1, hl, hold⟩ := h.master
    simp only [if_pos hk, touchKernel, hmaster, dirIdx_pageMask, load_eq (translate_expageDirectory hl hi'),
      h1.expageDirectory hl hi', entryOf_present, Bind.bind, Except.bind, pure, Except.pure]
    generalize (Os5.vmmExdirSet n n.kernelPd).1 = old at hold ⊢
    generalize (Os5.vmmExdirSet n n.kernelPd).2 = n1 at h1 ⊢
    by_cases hp1 : Present (m1.word m.kernelPd (dirIdx page))
    · have hfits := h1.dirs.slots _ h.dirs.kernelPd (dirIdx page) (by omega)
      have hback := (h1.setPageDirectory hfits).putBack hpage hold
      simp only [if_pos hp1, store_eq (translate_pageDirectory h1.dirs.here hi'), (h1.setPageDirectory hfits).vmmExdirSet_eq]
        at hback ⊢
      exact hback
    simp only [if_neg hp1]
    cases hf : m1.free with
    | nil =>
      rw [Phys.pmmAllocPage, Os5.pmmAllocPage, h1.decodes.free, hf]
      exact .error
    | cons f rest =>
      have hpop := h1.pop hf
      have hset := hpop.setPageDirectory (h1.dirs.fresh (v := v) hf hi)
      have hstore := store_eq (w := addrOf f ||| pageFlagMask v) (translate_pageDirectory hpop.dirs.here hi')
      have hl2 := hl.kept h.dirs.kernelPd hset.dirs rfl (by rw [setWord_word, if_neg fun hc => by omega])
      rw [entryOf_addrOf_or] at hset
      simp only [Phys.pmmAllocPage, Os5.pmmAllocPage, h1.decodes.free, hf, hstore]
      generalize Machine.setPageDirectory _ _ _ = n2 at hset ⊢
      generalize Phys.setWord _ _ _ _ = m2 at hset hl2 ⊢
      have hboth := hset.setExpageDirectory hl2 (hset.dirs.slots _ hset.dirs.cr3 (dirIdx page) (by omega))
      have hback := hboth.putBack hpage hold
      simp only [load_eq (translate_pageDirectory hset.dirs.here hi'), store_eq (translate_expageDirectory hl2 hi'),
        hset.pageDirectory hi', hboth.vmmExdirSet_eq] at hback ⊢
      exact hback
  · simp only [if_neg hk, touchUser, dirIdx_pageMask]
    cases hf : m.free with
    | nil =>
      rw [Phys.pmmAllocPage, Os5.pmmAllocPage, h.decodes.free, hf]
      exact .error
    | cons f rest =>
      have hset := (h.pop hf).setPageDirectory (h.dirs.fresh (v := v) hf hi)
      have hstore := store_eq (w := addrOf f ||| pageFlagMask v) (translate_pageDirectory (h.pop hf).dirs.here hi')
      have hclear := hset.cleared hpage
      rw [entryOf_addrOf_or] at hclear
      simp only [Phys.pmmAllocPage, Os5.pmmAllocPage, h.decodes.free, hf, hstore, Bind.bind, Except.bind]
      exact hclear

theorem Tracks.vmmPageSet (h : Tracks dirs m n) (hpage : page < vmmExpageTables) :
    Alike (Tracks dirs) (Phys.vmmPageSet m page v) (Os5.vmmPageSet n page (entryOf v)) := by
  have hmask := (pageMask_le page).trans_lt hpage
  refine (h.vmmPageTouch (v := v) hmask).bind ?_
  rintro m' n' ⟨ht, hp⟩
  have hi := slot_lt hmask
  rw [store_eq (translate_pageTables ht.dirs.here (hmask.trans (by decide)) hp),
    ht.pageDirectory (hi.trans (by decide)), entryOf_frame, tableIdx_pageMask]
  exact .ok (ht.setWord fun hc => absurd hc (ht.dirs.table ht.dirs.cr3 hi hp))

theorem Tracks.vmmPageGet (h : Tracks dirs m n) (hq : q < 2 ^ 32) :
    ∃ w, Phys.vmmPageGet m q = .ok w ∧ Os5.vmmPageGet n q = entryOf w := by
  have hmask := (pageMask_le q).trans_lt hq
  have hi : dirIdx q < 1024 := by
    unfold dirIdx
    omega
  simp only [Phys.vmmPageGet, Os5.vmmPageGet, dirIdx_pageMask, tableIdx_pageMask, h.pageDirectory hi, entryOf_present,
    entryOf_frame, load_eq (translate_pageDirectory h.dirs.here hi), Bind.bind, Except.bind, pure, Except.pure]
  by_cases hp : Present (m.word m.cr3 (dirIdx q))
  · have hload := load_eq (translate_pageTables h.dirs.here hmask (by rwa [dirIdx_pageMask]))
    rw [dirIdx_pageMask, tableIdx_pageMask] at hload
    simp only [if_pos hp, hload, h.decodes.table _ _ (tableIdx_lt q), entryOf_present]
    split_ifs
    · exact ⟨_, rfl, rfl⟩
    · exact ⟨0, rfl, rfl⟩
  · rw [if_neg hp, if_neg hp]
    exact ⟨0, rfl, rfl⟩

theorem Tracks.vmmExpageGet (h : Tracks dirs m n) (hq : q < 2 ^ 32) :
    ∃ w, Phys.vmmExpageGet m q = .ok w ∧ Os5.vmmExpageGet n q = entryOf w := by
  obtain hz | ⟨pd, -, hl⟩ := h.dirs.loaded
  · refine ⟨0, ?_, ?_⟩
    · simp only [Phys.vmmExpageGet, load_exdir h.dirs.here, hz, if_true, Bind.bind, Except.bind, pure, Except.pure]
    · rw [Os5.vmmExpageGet, if_pos (h.exdir_eq_zero.mpr hz)]
      rfl
  refine ⟨_, vmmExpageGet_eq hl hq, ?_⟩
  have hi : dirIdx q < 1024 := by
    unfold dirIdx
    omega
  simp only [Os5.vmmExpageGet, if_neg (mt h.exdir_eq_zero.mp hl.load_ne), dirIdx_pageMask, tableIdx_pageMask,
    h.expageDirectory hl hi, entryOf_present, entryOf_frame, h.decodes.table _ _ (tableIdx_lt q), entryAt]
  by_cases hp : Present (m.word pd (dirIdx q))
  · rw [if_pos hp, if_pos hp]
    split <;> rfl
  · rw [if_neg hp, if_neg hp]
    rfl

theorem Tracks.kernelPageFault (h : Tracks dirs m n) (hpage : page < vmmExpageTables) :
    Alike (Tracks dirs) (Phys.kernelPageFault m page) (Os5.kernelPageFault n page) := by
  have hi := slot_lt hpage
  have hi' := hi.trans (show 1022 < 1024 by decide)
  obtain ⟨m1, hmaster, h1, hl, hold⟩ := h.master
  simp only [Phys.kernelPageFault, Os5.kernelPageFault, Phys.vmmExtableGet, Os5.vmmExtableGet, Phys.vmmTableSet,
    Os5.vmmTableSet, hmaster, dirIdx_pageMask, load_eq (translate_expageDirectory hl hi'),
    h1.expageDirectory hl hi', entryOf_present, Bind.bind, Except.bind, pure, Except.pure]
  by_cases hp : Present (m1.word m.kernelPd (dirIdx page))
  · have hset := h1.setPageDirectory (h1.dirs.slots _ h.dirs.kernelPd (dirIdx page) (by omega))
    simp only [if_pos hp, if_neg (not_not.mpr hp), entryOf_present, store_eq (translate_pageDirectory h1.dirs.here hi'),
      hset.vmmExdirSet_eq]
    exact .ok (hset.exdirSet hold)
  · simp only [if_neg hp]
    exact .error

-- ---------------------------------------------------------------------------
-- Runs
-- ---------------------------------------------------------------------------

end

/-- A call, or a page fault of kernel code; directories go by their frames. -/
inductive VmmCall
  | pdSet (pd : Frame)
  | exdirSet (pd : Frame)
  | pageGet (page : Nat)
  | pageSet (page value : Nat)
  | expageGet (page : Nat)
  | expageSet (page value : Nat)
  | pageFault (address : Nat)

inductive VmmAnswer
  | nothing
  | directory (pd : Frame)
  | entry (e : Entry)
  deriving DecidableEq

/-- The pages whose tables are not the windows, and the directories there are. -/
def VmmCall.Within (dirs : Set Frame) : VmmCall → Prop
  | .pdSet pd => pd ∈ dirs
  | .exdirSet pd => pd = 0 ∨ pd ∈ dirs
  | .pageGet page | .expageGet page => page < 2 ^ 32
  | .pageSet page _ | .expageSet page _ => page < vmmExpageTables
  | .pageFault address => kernelOffset ≤ address ∧ address < vmmExpageTables

def call (m : Phys) : VmmCall → Except Stop (VmmAnswer × Phys)
  | .pdSet pd => return (.nothing, m.vmmPdSet (addrOf pd))
  | .exdirSet pd => do
    let (old, m) ← m.vmmExdirSet (addrOf pd)
    return (.directory (frameOf old), m)
  | .pageGet page => return (.entry (entryOf (← m.vmmPageGet page)), m)
  | .pageSet page value => return (.nothing, ← m.vmmPageSet page value)
  | .expageGet page => return (.entry (entryOf (← m.vmmExpageGet page)), m)
  | .expageSet page value => return (.nothing, ← m.vmmExpageSet page value)
  | .pageFault address => return (.nothing, ← m.kernelPageFault address)

/-- The same call of the entry-level functions. -/
def entryCall (n : Machine) : VmmCall → Except Stop (VmmAnswer × Machine)
  | .pdSet pd => return (.nothing, { n with cr3 := pd })
  | .exdirSet pd => return (.directory (Os5.vmmExdirSet n pd).1, (Os5.vmmExdirSet n pd).2)
  | .pageGet page => return (.entry (Os5.vmmPageGet n page), n)
  | .pageSet page value => return (.nothing, ← Os5.vmmPageSet n page (entryOf value))
  | .expageGet page => return (.entry (Os5.vmmExpageGet n page), n)
  | .expageSet page value => return (.nothing, ← Os5.vmmExpageSet n page (entryOf value))
  | .pageFault address => return (.nothing, ← Os5.kernelPageFault n address)

/-- The answers of a list of calls, up to the one that stops if one does. -/
def runCalls {σ : Type} (call : σ → VmmCall → Except Stop (VmmAnswer × σ)) : σ → List VmmCall →
    List VmmAnswer × Except Stop σ
  | s, [] => ([], .ok s)
  | s, c :: cs =>
    match call s c with
    | .error e => ([], .error e)
    | .ok (a, s) =>
      let (answers, s) := runCalls call s cs
      (a :: answers, s)

section
variable {m : Phys} {n : Machine} {dirs : Set Frame} {c : VmmCall} {cs : List VmmCall}

theorem Tracks.call (h : Tracks dirs m n) (hc : c.Within dirs) :
    Alike (fun x y => x.1 = y.1 ∧ Tracks dirs x.2 y.2) (m.call c) (entryCall n c) := by
  cases c with
  | pdSet pd =>
    refine .ok ⟨rfl, ?_⟩
    rw [vmmPdSet, frameOf_addrOf]
    exact h.pdSet hc
  | exdirSet pd =>
    simp only [Phys.call, entryCall, h.vmmExdirSet_eq, frameOf_addrOf, Bind.bind, Except.bind, pure, Except.pure]
    exact .ok ⟨rfl, h.exdirSet hc⟩
  | pageGet page =>
    obtain ⟨w, hw, hn⟩ := h.vmmPageGet hc
    simp only [Phys.call, entryCall, hw, hn, Bind.bind, Except.bind, pure, Except.pure]
    exact .ok ⟨rfl, h⟩
  | pageSet page value => exact (h.vmmPageSet hc).bind fun _ _ ht => .ok ⟨rfl, ht⟩
  | expageGet page =>
    obtain ⟨w, hw, hn⟩ := h.vmmExpageGet hc
    simp only [Phys.call, entryCall, hw, hn, Bind.bind, Except.bind, pure, Except.pure]
    exact .ok ⟨rfl, h⟩
  | expageSet page value => exact (h.vmmExpageSet hc).bind fun _ _ ht => .ok ⟨rfl, ht⟩
  | pageFault address => exact (h.kernelPageFault hc.2).bind fun _ _ ht => .ok ⟨rfl, ht⟩

/-- Whatever is called, the functions on entries give the answers that the loads and stores through the
windows give, and stop where those stop. -/
theorem calls_alike (h : Tracks dirs m n) (hcs : ∀ c ∈ cs, c.Within dirs) :
    (runCalls call m cs).1 = (runCalls entryCall n cs).1 ∧
      Alike (Tracks dirs) (runCalls call m cs).2 (runCalls entryCall n cs).2 := by
  induction cs generalizing m n with
  | nil => exact ⟨rfl, .ok h⟩
  | cons c cs ih =>
    rw [List.forall_mem_cons] at hcs
    have hcall := h.call hcs.1
    simp only [runCalls]
    generalize m.call c = x at hcall ⊢
    generalize entryCall n c = y at hcall ⊢
    cases hcall with
    | error => exact ⟨rfl, .error⟩
    | ok hxy =>
      obtain ⟨hanswer, ht⟩ := hxy
      obtain ⟨hanswers, halike⟩ := ih ht hcs.2
      exact ⟨congrArg₂ List.cons hanswer hanswers, halike⟩

end

def twoEntries : Machine where
  cr3 := 1
  kernelPd := 1
  vmmRunning := true
  table := fun f i => entryOf (twoDirectories.word f i)
  byte := fun _ _ => 0
  free := [3]

theorem twoDirectories_tracks : Tracks {1, 2} twoDirectories twoEntries where
  dirs :=
    { cr3 := Or.inl rfl
      kernelPd := Or.inl rfl
      nonzero := by decide
      self := by
        rintro d (rfl | rfl)
        · exact ⟨by decide, by decide⟩
        · exact ⟨by decide, by decide⟩
      slots := by
        intro d hd i hi
        have hz : twoDirectories.word d i = 0 := by
          simp only [twoDirectories]
          grind
        rw [hz]
        exact ⟨by omega, fun _ => ⟨0, Or.inl rfl, rfl⟩, fun _ hp => absurd hp (by decide)⟩
      nodup := by decide
      free := by
        rintro f (_ | ⟨_, hf⟩)
        · rintro (h | h) <;> cases h
        · cases hf }
  decodes := ⟨rfl, rfl, rfl, rfl, fun _ _ _ => rfl⟩

/-- A page of the second directory is set from the first one, and read there; there is no frame left for
the table of a page of the kernel. -/
def someCalls : List VmmCall :=
  [.exdirSet 2, .expageSet 0 0x7007, .expageGet 0, .pageGet 0, .exdirSet 0, .pdSet 2, .pageGet 0x123,
    .pageSet 0xC0000000 0x8003, .pageGet 0]

theorem calls_alike_someCalls : (runCalls call twoDirectories someCalls).1 =
    [.directory 0, .nothing, .entry ⟨⟨true, true, true⟩, 7⟩, .entry Entry.zero, .directory 2, .nothing,
      .entry ⟨⟨true, true, true⟩, 7⟩] := by
  refine (calls_alike twoDirectories_tracks ?_).1.trans ?_
  · simp [someCalls, VmmCall.Within, vmmExpageTables]
  · decide +kernel

end Os5.Phys
