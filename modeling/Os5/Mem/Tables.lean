import Os5.Mem.Layout
import Os5.Mem.Spaces

/-!
# Entries for pages whose table may be missing

`vmm_page_set` and `vmm_expage_set` make the table of a page if the directory has
none. Whether or not they do, what is mapped at the page is then the new entry,
and elsewhere it is what was mapped before; a table once there keeps its entry.
-/

namespace Os5

open Machine Outcome

/-- What is mapped at an address, with nothing in a table that is missing. -/
def Machine.leaf (m : Machine) (d : Frame) (x : Nat) : Entry :=
  if (m.pde d x).present then m.pte d x else Entry.zero

/-- Slot `i` of directory `d` gets the frame `f` as its table, with nothing in it. -/
def Machine.freshTable (m : Machine) (d : Frame) (i : Nat) (flags : PageFlags) (f : Frame)
    (rest : List Frame) : Machine :=
  let m := { m with free := rest }.setTable d i ⟨flags, f⟩
  { m with table := Function.update m.table f fun _ => Entry.zero }

/-- From `m` to `m'` the entry `v` was set for page `x` of directory `d`. -/
structure Sets (dirs : Frame → Prop) (d : Frame) (x : Nat) (v : Entry) (m m' : Machine) : Prop where
  cr3 : m'.cr3 = m.cr3
  kernelPd : m'.kernelPd = m.kernelPd
  byte : m'.byte = m.byte
  spaces : Spaces m' dirs
  free : m'.free <:+ m.free
  kept : ∀ {e j}, dirs e → j < 768 → (m.table e j).present = true ∨ e ≠ d ∨ j ≠ dirIdx x →
    m'.table e j = m.table e j
  made : (m.pde d x).present = false → v.present = true ∧ (m'.pde d x).toPageFlags = v.toPageFlags
  leaf : ∀ {e y}, dirs e → y < kernelOffset →
    m'.leaf e y = if e = d ∧ pageMask y = pageMask x then v else m.leaf e y

section
variable {dirs : Frame → Prop} {d e f : Frame} {m m' : Machine} {x y i j : Nat} {v : Entry} {flags : PageFlags}
  {rest : List Frame}

theorem mapped_iff_leaf : m.mapped d x = true ↔ (m.leaf d x).present = true := by
  unfold Machine.mapped Machine.leaf
  split
  · next hp => simp [hp]
  · next hp => simp [hp, Entry.zero]

theorem leaf_present (hp : (m.pde d x).present = true) : m.leaf d x = m.pte d x := if_pos hp

theorem leaf_missing (hp : (m.pde d x).present = false) : m.leaf d x = Entry.zero := by
  rw [Machine.leaf, hp, if_neg Bool.false_ne_true]

-- ---------------------------------------------------------------------------
-- A new table
-- ---------------------------------------------------------------------------

theorem freshTable_dir (hs : Spaces m dirs) (hfree : m.free = f :: rest) (he : dirs e) :
    (m.freshTable d i flags f rest).table e j = if e = d ∧ j = i then ⟨flags, f⟩ else m.table e j := by
  have hne : e ≠ f := by
    rintro rfl
    exact hs.freeNotDir (by simp [hfree]) he
  unfold Machine.freshTable
  simp only [Function.update_of_ne hne]
  exact setTable_table _ _ _ _ _ _

theorem freshTable_new : (m.freshTable d i flags f rest).table f j = Entry.zero := by
  simp [Machine.freshTable]

theorem freshTable_other (h1 : e ≠ d) (h2 : e ≠ f) :
    (m.freshTable d i flags f rest).table e j = m.table e j := by
  unfold Machine.freshTable
  simp only [Function.update_of_ne h2]
  exact (setTable_table _ _ _ _ _ _).trans (if_neg fun h => h1 h.1)

theorem Spaces.freshTable (hs : Spaces m dirs) (d : Frame) (i : Nat) (flags : PageFlags)
    (hfree : m.free = f :: rest) :
    Spaces (m.freshTable d i flags f rest) dirs := by
  have hdir := @freshTable_dir dirs d
  have hsub : ∀ {g}, g ∈ (m.freshTable d i flags f rest).free → g ∈ m.free := fun hg =>
    hfree ▸ List.mem_cons_of_mem f hg
  have hf : f ∈ m.free := hfree ▸ List.mem_cons_self
  have hnodup := hfree ▸ hs.freeNodup
  refine ⟨hs.nonzero, ?_, ?_, fun hg => hs.freeNotDir (hsub hg), ?_, fun h0 => hs.freeNonzero (hsub h0),
    (List.nodup_cons.mp hnodup).2⟩
  · intro a b k ha hb hk hp
    rw [hdir hs hfree ha] at hp ⊢
    split at hp
    · next h =>
      rw [if_pos h]
      rintro rfl
      exact hs.freeNotDir hf hb
    · next h =>
      rw [if_neg h]
      exact hs.tableNotDir ha hb hk hp
  · intro a b k l ha hb hk hl hp hq heq
    rw [hdir hs hfree ha] at hp heq
    rw [hdir hs hfree hb] at hq heq
    split at hp
    · next h1 =>
      split at hq
      · next h2 => exact ⟨h1.1.trans h2.1.symm, h1.2.trans h2.2.symm⟩
      · next h2 =>
        rw [if_pos h1, if_neg h2] at heq
        exact absurd heq.symm (hs.freeNotTable hf hb hl hq)
    · next h1 =>
      split at hq
      · next h2 =>
        rw [if_neg h1, if_pos h2] at heq
        exact absurd heq (hs.freeNotTable hf ha hk hp)
      · next h2 =>
        rw [if_neg h1, if_neg h2] at heq
        exact hs.tableUnique ha hb hk hl hp hq heq
  · intro g a k hg ha hk hp
    rw [hdir hs hfree ha] at hp ⊢
    split at hp
    · next h =>
      rw [if_pos h]
      rintro rfl
      exact (List.nodup_cons.mp hnodup).1 hg
    · next h =>
      rw [if_neg h]
      exact hs.freeNotTable (hsub hg) ha hk hp

theorem freshTable_leaf (hs : Spaces m dirs) (hfree : m.free = f :: rest) (hd : dirs d)
    (hmissing : (m.table d i).present = false) (he : dirs e) (hy : y < kernelOffset) :
    (m.freshTable d i flags f rest).leaf e y = m.leaf e y := by
  have hpde : (m.freshTable d i flags f rest).pde e y =
      if e = d ∧ dirIdx y = i then ⟨flags, f⟩ else m.pde e y := freshTable_dir hs hfree he
  unfold Machine.leaf Machine.pte
  rw [hpde]
  split
  · next h =>
    obtain ⟨rfl, rfl⟩ := h
    have hold : (m.pde e y).present = false := hmissing
    rw [hold, if_neg Bool.false_ne_true]
    split
    · exact freshTable_new
    · rfl
  · split
    · next hp =>
      exact freshTable_other (hs.tableNotDir he hd (dirIdx_lt hy) hp)
        (hs.freeNotTable (hfree ▸ List.mem_cons_self) he (dirIdx_lt hy) hp)
    · rfl

-- ---------------------------------------------------------------------------
-- An entry
-- ---------------------------------------------------------------------------

theorem Sets.of_present (hs : Spaces m dirs) (hd : dirs d) (hx : x < kernelOffset)
    (hp : (m.pde d x).present = true) :
    Sets dirs d x v m (m.setTable (m.pde d x).frame (tableIdx x) v) := by
  have hr := hs.setPte hd hx hp v
  refine ⟨rfl, rfl, rfl, hs.remaps hr, List.suffix_rfl, fun he hj _ => hr.dir he hj, ?_, ?_⟩
  · intro hmissing
    rw [hp] at hmissing
    cases hmissing
  · intro e y he hy
    unfold Machine.leaf
    rw [hr.pde he hy]
    split
    · next hpy =>
      rw [hr.pte he hy hpy]
      by_cases hed : e = d <;> by_cases hpage : pageMask y = pageMask x <;> simp [hed, hpage]
    · next hpy =>
      rw [if_neg]
      rintro ⟨rfl, hpage⟩
      exact hpy (by rwa [Machine.pde, (samePage_iff.mp hpage).1])

theorem Sets.of_fresh (hs : Spaces m dirs) (hfree : m.free = f :: rest) (hd : dirs d) (hx : x < kernelOffset)
    (hmissing : (m.pde d x).present = false) (hv : v.present = true)
    (h : Sets dirs d x v (m.freshTable d (dirIdx x) v.toPageFlags f rest) m') : Sets dirs d x v m m' := by
  have hdir := @freshTable_dir dirs d
  refine ⟨h.cr3, h.kernelPd, h.byte, h.spaces, h.free.trans ⟨[f], hfree.symm⟩, ?_, ?_, ?_⟩
  · intro e j he hj hold
    have hne : ¬ (e = d ∧ j = dirIdx x) := by
      rintro ⟨rfl, rfl⟩
      rcases hold with hp | hne | hne
      · exact Bool.false_ne_true (hmissing.symm.trans hp)
      · exact hne rfl
      · exact hne rfl
    rw [h.kept he hj (.inr (not_and_or.mp hne)), hdir hs hfree he, if_neg hne]
  · intro _
    refine ⟨hv, ?_⟩
    have hnew : (m.freshTable d (dirIdx x) v.toPageFlags f rest).table d (dirIdx x) = ⟨v.toPageFlags, f⟩ :=
      (hdir hs hfree hd).trans (if_pos ⟨rfl, rfl⟩)
    rw [Machine.pde, h.kept hd (dirIdx_lt hx) (.inl (by rw [hnew]; exact hv)), hnew]
  · intro e y he hy
    rw [h.leaf he hy, freshTable_leaf hs hfree hd hmissing he hy]

theorem freshTable_loaded (flags : PageFlags) (hs : Spaces m dirs) (hc : dirs m.cr3) (hfree : m.free = f :: rest) (hi : i < 768)
    (hl : Loaded m d) : Loaded (m.freshTable d i flags f rest) d := by
  have hne : ¬ (m.cr3 = d ∧ exdirSlot = i) := fun h => by
    have := h.2
    unfold exdirSlot at this
    omega
  rw [Loaded, exdir, show (m.freshTable d i flags f rest).cr3 = m.cr3 from rfl, freshTable_dir hs hfree hc,
    if_neg hne]
  exact hl

theorem vmmExpageTouch_full (hl : Loaded m d) (hmissing : (m.pde d x).present = false)
    (hfree : m.free = []) : vmmExpageTouch m x flags = .error .outOfMemory := by
  have he : m.exdir.frame = d := by rw [hl]
  simp only [Machine.pde] at hmissing
  simp [vmmExpageTouch, hl.ne_zero, expageDirectory, he, dirIdx_pageMask, hmissing, pmmAllocPage, hfree, bind,
    Except.bind]

theorem vmmExpageTouch_fresh (hl : Loaded m d) (hx : x < kernelOffset) (hmissing : (m.pde d x).present = false)
    (hfree : m.free = f :: rest) : vmmExpageTouch m x flags =
      if flags.present then .ok (m.freshTable d (dirIdx x) flags f rest) else .error .fault := by
  have he : m.exdir.frame = d := by rw [hl]
  have hslot : dirIdx x ≠ exdirSlot := Nat.ne_of_lt (Nat.lt_trans (dirIdx_lt hx) (by norm_num [exdirSlot]))
  set m1 := { m with free := rest }.setTable d (dirIdx x) ⟨flags, f⟩ with hm1
  have hexdir : m1.exdir = m.exdir := by
    rw [hm1, exdir, setTable_table, if_neg]
    · rfl
    · exact fun h => hslot h.2.symm
  have hentry : m1.expageDirectory (dirIdx x) = ⟨flags, f⟩ := by
    rw [expageDirectory, hexdir, he, hm1, setTable_table, if_pos ⟨rfl, rfl⟩]
  have hset : ({ m with free := rest }.setExpageDirectory (dirIdx x) ⟨flags, f⟩) = m1 := by
    rw [hm1, setExpageDirectory, ← he]
    rfl
  simp only [Machine.pde] at hmissing
  simp only [vmmExpageTouch, hl.ne_zero, if_false, expageDirectory, he, dirIdx_pageMask, hmissing,
    Bool.false_eq_true, pmmAllocPage, hfree, bind, Except.bind]
  rw [hset]
  change m1.clearTable (m1.expageDirectory (dirIdx x)) = _
  rw [hentry]
  rfl

theorem vmmPageTouch_full (hx : x < kernelOffset) (hmissing : (m.pde m.cr3 x).present = false)
    (hfree : m.free = []) : vmmPageTouch m x flags = .error .outOfMemory := by
  have huser : ¬ kernelOffset ≤ pageMask x := Nat.not_le_of_lt (Nat.lt_of_le_of_lt (pageMask_le x) hx)
  simp only [Machine.pde] at hmissing
  simp [vmmPageTouch, pageDirectory, dirIdx_pageMask, hmissing, huser, pmmAllocPage, hfree, bind, Except.bind]

theorem vmmPageTouch_fresh (hx : x < kernelOffset) (hmissing : (m.pde m.cr3 x).present = false)
    (hfree : m.free = f :: rest) : vmmPageTouch m x flags =
      if flags.present then .ok (m.freshTable m.cr3 (dirIdx x) flags f rest) else .error .fault := by
  have huser : ¬ kernelOffset ≤ pageMask x := Nat.not_le_of_lt (Nat.lt_of_le_of_lt (pageMask_le x) hx)
  simp only [Machine.pde] at hmissing
  simp only [vmmPageTouch, pageDirectory, dirIdx_pageMask, hmissing, huser, pmmAllocPage, hfree, bind,
    Except.bind, false_and, if_false, Bool.false_eq_true, setPageDirectory, pure, Except.pure, setTable_cr3,
    setTable_table, and_self, if_true]
  rfl

theorem Sets.through_exdir (hs : Spaces m dirs) (hc : dirs m.cr3) (hd : dirs d) (hl : Loaded m d)
    (hx : x < kernelOffset) (h : vmmExpageSet m x v = .ok m') : Sets dirs d x v m m' ∧ Loaded m' d := by
  cases hp : (m.pde d x).present with
  | true =>
    rw [vmmExpageSet_loaded hl hp] at h
    obtain rfl := Except.ok.inj h
    exact ⟨.of_present hs hd hx hp, hl.setPte hs hc hd hx hp v⟩
  | false =>
    obtain ⟨m1, htouch, hset⟩ := bind_ok.mp h
    have hpage : pageMask x < kernelOffset := Nat.lt_of_le_of_lt (pageMask_le x) hx
    have hmissing : (m.pde d (pageMask x)).present = false := by rwa [Machine.pde, dirIdx_pageMask]
    cases hfree : m.free with
    | nil =>
      rw [vmmExpageTouch_full hl hmissing hfree] at htouch
      cases htouch
    | cons f rest =>
      rw [vmmExpageTouch_fresh hl hpage hmissing hfree, dirIdx_pageMask] at htouch
      split at htouch
      swap
      · cases htouch
      next hv =>
      obtain rfl := Except.ok.inj htouch
      have hl1 := freshTable_loaded v.toPageFlags hs hc hfree (dirIdx_lt hx) hl
      have hpde : (m.freshTable d (dirIdx x) v.toPageFlags f rest).pde d x = ⟨v.toPageFlags, f⟩ :=
        (freshTable_dir hs hfree hd).trans (if_pos ⟨rfl, rfl⟩)
      have hp1 : ((m.freshTable d (dirIdx x) v.toPageFlags f rest).pde d x).present = true := by
        rw [hpde]
        exact hv
      rw [if_neg hl1.ne_zero] at hset
      obtain rfl := Except.ok.inj hset
      have hs1 := hs.freshTable d (dirIdx x) v.toPageFlags hfree
      have heq : (m.freshTable d (dirIdx x) v.toPageFlags f rest).expageDirectory (dirIdx (pageMask x)) =
          (m.freshTable d (dirIdx x) v.toPageFlags f rest).pde d x := by
        rw [expageDirectory, hl1, dirIdx_pageMask]
        rfl
      rw [heq, tableIdx_pageMask]
      exact ⟨.of_fresh hs hfree hd hx hp hv (.of_present hs1 hd hx hp1), hl1.setPte hs1 hc hd hx hp1 v⟩

theorem Sets.through_cr3 (hs : Spaces m dirs) (hc : dirs m.cr3) (hx : x < kernelOffset)
    (h : vmmPageSet m x v = .ok m') : Sets dirs m.cr3 x v m m' := by
  cases hp : (m.pde m.cr3 x).present with
  | true =>
    rw [vmmPageSet_present hp] at h
    obtain rfl := Except.ok.inj h
    exact .of_present hs hc hx hp
  | false =>
    obtain ⟨m1, htouch, hset⟩ := bind_ok.mp h
    have hpage : pageMask x < kernelOffset := Nat.lt_of_le_of_lt (pageMask_le x) hx
    have hmissing : (m.pde m.cr3 (pageMask x)).present = false := by rwa [Machine.pde, dirIdx_pageMask]
    cases hfree : m.free with
    | nil =>
      rw [vmmPageTouch_full hpage hmissing hfree] at htouch
      cases htouch
    | cons f rest =>
      rw [vmmPageTouch_fresh hpage hmissing hfree, dirIdx_pageMask] at htouch
      split at htouch
      swap
      · cases htouch
      next hv =>
      obtain rfl := Except.ok.inj htouch
      obtain rfl := Except.ok.inj hset
      have hs1 := hs.freshTable m.cr3 (dirIdx x) v.toPageFlags hfree
      have hpde : (m.freshTable m.cr3 (dirIdx x) v.toPageFlags f rest).pde m.cr3 x = ⟨v.toPageFlags, f⟩ :=
        (freshTable_dir hs hfree hc).trans (if_pos ⟨rfl, rfl⟩)
      have heq : (m.freshTable m.cr3 (dirIdx x) v.toPageFlags f rest).pageDirectory (dirIdx (pageMask x)) =
          (m.freshTable m.cr3 (dirIdx x) v.toPageFlags f rest).pde m.cr3 x := by
        rw [dirIdx_pageMask]
        rfl
      rw [heq, tableIdx_pageMask]
      exact .of_fresh hs hfree hc hx hp hv (.of_present hs1 hc hx (by rw [hpde]; exact hv))

-- ---------------------------------------------------------------------------
-- How many frames it takes
-- ---------------------------------------------------------------------------

/-- A frame for the table of a page, unless the directory has it. -/
def tableFrames (m : Machine) (d : Frame) (x : Nat) : Nat := if (m.pde d x).present then 0 else 1

theorem vmmPageSet_ok_iff (hx : x < kernelOffset) (hv : v.present = true) :
    (∃ m', vmmPageSet m x v = .ok m') ↔ tableFrames m m.cr3 x ≤ m.free.length := by
  have hpage : pageMask x < kernelOffset := Nat.lt_of_le_of_lt (pageMask_le x) hx
  unfold tableFrames
  cases hp : (m.pde m.cr3 x).present with
  | true => exact iff_of_true ⟨_, vmmPageSet_present hp⟩ (by simp)
  | false =>
    have hmissing : (m.pde m.cr3 (pageMask x)).present = false := by rwa [Machine.pde, dirIdx_pageMask]
    cases hfree : m.free with
    | nil =>
      refine iff_of_false ?_ (by simp)
      rintro ⟨m', hm'⟩
      obtain ⟨m1, htouch, -⟩ := bind_ok.mp hm'
      rw [vmmPageTouch_full hpage hmissing hfree] at htouch
      cases htouch
    | cons f rest =>
      refine iff_of_true ⟨_, bind_ok.mpr
        ⟨m.freshTable m.cr3 (dirIdx (pageMask x)) v.toPageFlags f rest, ?_, rfl⟩⟩ (by simp)
      rw [vmmPageTouch_fresh hpage hmissing hfree, if_pos hv]

theorem vmmExpageSet_ok_iff (hs : Spaces m dirs) (hc : dirs m.cr3) (hl : Loaded m d) (hx : x < kernelOffset)
    (hv : v.present = true) : (∃ m', vmmExpageSet m x v = .ok m') ↔ tableFrames m d x ≤ m.free.length := by
  have hpage : pageMask x < kernelOffset := Nat.lt_of_le_of_lt (pageMask_le x) hx
  unfold tableFrames
  cases hp : (m.pde d x).present with
  | true => exact iff_of_true ⟨_, vmmExpageSet_loaded hl hp⟩ (by simp)
  | false =>
    have hmissing : (m.pde d (pageMask x)).present = false := by rwa [Machine.pde, dirIdx_pageMask]
    cases hfree : m.free with
    | nil =>
      refine iff_of_false ?_ (by simp)
      rintro ⟨m', hm'⟩
      obtain ⟨m1, htouch, -⟩ := bind_ok.mp hm'
      rw [vmmExpageTouch_full hl hmissing hfree] at htouch
      cases htouch
    | cons f rest =>
      refine iff_of_true ⟨(m.freshTable d (dirIdx (pageMask x)) v.toPageFlags f rest).setTable
        ((m.freshTable d (dirIdx (pageMask x)) v.toPageFlags f rest).expageDirectory
          (dirIdx (pageMask x))).frame (tableIdx (pageMask x)) v, bind_ok.mpr
        ⟨m.freshTable d (dirIdx (pageMask x)) v.toPageFlags f rest, ?_, ?_⟩⟩ (by simp)
      · rw [vmmExpageTouch_fresh hl hpage hmissing hfree, if_pos hv]
      · rw [if_neg (freshTable_loaded v.toPageFlags hs hc hfree (dirIdx_lt hpage) hl).ne_zero]
        rfl

-- ---------------------------------------------------------------------------
-- The entries of several pages
-- ---------------------------------------------------------------------------

/-- From `m` to `m'` a frame was mapped with `flags` for each of the pages of directory `d`. -/
structure Fills (dirs : Frame → Prop) (d : Frame) (pages : List Nat) (flags : PageFlags) (m m' : Machine) :
    Prop where
  cr3 : m'.cr3 = m.cr3
  kernelPd : m'.kernelPd = m.kernelPd
  byte : m'.byte = m.byte
  spaces : Spaces m' dirs
  free : m'.free <:+ m.free
  kept : ∀ {e j}, dirs e → j < 768 →
    (m.table e j).present = true ∨ e ≠ d ∨ (∀ x ∈ pages, j ≠ dirIdx x) → m'.table e j = m.table e j
  made : ∀ {x}, x ∈ pages → (m.pde d x).present = false → (m'.pde d x).toPageFlags = flags
  filled : ∀ {x y}, x ∈ pages → pageMask y = pageMask x → (m'.leaf d y).toPageFlags = flags
  leaf : ∀ {e y}, dirs e → y < kernelOffset → e ≠ d ∨ (∀ x ∈ pages, pageMask y ≠ pageMask x) →
    m'.leaf e y = m.leaf e y

theorem Fills.refl (hs : Spaces m dirs) : Fills dirs d [] flags m m :=
  ⟨rfl, rfl, rfl, hs, List.suffix_rfl, fun _ _ _ => rfl, by simp, by simp, fun _ _ _ => rfl⟩

theorem Fills.cons {m1 : Machine} {pages : List Nat} (hd : dirs d) (hx : x < kernelOffset)
    (hpages : ∀ y ∈ pages, y < kernelOffset) (hflags : flags.present = true) (hv : v.toPageFlags = flags)
    (h1 : Sets dirs d x v m m1) (h : Fills dirs d pages flags m1 m') : Fills dirs d (x :: pages) flags m m' where
  cr3 := h.cr3.trans h1.cr3
  kernelPd := h.kernelPd.trans h1.kernelPd
  byte := h.byte.trans h1.byte
  spaces := h.spaces
  free := h.free.trans h1.free
  kept {e j} he hj hold := by
    have hfirst : m1.table e j = m.table e j := h1.kept he hj
      (hold.imp_right (Or.imp_right fun hall => hall x List.mem_cons_self))
    rw [h.kept he hj, hfirst]
    rw [hfirst]
    exact hold.imp_right (Or.imp_right fun hall y hy => hall y (List.mem_cons_of_mem _ hy))
  made {y} hy hmissing := by
    by_cases hslot : dirIdx y = dirIdx x
    · have hmade : (m1.pde d x).toPageFlags = flags :=
        (h1.made (by rwa [Machine.pde, ← hslot])).2.trans hv
      have hkept : m'.pde d x = m1.pde d x := h.kept hd (dirIdx_lt hx) (.inl (by
        change (m1.pde d x).toPageFlags.present = true
        rw [hmade, hflags]))
      rw [Machine.pde, hslot, ← hmade]
      exact congrArg Entry.toPageFlags hkept
    · have hmem : y ∈ pages := (List.mem_cons.mp hy).resolve_left fun hyx => hslot (hyx ▸ rfl)
      refine h.made hmem ?_
      rw [Machine.pde, h1.kept hd (dirIdx_lt (hpages y hmem)) (.inr (.inr hslot))]
      exact hmissing
  filled {z y} hz hpage := by
    by_cases hlater : ∃ u ∈ pages, pageMask y = pageMask u
    · obtain ⟨u, hu, hyu⟩ := hlater
      exact h.filled hu hyu
    · have hzx : z = x := (List.mem_cons.mp hz).resolve_right fun hmem => hlater ⟨z, hmem, hpage⟩
      rw [hzx] at hpage
      have hy : y < kernelOffset := by
        unfold pageMask at hpage
        unfold kernelOffset at hx ⊢
        omega
      have hnone : ∀ u ∈ pages, pageMask y ≠ pageMask u := fun u hu hyu => hlater ⟨u, hu, hyu⟩
      rw [h.leaf hd hy (.inr hnone), h1.leaf hd hy, if_pos ⟨rfl, hpage⟩, hv]
  leaf {e y} he hy hout := by
    rw [h.leaf he hy (hout.imp_right fun hall u hu => hall u (List.mem_cons_of_mem _ hu)), h1.leaf he hy,
      if_neg]
    rintro ⟨hed, hpage⟩
    rcases hout with hne | hall
    · exact hne hed
    · exact hall x List.mem_cons_self hpage

theorem exdirSet_leaf (hs : Spaces m dirs) (hc : dirs m.cr3) (he : dirs e) (hy : y < kernelOffset) :
    (vmmExdirSet m d).2.leaf e y = m.leaf e y := by
  have hr := hs.exdirSet (d := e) hc d
  unfold Machine.leaf
  rw [hr.pde he hy]
  split
  · next hp => rw [hr.pte he hy hp, ite_self]
  · rfl

theorem exdirSet_dir {k : Frame} (hs : Spaces m dirs) (hc : dirs m.cr3) (he : dirs e) (hj : j < 768) :
    (vmmExdirSet m k).2.table e j = m.table e j := (hs.exdirSet (d := e) hc k).dir he hj

theorem Fills.unload {pages : List Nat} {k k' : Frame} (hs : Spaces m dirs) (hc : dirs m.cr3) (hd : dirs d)
    (hpages : ∀ y ∈ pages, y < kernelOffset)
    (h : Fills dirs d pages flags (vmmExdirSet m k).2 m') :
    Fills dirs d pages flags m (vmmExdirSet m' k').2 := by
  have hc' : dirs m'.cr3 := by
    rw [h.cr3]
    exact hc
  have hlow : ∀ {x y}, x ∈ pages → pageMask y = pageMask x → y < kernelOffset := by
    intro x y hx hpage
    have := hpages x hx
    unfold pageMask at hpage
    unfold kernelOffset at this ⊢
    omega
  have hs' := h.spaces.remaps (h.spaces.exdirSet (d := d) hc' k')
  refine ⟨h.cr3, h.kernelPd, h.byte, hs', h.free, ?_, ?_, ?_, ?_⟩
  · intro e j he hj hold
    rw [exdirSet_dir h.spaces hc' he hj, h.kept he hj, exdirSet_dir hs hc he hj]
    rwa [exdirSet_dir hs hc he hj]
  · intro x hx hmissing
    rw [Machine.pde, exdirSet_dir h.spaces hc' hd (dirIdx_lt (hpages x hx))]
    refine h.made hx ?_
    rw [Machine.pde, exdirSet_dir hs hc hd (dirIdx_lt (hpages x hx))]
    exact hmissing
  · intro x y hx hpage
    rw [exdirSet_leaf h.spaces hc' hd (hlow hx hpage)]
    exact h.filled hx hpage
  · intro e y he hy hout
    rw [exdirSet_leaf h.spaces hc' he hy, h.leaf he hy hout, exdirSet_leaf hs hc he hy]

theorem Sets.of_alloc (hfree : m.free = f :: rest) (h : Sets dirs d x v { m with free := rest } m') :
    Sets dirs d x v m m' :=
  ⟨h.cr3, h.kernelPd, h.byte, h.spaces, h.free.trans ⟨[f], hfree.symm⟩, h.kept, h.made, h.leaf⟩

theorem populateLoop_fills {pages : List Nat} (hs : Spaces m dirs) (hc : dirs m.cr3) (hd : dirs d)
    (hl : Loaded m d) (hpages : ∀ y ∈ pages, y < kernelOffset) (hflags : flags.present = true)
    (h : (pages.foldlM (fun m i => do
      let (f, m) ← pmmAllocPage m
      vmmExpageSet m i (vmmPageVal f flags)) m : Except Stop Machine) = .ok m') :
    Fills dirs d pages flags m m' := by
  induction pages generalizing m with
  | nil =>
    obtain rfl := Except.ok.inj h
    exact .refl hs
  | cons x pages ih =>
    rw [List.foldlM_cons] at h
    obtain ⟨m1, hstep, h⟩ := bind_ok.mp h
    obtain ⟨⟨f, m0⟩, halloc, hset⟩ := bind_ok.mp hstep
    unfold pmmAllocPage at halloc
    cases hfree : m.free with
    | nil =>
      rw [hfree] at halloc
      cases halloc
    | cons g rest =>
      rw [hfree] at halloc
      obtain ⟨rfl, rfl⟩ := Prod.mk.inj (Except.ok.inj halloc)
      obtain ⟨hsets, hl1⟩ := Sets.through_exdir (hs.alloc hfree) hc hd hl (hpages x List.mem_cons_self) hset
      have hrest : ∀ y ∈ pages, y < kernelOffset := fun y hy => hpages y (List.mem_cons_of_mem _ hy)
      refine (Fills.cons hd (hpages x List.mem_cons_self) hrest hflags rfl (hsets.of_alloc hfree) ?_)
      exact ih hsets.spaces (by rw [hsets.cr3]; exact hc) hl1 hrest h

theorem populate_fills {start stop : Nat} {write : Bool} (hs : Spaces m dirs) (hc : dirs m.cr3) (hd : dirs d)
    (hstart : pageMask start = start) (hstop : stop ≤ kernelOffset)
    (h : populate m d start stop write = .ok m') :
    Fills dirs d (pagesFrom start stop) ⟨true, write, true⟩ m m' := by
  have hpages : ∀ y ∈ pagesFrom start stop, y < kernelOffset := fun y hy =>
    Nat.lt_of_lt_of_le ((mem_pagesFrom hstart).mp hy).2.1 hstop
  obtain ⟨m2, hloop, h⟩ := bind_ok.mp h
  obtain rfl := Except.ok.inj h
  refine Fills.unload hs hc hd hpages (populateLoop_fills ?_ hc hd ?_ hpages rfl hloop)
  · exact hs.remaps (hs.exdirSet (d := d) hc d)
  · exact vmmExdirSet_loaded (hs.nonzero hd)

end

end Os5
