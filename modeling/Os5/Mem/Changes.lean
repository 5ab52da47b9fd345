import Os5.Mem.ReadOnly
import Os5.Mem.StackFaults

/-!
# Which pages a piece of kernel code changes

`Changes dirs d P m m'`: whatever was done to the machine, below `KERNEL_OFFSET` only pages of
the directory `d` that meet `P` are mapped differently. The loops of `new_area`, `share_area`
and `procmm_removeall` are of this kind, each for the range of an area.
-/

namespace Os5

open Machine Outcome

/-- From `m` to `m'` only pages of directory `d` that meet `P` changed. -/
structure Changes (dirs : Frame → Prop) (d : Frame) (P : Nat → Prop) (m m' : Machine) : Prop where
  cr3 : m'.cr3 = m.cr3
  spaces : Spaces m' dirs
  leaf : ∀ {e y}, dirs e → y < kernelOffset → e ≠ d ∨ ¬ P y → m'.leaf e y = m.leaf e y

section
variable {dirs : Frame → Prop} {d e f k : Frame} {P Q : Nat → Prop} {m m' m'' : Machine}
  {x y start stop : Nat} {v : Entry} {flags : PageFlags} {pages : List Nat} {write : Bool} {rest : List Frame}

theorem Changes.refl (hs : Spaces m dirs) : Changes dirs d P m m := ⟨rfl, hs, fun _ _ _ => rfl⟩

theorem Changes.trans (h1 : Changes dirs d P m m') (h2 : Changes dirs d P m' m'') : Changes dirs d P m m'' :=
  ⟨h2.cr3.trans h1.cr3, h2.spaces, fun he hy hout => (h2.leaf he hy hout).trans (h1.leaf he hy hout)⟩

theorem Changes.mono (h : Changes dirs d P m m') (hPQ : ∀ y, P y → Q y) : Changes dirs d Q m m' :=
  ⟨h.cr3, h.spaces, fun he hy hout => h.leaf he hy (hout.imp_right (mt (hPQ _)))⟩

theorem Changes.of_tables (hs : Spaces m' dirs) (hc : m'.cr3 = m.cr3) (ht : m'.table = m.table) :
    Changes dirs d P m m' := by
  refine ⟨hc, hs, fun {e y} _ _ _ => ?_⟩
  unfold Machine.leaf Machine.pte Machine.pde
  rw [ht]

theorem Changes.exdirSet (hs : Spaces m dirs) (hc : dirs m.cr3) (k : Frame) :
    Changes dirs d P m (vmmExdirSet m k).2 :=
  ⟨rfl, hs.remaps (hs.exdirSet (d := d) hc k), fun he hy _ => exdirSet_leaf hs hc he hy⟩

theorem Sets.changes (h : Sets dirs d x v m m') : Changes dirs d (fun y => pageMask y = pageMask x) m m' := by
  refine ⟨h.cr3, h.spaces, fun he hy hout => ?_⟩
  rw [h.leaf he hy, if_neg]
  rintro ⟨hed, hpage⟩
  exact hout.elim (fun hne => hne hed) fun hnot => hnot hpage

-- ---------------------------------------------------------------------------
-- The pages of a range
-- ---------------------------------------------------------------------------

theorem range_of_page (hstart : pageMask start = start) (hstop : pageMask stop = stop)
    (hx : x ∈ pagesFrom start stop) (hpage : pageMask y = pageMask x) : start ≤ y ∧ y < stop := by
  refine (pageMask_mem_pagesFrom hstart hstop).mp ?_
  rwa [hpage, ((mem_pagesFrom hstart).mp hx).2.2]

theorem Fills.changes (h : Fills dirs d (pagesFrom start stop) flags m m') (hstart : pageMask start = start)
    (hstop : pageMask stop = stop) : Changes dirs d (fun y => start ≤ y ∧ y < stop) m m' :=
  ⟨h.cr3, h.spaces, fun he hy hout => h.leaf he hy (hout.imp_right fun hnot _ hx hpage =>
    hnot (range_of_page hstart hstop hx hpage))⟩

theorem Rewrites.changes (h : Rewrites dirs d (pagesFrom start stop) m m') (hstart : pageMask start = start)
    (hstop : pageMask stop = stop) : Changes dirs d (fun y => start ≤ y ∧ y < stop) m m' :=
  ⟨h.cr3, h.spaces, fun he hy hout => h.leaf he hy (hout.imp_right fun hnot _ hx hpage =>
    hnot (range_of_page hstart hstop hx hpage))⟩

theorem populate_unloaded_changes (hs : Spaces m dirs) (hc : dirs m.cr3)
    (h : populate m 0 start stop write = .ok m') : Changes dirs d P m m' := by
  obtain ⟨-, rfl⟩ := populate_unloaded h
  have hfirst : Changes dirs d P m (vmmExdirSet m 0).2 := .exdirSet hs hc 0
  exact hfirst.trans (.exdirSet hfirst.spaces hc _)

-- ---------------------------------------------------------------------------
-- Clearing the entries of an area
-- ---------------------------------------------------------------------------

theorem clearLoop_changes (hs : Spaces m dirs) (hc : dirs m.cr3) (hd : dirs d) (hl : Loaded m d)
    (hpages : ∀ x ∈ pages, x < kernelOffset)
    (h : (pages.foldlM (fun m j => vmmExpageSet m j Entry.zero) m : Except Stop Machine) = .ok m') :
    Changes dirs d (fun y => ∃ x ∈ pages, pageMask y = pageMask x) m m' ∧
      ∀ {x y}, x ∈ pages → y < kernelOffset → pageMask y = pageMask x → m'.leaf d y = Entry.zero := by
  induction pages generalizing m with
  | nil =>
    obtain rfl := Except.ok.inj h
    exact ⟨.refl hs, fun hx => absurd hx List.not_mem_nil⟩
  | cons x pages ih =>
    rw [List.foldlM_cons] at h
    obtain ⟨m1, hset, h⟩ := bind_ok.mp h
    obtain ⟨hsets, hl1⟩ := Sets.through_exdir hs hc hd hl (hpages x List.mem_cons_self) hset
    obtain ⟨hrest, hzero⟩ := ih hsets.spaces (hsets.cr3.symm ▸ hc) hl1
      (fun y hy => hpages y (List.mem_cons_of_mem _ hy)) h
    refine ⟨(hsets.changes.mono fun y hy => ⟨x, List.mem_cons_self, hy⟩).trans
      (hrest.mono fun y ⟨z, hz, hy⟩ => ⟨z, List.mem_cons_of_mem _ hz, hy⟩), fun {z y} hz hy hpage => ?_⟩
    by_cases hlater : ∃ u ∈ pages, pageMask y = pageMask u
    · obtain ⟨u, hu, hyu⟩ := hlater
      exact hzero hu hy hyu
    · have hzx : z = x := (List.mem_cons.mp hz).resolve_right fun hz => hlater ⟨z, hz, hpage⟩
      rw [hrest.leaf hd hy (.inr hlater), hsets.leaf hd hy, if_pos ⟨rfl, hzx ▸ hpage⟩]

theorem removeArea_changes {w w' : Mem} {p a : Nat} (hs : Spaces w.machine dirs) (hc : dirs w.machine.cr3)
    (hd : dirs (w.pd p)) (ha : (w.area a).Wf) (h : removeArea p w a = .ok w') : ∃ m,
    w' = freeArea { w with machine := m } a ∧
      Changes dirs (w.pd p) (fun y => (w.area a).covers y = true) w.machine m ∧
      ∀ {y}, (w.area a).covers y = true → m.leaf (w.pd p) y = Entry.zero := by
  obtain ⟨m, hloop, h⟩ := bind_ok.mp h
  obtain rfl := Except.ok.inj h
  have hload : Changes dirs (w.pd p) (fun y => (w.area a).covers y = true) w.machine
      (vmmExdirSet w.machine (w.pd p)).2 := .exdirSet hs hc _
  have hpages : ∀ x ∈ pagesFrom (w.area a).start (w.area a).stop, x < kernelOffset := fun x hx =>
    Nat.lt_of_lt_of_le ((mem_pagesFrom ha.start).mp hx).2.1 ha.below
  obtain ⟨hclear, hzero⟩ := clearLoop_changes hload.spaces hc hd (vmmExdirSet_loaded (hs.nonzero hd)) hpages hloop
  have hc' : dirs m.cr3 := hclear.cr3.symm ▸ hc
  refine ⟨_, rfl, (hload.trans (hclear.mono ?_)).trans (.exdirSet hclear.spaces hc' _), fun {y} hy => ?_⟩
  · rintro y ⟨x, hx, hpage⟩
    exact MemArea.covers_iff.mpr (range_of_page ha.start ha.stop hx hpage)
  · have hlow := ha.lt hy
    refine (exdirSet_leaf hclear.spaces hc' hd hlow).trans ?_
    exact hzero ((pageMask_mem_pagesFrom ha.start ha.stop).mpr (MemArea.covers_iff.mp hy)) hlow
      (pageMask_pageMask y).symm

-- ---------------------------------------------------------------------------
-- A frame that is put back
-- ---------------------------------------------------------------------------

/-- The order in which frames are handed out does not matter. -/
theorem Spaces.perm {free : List Frame} (hs : Spaces m dirs) (h : free.Perm m.free) :
    Spaces { m with free := free } dirs where
  nonzero := hs.nonzero
  tableNotDir := hs.tableNotDir
  tableUnique := hs.tableUnique
  freeNotDir hf := hs.freeNotDir (h.mem_iff.mp hf)
  freeNotTable hf := hs.freeNotTable (h.mem_iff.mp hf)
  freeNonzero hf := hs.freeNonzero (h.mem_iff.mp hf)
  freeNodup := h.nodup_iff.mpr hs.freeNodup

theorem vmmExpageSet_reserved (hs : Spaces { m with free := f :: m.free } dirs) (hc : dirs m.cr3) (hd : dirs d)
    (hl : Loaded m d) (hx : x < kernelOffset) (h : vmmExpageSet m x v = .ok m') :
    Spaces { m' with free := f :: m'.free } dirs := by
  cases hp : (m.pde d x).present with
  | true =>
    rw [vmmExpageSet_loaded hl hp] at h
    obtain rfl := Except.ok.inj h
    exact hs.remaps (hs.setPte hd hx hp v)
  | false =>
    obtain ⟨m1, htouch, hset⟩ := bind_ok.mp h
    have hpage : pageMask x < kernelOffset := Nat.lt_of_le_of_lt (pageMask_le x) hx
    have hmissing : (m.pde d (pageMask x)).present = false := by rwa [Machine.pde, dirIdx_pageMask]
    cases hfree : m.free with
    | nil =>
      rw [vmmExpageTouch_full hl hmissing hfree] at htouch
      cases htouch
    | cons g rest =>
      rw [vmmExpageTouch_fresh hl hpage hmissing hfree, dirIdx_pageMask] at htouch
      split at htouch
      swap
      · cases htouch
      next hv =>
      obtain rfl := Except.ok.inj htouch
      have hs0 : Spaces m dirs := hs.alloc rfl
      have hl1 := freshTable_loaded v.toPageFlags hs0 hc hfree (dirIdx_lt hx) hl
      have hswap : Spaces { m with free := g :: f :: rest } dirs := hs.perm (by
        rw [hfree]
        exact .swap f g rest)
      have hs1 : Spaces { m.freshTable d (dirIdx x) v.toPageFlags g rest with free := f :: rest } dirs :=
        hswap.freshTable d (dirIdx x) v.toPageFlags rfl
      have hpde : (m.freshTable d (dirIdx x) v.toPageFlags g rest).pde d x = ⟨v.toPageFlags, g⟩ :=
        (freshTable_dir hs0 hfree hd).trans (if_pos ⟨rfl, rfl⟩)
      have hp1 : ((m.freshTable d (dirIdx x) v.toPageFlags g rest).pde d x).present = true := by
        rw [hpde]
        exact hv
      rw [if_neg hl1.ne_zero] at hset
      obtain rfl := Except.ok.inj hset
      have heq : (m.freshTable d (dirIdx x) v.toPageFlags g rest).expageDirectory (dirIdx (pageMask x)) =
          (m.freshTable d (dirIdx x) v.toPageFlags g rest).pde d x := by
        rw [expageDirectory, hl1, dirIdx_pageMask]
        rfl
      rw [heq, tableIdx_pageMask]
      exact hs1.remaps (hs1.setPte hd hx hp1 v)

/-- The frame of the one page that was filled could be put back. -/
theorem populate_one (hs : Spaces m dirs) (hc : dirs m.cr3) (hd : dirs d) (hx : x < kernelOffset)
    (h : populate m d x (x + pageSize) write = .ok m') : ∃ f,
    m'.leaf d x = vmmPageVal f ⟨true, write, true⟩ ∧ Spaces { m' with free := f :: m'.free } dirs := by
  rw [populate_eq, pagesFrom_one] at h
  obtain ⟨m2, hloop, h⟩ := bind_ok.mp h
  obtain rfl := Except.ok.inj h
  obtain ⟨m3, hpage, hloop⟩ := bind_ok.mp hloop
  obtain rfl := Except.ok.inj hloop
  have hs0 : Spaces (vmmExdirSet m d).2 dirs := hs.remaps (hs.exdirSet (d := d) hc d)
  have hl0 : Loaded (vmmExdirSet m d).2 d := vmmExdirSet_loaded (hs.nonzero hd)
  obtain ⟨⟨f, m1⟩, halloc, hset⟩ := bind_ok.mp hpage
  unfold pmmAllocPage at halloc
  cases hfree : (vmmExdirSet m d).2.free with
  | nil =>
    rw [hfree] at halloc
    cases halloc
  | cons g rest =>
    rw [hfree] at halloc
    obtain ⟨rfl, rfl⟩ := Prod.mk.inj (Except.ok.inj halloc)
    obtain ⟨hsets, -⟩ := Sets.through_exdir (hs0.alloc hfree) hc hd hl0 hx hset
    have hfull : Spaces { (vmmExdirSet m d).2 with free := g :: rest } dirs := hs0.perm (by rw [hfree])
    have hres : Spaces { m3 with free := g :: m3.free } dirs :=
      vmmExpageSet_reserved (m := { (vmmExdirSet m d).2 with free := rest }) hfull hc hd hl0 hx hset
    have hc2 : dirs m3.cr3 := hsets.cr3.symm ▸ hc
    refine ⟨g, ?_, hres.remaps (hres.exdirSet (d := d) hc2 _)⟩
    rw [exdirSet_leaf hsets.spaces hc2 hd hx, hsets.leaf hd hx, if_pos ⟨rfl, rfl⟩]

theorem vmmPageGet_leaf (h : (m.leaf m.cr3 x).present = true) : vmmPageGet m x = m.leaf m.cr3 x := by
  cases hp : (m.pde m.cr3 x).present with
  | false =>
    rw [leaf_missing hp] at h
    cases h
  | true =>
    rw [leaf_present hp] at h ⊢
    exact vmmPageGet_present hp h

-- ---------------------------------------------------------------------------
-- The clone of a directory
-- ---------------------------------------------------------------------------

theorem Cloned.leaf_old {pd : Frame} (h : Cloned dirs m pd m') (hs : Spaces m dirs) (hc : dirs m.cr3)
    (he : dirs e) (hy : y < kernelOffset) : m'.leaf e y = m.leaf e y := by
  have hold : ∀ {g i}, g ∉ m.free → g ≠ m.cr3 ∨ i < 768 → m'.table g i = m.table g i := fun hg hi =>
    h.table hg (hi.imp_right fun hi => Nat.ne_of_lt (Nat.lt_trans hi (by norm_num [exdirSlot])))
  have hpde : m'.pde e y = m.pde e y := hold (fun hf => hs.freeNotDir hf he) (.inr (dirIdx_lt hy))
  unfold Machine.leaf Machine.pte
  rw [hpde]
  split
  · next hp =>
    exact hold (fun hf => hs.freeNotTable hf he (dirIdx_lt hy) hp rfl)
      (.inl (hs.tableNotDir he hc (dirIdx_lt hy) hp))
  · rfl

end

end Os5
