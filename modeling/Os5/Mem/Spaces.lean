import Os5.Mem.Vmm

/-!
# Address spaces that share no page table

`Spaces m dirs`: below `KERNEL_OFFSET` every page table of the directories in
`dirs` belongs to one slot of one of them, and the frames still to be handed out
are none of these. Setting an entry for one directory then changes what the
processor finds for that page of that directory and nothing else.
-/

namespace Os5

open Machine Outcome

structure Spaces (m : Machine) (dirs : Frame → Prop) : Prop where
  nonzero : ∀ {d}, dirs d → d ≠ 0
  tableNotDir : ∀ {d e i}, dirs d → dirs e → i < 768 → (m.table d i).present = true →
    (m.table d i).frame ≠ e
  tableUnique : ∀ {d e i j}, dirs d → dirs e → i < 768 → j < 768 → (m.table d i).present = true →
    (m.table e j).present = true → (m.table d i).frame = (m.table e j).frame → d = e ∧ i = j
  freeNotDir : ∀ {f}, f ∈ m.free → ¬ dirs f
  freeNotTable : ∀ {f d i}, f ∈ m.free → dirs d → i < 768 → (m.table d i).present = true →
    (m.table d i).frame ≠ f
  freeNonzero : 0 ∉ m.free
  freeNodup : m.free.Nodup

/-- From `m` to `m'` only entries for pages of directory `d` changed, by `u`. -/
structure Remaps (dirs : Frame → Prop) (d : Frame) (u : Nat → Entry → Entry) (m m' : Machine) :
    Prop where
  cr3 : m'.cr3 = m.cr3
  kernelPd : m'.kernelPd = m.kernelPd
  vmmRunning : m'.vmmRunning = m.vmmRunning
  byte : m'.byte = m.byte
  free : m'.free = m.free
  dir : ∀ {e i}, dirs e → i < 768 → m'.table e i = m.table e i
  pte : ∀ {e y}, dirs e → y < kernelOffset → (m.pde e y).present = true →
    m'.pte e y = if e = d then u y (m.pte e y) else m.pte e y

section
variable {dirs : Frame → Prop} {d e : Frame} {u v : Nat → Entry → Entry} {m m' m'' : Machine}
  {x y : Nat}

theorem Remaps.pde (h : Remaps dirs d u m m') (he : dirs e) (hy : y < kernelOffset) :
    m'.pde e y = m.pde e y := h.dir he (dirIdx_lt hy)

theorem Remaps.refl : Remaps dirs d (fun _ e => e) m m :=
  ⟨rfl, rfl, rfl, rfl, rfl, fun _ _ => rfl, fun _ _ _ => by simp⟩

theorem Remaps.trans (h1 : Remaps dirs d u m m') (h2 : Remaps dirs d v m' m'') :
    Remaps dirs d (fun y e => v y (u y e)) m m'' where
  cr3 := h2.cr3.trans h1.cr3
  kernelPd := h2.kernelPd.trans h1.kernelPd
  vmmRunning := h2.vmmRunning.trans h1.vmmRunning
  byte := h2.byte.trans h1.byte
  free := h2.free.trans h1.free
  dir he hi := (h2.dir he hi).trans (h1.dir he hi)
  pte he hy hp := by
    rw [h2.pte he hy (by rwa [h1.pde he hy]), h1.pte he hy hp]
    split <;> rfl

theorem Remaps.congr (h : Remaps dirs d u m m')
    (huv : ∀ y, y < kernelOffset → (m.pde d y).present = true → u y (m.pte d y) = v y (m.pte d y)) :
    Remaps dirs d v m m' where
  cr3 := h.cr3
  kernelPd := h.kernelPd
  vmmRunning := h.vmmRunning
  byte := h.byte
  free := h.free
  dir := h.dir
  pte he hy hp := by
    rw [h.pte he hy hp]
    split
    · next hed =>
      subst hed
      exact huv _ hy hp
    · rfl

theorem Spaces.remaps (hs : Spaces m dirs) (h : Remaps dirs d u m m') : Spaces m' dirs where
  nonzero := hs.nonzero
  tableNotDir hd he hi := by
    rw [h.dir hd hi]
    exact hs.tableNotDir hd he hi
  tableUnique hd he hi hj := by
    rw [h.dir hd hi, h.dir he hj]
    exact hs.tableUnique hd he hi hj
  freeNotDir hf := hs.freeNotDir (h.free ▸ hf)
  freeNotTable hf hd hi := by
    rw [h.dir hd hi]
    exact hs.freeNotTable (h.free ▸ hf) hd hi
  freeNonzero := h.free ▸ hs.freeNonzero
  freeNodup := h.free ▸ hs.freeNodup

theorem Spaces.of_tables (hs : Spaces m dirs) (ht : m'.table = m.table) (hf : m'.free = m.free) :
    Spaces m' dirs where
  nonzero := hs.nonzero
  tableNotDir h1 h2 h3 := by
    rw [ht]
    exact hs.tableNotDir h1 h2 h3
  tableUnique h1 h2 h3 h4 := by
    rw [ht]
    exact hs.tableUnique h1 h2 h3 h4
  freeNotDir h := hs.freeNotDir (hf ▸ h)
  freeNotTable h1 h2 h3 := by
    rw [ht]
    exact hs.freeNotTable (hf ▸ h1) h2 h3
  freeNonzero := hf ▸ hs.freeNonzero
  freeNodup := hf ▸ hs.freeNodup

theorem Spaces.alloc {f : Frame} {rest : List Frame} (hs : Spaces m dirs) (h : m.free = f :: rest) :
    Spaces { m with free := rest } dirs where
  nonzero := hs.nonzero
  tableNotDir := hs.tableNotDir
  tableUnique := hs.tableUnique
  freeNotDir hg := hs.freeNotDir (h ▸ List.mem_cons_of_mem f hg)
  freeNotTable hg := hs.freeNotTable (h ▸ List.mem_cons_of_mem f hg)
  freeNonzero hg := hs.freeNonzero (h ▸ List.mem_cons_of_mem f hg)
  freeNodup := (List.nodup_cons.mp (h ▸ hs.freeNodup)).2

theorem Spaces.mono {dirs' : Frame → Prop} (hs : Spaces m dirs) (hd : ∀ d, dirs' d → dirs d) :
    Spaces m dirs' where
  nonzero h := hs.nonzero (hd _ h)
  tableNotDir h1 h2 := hs.tableNotDir (hd _ h1) (hd _ h2)
  tableUnique h1 h2 := hs.tableUnique (hd _ h1) (hd _ h2)
  freeNotDir hf h := hs.freeNotDir hf (hd _ h)
  freeNotTable hf h := hs.freeNotTable hf (hd _ h)
  freeNonzero := hs.freeNonzero
  freeNodup := hs.freeNodup

-- ---------------------------------------------------------------------------
-- Setting one entry
-- ---------------------------------------------------------------------------

theorem Spaces.setPte (hs : Spaces m dirs) (hd : dirs d) (hx : x < kernelOffset)
    (hp : (m.pde d x).present = true) (w : Entry) :
    Remaps dirs d (fun y e => if pageMask y = pageMask x then w else e) m
      (m.setTable (m.pde d x).frame (tableIdx x) w) := by
  have hdir : ∀ {e i}, dirs e → i < 768 →
      (m.setTable (m.pde d x).frame (tableIdx x) w).table e i = m.table e i := by
    intro e i he hi
    rw [setTable_table, if_neg]
    rintro ⟨rfl, -⟩
    exact hs.tableNotDir hd he (dirIdx_lt hx) hp rfl
  refine ⟨rfl, rfl, rfl, rfl, rfl, hdir, ?_⟩
  intro e y he hy hpy
  have hpde : (m.setTable (m.pde d x).frame (tableIdx x) w).pde e y = m.pde e y :=
    hdir he (dirIdx_lt hy)
  unfold Machine.pte
  rw [hpde, setTable_table]
  by_cases hsame : (m.pde e y).frame = (m.pde d x).frame
  · obtain ⟨rfl, hi⟩ := hs.tableUnique he hd (dirIdx_lt hy) (dirIdx_lt hx) hpy hp hsame
    by_cases ht : tableIdx y = tableIdx x
    · rw [if_pos ⟨hsame, ht⟩, if_pos rfl, if_pos (samePage_iff.mpr ⟨hi, ht⟩)]
    · rw [if_neg (fun h => ht h.2), if_pos rfl, if_neg (fun h => ht (samePage_iff.mp h).2)]
  · have hne : ¬ (e = d ∧ pageMask y = pageMask x) := by
      rintro ⟨rfl, hpage⟩
      exact hsame (by rw [Machine.pde, Machine.pde, (samePage_iff.mp hpage).1])
    rw [if_neg (fun h => hsame h.1)]
    split
    · next hed => rw [if_neg (fun h => hne ⟨hed, h⟩)]
    · rfl

theorem vmmPageTouch_present {flags : PageFlags} (hp : (m.pde m.cr3 x).present = true) :
    vmmPageTouch m x flags = .ok m := by
  have h : (m.pageDirectory (dirIdx (pageMask x))).present = true := by
    rw [dirIdx_pageMask]
    exact hp
  simp [vmmPageTouch, h, pure, Except.pure]

theorem vmmPageSet_present {w : Entry} (hp : (m.pde m.cr3 x).present = true) :
    vmmPageSet m x w = .ok (m.setTable (m.pde m.cr3 x).frame (tableIdx x) w) := by
  have h : (m.pde m.cr3 (pageMask x)).present = true := by
    rw [Machine.pde, dirIdx_pageMask]
    exact hp
  simp [vmmPageSet, vmmPageTouch_present h, bind, Except.bind, pure, Except.pure, pageDirectory,
    dirIdx_pageMask, tableIdx_pageMask, Machine.pde]

theorem vmmPageGet_present (hp : (m.pde m.cr3 x).present = true)
    (hq : (m.pte m.cr3 x).present = true) : vmmPageGet m x = m.pte m.cr3 x := by
  simp only [Machine.pde, Machine.pte] at hp hq
  simp [vmmPageGet, pageDirectory, dirIdx_pageMask, tableIdx_pageMask, Machine.pde, Machine.pte,
    hp, hq]

-- ---------------------------------------------------------------------------
-- The external directory
-- ---------------------------------------------------------------------------

theorem vmmExdirSet_table {f : Frame} {i : Nat} (h : f ≠ m.cr3 ∨ i ≠ exdirSlot) :
    (vmmExdirSet m d).2.table f i = m.table f i := by
  simp only [vmmExdirSet, setPageDirectory, setTable_table]
  rw [if_neg]
  tauto

theorem Spaces.exdirSet (hs : Spaces m dirs) (hc : dirs m.cr3) (pd : Frame) :
    Remaps dirs d (fun _ e => e) m (vmmExdirSet m pd).2 := by
  have hdir : ∀ {e i}, i < 768 → (vmmExdirSet m pd).2.table e i = m.table e i := by
    intro e i hi
    exact vmmExdirSet_table (.inr (by unfold exdirSlot; omega))
  refine ⟨rfl, rfl, rfl, rfl, rfl, fun _ hi => hdir hi, ?_⟩
  intro e y he hy hp
  have hpde : (vmmExdirSet m pd).2.pde e y = m.pde e y := hdir (dirIdx_lt hy)
  unfold Machine.pte
  have hne : (m.pde e y).frame ≠ m.cr3 := hs.tableNotDir he hc (dirIdx_lt hy) hp
  rw [hpde, vmmExdirSet_table (.inl hne), ite_self]

/-- The directory `d` is loaded as the external one. -/
def Loaded (m : Machine) (d : Frame) : Prop := m.exdir = ⟨⟨true, true, false⟩, d⟩

theorem vmmExdirSet_loaded (hd : d ≠ 0) : Loaded (vmmExdirSet m d).2 d := by
  simp [Loaded, vmmExdirSet, exdir, setPageDirectory, setTable_table, hd]

theorem Loaded.ne_zero (h : Loaded m d) : m.exdir ≠ Entry.zero := by
  rw [h]
  simp [Entry.zero]

theorem vmmExpageGet_loaded (hl : Loaded m d) (hp : (m.pde d x).present = true)
    (hq : (m.pte d x).present = true) : vmmExpageGet m x = m.pte d x := by
  simp only [Machine.pde, Machine.pte] at hp hq
  have he : m.exdir.frame = d := by rw [hl]
  simp [vmmExpageGet, hl.ne_zero, expageDirectory, he, dirIdx_pageMask, tableIdx_pageMask,
    Machine.pde, Machine.pte, hp, hq]

theorem vmmExpageSet_loaded {w : Entry} (hl : Loaded m d) (hp : (m.pde d x).present = true) :
    vmmExpageSet m x w = .ok (m.setTable (m.pde d x).frame (tableIdx x) w) := by
  have he : m.exdir.frame = d := by rw [hl]
  have ht : vmmExpageTouch m (pageMask x) w.toPageFlags = .ok m := by
    simp only [Machine.pde] at hp
    simp [vmmExpageTouch, hl.ne_zero, expageDirectory, he, pageMask_pageMask, dirIdx_pageMask, hp,
      pure, Except.pure]
  simp [vmmExpageSet, ht, bind, Except.bind, pure, Except.pure, hl.ne_zero, expageDirectory, he,
    dirIdx_pageMask, tableIdx_pageMask, Machine.pde]

theorem Loaded.setPte (hl : Loaded m d) (hs : Spaces m dirs) (hc : dirs m.cr3) (hd : dirs d)
    (hx : x < kernelOffset) (hp : (m.pde d x).present = true) (w : Entry) :
    Loaded (m.setTable (m.pde d x).frame (tableIdx x) w) d := by
  rw [Loaded, exdir, setTable_table, if_neg]
  · exact hl
  · rintro ⟨h, -⟩
    exact hs.tableNotDir hd hc (dirIdx_lt hx) hp h.symm

theorem Spaces.rewritePages (g : Entry → Entry) (pages : List Nat) (hs : Spaces m dirs)
    (hc : dirs m.cr3) (hd : dirs d) (hl : Loaded m d)
    (hpages : ∀ i ∈ pages, i < kernelOffset ∧ (m.pde d i).present = true ∧
      (m.pte d i).present = true)
    (hdist : (pages.map pageMask).Nodup) :
    ∃ m', rewritePages g m pages = .ok m' ∧ Loaded m' d ∧
      Remaps dirs d (fun y e => if pageMask y ∈ pages.map pageMask then g e else e) m m' := by
  induction pages generalizing m with
  | nil => exact ⟨m, rfl, hl, Remaps.refl.congr (by simp)⟩
  | cons i pages ih =>
    obtain ⟨hi, hpi, hqi⟩ := hpages i (by simp)
    have h1 := hs.setPte hd hi hpi (g (m.pte d i))
    obtain ⟨hni, hnd⟩ : pageMask i ∉ pages.map pageMask ∧ (pages.map pageMask).Nodup := by
      simpa using List.nodup_cons.mp hdist
    obtain ⟨m', hm', hl', h2⟩ := ih (hs.remaps h1) (by rwa [h1.cr3])
      (hl.setPte hs hc hd hi hpi _) (by
        intro j hj
        obtain ⟨hj1, hj2, hj3⟩ := hpages j (List.mem_cons_of_mem _ hj)
        have hne : pageMask j ≠ pageMask i := fun h => hni (h ▸ List.mem_map_of_mem hj)
        refine ⟨hj1, by rwa [h1.pde hd hj1], ?_⟩
        rw [h1.pte hd hj1 hj2, if_pos rfl, if_neg hne]
        exact hj3) hnd
    refine ⟨m', ?_, hl', (h1.trans h2).congr ?_⟩
    · rw [Os5.rewritePages, List.foldlM_cons, vmmExpageGet_loaded hl hpi hqi,
        vmmExpageSet_loaded hl hpi]
      exact hm'
    · intro y hy hp
      simp only [List.map_cons, List.mem_cons]
      by_cases hyi : pageMask y = pageMask i
      · have he : m.pte d y = m.pte d i := by
          obtain ⟨e1, e2⟩ := samePage_iff.mp hyi
          rw [Machine.pte, Machine.pte, Machine.pde, Machine.pde, e1, e2]
        rw [if_neg (by rwa [hyi]), if_pos hyi, if_pos (.inl hyi), he]
      · simp [hyi]

end

end Os5
