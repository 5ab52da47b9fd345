import Os5.Mem.Spaces

/-!
# Cloning a directory

`vmm_clone_pd` gives the clone tables of its own for the user half, with the
contents of the current directory's tables, and the current directory's own
entries for the kernel half.
-/

namespace Os5

open Machine Outcome

structure Cloned (dirs : Frame → Prop) (m₀ : Machine) (pd : Frame) (m : Machine) : Prop where
  fresh : pd ∈ m₀.free
  cr3 : m.cr3 = m₀.cr3
  kernelPd : m.kernelPd = m₀.kernelPd
  vmmRunning : m.vmmRunning = m₀.vmmRunning
  spaces : Spaces m fun f => dirs f ∨ f = pd
  freeSub : ∀ {f}, f ∈ m.free → f ∈ m₀.free
  /-- One frame for the directory and at most one for each user table. -/
  freeLen : m₀.free.length ≤ m.free.length + 769
  table : ∀ {f i}, f ∉ m₀.free → f ≠ m₀.cr3 ∨ i ≠ exdirSlot → m.table f i = m₀.table f i
  byte : ∀ {f}, f ∉ m₀.free → m.byte f = m₀.byte f
  flags : ∀ {i}, i < 768 → (m.table pd i).toPageFlags = (m₀.table m₀.cr3 i).toPageFlags
  entries : ∀ {i}, i < 768 → (m.table pd i).present = true → ∀ j,
    m.table (m.table pd i).frame j = m₀.table (m₀.table m₀.cr3 i).frame j
  kernel : ∀ {i}, 768 ≤ i → i < exdirSlot → m.table pd i = m₀.table m₀.cr3 i

/-- The state of the loop over the user tables, `todo` being the slots still to come. -/
structure Cloning (dirs : Frame → Prop) (m₀ : Machine) (pd : Frame) (todo : List Nat) (m : Machine) :
    Prop where
  fresh : pd ∈ m₀.free
  cr3 : m.cr3 = m₀.cr3
  kernelPd : m.kernelPd = m₀.kernelPd
  vmmRunning : m.vmmRunning = m₀.vmmRunning
  loaded : Loaded m pd
  spaces : Spaces m fun f => dirs f ∨ f = pd
  freeSub : ∀ {f}, f ∈ m.free → f ∈ m₀.free
  table : ∀ {f i}, f ∉ m₀.free → f ≠ m₀.cr3 ∨ i ≠ exdirSlot → m.table f i = m₀.table f i
  byte : ∀ {f}, f ∉ m₀.free → m.byte f = m₀.byte f
  freeLen : m₀.free.length + todo.length ≤ m.free.length + 769
  nodup : todo.Nodup
  inRange : ∀ i ∈ todo, i < 768
  empty : ∀ i ∈ todo, m.table pd i = Entry.zero
  flags : ∀ {i}, i < 768 → i ∉ todo →
    (m.table pd i).toPageFlags = (m₀.table m₀.cr3 i).toPageFlags
  entries : ∀ {i}, i < 768 → i ∉ todo → (m.table pd i).present = true → ∀ j,
    m.table (m.table pd i).frame j = m₀.table (m₀.table m₀.cr3 i).frame j

section
variable {dirs : Frame → Prop} {m₀ m : Machine} {pd f : Frame} {todo : List Nat} {i : Nat}

theorem Cloning.skip (h : Cloning dirs m₀ pd (i :: todo) m) (hz : m₀.table m₀.cr3 i = Entry.zero) :
    Cloning dirs m₀ pd todo m := by
  have hi : m.table pd i = Entry.zero := h.empty i (by simp)
  have hlen := h.freeLen
  rw [List.length_cons] at hlen
  refine { h with freeLen := by omega
                  nodup := (List.nodup_cons.mp h.nodup).2
                  inRange := fun j hj => h.inRange j (by simp [hj])
                  empty := fun j hj => h.empty j (by simp [hj]), flags := ?_, entries := ?_ }
  · intro j hj hnj
    by_cases hji : j = i
    · rw [hji, hi, hz]
    · exact h.flags hj (by simp [hji, hnj])
  · intro j hj hnj hp
    by_cases hji : j = i
    · rw [hji, hi] at hp
      cases hp
    · exact h.entries hj (by simp [hji, hnj]) hp

def withTable (m : Machine) (pd : Frame) (i : Nat) (src : Entry) (f : Frame) (rest : List Frame) : Machine :=
  (({ m with free := rest } : Machine).setTable pd i (vmmPageVal f src.toPageFlags)).copyFrame src.frame f

theorem withTable_table {src : Entry} {rest : List Frame} (g : Frame) (j : Nat) (hg : g ≠ f) :
    (withTable m pd i src f rest).table g j =
      if g = pd ∧ j = i then vmmPageVal f src.toPageFlags else m.table g j := by
  simp [withTable, copyFrame, hg, setTable_table]

theorem withTable_copy {src : Entry} {rest : List Frame} (hs : src.frame ≠ pd) (j : Nat) :
    (withTable m pd i src f rest).table f j = m.table src.frame j := by
  simp [withTable, copyFrame, setTable_table, hs]

theorem Spaces.withTable {dirs : Frame → Prop} {src : Entry} {rest : List Frame} (hs : Spaces m dirs)
    (hfree : m.free = f :: rest) : Spaces (withTable m pd i src f rest) dirs := by
  have hf : f ∈ m.free := by simp [hfree]
  have hsub : ∀ g ∈ rest, g ∈ m.free := by
    intro g hg
    simp [hfree, hg]
  have hnd : f ∉ rest ∧ rest.Nodup := by
    have := hs.freeNodup
    rw [hfree] at this
    exact List.nodup_cons.mp this
  have hne : ∀ {d}, dirs d → d ≠ f := by
    rintro d hd rfl
    exact hs.freeNotDir hf hd
  have hrow : ∀ {d j}, dirs d → (Os5.withTable m pd i src f rest).table d j =
      if d = pd ∧ j = i then vmmPageVal f src.toPageFlags else m.table d j :=
    fun hd => withTable_table _ _ (hne hd)
  refine ⟨hs.nonzero, ?_, ?_, fun hg => hs.freeNotDir (hsub _ hg), ?_,
    fun h0 => hs.freeNonzero (hsub 0 h0), hnd.2⟩
  · intro d e j hd he hj hp
    rw [hrow hd] at hp ⊢
    split
    · exact (hne he).symm
    · next hn =>
      rw [if_neg hn] at hp
      exact hs.tableNotDir hd he hj hp
  · intro d e j k hd he hj hk hp hq hfr
    rw [hrow hd] at hp hfr
    rw [hrow he] at hq hfr
    split at hfr
    · next h1 =>
      split at hfr
      · next h2 => exact ⟨h1.1.trans h2.1.symm, h1.2.trans h2.2.symm⟩
      · next h2 =>
        rw [if_neg h2] at hq
        exact absurd hfr.symm (hs.freeNotTable hf he hk hq)
    · next h1 =>
      rw [if_neg h1] at hp
      split at hfr
      · exact absurd hfr (hs.freeNotTable hf hd hj hp)
      · next h2 =>
        rw [if_neg h2] at hq
        exact hs.tableUnique hd he hj hk hp hq hfr
  · intro g d j hg hd hj hp
    rw [hrow hd] at hp ⊢
    split
    · rintro rfl
      exact hnd.1 hg
    · next hn =>
      rw [if_neg hn] at hp
      exact hs.freeNotTable (hsub g hg) hd hj hp

theorem cloneTable_spec (h₀ : Spaces m₀ dirs) (hc : dirs m₀.cr3)
    (h : Cloning dirs m₀ pd (i :: todo) m) :
    Yields (cloneTable m i) (fun s => s = .outOfMemory ∧ m₀.free.length < 769)
      (Cloning dirs m₀ pd todo) := by
  have hlen := h.freeLen
  rw [List.length_cons] at hlen
  have hi : i < 768 := h.inRange i (by simp)
  have hcr3 : m₀.cr3 ∉ m₀.free := fun hf => h₀.freeNotDir hf hc
  have hsrc : m.pageDirectory i = m₀.table m₀.cr3 i := by
    rw [pageDirectory, h.cr3]
    exact h.table hcr3 (.inr (by unfold exdirSlot; omega))
  unfold cloneTable
  rw [hsrc]
  split
  swap
  · next hz => exact h.skip (by simpa using hz)
  cases hfree : m.free with
  | nil =>
    simp only [hfree, List.length_nil] at hlen
    simp only [pmmAllocPage, hfree, Yields, bind, Except.bind, true_and]
    omega
  | cons f rest =>
    have hf : f ∈ m.free := by simp [hfree]
    have hpd : f ≠ pd := by
      rintro rfl
      exact h.spaces.freeNotDir hf (.inr rfl)
    have hex : m.exdir.frame = pd := by rw [h.loaded]
    -- the directory slot is read back before the copy
    have hback : (setExpageDirectory { m with free := rest } i
        (vmmPageVal f (m₀.table m₀.cr3 i).toPageFlags)) =
        ({ m with free := rest } : Machine).setTable pd i
          (vmmPageVal f (m₀.table m₀.cr3 i).toPageFlags) := by
      rw [setExpageDirectory]
      congr 1
    have hcp : m.cr3 ≠ pd := by
      rintro e
      rw [← e, h.cr3] at hpd
      exact hcr3 (by rw [← h.cr3, e]; exact h.fresh)
    have hslot : ∀ w, ((({ m with free := rest } : Machine).setTable pd i w).exdir).frame = pd := by
      intro w
      rw [exdir, setTable_table, if_neg (fun hh => hcp hh.1)]
      exact hex
    have heq : (do
        let r ← pmmAllocPage m
        let m := r.2.setExpageDirectory i (vmmPageVal r.1 (r.2.pageDirectory i).toPageFlags)
        return vmmCopyPage m (m.pageDirectory i).frame (m.expageDirectory i).frame :
          Except Stop Machine) = .ok (withTable m pd i (m₀.table m₀.cr3 i) f rest) := by
      have hpage : ({ m with free := rest } : Machine).pageDirectory i = m₀.table m₀.cr3 i := hsrc
      have hpage' : ∀ w, (({ m with free := rest } : Machine).setTable pd i w).pageDirectory i =
          m₀.table m₀.cr3 i := by
        intro w
        rw [pageDirectory, setTable_table, if_neg (fun hh => hcp hh.1)]
        exact hsrc
      have hexd : ∀ w, (({ m with free := rest } : Machine).setTable pd i w).expageDirectory i = w := by
        intro w
        rw [expageDirectory, hslot, setTable_table, if_pos ⟨rfl, rfl⟩]
      simp only [pmmAllocPage, hfree, bind, Except.bind, pure, Except.pure, hpage, hback, hpage', hexd]
      rfl
    refine Yields.of_ok ⟨_, heq, ?_⟩
    have hold : ∀ {g}, g ∉ m₀.free → g ≠ f := by
      rintro g hg rfl
      exact hg (h.freeSub hf)
    have hrow : ∀ j, (withTable m pd i (m₀.table m₀.cr3 i) f rest).table pd j =
        if j = i then vmmPageVal f (m₀.table m₀.cr3 i).toPageFlags else m.table pd j := by
      intro j
      rw [withTable_table pd j (Ne.symm hpd)]
      simp
    have hpdfree : ∀ {g}, g ∉ m₀.free → g ≠ pd := by
      rintro g hg rfl
      exact hg h.fresh
    refine ⟨h.fresh, h.cr3, h.kernelPd, h.vmmRunning, ?_, h.spaces.withTable hfree, ?_, ?_, ?_, ?_,
      (List.nodup_cons.mp h.nodup).2, fun j hj => h.inRange j (by simp [hj]), ?_, ?_, ?_⟩
    · have hcf : m.cr3 ≠ f := hold (h.cr3 ▸ hcr3)
      have he : (withTable m pd i (m₀.table m₀.cr3 i) f rest).exdir = m.exdir := by
        show (withTable m pd i (m₀.table m₀.cr3 i) f rest).table m.cr3 exdirSlot = _
        rw [withTable_table _ _ hcf, if_neg (fun hh => hcp hh.1)]
        rfl
      rw [Loaded, he]
      exact h.loaded
    · intro g hg
      exact h.freeSub (by simp [hfree]; exact .inr hg)
    · intro g j hg hj
      rw [withTable_table _ _ (hold hg), if_neg (fun hh => hpdfree hg hh.1)]
      exact h.table hg hj
    · intro g hg
      have : (withTable m pd i (m₀.table m₀.cr3 i) f rest).byte g = m.byte g := by
        simp [withTable, copyFrame, hold hg]
      rw [this]
      exact h.byte hg
    · have : (withTable m pd i (m₀.table m₀.cr3 i) f rest).free = rest := rfl
      rw [hfree, List.length_cons] at hlen
      rw [this]
      omega
    · intro j hj
      have hji : j ≠ i := by
        rintro rfl
        exact (List.nodup_cons.mp h.nodup).1 hj
      rw [hrow, if_neg hji]
      exact h.empty j (by simp [hj])
    · intro j hj hnj
      rw [hrow]
      split
      · next hji =>
        rw [hji]
        rfl
      · next hji => exact h.flags hj (by simp [hji, hnj])
    · intro j hj hnj hp k
      rw [hrow] at hp ⊢
      split
      · next hji =>
        rw [if_pos hji] at hp
        have hpres : (m₀.table m₀.cr3 i).present = true := hp
        have hs0 : (m₀.table m₀.cr3 i).frame ∉ m₀.free := fun hm =>
          h₀.freeNotTable hm hc hi hpres rfl
        have hs1 : (m₀.table m₀.cr3 i).frame ≠ m₀.cr3 := h₀.tableNotDir hc hc hi hpres
        show (withTable m pd i (m₀.table m₀.cr3 i) f rest).table f k = _
        rw [withTable_copy (hpdfree hs0), hji]
        exact h.table hs0 (.inl hs1)
      · next hji =>
        rw [if_neg hji] at hp
        have hne : (m.table pd j).frame ≠ f := h.spaces.freeNotTable hf (.inr rfl) hj hp
        have hne2 : (m.table pd j).frame ≠ pd := h.spaces.tableNotDir (.inr rfl) (.inr rfl) hj hp
        rw [withTable_table _ _ hne, if_neg (fun hh => hne2 hh.1)]
        exact h.entries hj (by simp [hji, hnj]) hp k

-- ---------------------------------------------------------------------------
-- The whole clone
-- ---------------------------------------------------------------------------

theorem cloning_start (h₀ : Spaces m₀ dirs) (hc : dirs m₀.cr3) :
    Yields (vmmNewPd m₀) (fun s => s = .outOfMemory ∧ m₀.free.length < 769) fun r =>
      Cloning dirs m₀ r.1 (List.range 768) (vmmExdirSet r.2 r.1).2 := by
  unfold vmmNewPd
  cases hfree : m₀.free with
  | nil => simp [pmmAllocPage, hfree, Yields, bind, Except.bind]
  | cons pd rest =>
    simp only [pmmAllocPage, hfree, bind, Except.bind, pure, Except.pure, yields_ok]
    set m : Machine := ({ m₀ with free := rest
                                  table := Function.update m₀.table pd fun _ => Entry.zero } :
      Machine).setTable pd 1023 (vmmPageVal pd ⟨true, true, false⟩) with hm
    have hpd : pd ∈ m₀.free := by simp [hfree]
    have hsub : ∀ {g}, g ∈ rest → g ∈ m₀.free := by
      intro g hg
      simp [hfree, hg]
    have hnd : pd ∉ rest ∧ rest.Nodup := by
      have := h₀.freeNodup
      rw [hfree] at this
      exact List.nodup_cons.mp this
    have hpd0 : pd ≠ 0 := fun h => h₀.freeNonzero (h ▸ hpd)
    have hne : ∀ {d}, dirs d → d ≠ pd := by
      rintro d hd rfl
      exact h₀.freeNotDir hpd hd
    have hold : ∀ {g}, g ≠ pd → ∀ i, m.table g i = m₀.table g i := by
      intro g hg i
      simp [hm, setTable_table, hg]
    have hzero : ∀ {i}, i < 768 → m.table pd i = Entry.zero := by
      intro i hi
      have : i ≠ 1023 := by omega
      simp [hm, setTable_table, this]
    have hpres : ∀ {d i}, dirs d ∨ d = pd → i < 768 → (m.table d i).present = true →
        dirs d ∧ m.table d i = m₀.table d i := by
      rintro d i (hd | rfl) hi hp
      · exact ⟨hd, hold (hne hd) i⟩
      · rw [hzero hi] at hp
        cases hp
    have hs : Spaces m fun f => dirs f ∨ f = pd := by
      refine ⟨?_, ?_, ?_, ?_, ?_, fun h => h₀.freeNonzero (hsub h), hnd.2⟩
      · rintro d (hd | rfl)
        · exact h₀.nonzero hd
        · exact hpd0
      · intro d e i hd he hi hp
        obtain ⟨hd', heq⟩ := hpres hd hi hp
        rw [heq] at hp ⊢
        rcases he with he | rfl
        · exact h₀.tableNotDir hd' he hi hp
        · exact h₀.freeNotTable hpd hd' hi hp
      · intro d e i j hd he hi hj hp hq hfr
        obtain ⟨hd', heq⟩ := hpres hd hi hp
        obtain ⟨he', heq'⟩ := hpres he hj hq
        rw [heq] at hp hfr
        rw [heq'] at hq hfr
        exact h₀.tableUnique hd' he' hi hj hp hq hfr
      · rintro g hg (hd | rfl)
        · exact h₀.freeNotDir (hsub hg) hd
        · exact hnd.1 hg
      · intro g d i hg hd hi hp
        obtain ⟨hd', heq⟩ := hpres hd hi hp
        rw [heq] at hp ⊢
        exact h₀.freeNotTable (hsub hg) hd' hi hp
    have hs' := hs.exdirSet (d := pd) (.inl (show dirs m.cr3 from hc)) pd
    refine ⟨hpd, rfl, rfl, rfl, vmmExdirSet_loaded hpd0, hs.remaps hs', fun hg => hsub hg, ?_, ?_, ?_,
      List.nodup_range, fun i hi => List.mem_range.mp hi, ?_, ?_, ?_⟩
    · intro g i hg hi
      rw [vmmExdirSet_table (show g ≠ m.cr3 ∨ i ≠ exdirSlot from hi)]
      refine hold ?_ i
      rintro rfl
      exact hg hpd
    · intro g _
      rfl
    · show m₀.free.length + (List.range 768).length ≤ rest.length + 769
      rw [hfree, List.length_cons, List.length_range]
    · intro i hi
      have hi : i < 768 := List.mem_range.mp hi
      rw [vmmExdirSet_table (.inr (by unfold exdirSlot; omega))]
      exact hzero hi
    · intro i hi hn
      exact absurd (List.mem_range.mpr hi) hn
    · intro i hi hn
      exact absurd (List.mem_range.mpr hi) hn

theorem foldl_shareTable {slots : List Nat} (hl : Loaded m pd) (hne : m.cr3 ≠ pd)
    (hslots : ∀ i ∈ slots, 768 ≤ i ∧ i < exdirSlot) :
    ∃ t : Nat → Entry, slots.foldl shareTable m = { m with table := Function.update m.table pd t } ∧
      ∀ i, t i = if i ∈ slots then m.table m.cr3 i else m.table pd i := by
  induction slots generalizing m with
  | nil => exact ⟨m.table pd, by simp, by simp⟩
  | cons i slots ih =>
    have hex : m.exdir.frame = pd := by rw [hl]
    have hstep : shareTable m i = m.setTable pd i (m.table m.cr3 i) := by
      rw [shareTable, setExpageDirectory, hex, pageDirectory]
    have hl' : Loaded (m.setTable pd i (m.table m.cr3 i)) pd := by
      rw [Loaded, exdir, setTable_table, if_neg (fun h => hne h.1)]
      exact hl
    obtain ⟨t, heq, ht⟩ := ih (m := m.setTable pd i (m.table m.cr3 i)) hl' hne
      fun j hj => hslots j (by simp [hj])
    refine ⟨t, ?_, fun j => ?_⟩
    · rw [List.foldl_cons, hstep, heq]
      simp [setTable]
    · rw [ht j, setTable_table, setTable_table]
      by_cases hj : j ∈ slots
      · simp [hj, hne]
      · by_cases hji : j = i <;> simp [hj, hji]

theorem mem_kernelSlots {i : Nat} :
    i ∈ List.range' (dirIdx kernelOffset) (1022 - dirIdx kernelOffset) ↔ 768 ≤ i ∧ i < exdirSlot := by
  rw [List.mem_range'_1]
  unfold dirIdx kernelOffset exdirSlot
  omega

theorem vmmClonePd_spec (h₀ : Spaces m₀ dirs) (hc : dirs m₀.cr3) :
    Yields (vmmClonePd m₀) (fun s => s = .outOfMemory ∧ m₀.free.length < 769)
      fun r => Cloned dirs m₀ r.1 r.2 := by
  unfold vmmClonePd
  refine (cloning_start h₀ hc).bind ?_
  rintro ⟨pd, m⟩ hstart
  have hrange : List.range (dirIdx kernelOffset) = List.range 768 :=
    congrArg List.range (by norm_num [dirIdx, kernelOffset])
  rw [hrange]
  generalize List.range 768 = todo at hstart ⊢
  refine (Yields.foldlM (Cloning dirs m₀ pd)
    (fun i is m h => cloneTable_spec h₀ hc h) hstart).bind ?_
  intro m h
  have hcr3 : m₀.cr3 ∉ m₀.free := fun hf => h₀.freeNotDir hf hc
  have hcp : m.cr3 ≠ pd := by
    intro e
    rw [h.cr3] at e
    exact hcr3 (e ▸ h.fresh)
  have hold : ∀ {g}, g ∉ m₀.free → g ≠ pd := by
    rintro g hg rfl
    exact hg h.fresh
  have hmem := @mem_kernelSlots
  generalize List.range' (dirIdx kernelOffset) (1022 - dirIdx kernelOffset) = slots at hmem ⊢
  obtain ⟨t, heq, ht⟩ := foldl_shareTable h.loaded hcp fun i hi => hmem.mp hi
  rw [heq]
  simp only [pure, Except.pure, yields_ok]
  set m1 : Machine := { m with table := Function.update m.table pd t } with hm1
  have hrow : ∀ {f i}, f ≠ pd ∨ i < 768 → m1.table f i = m.table f i := by
    rintro f i hfi
    by_cases hf : f = pd
    · subst hf
      have hi : i < 768 := hfi.resolve_left (fun h => h rfl)
      simp only [hm1, Function.update_self, ht i, hmem]
      rw [if_neg (by omega)]
    · simp [hm1, hf]
  have hR : Remaps (fun f => dirs f ∨ f = pd) pd (fun _ e => e) m m1 := by
    refine ⟨rfl, rfl, rfl, rfl, rfl, fun _ hi => hrow (.inr hi), ?_⟩
    intro e y he hy hp
    have hpde : m1.pde e y = m.pde e y := hrow (.inr (dirIdx_lt hy))
    have hne : (m.pde e y).frame ≠ pd := h.spaces.tableNotDir he (.inr rfl) (dirIdx_lt hy) hp
    unfold Machine.pte
    rw [hpde, hrow (.inl hne), ite_self]
  have hs1 := h.spaces.remaps hR
  have hc1 : (fun f => dirs f ∨ f = pd) m1.cr3 := .inl (by
    show dirs m.cr3
    rw [h.cr3]
    exact hc)
  have hslot : ∀ {f i} (d : Frame), f ≠ m₀.cr3 ∨ i ≠ exdirSlot →
      (vmmExdirSet m1 d).2.table f i = m1.table f i := by
    intro f i d hfi
    refine vmmExdirSet_table ?_
    rwa [show m1.cr3 = m₀.cr3 from h.cr3]
  have hpc : pd ≠ m₀.cr3 := (hold hcr3).symm
  have hlen := h.freeLen
  refine ⟨h.fresh, h.cr3, h.kernelPd, h.vmmRunning,
    hs1.remaps (hs1.exdirSet (d := pd) hc1 _), h.freeSub, ?_, ?_, ?_, ?_, ?_, ?_⟩
  · show m₀.free.length ≤ m.free.length + 769
    simpa using hlen
  · intro f i hf hi
    rw [hslot _ hi, hrow (.inl (hold hf))]
    exact h.table hf hi
  · intro f hf
    exact h.byte hf
  · intro i hi
    rw [hslot _ (.inl hpc), hrow (.inr hi)]
    exact h.flags hi (by simp)
  · intro i hi hp j
    rw [hslot _ (.inl hpc), hrow (.inr hi)] at hp ⊢
    have hne : (m.table pd i).frame ≠ pd := h.spaces.tableNotDir (.inr rfl) (.inr rfl) hi hp
    have hne' : (m.table pd i).frame ≠ m₀.cr3 := h.spaces.tableNotDir (.inr rfl) (.inl hc) hi hp
    rw [hslot _ (.inl hne'), hrow (.inl hne)]
    exact h.entries hi (by simp) hp j
  · intro i hi hi'
    rw [hslot _ (.inl hpc)]
    have : t i = m.table m.cr3 i := by
      rw [ht i, if_pos (hmem.mpr ⟨hi, hi'⟩)]
    simp only [hm1, Function.update_self, this, h.cr3]
    exact h.table hcr3 (.inr (by unfold exdirSlot at hi' ⊢; omega))

end

end Os5
