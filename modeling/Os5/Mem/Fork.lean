import Os5.Mem.Clone
import Os5.Mem.Cow

/-!
# Forking a process

`share_area` makes an area of the parent copy on write and gives the child an
area of the same range in its ring. Until `vmm_clone_pd` has given the child a
directory, the child is taken to go by the directory of its parent.
-/

namespace Os5

open Machine Circular Outcome

-- ---------------------------------------------------------------------------
-- Write protection
-- ---------------------------------------------------------------------------

section
variable {dirs : Frame → Prop} {m m' : Machine} {d : Frame} {start stop : Nat} {g : Entry → Entry}

theorem rewriteRange_spec (hs : Spaces m dirs) (hc : dirs m.cr3) (hd : dirs d)
    (h1 : pageMask start = start) (h2 : pageMask stop = stop) (hb : stop ≤ kernelOffset)
    (hp : ∀ y, start ≤ y → y < stop → (m.pde d y).present = true ∧ (m.pte d y).present = true) :
    ∃ m1, rewritePages g (vmmExdirSet m d).2 (pagesFrom start stop) = .ok m1 ∧
      Remaps dirs d (fun y e => if start ≤ y ∧ y < stop then g e else e) m
        (vmmExdirSet m1 (vmmExdirSet m d).1).2 := by
  have hr1 := hs.exdirSet (d := d) hc d
  have hs1 := hs.remaps hr1
  obtain ⟨m1, hm1, -, hr2⟩ := hs1.rewritePages g (pagesFrom start stop) hc hd
    (vmmExdirSet_loaded (hs.nonzero hd)) (by
      intro i hi
      obtain ⟨hi1, hi2, -⟩ := (mem_pagesFrom h1).mp hi
      have hlt : i < kernelOffset := Nat.lt_of_lt_of_le hi2 hb
      obtain ⟨hpi, hqi⟩ := hp i hi1 hi2
      refine ⟨hlt, by rwa [hr1.pde hd hlt], ?_⟩
      rw [hr1.pte hd hlt hpi, ite_self]
      exact hqi) (by
      rw [map_pageMask_pagesFrom h1]
      exact pagesFrom_nodup)
  have hs2 := hs1.remaps hr2
  have hc2 : dirs m1.cr3 := by
    rw [hr2.cr3]
    exact hc
  refine ⟨m1, hm1, ((hr1.trans hr2).trans (hs2.exdirSet hc2 _)).congr ?_⟩
  intro y _ _
  simp only [map_pageMask_pagesFrom h1, pageMask_mem_pagesFrom h1 h2]

theorem writeProtect_spec (hs : Spaces m dirs) (hc : dirs m.cr3) (hd : dirs d)
    (h1 : pageMask start = start) (h2 : pageMask stop = stop) (hb : stop ≤ kernelOffset)
    (hp : ∀ y, start ≤ y → y < stop → (m.pde d y).present = true ∧ (m.pte d y).present = true) :
    ∃ m', writeProtect m d start stop = .ok m' ∧
      Remaps dirs d (fun y e => if start ≤ y ∧ y < stop then { e with write := false } else e) m m' := by
  obtain ⟨m1, hm1, hr⟩ := rewriteRange_spec (g := fun e => { e with write := false }) hs hc hd h1 h2 hb hp
  refine ⟨_, ?_, hr⟩
  simp only [writeProtect, hm1, bind, Except.bind]
  rfl

end

-- ---------------------------------------------------------------------------
-- Sharing one area
-- ---------------------------------------------------------------------------

def MmFlags.shareCow (f : MmFlags) : MmFlags := { f with shared := true, write := false, cow := true }

/-- From `w` to `w'` the area `ma` of `parent` was shared with `child`. -/
structure Shared (w : Mem) (dirs : Frame → Prop) (parent child ma : Nat) (w' : Mem) : Prop where
  nextPid : w'.nextPid = w.nextPid
  current : w'.current = w.current
  pd : ∀ q, w'.pd q = w.pd q
  nextArea : w'.nextArea = w.nextArea + 1
  memOther : ∀ {q}, q ≠ child → w'.mem q = w.mem q
  memChild : w'.mem child = insertSorted w (w.area ma).stop w.nextArea (w.mem child)
  areaNew : w'.area w.nextArea = { w.area ma with flags := (w.area ma).flags.shareCow, owner := child }
  areaOld : ∀ {b}, b ≠ w.nextArea → w'.area b =
    { w.area b with flags := if b = ma then (w.area ma).flags.shareCow else (w.area b).flags }
  copies : w'.copies = append (Circular.init w.copies w.nextArea) ma w.nextArea
  machine : Remaps dirs (w.pd parent) (fun y e => if (w.area ma).start ≤ y ∧ y < (w.area ma).stop
    then { e with write := false } else e) w.machine w'.machine
  apart : ∀ {x b}, At w child x b → (w.area ma).covers x = false

section
variable {w w' : Mem} {p a b n stop x : Nat} {l : List Nat}

theorem mem_insertSorted : b ∈ insertSorted w stop n l ↔ b = n ∨ b ∈ l := by
  induction l with
  | nil => simp [insertSorted]
  | cons a l ih =>
    unfold insertSorted
    split
    · simp
    · simp only [List.mem_cons, ih]
      tauto

theorem insertSorted_nodup (hn : n ∉ l) (h : l.Nodup) : (insertSorted w stop n l).Nodup := by
  induction l with
  | nil => simp [insertSorted]
  | cons a l ih =>
    obtain ⟨ha, hl⟩ := List.nodup_cons.mp h
    obtain ⟨hna, hnl⟩ : n ≠ a ∧ n ∉ l := by simpa using hn
    unfold insertSorted
    split
    · exact List.nodup_cons.mpr ⟨hn, h⟩
    · refine List.nodup_cons.mpr ⟨?_, ih hnl hl⟩
      rw [mem_insertSorted]
      rintro (rfl | hm)
      · exact hna rfl
      · exact ha hm

theorem insertSorted_last (h : ∀ a ∈ l, ¬ stop < (w.area a).start) :
    insertSorted w stop n l = l ++ [n] := by
  induction l with
  | nil => rfl
  | cons a l ih =>
    rw [insertSorted, if_neg (h a (by simp)), ih fun b hb => h b (by simp [hb])]
    rfl

/-- The scan of `new_area` for an aligned range looks at its pages and the one at its end. -/
def Collides (w : Mem) (p start stop : Nat) : Prop :=
  ∃ i a, start ≤ i ∧ i ≤ stop ∧ At w p i a

theorem scan_iff (hwf : ∀ a ∈ w.mem p, (w.area a).Wf) {start : Nat} (h1 : pageMask start = start) :
    ((pagesFrom start (stop + 1)).any fun i => (findIncluding w p i).isSome) = true ↔
      Collides w p start stop := by
  simp only [List.any_eq_true, Option.isSome_iff_exists, Collides]
  constructor
  · rintro ⟨i, hi, a, ha⟩
    obtain ⟨h3, h4, -⟩ := (mem_pagesFrom h1).mp hi
    exact ⟨i, a, h3, by omega, at_of_findIncluding ha⟩
  · rintro ⟨i, a, h3, h4, ha⟩
    have hpage : At w p (pageMask i) a :=
      ⟨ha.1, (hwf a ha.1).covers_page (pageMask_pageMask i).symm ▸ ha.2⟩
    refine ⟨pageMask i, (mem_pagesFrom h1).mpr ⟨?_, ?_, pageMask_pageMask i⟩,
      Option.isSome_iff_exists.mp ?_⟩
    · unfold pageMask at *
      omega
    · have := pageMask_le i
      omega
    · rw [Option.isSome_iff_ne_none]
      exact fun hnone => findIncluding_eq_none.mp hnone a hpage

theorem newArea_cow (hwf : ∀ a ∈ w.mem p, (w.area a).Wf) {start type : Nat} {flags : MmFlags} (h1 : pageMask start = start)
    (h2 : pageMask stop = stop) (hb : stop ≤ kernelOffset) (hcow : flags.cow = true)
    (hn : ¬ Collides w p start stop) :
    newArea w p start stop flags type = .ok (w.nextArea,
      (allocArea w start stop flags type p).2.setMem p
        (insertSorted (allocArea w start stop flags type p).2 stop w.nextArea (w.mem p))) := by
  have hlast : ¬ lastPage ≤ stop := by
    unfold lastPage
    unfold kernelOffset at hb
    omega
  have hflag : pageFlagMask stop = 0 := by
    unfold pageMask at h2
    unfold pageFlagMask
    omega
  unfold newArea
  simp only [h1, hflag, ne_eq, not_true_eq_false, if_false, h2]
  rw [if_neg]
  · simp only [hcow, not_true_eq_false, and_false, if_false, pure, Except.pure, bind, Except.bind]
    rw [glueArea, if_neg, if_pos]
    · rfl
    · simp [allocArea, Mem.setMem, Mem.setProc, hcow]
    · simp [allocArea, Mem.setMem, Mem.setProc, ring_init.isEmpty_iff]
  · rintro (h | h)
    · exact hlast h
    · exact hn ((scan_iff hwf h1).mp h)

theorem newArea_hang (hwf : ∀ a ∈ w.mem p, (w.area a).Wf) {start type : Nat} {flags : MmFlags} (h1 : pageMask start = start)
    (h2 : pageMask stop = stop) (hn : Collides w p start stop) :
    newArea w p start stop flags type = .error .hang := by
  have hflag : pageFlagMask stop = 0 := by
    unfold pageMask at h2
    unfold pageFlagMask
    omega
  unfold newArea
  simp only [h1, hflag, ne_eq, not_true_eq_false, if_false, h2]
  rw [if_pos (.inr ((scan_iff hwf h1).mpr hn))]
  rfl

theorem insertSorted_congr (h : ∀ a ∈ l, (w'.area a).start = (w.area a).start) :
    insertSorted w' stop n l = insertSorted w stop n l := by
  induction l with
  | nil => rfl
  | cons a l ih =>
    rw [insertSorted, insertSorted, h a (by simp), ih fun b hb => h b (by simp [hb])]

theorem setArea_area (v : MemArea) : (w.setArea a v).area b = if b = a then v else w.area b := by
  by_cases h : b = a
  · subst h
    simp [Mem.setArea]
  · simp [Mem.setArea, h]

theorem shareArea_spec {dirs : Frame → Prop} {ma : Nat} (child : Nat) (hl : Layout w) (ha : ma ∈ w.mem p)
    (hs : Spaces w.machine dirs) (hc : dirs w.machine.cr3) (hd : dirs (w.pd p))
    (hp : ∀ y, (w.area ma).covers y = true → (w.machine.pde (w.pd p) y).present = true ∧
      (w.machine.pte (w.pd p) y).present = true) :
    Yields (shareArea w child ma)
      (fun s => s = .hang ∧ Collides w child (w.area ma).start (w.area ma).stop)
      (Shared w dirs p child ma) := by
  obtain ⟨h1, h2, -, h4⟩ := hl.wf ha
  have hfl := hl.flags ha
  obtain ⟨m', hm', hr⟩ := writeProtect_spec (m := w.machine) (d := w.pd p) hs hc hd h1 h2 h4
    fun y hy1 hy2 => hp y (MemArea.covers_iff.mpr ⟨hy1, hy2⟩)
  -- the world just before `new_area`
  obtain ⟨w2, hw2, harea, hmem⟩ : ∃ w2 : Mem,
      w2 = { (w.setArea ma { w.area ma with flags := (w.area ma).flags.shareCow }) with machine := m' } ∧
      (∀ b, w2.area b = { w.area b with flags :=
        if b = ma then (w.area ma).flags.shareCow else (w.area b).flags }) ∧
      ∀ q, w2.mem q = w.mem q := by
    refine ⟨_, rfl, fun b => ?_, fun q => rfl⟩
    show (w.setArea ma _).area b = _
    rw [setArea_area]
    by_cases hb : b = ma
    · subst hb
      simp
    · simp [hb]
  have hshare : shareArea w child ma = do
      let r ← newArea w2 child (w.area ma).start (w.area ma).stop (w.area ma).flags.shareCow
        (w.area ma).type
      return { r.2 with copies := append r.2.copies ma r.1 } := by
    have hown : (w.area ma).owner = p := hl.owner ha
    have hor : (w.area ma).flags.write = true ∨ (w.area ma).flags.cow = true := by
      rw [hfl]
      cases (w.area ma).flags.cow <;> simp
    unfold shareArea
    simp only [Mem.setArea, Function.update_self, Function.update_idem, if_pos hor, hown]
    have hm'' : writeProtect w.machine (w.pd p) (w.area ma).start (w.area ma).stop = .ok m' := hm'
    simp only [Mem.pd] at hm''
    simp only [Mem.pd, hm'', bind, Except.bind, pure, Except.pure, Function.update_self]
    rw [hw2, ← hown]
    rfl
  have hwf : ∀ a ∈ w2.mem child, (w2.area a).Wf := by
    intro b hb
    rw [hmem] at hb
    obtain ⟨g1, g2, g3, g4⟩ := hl.wf hb
    rw [harea]
    exact ⟨g1, g2, g3, g4⟩
  have hat : ∀ {q x b}, At w2 q x b ↔ At w q x b := by
    intro q x b
    unfold At
    rw [hmem, harea]
    rfl
  have hcoll : Collides w2 child (w.area ma).start (w.area ma).stop ↔
      Collides w child (w.area ma).start (w.area ma).stop := by
    unfold Collides
    simp only [hat]
  rw [hshare]
  by_cases hcl : Collides w child (w.area ma).start (w.area ma).stop
  · rw [newArea_hang hwf h1 h2 (hcoll.mpr hcl)]
    exact ⟨rfl, hcl⟩
  rw [newArea_cow hwf h1 h2 h4 rfl (mt hcoll.mp hcl)]
  have hnext : w2.nextArea = w.nextArea := by rw [hw2]; rfl
  have hpd : ∀ q, w2.pd q = w.pd q := fun q => by rw [hw2]; rfl
  have hne : ma ≠ w.nextArea := Nat.ne_of_lt (hl.fresh ha)
  simp only [bind, Except.bind, pure, Except.pure, yields_ok]
  refine ⟨by rw [hw2]; rfl, by rw [hw2]; rfl, fun q => ?_, by rw [hw2]; rfl, fun hq => ?_, ?_, ?_, ?_, ?_, ?_, ?_⟩
  · refine (setMem_pd _ _ _ _).trans ?_
    exact hpd q
  · refine (setMem_mem _ _ _ _).trans ?_
    rw [if_neg hq]
    exact hmem _
  · refine (setMem_mem _ _ _ _).trans ?_
    rw [if_pos rfl, hmem, hnext]
    refine insertSorted_congr fun b hb => ?_
    have hb' : b ≠ w2.nextArea := hnext ▸ Nat.ne_of_lt (hl.fresh hb)
    simp [allocArea, hb', harea]
  · rw [← hnext]
    simp [allocArea, Mem.setMem, Mem.setProc]
  · intro b hb
    rw [← hnext] at hb
    have : w2.area b = _ := harea b
    simp only [allocArea, Mem.setMem, Mem.setProc]
    rw [Function.update_of_ne hb, this]
  · rw [← hnext]
    show append (Circular.init w2.copies w2.nextArea) ma w2.nextArea = _
    rw [show w2.copies = w.copies by rw [hw2]; rfl]
  · have : w2.machine = m' := by rw [hw2]
    show Remaps dirs _ _ _ w2.machine
    rw [this]
    exact hr
  · intro x b hb
    rw [← Bool.not_eq_true]
    intro hx
    obtain ⟨g1, g2⟩ := MemArea.covers_iff.mp hx
    exact hcl ⟨x, b, g1, Nat.le_of_lt g2, hb⟩

-- ---------------------------------------------------------------------------
-- What sharing one area keeps
-- ---------------------------------------------------------------------------

def org (w : Mem) (ma b : Nat) : Nat := if b = w.nextArea then ma else b

theorem org_new (w : Mem) (ma : Nat) : org w ma w.nextArea = ma := if_pos rfl

theorem org_old {ma : Nat} (h : b ≠ w.nextArea) : org w ma b = b := if_neg h

section
variable {dirs : Frame → Prop} {parent child ma q y c : Nat} {dir : Nat → Frame}
  {img : Nat → Nat → Option Cell}

theorem Shared.mem_iff (h : Shared w dirs parent child ma w') :
    b ∈ w'.mem q ↔ q = child ∧ b = w.nextArea ∨ b ∈ w.mem q := by
  by_cases hq : q = child
  · subst hq
    rw [h.memChild, mem_insertSorted]
    simp
  · rw [h.memOther hq]
    simp [hq]

theorem Shared.area (h : Shared w dirs parent child ma w') (b : Nat) :
    (w'.area b).start = (w.area (org w ma b)).start ∧ (w'.area b).stop = (w.area (org w ma b)).stop ∧
      (w'.area b).flags = if org w ma b = ma then (w.area ma).flags.shareCow
        else (w.area (org w ma b)).flags := by
  by_cases hb : b = w.nextArea
  · subst hb
    rw [org_new, h.areaNew]
    simp
  · rw [org_old hb, h.areaOld hb]
    simp

theorem Shared.covers (h : Shared w dirs parent child ma w') (b : Nat) :
    (w'.area b).covers x = (w.area (org w ma b)).covers x := by
  obtain ⟨h1, h2, -⟩ := h.area b
  unfold MemArea.covers
  rw [h1, h2]

theorem Shared.owner (h : Shared w dirs parent child ma w') (b : Nat) :
    (w'.area b).owner = if b = w.nextArea then child else (w.area b).owner := by
  by_cases hb : b = w.nextArea
  · subst hb
    rw [h.areaNew, if_pos rfl]
  · rw [h.areaOld hb, if_neg hb]

theorem Shared.live_iff (h : Shared w dirs parent child ma w') :
    Live w' b ↔ Live w b ∨ b = w.nextArea := by
  unfold Live
  rw [h.mem_iff, h.owner]
  by_cases hb : b = w.nextArea
  · simp [hb]
  · simp [hb]

theorem Shared.not_live (hl : Layout w) : ¬ Live w w.nextArea :=
  fun hn => Nat.lt_irrefl _ (hl.fresh hn)

theorem Shared.org_live (hl : Layout w) (ha : ma ∈ w.mem parent) (hb : Live w b ∨ b = w.nextArea) :
    Live w (org w ma b) := by
  by_cases h : b = w.nextArea
  · subst h
    rw [org_new]
    exact hl.live ha
  · rw [org_old h]
    exact hb.resolve_right h

theorem Shared.same_iff (h : Shared w dirs parent child ma w') (hl : Layout w) (ha : ma ∈ w.mem parent)
    (hb : Live w b ∨ b = w.nextArea) (hc : Live w c ∨ c = w.nextArea) :
    SameRing w'.copies b c ↔ SameRing w.copies (org w ma b) (org w ma c) := by
  rw [h.copies, (hl.rings.appendNew (hl.live ha) (not_live hl)).2 b c hb hc]
  rfl

theorem Shared.at_iff (h : Shared w dirs parent child ma w') (hl : Layout w) :
    At w' q x b ↔ q = child ∧ b = w.nextArea ∧ (w.area ma).covers x = true ∨ At w q x b := by
  unfold At
  rw [h.mem_iff, h.covers]
  by_cases hb : b = w.nextArea
  · subst hb
    have : w.nextArea ∉ w.mem q := fun hn => Nat.lt_irrefl _ (hl.fresh hn)
    rw [org_new]
    simp [this]
  · rw [org_old hb]
    simp [hb]

theorem Shared.layout (h : Shared w dirs parent child ma w') (hl : Layout w) (ha : ma ∈ w.mem parent)
    (hch : w.living child = true) : Layout w' where
  owner {q b} hb := by
    rw [h.owner]
    rcases h.mem_iff.mp hb with ⟨rfl, rfl⟩ | hb
    · rw [if_pos rfl]
    · rw [if_neg (Nat.ne_of_lt (hl.fresh hb)), hl.owner hb]
  living {q b} hb := by
    have hliv : w'.living q = w.living q := by rw [Mem.living, Mem.living, h.nextPid]
    rw [hliv]
    rcases h.mem_iff.mp hb with ⟨rfl, -⟩ | hb
    · exact hch
    · exact hl.living hb
  nodup q := by
    by_cases hq : q = child
    · subst hq
      rw [h.memChild]
      exact insertSorted_nodup (fun hn => Nat.lt_irrefl _ (hl.fresh hn)) (hl.nodup q)
    · rw [h.memOther hq]
      exact hl.nodup q
  fresh {q b} hb := by
    rw [h.nextArea]
    rcases h.mem_iff.mp hb with ⟨-, rfl⟩ | hb
    · exact Nat.lt_succ_self _
    · exact Nat.lt_succ_of_lt (hl.fresh hb)
  wf {q b} hb := by
    obtain ⟨h1, h2, -⟩ := h.area b
    obtain ⟨g1, g2, g3, g4⟩ : (w.area (org w ma b)).Wf := by
      rcases h.mem_iff.mp hb with ⟨-, rfl⟩ | hb
      · rw [org_new]
        exact hl.wf ha
      · rw [org_old (Nat.ne_of_lt (hl.fresh hb))]
        exact hl.wf hb
    exact ⟨by rw [h1, g1], by rw [h2, g2], by rw [h1, h2]; exact g3, by rw [h2]; exact g4⟩
  apart {q b c x} hb hc := by
    rcases (h.at_iff hl).mp hb with ⟨rfl, rfl, h1⟩ | hb
    · rcases (h.at_iff hl).mp hc with ⟨-, rfl, -⟩ | hc
      · rfl
      · rw [h.apart hc] at h1
        cases h1
    · rcases (h.at_iff hl).mp hc with ⟨rfl, rfl, h1⟩ | hc
      · rw [h.apart hb] at h1
        cases h1
      · exact hl.apart hb hc
  rings := by
    rw [h.copies]
    exact (hl.rings.appendNew (hl.live ha) (not_live hl)).1.congr fun b => h.live_iff
  range {b c} hb hs := by
    have hR : Rings w'.copies (Live w') := by
      rw [h.copies]
      exact (hl.rings.appendNew (hl.live ha) (not_live hl)).1.congr fun b => h.live_iff
    have hc := (h.live_iff).mp (hR.closed hb hs)
    have hb := (h.live_iff).mp hb
    rw [(h.area b).1, (h.area b).2.1, (h.area c).1, (h.area c).2.1]
    exact hl.range (org_live hl ha hb) ((h.same_iff hl ha hb hc).mp hs)
  cow {b c} hb hs hne := by
    have hR : Rings w'.copies (Live w') := by
      rw [h.copies]
      exact (hl.rings.appendNew (hl.live ha) (not_live hl)).1.congr fun b => h.live_iff
    have hc := (h.live_iff).mp (hR.closed hb hs)
    have hb := (h.live_iff).mp hb
    have hs := (h.same_iff hl ha hb hc).mp hs
    rw [(h.area b).2.2]
    split
    · rfl
    · next hbm =>
      refine hl.cow (org_live hl ha hb) hs ?_
      intro heq
      have hbn : b ≠ w.nextArea := by
        rintro rfl
        exact hbm (org_new w ma)
      rw [org_old hbn] at heq hbm
      by_cases hcn : c = w.nextArea
      · rw [hcn, org_new] at heq
        exact hbm heq
      · rw [org_old hcn] at heq
        exact hne heq
  flags {q b} hb := by
    rw [(h.area b).2.2]
    split
    · rfl
    · next hbm =>
      rcases h.mem_iff.mp hb with ⟨-, rfl⟩ | hb
      · exact absurd (org_new w ma) hbm
      · rw [org_old (Nat.ne_of_lt (hl.fresh hb))]
        exact hl.flags hb

/-- An address of an area comes from an address of a process with the same directory. -/
theorem Shared.origin (h : Shared w dirs parent child ma w') (hl : Layout w) (ha : ma ∈ w.mem parent)
    (hdir : dir child = dir parent) (hb : At w' q x b) :
    ∃ q₀, At w q₀ x (org w ma b) ∧ dir q = dir q₀ := by
  rcases (h.at_iff hl).mp hb with ⟨rfl, rfl, h1⟩ | hb
  · rw [org_new]
    exact ⟨parent, ⟨ha, h1⟩, hdir⟩
  · rw [org_old (Nat.ne_of_lt (hl.fresh hb.1))]
    exact ⟨q, hb, rfl⟩

theorem Shared.backed (h : Shared w (Dirs w dir) parent child ma w') (hl : Layout w) (hb : Backed w dir)
    (ha : ma ∈ w.mem parent) (hpd : w.pd parent = dir parent) (hdir : dir child = dir parent)
    (hown : ∀ {q}, w.living q = true → dir q = dir parent → q = parent ∨ q = child)
    (hch : w.living child = true) : Backed w' dir := by
  have hl' := h.layout hl ha hch
  have hdirs : Dirs w' dir = Dirs w dir := by
    unfold Dirs Mem.living
    rw [h.nextPid]
  have hpde : ∀ {q x b}, At w q x b → w'.machine.pde (dir q) x = w.machine.pde (dir q) x := by
    intro q x b hq
    exact h.machine.pde (hb.dirs hl hq) (hl.at_lt hq)
  have hpte : ∀ {q x b}, At w q x b → w'.machine.pte (dir q) x =
      if b = ma then { w.machine.pte (dir q) x with write := false } else w.machine.pte (dir q) x := by
    intro q x b hq
    rw [h.machine.pte (hb.dirs hl hq) (hl.at_lt hq) (hb.pde_present hq), hpd]
    by_cases hbm : b = ma
    · subst hbm
      obtain rfl := hl.at_eq hq ⟨ha, hq.2⟩
      rw [if_pos rfl, if_pos rfl, if_pos (MemArea.covers_iff.mp hq.2)]
    · rw [if_neg hbm]
      by_cases hd : dir q = dir parent
      · rw [if_pos hd, if_neg]
        intro hx
        have hx := MemArea.covers_iff.mpr hx
        rcases hown (hl.living hq.1) hd with rfl | rfl
        · exact hbm (hl.apart hq ⟨ha, hx⟩)
        · rw [h.apart hq] at hx
          cases hx
      · rw [if_neg hd]
  have hframe : ∀ {q q₀ x b}, At w q₀ x b → dir q = dir q₀ → w'.frame dir q x = w.frame dir q₀ x := by
    intro q q₀ x b hq hd
    rw [Mem.frame, hd, hpte hq]
    split <;> rfl
  have hlive : ∀ {q x b}, At w' q x b → Live w b ∨ b = w.nextArea :=
    fun hq => (h.live_iff).mp (hl'.at_live hq)
  refine ⟨?_, ?_, ?_, ?_, ?_, ?_, ?_⟩
  · rw [hdirs]
    exact hb.spaces.remaps h.machine
  · rw [hdirs, h.machine.cr3]
    exact hb.loaded
  · intro q x b hq
    obtain ⟨q₀, h0, hd⟩ := h.origin hl ha hdir hq
    rw [hd, hpde h0]
    exact hb.pde h0
  · intro q x b hq
    obtain ⟨q₀, h0, hd⟩ := h.origin hl ha hdir hq
    rw [hd, hpte h0, (h.area b).2.2]
    have h1 := hb.pte h0
    split
    · have h2 := congrArg PageFlags.present h1
      have h3 := congrArg PageFlags.user h1
      simpa [MmFlags.shareCow] using And.intro h2 h3
    · exact h1
  · intro q r x y b c hq hr heq
    obtain ⟨q₀, h0, hd⟩ := h.origin hl ha hdir hq
    obtain ⟨r₀, g0, gd⟩ := h.origin hl ha hdir hr
    rw [hframe h0 hd, hframe g0 gd] at heq
    rw [h.same_iff hl ha (hlive hq) (hlive hr)]
    exact hb.shared h0 g0 heq
  · intro q r x b c hq hr hs
    obtain ⟨q₀, h0, hd⟩ := h.origin hl ha hdir hq
    obtain ⟨r₀, g0, gd⟩ := h.origin hl ha hdir hr
    rw [hframe h0 hd, hframe g0 gd]
    exact hb.same h0 g0 ((h.same_iff hl ha (hlive hq) (hlive hr)).mp hs)
  · intro q x b hq
    obtain ⟨q₀, h0, hd⟩ := h.origin hl ha hdir hq
    rw [hframe h0 hd, h.machine.free]
    exact hb.notFree h0

theorem Shared.noshare (h : Shared w dirs parent child ma w') (b : Nat) :
    (w'.area b).flags.noshare = (w.area (org w ma b)).flags.noshare := by
  rw [(h.area b).2.2]
  split
  · next hb => rw [hb]; rfl
  · rfl

theorem Shared.frame (h : Shared w (Dirs w dir) parent child ma w') (hl : Layout w) (hb : Backed w dir)
    (hq : At w q x b) : w'.frame dir q x = w.frame dir q x := by
  rw [Mem.frame, h.machine.pte (hb.dirs hl hq) (hl.at_lt hq) (hb.pde_present hq)]
  split
  · split <;> rfl
  · rfl

theorem Shared.agrees (h : Shared w (Dirs w dir) parent child ma w') (hl : Layout w) (hb : Backed w dir)
    (he : Agrees w dir img) (ha : ma ∈ w.mem parent) (hdir : dir child = dir parent)
    (himg : ∀ x, (w.area ma).covers x = true → img child x = img parent x) : Agrees w' dir img := by
  intro q x b hq
  have hcell : ∀ {q₀}, At w q₀ x (org w ma b) → dir q = dir q₀ →
      w'.cell dir q x b = w.cell dir q₀ x (org w ma b) := by
    intro q₀ h0 hd
    unfold Mem.cell
    rw [h.noshare, h.machine.byte, ← h.frame hl hb h0, Mem.frame, Mem.frame, hd]
  rcases (h.at_iff hl).mp hq with ⟨rfl, rfl, h1⟩ | hq
  · have h0 : At w parent x (org w ma w.nextArea) := by
      rw [org_new]
      exact ⟨ha, h1⟩
    rw [himg x h1, he h0, hcell h0 hdir]
  · have h0 : At w q x (org w ma b) := by rwa [org_old (Nat.ne_of_lt (hl.fresh hq.1))]
    rw [he h0, hcell h0 rfl]

end

-- ---------------------------------------------------------------------------
-- The loop over the areas of the parent
-- ---------------------------------------------------------------------------

/-- What the processes find once `child` has a copy of all that `parent` passes on. -/
def afterFork (img : Nat → Nat → Option Cell) (parent child : Nat) : Nat → Nat → Option Cell :=
  Function.update img child fun x => (img parent x).filter fun c => !c.noshare

/-- The fork of `parent` under way, the areas `todo` still to come. -/
structure Forking (w₀ : Mem) (dir : Nat → Frame) (img : Nat → Nat → Option Cell) (parent child : Nat)
    (todo : List Nat) (w : Mem) : Prop where
  layout : Layout w
  backed : Backed w dir
  agrees : Agrees w dir img
  pd : ∀ {q}, q ≠ child → w.pd q = w₀.pd q
  nextPid : w.nextPid = w₀.nextPid + 1
  current : w.current = w₀.current
  cr3 : w.machine.cr3 = w₀.machine.cr3
  free : w.machine.free = w₀.machine.free
  mem : ∀ {q}, q ≠ child → w.mem q = w₀.mem q
  area : ∀ {q a}, a ∈ w₀.mem q → (w.area a).start = (w₀.area a).start ∧
    (w.area a).stop = (w₀.area a).stop ∧ (w.area a).flags.noshare = (w₀.area a).flags.noshare
  rest : ∃ done, w₀.mem parent = done ++ todo
  ofParent : ∀ {b}, b ∈ w.mem child → ∃ a ∈ w₀.mem parent, a ∉ todo ∧
    (w₀.area a).flags.noshare = false ∧ (w.area b).start = (w₀.area a).start ∧
    (w.area b).stop = (w₀.area a).stop
  given : ∀ {a}, a ∈ w₀.mem parent → a ∉ todo → (w₀.area a).flags.noshare = false →
    ∃ b ∈ w.mem child, (w.area b).start = (w₀.area a).start ∧ (w.area b).stop = (w₀.area a).stop ∧
      SameRing w.copies a b
  ordered : Ordered w₀ parent → Ordered w child ∧
    ∀ b ∈ w.mem child, ∀ a ∈ todo, (w.area b).stop ≤ (w₀.area a).start

section
variable {w₀ : Mem} {dir : Nat → Frame} {img : Nat → Nat → Option Cell} {parent child a : Nat}
  {todo : List Nat}

theorem Forking.skip (h : Forking w₀ dir img parent child (a :: todo) w)
    (hn : (w₀.area a).flags.noshare = true) :
    Forking w₀ dir img parent child todo w := by
  obtain ⟨done, hd⟩ := h.rest
  refine { h with rest := ⟨done ++ [a], by simpa using hd⟩, ofParent := fun hb => ?_, given := ?_, ordered := ?_ }
  · obtain ⟨c, h1, h2, h3⟩ := h.ofParent hb
    exact ⟨c, h1, fun hc => h2 (List.mem_cons_of_mem _ hc), h3⟩
  · intro c hc hnt hs
    refine h.given hc ?_ hs
    rw [List.mem_cons, not_or]
    refine ⟨?_, hnt⟩
    rintro rfl
    rw [hn] at hs
    cases hs
  · intro ho
    exact ⟨(h.ordered ho).1, fun b hb c hc => (h.ordered ho).2 b hb c (List.mem_cons_of_mem _ hc)⟩

structure ForkStart (w₀ : Mem) (dir : Nat → Frame) (img : Nat → Nat → Option Cell) (parent child : Nat) :
    Prop where
  layout : Layout w₀
  fresh : w₀.nextPid = child
  living : w₀.living parent = true
  ne : parent ≠ child
  dirParent : dir parent = w₀.pd parent
  dirChild : dir child = dir parent
  own : ∀ {q}, q < w₀.nextPid + 1 → 0 < q → dir q = dir parent → q = parent ∨ q = child
  img : ∀ {x a}, At w₀ parent x a → (w₀.area a).flags.noshare = false → img child x = img parent x

theorem Forking.at_parent (h : Forking w₀ dir img parent child todo w) (h0 : ForkStart w₀ dir img parent child)
    {x : Nat} : At w parent x a ↔ At w₀ parent x a := by
  unfold At
  rw [h.mem h0.ne]
  refine and_congr_right fun ha => ?_
  obtain ⟨h1, h2, -⟩ := h.area ha
  unfold MemArea.covers
  rw [h1, h2]

theorem shareArea_fork (h : Forking w₀ dir img parent child (a :: todo) w)
    (h0 : ForkStart w₀ dir img parent child) (hn : (w₀.area a).flags.noshare = false) :
    Yields (shareArea w child a) (fun s => s = .hang ∧ ¬ Ordered w₀ parent)
      (Forking w₀ dir img parent child todo) := by
  obtain ⟨done, hdone⟩ := h.rest
  have ha₀ : a ∈ w₀.mem parent := by simp [hdone]
  have ha : a ∈ w.mem parent := by rwa [h.mem h0.ne]
  have hl := h.layout
  have hat : ∀ {y}, (w.area a).covers y = true → At w parent y a := fun hy => ⟨ha, hy⟩
  have hliv : ∀ {q}, w.living q = true ↔ 0 < q ∧ q < w₀.nextPid + 1 := by
    intro q
    simp [Mem.living, h.nextPid]
  have hlp : w.living parent = true := by
    have := h0.living
    simp only [Mem.living, Bool.and_eq_true, decide_eq_true_eq] at this
    exact hliv.mpr ⟨this.1, Nat.lt_succ_of_lt this.2⟩
  have hlc : w.living child = true := by
    have := h0.living
    simp only [Mem.living, Bool.and_eq_true, decide_eq_true_eq] at this
    have := h0.fresh
    exact hliv.mpr ⟨by omega, by omega⟩
  have hpd : w.pd parent = dir parent := by rw [h.pd h0.ne, h0.dirParent]
  obtain ⟨hst, hsp, hns⟩ := h.area ha₀
  have hspec := shareArea_spec child hl ha h.backed.spaces h.backed.loaded
    (by rw [hpd]; exact ⟨parent, hlp, rfl⟩) (fun y hy => by
      rw [hpd]
      exact ⟨h.backed.pde_present (hat hy), h.backed.pte_present (hat hy)⟩)
  refine hspec.mono ?_ ?_
  swap
  · rintro s ⟨hs, i, b, hi1, hi2, hb⟩
    refine ⟨hs, fun ho => ?_⟩
    have h1 := (h.ordered ho).2 b hb.1 a (by simp)
    have h2 := (MemArea.covers_iff.mp hb.2).2
    rw [hst] at hi1
    omega
  intro w' hs
  have hnn : a ∉ todo := by
    have := h0.layout.nodup parent
    rw [hdone] at this
    exact (List.nodup_cons.mp (List.nodup_append.mp this).2.1).1
  have hold : ∀ {q b}, b ∈ w₀.mem q → b ≠ w.nextArea := by
    intro q b hb
    have hq : q ≠ child := by
      rintro rfl
      have := h0.layout.living hb
      simp only [Mem.living, Bool.and_eq_true, decide_eq_true_eq] at this
      have := h0.fresh
      omega
    exact Nat.ne_of_lt (hl.fresh (by rwa [h.mem hq]))
  have hmc : ∀ {b}, b ∈ w'.mem child ↔ b = w.nextArea ∨ b ∈ w.mem child := by
    intro b
    rw [hs.mem_iff]
    simp
  have hcold : ∀ {b}, b ∈ w.mem child → b ≠ w.nextArea := fun hb => Nat.ne_of_lt (hl.fresh hb)
  have hnew : (w'.area w.nextArea).start = (w₀.area a).start ∧
      (w'.area w.nextArea).stop = (w₀.area a).stop := by
    obtain ⟨h1, h2, -⟩ := hs.area w.nextArea
    rw [org_new] at h1 h2
    exact ⟨h1.trans hst, h2.trans hsp⟩
  refine ⟨hs.layout hl ha hlc, hs.backed hl h.backed ha hpd h0.dirChild
      (fun hq => h0.own (hliv.mp hq).2 (hliv.mp hq).1) hlc,
    hs.agrees hl h.backed h.agrees ha h0.dirChild (fun x hx => h0.img (h.at_parent h0 |>.mp (hat hx)) hn),
    fun hq => (hs.pd _).trans (h.pd hq), hs.nextPid.trans h.nextPid, hs.current.trans h.current,
    hs.machine.cr3.trans h.cr3, hs.machine.free.trans h.free, fun hq => (hs.memOther hq).trans (h.mem hq),
    ?_, ⟨done ++ [a], by simpa using hdone⟩, ?_, ?_, ?_⟩
  · intro q b hb
    obtain ⟨h1, h2, -⟩ := hs.area b
    have h3 := hs.noshare b
    rw [org_old (hold hb)] at h1 h2 h3
    obtain ⟨g1, g2, g3⟩ := h.area hb
    exact ⟨h1.trans g1, h2.trans g2, h3.trans g3⟩
  · intro b hb
    rcases hmc.mp hb with rfl | hb
    · exact ⟨a, ha₀, hnn, hn, hnew.1, hnew.2⟩
    · obtain ⟨c, h1, h2, h3, h4, h5⟩ := h.ofParent hb
      obtain ⟨g1, g2, -⟩ := hs.area b
      rw [org_old (hcold hb)] at g1 g2
      exact ⟨c, h1, fun hc => h2 (List.mem_cons_of_mem _ hc), h3, g1.trans h4, g2.trans h5⟩
  · intro c hc hnt hcs
    by_cases hca : c = a
    · subst hca
      refine ⟨w.nextArea, hmc.mpr (.inl rfl), hnew.1, hnew.2, ?_⟩
      rw [hs.same_iff hl ha (.inl (hl.live ha)) (.inr rfl), org_new, org_old (hold ha₀)]
      exact hl.rings.self (hl.live ha)
    · obtain ⟨b, h1, h2, h3, h4⟩ := h.given hc (by simp [hca, hnt]) hcs
      obtain ⟨g1, g2, -⟩ := hs.area b
      rw [org_old (hcold h1)] at g1 g2
      refine ⟨b, hmc.mpr (.inr h1), g1.trans h2, g2.trans h3, ?_⟩
      have hcl : Live w c := hl.live (by rwa [h.mem h0.ne] : c ∈ w.mem parent)
      rw [hs.same_iff hl ha (.inl hcl) (.inl (hl.live h1)), org_old (hold hc), org_old (hcold h1)]
      exact h4
  · intro ho
    obtain ⟨h1, h2⟩ := h.ordered ho
    have hlast : w'.mem child = w.mem child ++ [w.nextArea] := by
      rw [hs.memChild]
      refine insertSorted_last fun b hb => ?_
      have h3 := h2 b hb a (by simp)
      have h4 := (hl.wf hb).le
      have h5 := (hl.wf ha).le
      rw [hst] at h5
      omega
    have harea : ∀ {b}, b ∈ w.mem child → (w'.area b).start = (w.area b).start ∧
        (w'.area b).stop = (w.area b).stop := by
      intro b hb
      obtain ⟨g1, g2, -⟩ := hs.area b
      rw [org_old (hcold hb)] at g1 g2
      exact ⟨g1, g2⟩
    refine ⟨?_, ?_⟩
    · unfold Ordered
      rw [hlast, List.pairwise_append]
      refine ⟨?_, by simp, ?_⟩
      · refine List.Pairwise.imp_of_mem ?_ h1
        intro b c hb hc hbc
        rw [(harea hb).2, (harea hc).1]
        exact hbc
      · intro b hb c hc
        rw [List.mem_singleton.mp hc, hnew.1, (harea hb).2]
        exact h2 b hb a (by simp)
    · intro b hb c hc
      rcases hmc.mp hb with rfl | hb
      · rw [hnew.2]
        have hpw := ho
        unfold Ordered at hpw
        rw [hdone] at hpw
        exact (List.pairwise_cons.mp (List.pairwise_append.mp hpw).2.1).1 c hc
      · rw [(harea hb).2]
        exact h2 b hb c (List.mem_cons_of_mem _ hc)

theorem procmmFork_spec (h : Forking w₀ dir img parent child (w₀.mem parent) w)
    (h0 : ForkStart w₀ dir img parent child) :
    Yields ((w₀.mem parent).foldlM
        (fun w ma => if (w.area ma).flags.noshare then .ok w else shareArea w child ma) w)
      (fun s => s = .hang ∧ ¬ Ordered w₀ parent) (Forking w₀ dir img parent child []) := by
  refine Yields.foldlM (Forking w₀ dir img parent child) ?_ h
  intro a todo w h
  obtain ⟨done, hdone⟩ := h.rest
  have hns := (h.area (show a ∈ w₀.mem parent by simp [hdone])).2.2
  rw [hns]
  cases hn : (w₀.area a).flags.noshare with
  | true => exact h.skip hn
  | false => exact shareArea_fork h h0 hn

end

-- ---------------------------------------------------------------------------
-- The child gets its directory
-- ---------------------------------------------------------------------------

section
variable {img : Nat → Nat → Option Cell}

def forkDir (w : Mem) (parent child : Nat) : Nat → Frame := Function.update w.pd child (w.pd parent)

theorem Inv.mem_next (h : Inv w img) : w.mem w.nextPid = [] := by
  rw [List.eq_nil_iff_forall_not_mem]
  intro a ha
  have := h.layout.living ha
  simp [Mem.living] at this

theorem Inv.forkStart (h : Inv w img) (hrun : Running w p) :
    ForkStart w (forkDir w p w.nextPid) (afterFork img p w.nextPid) p w.nextPid := by
  have hlp := hrun.living
  simp only [Mem.living, Bool.and_eq_true, decide_eq_true_eq] at hlp
  have hne : p ≠ w.nextPid := Nat.ne_of_lt hlp.2
  refine ⟨h.layout, rfl, hrun.living, hne, by simp [forkDir, hne], by simp [forkDir, hne], ?_, ?_⟩
  · intro q hq hq0 hd
    by_cases hqc : q = w.nextPid
    · exact .inr hqc
    · simp only [forkDir, Function.update_of_ne hqc, Function.update_of_ne hne] at hd
      refine .inl (h.ownDirs ?_ hrun.living hd)
      simp only [Mem.living, Bool.and_eq_true, decide_eq_true_eq]
      omega
  · intro x a ha hn
    have := h.agrees ha
    simp [afterFork, hne, this, Mem.cell, hn]

theorem Inv.forking (h : Inv w img) (hrun : Running w p) :
    Forking w (forkDir w p w.nextPid) (afterFork img p w.nextPid) p w.nextPid (w.mem p)
      ((allocProcess w).2.setProc w.nextPid { (allocProcess w).2.proc w.nextPid with
        stackLimit := ((allocProcess w).2.proc p).stackLimit, mem := [] }) := by
  have hlp := hrun.living
  simp only [Mem.living, Bool.and_eq_true, decide_eq_true_eq] at hlp
  have hne : p ≠ w.nextPid := Nat.ne_of_lt hlp.2
  set w1 : Mem := (allocProcess w).2.setProc w.nextPid { (allocProcess w).2.proc w.nextPid with
    stackLimit := ((allocProcess w).2.proc p).stackLimit, mem := [] } with hw1
  have hmem : ∀ q, w1.mem q = w.mem q := by
    intro q
    by_cases hq : q = w.nextPid
    · subst hq
      rw [h.mem_next]
      simp [hw1, Mem.mem, Mem.setProc]
    · simp [hw1, Mem.mem, Mem.setProc, allocProcess, hq]
  have hliv : ∀ {q}, w.living q = true → w1.living q = true := by
    intro q hq
    simp only [Mem.living, Bool.and_eq_true, decide_eq_true_eq] at hq ⊢
    exact ⟨hq.1, Nat.lt_succ_of_lt hq.2⟩
  have hat : ∀ {q x a}, At w1 q x a ↔ At w q x a := by
    intro q x a
    unfold At
    rw [hmem]
    rfl
  have hdir : ∀ {q x a}, At w q x a → forkDir w p w.nextPid q = w.pd q := by
    intro q x a ha
    have hq : q ≠ w.nextPid := by
      rintro rfl
      have := ha.1
      rw [h.mem_next] at this
      cases this
    rw [forkDir, Function.update_of_ne hq]
  have hdirs : Dirs w1 (forkDir w p w.nextPid) = Dirs w w.pd := by
    funext f
    apply propext
    constructor
    · rintro ⟨q, hq, rfl⟩
      by_cases hqc : q = w.nextPid
      · subst hqc
        exact ⟨p, hrun.living, by simp [forkDir]⟩
      · refine ⟨q, ?_, by simp [forkDir, hqc]⟩
        have : w1.nextPid = w.nextPid + 1 := rfl
        simp only [Mem.living, Bool.and_eq_true, decide_eq_true_eq] at hq ⊢
        omega
    · rintro ⟨q, hq, rfl⟩
      have hqc : q ≠ w.nextPid := by
        simp only [Mem.living, Bool.and_eq_true, decide_eq_true_eq] at hq
        omega
      exact ⟨q, hliv hq, by simp [forkDir, hqc]⟩
  have hframe : ∀ {q x a}, At w q x a → w1.frame (forkDir w p w.nextPid) q x = w.frame w.pd q x := by
    intro q x a ha
    rw [Mem.frame, hdir ha]
    rfl
  refine ⟨?_, ?_, ?_, fun hq => by simp [hw1, Mem.pd, Mem.setProc, allocProcess, hq], rfl, rfl, rfl, rfl, fun _ => hmem _,
    fun _ => ⟨rfl, rfl, rfl⟩, ⟨[], rfl⟩, ?_, fun ha hn => absurd ha hn, ?_⟩
  · exact h.layout.congr hmem rfl rfl rfl fun _ => hliv
  · refine ⟨by rw [hdirs]; exact h.backed.spaces, by rw [hdirs]; exact h.backed.loaded, ?_, ?_, ?_, ?_, ?_⟩
    · intro q x a ha
      have ha := hat.mp ha
      rw [hdir ha]
      exact h.backed.pde ha
    · intro q x a ha
      have ha := hat.mp ha
      rw [hdir ha]
      exact h.backed.pte ha
    · intro q r x y a b ha hb heq
      have ha := hat.mp ha
      have hb := hat.mp hb
      rw [hframe ha, hframe hb] at heq
      exact h.backed.shared ha hb heq
    · intro q r x a b ha hb hs
      have ha := hat.mp ha
      have hb := hat.mp hb
      rw [hframe ha, hframe hb]
      exact h.backed.same ha hb hs
    · intro q x a ha
      have ha := hat.mp ha
      rw [hframe ha]
      exact h.backed.notFree ha
  · intro q x a ha
    have ha := hat.mp ha
    have hq : q ≠ w.nextPid := by
      rintro rfl
      have := ha.1
      rw [h.mem_next] at this
      cases this
    rw [afterFork, Function.update_of_ne hq, h.agrees ha]
    unfold Mem.cell
    rw [hframe ha]
    rfl
  · intro b hb
    rw [hmem, h.mem_next] at hb
    cases hb
  · intro _
    refine ⟨?_, fun b hb => ?_⟩
    · unfold Ordered
      rw [hmem, h.mem_next]
      exact .nil
    · rw [hmem, h.mem_next] at hb
      cases hb

theorem Forking.cloned {w₀ w : Mem} {m : Machine} {pd : Frame}
    (h : Forking w₀ (forkDir w₀ p w₀.nextPid) (afterFork img p w₀.nextPid) p w₀.nextPid [] w)
    (hi : Inv w₀ img) (hrun : Running w₀ p)
    (hc : Cloned (Dirs w (forkDir w₀ p w₀.nextPid)) w.machine pd m) :
    Inv (({ w with machine := m } : Mem).setProc w₀.nextPid { w.proc w₀.nextPid with pd := pd })
      (afterFork img p w₀.nextPid) := by
  set dir := forkDir w₀ p w₀.nextPid with hdirdef
  set w' : Mem := ({ w with machine := m } : Mem).setProc w₀.nextPid
    { w.proc w₀.nextPid with pd := pd } with hw'
  have hl := h.layout
  have hb := h.backed
  have h0 := hi.forkStart hrun
  have hmem : ∀ q, w'.mem q = w.mem q := by
    intro q
    by_cases hq : q = w₀.nextPid
    · subst hq
      simp [hw', Mem.mem, Mem.setProc]
    · simp [hw', Mem.mem, Mem.setProc, hq]
  have hpd : w'.pd = Function.update dir w₀.nextPid pd := by
    funext q
    by_cases hq : q = w₀.nextPid
    · subst hq
      simp [hw', Mem.pd, Mem.setProc]
    · have := h.pd hq
      simp only [Mem.pd] at this
      simp [hw', Mem.pd, Mem.setProc, hq, hdirdef, forkDir, this]
  have hcr3 : w.machine.cr3 = dir p := by rw [h.cr3, hrun.cr3, hdirdef, h0.dirParent]
  have hfree : ∀ {f}, Dirs w dir f → f ∉ w.machine.free := fun hd hf => hb.spaces.freeNotDir hf hd
  have hpdnew : ∀ {f}, Dirs w dir f → f ≠ pd := by
    rintro f hd rfl
    exact hfree hd hc.fresh
  -- a process other than the child still finds the tables it found
  have hold : ∀ {d y}, Dirs w dir d → y < kernelOffset → m.pde d y = w.machine.pde d y := by
    intro d y hd hy
    have := dirIdx_lt hy
    exact hc.table (hfree hd) (.inr (by unfold exdirSlot; omega))
  have holdpte : ∀ {d y}, Dirs w dir d → y < kernelOffset → (w.machine.pde d y).present = true →
      m.pte d y = w.machine.pte d y := by
    intro d y hd hy hp
    have h1 : (w.machine.pde d y).frame ∉ w.machine.free :=
      fun hf => hb.spaces.freeNotTable hf hd (dirIdx_lt hy) hp rfl
    have h2 : (w.machine.pde d y).frame ≠ w.machine.cr3 :=
      hb.spaces.tableNotDir hd hb.loaded (dirIdx_lt hy) hp
    rw [Machine.pte, hold hd hy, hc.table h1 (.inl h2)]
    rfl
  have hentry : ∀ {q x a}, At w q x a → (m.pde (w'.pd q) x).toPageFlags = (w.machine.pde (dir q) x).toPageFlags ∧
      m.pte (w'.pd q) x = w.machine.pte (dir q) x := by
    intro q x a ha
    have hx := hl.at_lt ha
    have hpres := hb.pde_present ha
    by_cases hq : q = w₀.nextPid
    · subst hq
      have hdq : dir w₀.nextPid = w.machine.cr3 := by rw [hcr3, hdirdef, h0.dirChild]
      have hfl := hc.flags (dirIdx_lt hx)
      rw [hpd, Function.update_self, hdq]
      refine ⟨hfl, hc.entries (dirIdx_lt hx) ?_ _⟩
      rw [hdq] at hpres
      have := congrArg PageFlags.present hfl
      exact this.trans hpres
    · rw [hpd, Function.update_of_ne hq]
      have hd := hb.dirs hl ha
      exact ⟨by rw [hold hd hx], holdpte hd hx hpres⟩
  have hat : ∀ {q x a}, At w' q x a ↔ At w q x a := by
    intro q x a
    unfold At
    rw [hmem]
    rfl
  have hframe : ∀ {q x a}, At w q x a → w'.frame w'.pd q x = w.frame dir q x := by
    intro q x a ha
    exact congrArg Entry.frame (hentry ha).2
  have hdirs : ∀ {f}, Dirs w' w'.pd f → Dirs w dir f ∨ f = pd := by
    rintro f ⟨q, hq, rfl⟩
    rw [hpd]
    by_cases hqc : q = w₀.nextPid
    · subst hqc
      exact .inr (Function.update_self ..)
    · rw [Function.update_of_ne hqc]
      exact .inl ⟨q, hq, rfl⟩
  refine ⟨?_, ?_, ?_, ?_, ?_, ?_⟩
  · exact hl.congr hmem rfl rfl rfl fun _ hq => hq
  · refine ⟨hc.spaces.mono fun _ hd => hdirs hd, ?_, ?_, ?_, ?_, ?_, ?_⟩
    · have hlp : w'.living p = true := by
        have := hrun.living
        simp only [Mem.living, Bool.and_eq_true, decide_eq_true_eq] at this ⊢
        have := h.nextPid
        have : w'.nextPid = w.nextPid := rfl
        omega
      refine ⟨p, hlp, ?_⟩
      rw [hpd, Function.update_of_ne h0.ne, ← hcr3]
      exact hc.cr3.symm
    · intro q x a ha
      have ha := hat.mp ha
      exact ((hentry ha).1).trans (hb.pde ha)
    · intro q x a ha
      have ha := hat.mp ha
      show (m.pte (w'.pd q) x).toPageFlags = _
      rw [(hentry ha).2]
      exact hb.pte ha
    · intro q r x y a b ha hb' heq
      have ha := hat.mp ha
      have hb' := hat.mp hb'
      rw [hframe ha, hframe hb'] at heq
      exact hb.shared ha hb' heq
    · intro q r x a b ha hb' hs
      have ha := hat.mp ha
      have hb' := hat.mp hb'
      rw [hframe ha, hframe hb']
      exact hb.same ha hb' hs
    · intro q x a ha hf
      have ha := hat.mp ha
      rw [hframe ha] at hf
      exact hb.notFree ha (hc.freeSub hf)
  · intro q x a ha
    have ha := hat.mp ha
    rw [h.agrees ha]
    unfold Mem.cell
    rw [hframe ha]
    show some (Cell.mk _ (w.machine.byte _ _)) = some (Cell.mk _ (m.byte _ _))
    rw [hc.byte (hb.notFree ha)]
    rfl
  · intro q x hx
    by_cases hq : q = w₀.nextPid
    · subst hq
      rw [afterFork, Function.update_self]
      cases hp : img p x with
      | none => rfl
      | some c =>
        have hap : ∃ a, At w₀ p x a := by
          by_contra hno
          rw [hi.absent (fun a ha => hno ⟨a, ha⟩)] at hp
          cases hp
        obtain ⟨a, ha⟩ := hap
        have hcell := hi.agrees ha
        rw [hp] at hcell
        cases hcell
        cases hn : (w₀.area a).flags.noshare with
        | true => simp [Mem.cell, hn]
        | false =>
          obtain ⟨b, hb1, hb2, hb3, -⟩ := h.given ha.1 (by simp) hn
          refine absurd (hat.mpr ⟨hb1, ?_⟩) (hx b)
          have := ha.2
          rw [MemArea.covers_iff] at this ⊢
          rwa [hb2, hb3]
    · rw [afterFork, Function.update_of_ne hq]
      refine hi.absent fun a ha => ?_
      obtain ⟨h1, h2, -⟩ := h.area ha.1
      refine hx a (hat.mpr ⟨by rw [h.mem hq]; exact ha.1, ?_⟩)
      have := ha.2
      rw [MemArea.covers_iff] at this ⊢
      rwa [h1, h2]
  · intro q r hq hr hqr
    have hn : w'.nextPid = w₀.nextPid + 1 := h.nextPid
    have hlt : ∀ {q}, w'.living q = true → q ≠ w₀.nextPid → w₀.living q = true := by
      intro q hq hne
      simp only [Mem.living, Bool.and_eq_true, decide_eq_true_eq] at hq ⊢
      omega
    rw [hpd] at hqr
    by_cases hqc : q = w₀.nextPid
    · by_cases hrc : r = w₀.nextPid
      · rw [hqc, hrc]
      · rw [hqc, Function.update_self, Function.update_of_ne hrc] at hqr
        exact absurd hqr.symm (hpdnew ⟨r, hr, rfl⟩)
    · by_cases hrc : r = w₀.nextPid
      · rw [hrc, Function.update_self, Function.update_of_ne hqc] at hqr
        exact absurd hqr (hpdnew ⟨q, hq, rfl⟩)
      · rw [Function.update_of_ne hqc, Function.update_of_ne hrc] at hqr
        simp only [hdirdef, forkDir, Function.update_of_ne hqc, Function.update_of_ne hrc] at hqr
        exact hi.ownDirs (hlt hq hqc) (hlt hr hrc) hqr
  · show 0 < w.nextPid
    rw [h.nextPid]
    exact Nat.succ_pos _

theorem forkProcess_spec (h : Inv w img) (hrun : Running w p) :
    Yields (forkProcess w)
      (fun s => s = .outOfMemory ∧ w.machine.free.length < 769 ∨ s = .hang ∧ ¬ Ordered w p)
      fun r => r.1 = w.nextPid ∧ Inv r.2 (afterFork img p r.1) ∧ Running r.2 p ∧
        r.2.nextPid = w.nextPid + 1 ∧ w.machine.free.length ≤ r.2.machine.free.length + 769 ∧
        ((∀ q, Ordered w q) → ∀ q, Ordered r.2 q) ∧
        ∀ {x a}, At w p x a → (w.area a).flags.noshare = false →
          At r.2 p x a ∧ ∃ b, At r.2 r.1 x b ∧ SameRing r.2.copies a b := by
  have hstart := h.forking hrun
  have h0 := h.forkStart hrun
  unfold forkProcess procmmFork
  rw [hrun.current]
  have hmem0 : ∀ v : Process, ((allocProcess w).2.setProc w.nextPid v).mem p = w.mem p := by
    intro v
    have hne := h0.ne
    simp [Mem.mem, Mem.setProc, allocProcess, hne]
  simp only [show (allocProcess w).1 = w.nextPid from rfl]
  rw [hmem0]
  refine ((procmmFork_spec hstart h0).mono (fun _ h => h) (fun _ h => .inr h)).bind ?_
  intro w1 h1
  refine ((vmmClonePd_spec h1.backed.spaces h1.backed.loaded).mono (fun _ h => h) ?_).bind ?_
  · rintro s ⟨hs, hlen⟩
    exact .inl ⟨hs, by rwa [h1.free] at hlen⟩
  rintro ⟨pd, m⟩ hc
  simp only [yields_pure]
  have hmem : ∀ q, (({ w1 with machine := m } : Mem).setProc w.nextPid
      { w1.proc w.nextPid with pd := pd }).mem q = w1.mem q := by
    intro q
    by_cases hq : q = w.nextPid
    · subst hq
      simp [Mem.mem, Mem.setProc]
    · simp [Mem.mem, Mem.setProc, hq]
  have hlen := hc.freeLen
  rw [h1.free] at hlen
  refine ⟨trivial, h1.cloned h hrun hc, ⟨h1.current.trans hrun.current, ?_, ?_⟩, h1.nextPid, hlen, ?_, ?_⟩
  · have hlp := hrun.living
    simp only [Mem.living, Bool.and_eq_true, decide_eq_true_eq] at hlp ⊢
    refine ⟨hlp.1, ?_⟩
    show p < w1.nextPid
    rw [h1.nextPid]
    omega
  · show m.cr3 = _
    rw [hc.cr3, h1.cr3, hrun.cr3]
    have := h1.pd h0.ne
    simp only [Mem.pd] at this
    simp [Mem.pd, Mem.setProc, h0.ne, this]
  · intro ho q
    unfold Ordered
    rw [hmem]
    by_cases hq : q = w.nextPid
    · subst hq
      exact (h1.ordered (ho p)).1
    · rw [h1.mem hq]
      refine List.Pairwise.imp_of_mem ?_ (ho q)
      intro a b ha hb hab
      show (w1.area a).stop ≤ (w1.area b).start
      rw [(h1.area ha).2.1, (h1.area hb).1]
      exact hab
  · intro x a ha hn
    obtain ⟨b, hb1, hb2, hb3, hb4⟩ := h1.given ha.1 (by simp) hn
    obtain ⟨g1, g2, -⟩ := h1.area ha.1
    have hcov := ha.2
    rw [MemArea.covers_iff] at hcov
    refine ⟨⟨by rw [hmem, h1.mem h0.ne]; exact ha.1, ?_⟩, b, ⟨by rw [hmem]; exact hb1, ?_⟩, hb4⟩
    · show (w1.area a).covers x = true
      rw [MemArea.covers_iff, g1, g2]
      exact hcov
    · show (w1.area b).covers x = true
      rw [MemArea.covers_iff, hb2, hb3]
      exact hcov

end

end

end Os5
