import Os5.Mem.Sharing

/-!
# The copy-on-write fault

A store to a page that is copy on write ends, after `procmm_handle_page_fault`,
in the page being an area of its own that may be written, and no process reads
anything else than before.
-/

namespace Os5

open Machine Circular Outcome

def OwnDirs (w : Mem) (dir : Nat → Frame) : Prop :=
  ∀ {p q}, w.living p = true → w.living q = true → dir p = dir q → p = q

/-- The machine `w` does what `img` says the processes should find. -/
structure Inv (w : Mem) (img : Nat → Nat → Option Cell) : Prop where
  layout : Layout w
  backed : Backed w w.pd
  agrees : Agrees w w.pd img
  absent : ∀ {p x}, (∀ a, ¬ At w p x a) → img p x = none
  ownDirs : OwnDirs w w.pd
  pos : 0 < w.nextPid

structure Running (w : Mem) (p : Nat) : Prop where
  current : w.current = p
  living : w.living p = true
  cr3 : w.machine.cr3 = w.pd p

section
variable {w w' : Mem} {img : Nat → Nat → Option Cell} {p q x y a b : Nat} {e : Entry}

theorem Regroups.inv (hr : Regroups w w') (h : Inv w img) (hl' : Layout w') : Inv w' img := by
  have hpd : w'.pd = w.pd := funext hr.pd
  refine ⟨hl', hpd ▸ hr.backed h.layout hl' h.backed, hpd ▸ hr.agrees h.agrees, fun hx => h.absent ?_, ?_,
    hr.nextPid ▸ h.pos⟩
  · intro a ha
    obtain ⟨a', ha'⟩ := hr.up ha
    exact hx a' ha'
  · intro p q hp hq
    unfold Mem.living at hp hq
    rw [hr.nextPid] at hp hq
    rw [hpd]
    exact h.ownDirs hp hq

theorem Owned.inv (ho : Owned w w.pd p x a e w') (h : Inv w img) (ha : At w p x a)
    (hpage : ∀ {y}, (w.area a).covers y = true → pageMask y = pageMask x) : Inv w' img := by
  have hpd : w'.pd = w.pd := by
    funext q
    rw [Mem.pd, Mem.pd, ho.proc]
  refine ⟨ho.layout h.layout, hpd ▸ ho.backed h.layout h.backed ha hpage, hpd ▸ ho.agrees h.agrees,
    fun hx => h.absent ?_, ?_, ho.nextPid ▸ h.pos⟩
  · intro b hb
    exact hx b (ho.at_iff.mpr hb)
  · intro p q hp hq
    unfold Mem.living at hp hq
    rw [ho.nextPid] at hp hq
    rw [hpd]
    exact h.ownDirs hp hq

theorem Inv.dir_eq_iff (h : Inv w img) (ha : At w p x a) (hb : At w q y b) : w.pd q = w.pd p ↔ q = p :=
  ⟨fun e => h.ownDirs (h.layout.living hb.1) (h.layout.living ha.1) e, fun e => e ▸ rfl⟩

theorem Inv.setPte {m : Machine} (h : Inv w img) (ha : At w p x a) (ht : m.table = w.machine.table)
    (hs : Spaces m (Dirs w w.pd)) (e : Entry) (hb : At w q y b) :
    (m.setTable (w.machine.pde (w.pd p) x).frame (tableIdx x) e).pte (w.pd q) y =
      if q = p ∧ pageMask y = pageMask x then e else w.machine.pte (w.pd q) y := by
  have hpde : ∀ d z, m.pde d z = w.machine.pde d z := fun d z => by rw [Machine.pde, ht]; rfl
  have hpte : ∀ d z, m.pte d z = w.machine.pte d z := fun d z => by
    rw [Machine.pte, hpde, ht]
    rfl
  have hr := hs.setPte (h.backed.dirs h.layout ha) (h.layout.at_lt ha)
    (by rw [hpde]; exact h.backed.pde_present ha) e
  rw [hpde] at hr
  have hpt := hr.pte (h.backed.dirs h.layout hb) (h.layout.at_lt hb)
    (by rw [hpde]; exact h.backed.pde_present hb)
  rw [hpt, hpte]
  have hiff := h.dir_eq_iff ha hb
  by_cases hq : q = p
  · rw [if_pos (hiff.mpr hq)]
    simp [hq]
  · rw [if_neg (mt hiff.mp hq)]
    simp [hq]

theorem Inv.setPte_spaces {m : Machine} (h : Inv w img) (ha : At w p x a)
    (ht : m.table = w.machine.table) (hs : Spaces m (Dirs w w.pd)) (e : Entry) :
    Spaces (m.setTable (w.machine.pde (w.pd p) x).frame (tableIdx x) e) (Dirs w w.pd) ∧
      ∀ {q z}, Dirs w w.pd (w.pd q) → z < kernelOffset →
        (m.setTable (w.machine.pde (w.pd p) x).frame (tableIdx x) e).pde (w.pd q) z =
          w.machine.pde (w.pd q) z := by
  have hpde : ∀ d z, m.pde d z = w.machine.pde d z := fun d z => by rw [Machine.pde, ht]; rfl
  have hr := hs.setPte (h.backed.dirs h.layout ha) (h.layout.at_lt ha)
    (by rw [hpde]; exact h.backed.pde_present ha) e
  rw [hpde] at hr
  exact ⟨hs.remaps hr, fun hq hz => (hr.pde hq hz).trans (hpde _ _)⟩

theorem Running.vmmPageSet {m : Machine} (hrun : Running w p) (h : Inv w img) (ha : At w p x a)
    (ht : m.table = w.machine.table) (hc : m.cr3 = w.machine.cr3) (e : Entry) :
    vmmPageSet m (pageMask x) e =
      .ok (m.setTable (w.machine.pde (w.pd p) x).frame (tableIdx x) e) := by
  have hpde : m.pde m.cr3 (pageMask x) = w.machine.pde (w.pd p) x := by
    rw [Machine.pde, ht, hc, hrun.cr3, dirIdx_pageMask]
    rfl
  rw [vmmPageSet_present (by rw [hpde]; exact h.backed.pde_present ha), hpde, tableIdx_pageMask]

theorem Running.vmmPageGet (hrun : Running w p) (h : Inv w img) (ha : At w p x a) :
    vmmPageGet w.machine x = w.machine.pte (w.pd p) x := by
  rw [← hrun.cr3]
  exact vmmPageGet_present (hrun.cr3 ▸ h.backed.pde_present ha) (hrun.cr3 ▸ h.backed.pte_present ha)

theorem owned_last (h : Inv w img) (ha : At w p x a)
    (hempty : isEmpty w.copies a = true) :
    Owned w w.pd p x a { w.machine.pte (w.pd p) x with write := true }
      (unCow { w with machine := w.machine.setTable (w.machine.pde (w.pd p) x).frame (tableIdx x)
                        { w.machine.pte (w.pd p) x with write := true } } a) := by
  have halone := (h.layout.isEmpty_iff ha.1).mp hempty
  have hset := h.setPte_spaces ha rfl h.backed.spaces { w.machine.pte (w.pd p) x with write := true }
  refine ⟨rfl, rfl, rfl, rfl, rfl, rfl, hset.1, hset.2, fun hb => h.setPte ha rfl h.backed.spaces _ hb, ?_, ?_,
    ?_, Nat.le_succ _, fun _ => rfl, fun _ => rfl, h.layout.rings, fun hs => halone _ hs, fun _ _ _ => Iff.rfl⟩
  · have := h.backed.pte ha
    simp [this]
  · intro q y b hb heq
    obtain ⟨hp, hs⟩ := h.backed.shared ha hb heq.symm
    obtain rfl := halone b hs
    exact ⟨h.layout.at_eq hb ha, hp.symm⟩
  · intro f hf
    refine ⟨hf, ?_⟩
    rintro rfl
    exact h.backed.notFree ha hf

theorem owned_copy {f : Frame} {rest : List Frame} {m : Machine} (h : Inv w img) (ha : At w p x a)
    (hfree : w.machine.free = f :: rest)
    (hm : m = ({ w.machine with free := rest } : Machine).setTable
      (w.machine.pde (w.pd p) x).frame (tableIdx x)
      (vmmPageVal f { (w.machine.pte (w.pd p) x).toPageFlags with write := true })) :
    Owned w w.pd p x a (vmmPageVal f { (w.machine.pte (w.pd p) x).toPageFlags with write := true })
      { (unCow { w with machine := m.copyBytes (w.machine.pte (w.pd p) x).frame f } a) with
        copies := Circular.remove w.copies a } := by
  subst hm
  have hf : f ∈ w.machine.free := by simp [hfree]
  have hs := h.backed.spaces.alloc hfree
  have hset := h.setPte_spaces (m := { w.machine with free := rest }) ha rfl hs
    (vmmPageVal f { (w.machine.pte (w.pd p) x).toPageFlags with write := true })
  obtain ⟨hR, hself, hrem⟩ := h.layout.rings.remove (h.layout.at_live ha)
  have hnf : ∀ {q y b}, At w q y b → w.frame w.pd q y ≠ f := by
    rintro q y b hb rfl
    exact h.backed.notFree hb hf
  refine ⟨rfl, rfl, rfl, rfl, rfl, rfl, hset.1.of_tables rfl rfl, hset.2,
    fun hb => h.setPte (m := { w.machine with free := rest }) ha rfl hs _ hb, ?_, ?_, ?_,
    by rw [hfree]; rfl, ?_, ?_, hR, ?_, ?_⟩
  · have := h.backed.pte ha
    simp [vmmPageVal, this]
  · intro q y b hb heq
    exact absurd heq (hnf hb)
  · intro g hg
    have hg : g ∈ rest := hg
    refine ⟨by simp [hfree, hg], ?_⟩
    rintro rfl
    have := h.backed.spaces.freeNodup
    rw [hfree] at this
    exact (List.nodup_cons.mp this).1 hg
  · intro g i hg
    have hg : g ≠ f := hg
    show (copyBytes _ _ f).byte g i = _
    rw [copyBytes_byte, if_neg hg]
    rfl
  · intro i
    show (copyBytes _ _ f).byte f i = _
    rw [copyBytes_byte, if_pos rfl]
    rfl
  · intro b hs
    have hs : SameRing (Circular.remove w.copies a) a b := hs
    rcases (hrem a b (h.layout.at_live ha)).mp hs with rfl | ⟨hne, -⟩
    · rfl
    · exact absurd rfl hne
  · intro b c hb hba hca
    show SameRing (Circular.remove w.copies a) b c ↔ _
    rw [hrem b c hb]
    constructor
    · rintro (rfl | ⟨-, -, h1⟩)
      · exact h.layout.rings.self hb
      · exact h1
    · exact fun h1 => .inr ⟨hba, hca, h1⟩

theorem page_within {v : MemArea} (hv : v.Wf) (hx : v.covers x = true) :
    v.start ≤ pageMask x ∧ pageMask x + pageSize ≤ v.stop ∧
      wrap (pageMask x + pageSize) = pageMask x + pageSize ∧
      pageMask (pageMask x + pageSize) = pageMask x + pageSize := by
  obtain ⟨h1, h2, h3, h4⟩ := hv
  rw [MemArea.covers_iff] at hx
  unfold kernelOffset at h4
  unfold pageMask pageSize wrap at *
  omega

/-- The fault of a store to a page that is copy on write. -/
theorem handleCow_spec (h : Inv w img) (hrun : Running w p) (ha : At w p x a)
    (hcow : (w.area a).flags.cow = true) :
    Yields (procmmHandlePageFault w x true true) (fun s => s = .outOfMemory ∧ w.machine.free = [])
      fun r => r.1 = true ∧ Inv r.2 img ∧ Running r.2 p ∧ r.2.nextPid = w.nextPid ∧
        w.machine.free.length ≤ r.2.machine.free.length + 1 ∧
        (∀ q, Ordered w q → Ordered r.2 q) ∧ ∃ b, At r.2 p x b ∧ (r.2.area b).flags.cow = false := by
  obtain ⟨hlo, hhi, hwrap, hmask⟩ := page_within (h.layout.wf ha.1) ha.2
  obtain ⟨w1, hw1, hl1, hr, hord, hlive, harea⟩ := splitArea_spec h.layout (h.layout.at_live ha)
    (pageMask_pageMask x) hmask (by unfold pageSize; omega) hlo hhi
  have h1 := hr.inv h hl1
  have hrun1 : Running w1 p := by
    refine ⟨hr.current.trans hrun.current, ?_, ?_⟩
    · have := hrun.living
      unfold Mem.living at this ⊢
      rwa [hr.nextPid]
    · rw [hr.machine, hr.pd, hrun.cr3]
  have hcov : ∀ y, (w1.area a).covers y = true ↔ pageMask y = pageMask x := by
    intro y
    rw [harea, MemArea.covers_iff]
    unfold pageMask pageSize
    simp only
    omega
  have ha1 : At w1 p x a := by
    refine ⟨?_, (hcov x).mpr rfl⟩
    have : (w1.area a).owner = p := by
      rw [harea]
      exact h.layout.at_owner ha
    rw [← this]
    exact hlive
  -- what both branches end with
  have hdone : ∀ {e w2}, Owned w1 w1.pd p x a e w2 → Inv w2 img ∧ Running w2 p ∧
      w2.nextPid = w.nextPid ∧ w.machine.free.length ≤ w2.machine.free.length + 1 ∧
      (∀ q, Ordered w q → Ordered w2 q) ∧
      ∃ b, At w2 p x b ∧ (w2.area b).flags.cow = false := by
    intro e w2 ho
    refine ⟨ho.inv h1 ha1 fun hy => (hcov _).mp hy, ⟨ho.current.trans hrun1.current, ?_, ?_⟩,
      ho.nextPid.trans hr.nextPid, hr.machine ▸ ho.freeLen, fun q hq => ho.ordered (hord q hq), a, ho.at_iff.mpr ha1, ?_⟩
    · have := hrun1.living
      unfold Mem.living at this ⊢
      rwa [ho.nextPid]
    · rw [ho.cr3, hrun1.cr3, Mem.pd, Mem.pd, ho.proc]
    · rw [ho.area, unCow_flags_self]
  unfold procmmHandlePageFault
  rw [hrun.current, (findIncluding_eq_some h.layout).mpr ha]
  simp only [hcow, Bool.and_self, if_true, hwrap, hw1, bind, Except.bind]
  rw [hrun1.vmmPageGet h1 ha1]
  split
  · next hempty =>
    rw [hrun1.vmmPageSet h1 ha1 rfl rfl]
    simp only [pure, Except.pure, yields_ok, true_and]
    exact hdone (owned_last h1 ha1 hempty)
  · cases hfree : w1.machine.free with
    | nil => simp [pmmAllocPage, hfree, ← hr.machine]
    | cons f rest =>
      simp only [pmmAllocPage, hfree]
      rw [hrun1.vmmPageSet (m := { w1.machine with free := rest }) h1 ha1 rfl rfl]
      simp only [pure, Except.pure, yields_ok, true_and]
      exact hdone (owned_copy h1 ha1 hfree rfl)

end

end Os5
