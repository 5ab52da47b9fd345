import Os5.Mem.Changes
import Os5.Mem.Programs

/-!
# What is mapped lies in an area

The page tables of a process and its list of areas are kept by different code. In a run in
which no range runs backwards, no segment reaches beyond `KERNEL_OFFSET` and no process with
an area that is not passed on forks, every page that is mapped for a process lies in one of
its areas, so that `procmm_removeall` leaves nothing mapped.
-/

namespace Os5

open Machine Outcome Transition

/-- Every page of user space that is mapped for `p` lies in one of its areas. -/
def Covered (w : Mem) (p : Nat) : Prop :=
  ∀ x, x < kernelOffset → w.machine.mapped (w.pd p) x = true → ∃ a, At w p x a

/-- What holds of the address spaces of all processes, and of the areas of those in use. -/
structure Fit (w : Mem) (used : Nat → Prop) : Prop where
  spaces : Spaces w.machine (Dirs w w.pd)
  own : OwnDirs w w.pd
  loaded : w.machine.cr3 = w.pd w.current
  below : ∀ {p a}, a ∈ w.mem p → (w.area a).stop ≤ kernelOffset
  covered : ∀ p, w.living p = true → used p → Covered w p

section
variable {w w' : Mem} {used used' : Nat → Prop} {P : Nat → Prop} {p q a b x start stop type : Nat}
  {flags : MmFlags} {m : Machine}

theorem SameFrame.living (h : SameFrame w w') (q : Nat) : w'.living q = w.living q := by
  rw [Mem.living, Mem.living, h.nextPid]

theorem SameFrame.dirs (h : SameFrame w w') : Dirs w' w'.pd = Dirs w w.pd := by
  funext f
  unfold Dirs
  simp only [h.living, h.pd]

theorem Fit.loaded_dir (h : Fit w used) (hcur : w.living w.current = true) : Dirs w w.pd w.machine.cr3 :=
  ⟨w.current, hcur, h.loaded.symm⟩

theorem Lists.wf_below (hl : Lists w) (h : Fit w used) (ha : a ∈ w.mem p) : (w.area a).Wf :=
  ⟨(hl.wf ha).start, (hl.wf ha).stop, (hl.wf ha).le, h.below ha⟩

theorem Fit.mono (h : Fit w used) (hused : ∀ q, w.living q = true → used' q → used q) : Fit w used' :=
  { h with covered := fun q hq hu => h.covered q hq (hused q hq hu) }

theorem Fit.switchProcess (h : Fit w used) (p : Nat) : Fit (switchProcess w p) used where
  spaces := h.spaces.of_tables rfl rfl
  own := h.own
  loaded := rfl
  below := h.below
  covered := h.covered

theorem Fit.change (h : Fit w used) (hf : SameFrame w w') (hp : w.living p = true)
    (hc : Changes (Dirs w w.pd) (w.pd p) P w.machine w'.machine)
    (hbelow : ∀ {q a}, a ∈ w'.mem q → (w'.area a).stop ≤ kernelOffset)
    (hused : ∀ q, w.living q = true → used' q → used q)
    (hnew : ∀ {x}, x < kernelOffset → P x → (w'.machine.leaf (w.pd p) x).present = true → ∃ b, At w' p x b)
    (hold : ∀ {q x a}, used' q → At w q x a → (q = p → ¬ P x) → ∃ b, At w' q x b) : Fit w' used' where
  spaces := hf.dirs ▸ hc.spaces
  own {q r} hq hr heq := by
    rw [hf.pd, hf.pd] at heq
    exact h.own (hf.living q ▸ hq) (hf.living r ▸ hr) heq
  loaded := by rw [hc.cr3, h.loaded, hf.pd, hf.current]
  below := hbelow
  covered q hq hu x hx hmapped := by
    have hq : w.living q = true := hf.living q ▸ hq
    rw [mapped_iff_leaf, hf.pd] at hmapped
    by_cases hin : q = p ∧ P x
    · obtain ⟨rfl, hP⟩ := hin
      exact hnew hx hP hmapped
    · have hout : q = p → ¬ P x := fun hqp hP => hin ⟨hqp, hP⟩
      have hsame : w'.machine.leaf (w.pd q) x = w.machine.leaf (w.pd q) x := by
        refine hc.leaf ⟨q, hq, rfl⟩ hx ?_
        by_cases hqp : q = p
        · exact .inr (hout hqp)
        · exact .inl fun hpd => hqp (h.own hq hp hpd)
      rw [hsame, ← mapped_iff_leaf] at hmapped
      obtain ⟨a, ha⟩ := h.covered q hq (hused q hq hu) x hx hmapped
      exact hold hu ha hout

-- ---------------------------------------------------------------------------
-- Entering an area
-- ---------------------------------------------------------------------------

theorem Entered.forward (hl : Lists w) (h : Entered w p start stop flags type w')
    (hscan : scanHangs w p start stop = false) (hstart : pageMask start = start) (hle : start ≤ stop) :
    (w'.area (enteredAs w p start flags type)).start =
      (leftOf w p start flags type).elim start (fun a => (w.area a).start) ∧
    (w'.area (enteredAs w p start flags type)).stop = stop := by
  refine h.range fun c hc => ?_
  obtain ⟨-, hcm, hcs, -⟩ := rightOf_some hc
  exact (scan_inside hscan hstart hcm (hl.wf hcm) (hcs ▸ hle) (Nat.le_of_eq hcs)).trans hcs

theorem Entered.lists_forward (hl : Lists w) (hl' : Linked w') (h : Entered w p start stop flags type w')
    (hscan : scanHangs w p start stop = false) (hstart : pageMask start = start) (hstop : pageMask stop = stop)
    (hle : start ≤ stop) : Lists w' := by
  obtain ⟨hfirst, hlast⟩ := h.forward hl hscan hstart hle
  have hlt : stop < 2 ^ 32 := (scan_lt hscan).trans (by norm_num [lastPage])
  refine ⟨hl', fun hb => h.aligned hl ?_ hb⟩
  cases hleft : leftOf w p start flags type with
  | none =>
    rw [hleft] at hfirst
    exact .of_range hfirst hlast hstart hstop hle hlt
  | some a =>
    obtain ⟨-, ha, has, -⟩ := leftOf_some hleft
    rw [hleft] at hfirst
    exact .of_range hfirst hlast (hl.wf ha).start hstop ((hl.wf ha).le.trans (has ▸ hle)) hlt

theorem Entered.entered_mem (hl : Linked w) (h : Entered w p start stop flags type w') :
    enteredAs w p start flags type ∈ w'.mem p :=
  (h.mem_iff hl).mpr ⟨.inr rfl, fun hright => (rightOf_some hright).2.2.2.1 rfl⟩

theorem Entered.at_new (hl : Lists w) (h : Entered w p start stop flags type w')
    (hscan : scanHangs w p start stop = false) (hstart : pageMask start = start) (hle : start ≤ stop)
    (hx : start ≤ x ∧ x < stop) : At w' p x (enteredAs w p start flags type) := by
  obtain ⟨hfirst, hlast⟩ := h.forward hl hscan hstart hle
  refine ⟨h.entered_mem hl.toLinked, MemArea.covers_iff.mpr ⟨?_, hlast ▸ hx.2⟩⟩
  rw [hfirst]
  cases hleft : leftOf w p start flags type with
  | none => exact hx.1
  | some a =>
    obtain ⟨-, ha, has, -⟩ := leftOf_some hleft
    exact (hl.wf ha).le.trans (has ▸ hx.1)

theorem Entered.at_kept (hl : Lists w) (h : Entered w p start stop flags type w')
    (hscan : scanHangs w p start stop = false) (hstart : pageMask start = start) (hle : start ≤ stop)
    (ha : At w q x a) : ∃ b, At w' q x b ∧ (w'.area b).flags = (w.area a).flags ∧
      (w'.area b).type = (w.area a).type := by
  by_cases hqp : q = p
  · subst hqp
    obtain ⟨ham, hcov⟩ := ha
    have hx := MemArea.covers_iff.mp hcov
    by_cases hinto : a = enteredAs w q start flags type
    · obtain ⟨hfirst, hlast⟩ := h.forward hl hscan hstart hle
      cases hleft : leftOf w q start flags type with
      | none => exact absurd (hinto.trans (enteredAs_alone hleft)) (hl.toLinked.mem_ne ham)
      | some c =>
        obtain rfl : a = c := hinto.trans (enteredAs_some hleft)
        obtain ⟨-, -, has, hflags, htype⟩ := leftOf_some hleft
        rw [hleft] at hfirst
        refine ⟨_, ⟨h.entered_mem hl.toLinked, MemArea.covers_iff.mpr ⟨hfirst ▸ hx.1, ?_⟩⟩, ?_⟩
        · rw [hlast]
          exact Nat.lt_of_lt_of_le hx.2 (has ▸ hle)
        · rw [h.entered, hflags, htype]
          exact ⟨rfl, rfl⟩
    · have hright : rightOf w q start stop flags type ≠ some a := by
        intro hright
        obtain ⟨-, -, has, -⟩ := rightOf_some hright
        have hempty := scan_inside hscan hstart ham (hl.wf ham) (has ▸ hle) (Nat.le_of_eq has)
        exact absurd (Nat.lt_of_le_of_lt hx.1 hx.2) (Nat.not_lt_of_le (Nat.le_of_eq hempty))
      have hmem := (h.mem_iff hl.toLinked).mpr ⟨.inl ham, hright⟩
      have hsame := (h.area_old hl.toLinked hmem hinto).1
      exact ⟨a, ⟨hmem, hsame ▸ hcov⟩, by rw [hsame], by rw [hsame]⟩
  · have hmem : a ∈ w'.mem q := h.memOther hqp ▸ ha.1
    have hsame := h.area (hl.fresh ha.1) (enteredAs_other hl.toLinked hqp ha.1)
    exact ⟨a, ⟨hmem, hsame ▸ ha.2⟩, by rw [hsame], by rw [hsame]⟩

theorem Entered.at_old (hl : Lists w) (h : Entered w p start stop flags type w')
    (hscan : scanHangs w p start stop = false) (hstart : pageMask start = start) (hle : start ≤ stop)
    (ha : At w q x a) : ∃ b, At w' q x b := by
  obtain ⟨b, hb, -⟩ := h.at_kept hl hscan hstart hle ha
  exact ⟨b, hb⟩

theorem Entered.below (hl : Lists w) (hb : ∀ {q a}, a ∈ w.mem q → (w.area a).stop ≤ kernelOffset)
    (h : Entered w p start stop flags type w') (hscan : scanHangs w p start stop = false)
    (hstart : pageMask start = start) (hle : start ≤ stop) (hlow : stop ≤ kernelOffset) (ha : a ∈ w'.mem q) :
    (w'.area a).stop ≤ kernelOffset := by
  by_cases hinto : a = enteredAs w p start flags type
  · rw [hinto, (h.forward hl hscan hstart hle).2]
    exact hlow
  · obtain ⟨hae, ham⟩ := h.area_old hl.toLinked ha hinto
    rw [hae]
    exact hb ham

theorem newArea_changes {dirs : Frame → Prop} (hs : Spaces w.machine dirs) (hc : dirs w.machine.cr3)
    (hd : dirs (w.pd p)) (hlow : areaStop stop ≤ kernelOffset)
    (hnew : newArea w p start stop flags type = .ok (a, w')) :
    Changes dirs (w.pd p) (fun y => pageMask start ≤ y ∧ y < areaStop stop) w.machine w'.machine := by
  have hm := (newArea_frame hnew).2
  cases hpop : flags.populates with
  | true =>
    rw [hpop, if_pos rfl] at hm
    exact (populate_fills hs hc hd (pageMask_pageMask _) hlow hm).changes (pageMask_pageMask _) pageMask_areaStop
  | false =>
    rw [hpop, if_neg Bool.false_ne_true] at hm
    rw [← Except.ok.inj hm]
    exact .refl hs

theorem Fit.newArea (h : Fit w used) (hl : Lists w) (hp : w.living p = true) (hcur : w.living w.current = true)
    (hle : pageMask start ≤ areaStop stop) (hlow : areaStop stop ≤ kernelOffset)
    (hnew : newArea w p start stop flags type = .ok (a, w'))
    (hm : Changes (Dirs w w.pd) (w.pd p) (fun y => pageMask start ≤ y ∧ y < areaStop stop) w'.machine m)
    (hused : ∀ q, w.living q = true → used' q → used q) : Fit { w' with machine := m } used' := by
  have hscan := (newArea_ok hnew).1
  have hstart := pageMask_pageMask start
  obtain ⟨-, he⟩ := hl.toLinked.newArea_entered hnew
  have hframe : SameFrame w { w' with machine := m } := (newArea_frame hnew).1.trans (sameFrame_machine w' m)
  have hfirst := newArea_changes h.spaces (h.loaded_dir hcur) ⟨p, hp, rfl⟩ hlow hnew
  have hbelow : ∀ {q b}, b ∈ w'.mem q → (w'.area b).stop ≤ kernelOffset := fun hb =>
    he.below hl h.below hscan hstart hle hlow hb
  have hold : ∀ {q x b}, At w q x b → ∃ c, At w' q x c := fun hb => he.at_old hl hscan hstart hle hb
  have hnew : ∀ {x}, pageMask start ≤ x ∧ x < areaStop stop → ∃ b, At w' p x b := fun hx =>
    ⟨_, he.at_new hl hscan hstart hle hx⟩
  exact h.change hframe hp (hfirst.trans hm) hbelow hused (fun _ hx _ => hnew hx) fun _ hb _ => hold hb

-- ---------------------------------------------------------------------------
-- Freeing areas
-- ---------------------------------------------------------------------------

theorem Fit.removeArea (h : Fit w used) (hl : Lists w) (hp : w.living p = true) (hcur : w.living w.current = true)
    (ha : a ∈ w.mem p) (hremove : removeArea p w a = .ok w') : Fit w' used := by
  obtain ⟨m, rfl, hm, hzero⟩ := removeArea_changes h.spaces (h.loaded_dir hcur) ⟨p, hp, rfl⟩ (hl.wf_below h ha) hremove
  have hfreed : ∀ {b q}, b ∈ (freeArea { w with machine := m } a).mem q ↔ b ∈ w.mem q ∧ b ≠ a := fun {b q} =>
    (hl.withMachine m).toLinked.mem_freeArea (w := { w with machine := m }) ha
  refine h.change (Reworks.free hl ha m).frame hp hm (fun hb => h.below (hfreed.mp hb).1) (fun _ _ hu => hu)
    (fun {x} _ hx hleaf => ?_) fun {q x b} _ hb hout => ?_
  · have hleaf : (m.leaf (w.pd p) x).present = true := hleaf
    rw [hzero hx] at hleaf
    cases hleaf
  · refine ⟨b, hfreed.mpr ⟨hb.1, ?_⟩, hb.2⟩
    rintro rfl
    exact hout ((hl.owner hb.1).symm.trans (hl.owner ha)) hb.2

theorem Fit.removeall (h : Fit w used) (hl : Lists w) (hp : w.living p = true) (hcur : w.living w.current = true)
    (hremove : procmmRemoveall w p = .ok w') : Fit w' used := by
  unfold procmmRemoveall at hremove
  generalize htodo : w.mem p = todo at hremove
  induction todo generalizing w with
  | nil =>
    obtain rfl := Except.ok.inj hremove
    exact h
  | cons a todo ih =>
    rw [List.foldlM_cons] at hremove
    obtain ⟨w1, hstep, hremove⟩ := bind_ok.mp hremove
    have ha : a ∈ w.mem p := htodo ▸ List.mem_cons_self
    have hfit := h.removeArea hl hp hcur ha hstep
    obtain ⟨m, rfl⟩ := removeArea_eq hstep
    have hfree := Reworks.free hl ha m
    have hcur' : (freeArea { w with machine := m } a).living (freeArea { w with machine := m } a).current = true := by
      rw [hfree.frame.living, hfree.frame.current]
      exact hcur
    exact ih hfit hfree.lists (hfree.frame.living p ▸ hp) hcur' (freeArea_rest hl htodo m) hremove

theorem procmmExit_others (hl : Lists w) (p : Nat) : (procmmExit w p).machine = w.machine ∧
    (procmmExit w p).area = w.area ∧ ∀ q, (procmmExit w p).mem q = if q = p then [] else w.mem q := by
  unfold procmmExit
  generalize htodo : w.mem p = todo
  induction todo generalizing w with
  | nil =>
    refine ⟨rfl, rfl, fun q => ?_⟩
    split
    · next hqp => exact hqp ▸ htodo
    · rfl
  | cons a todo ih =>
    have ha : a ∈ w.mem p := htodo ▸ List.mem_cons_self
    obtain ⟨h1, h2, h3⟩ := ih (Reworks.free hl ha w.machine).lists (freeArea_rest hl htodo w.machine)
    refine ⟨h1, h2, fun q => (h3 q).trans ?_⟩
    split
    · rfl
    · next hqp => exact (freeArea_mem (w := w)).trans (if_neg fun hq => hqp (hq.trans (hl.owner ha)))

theorem Fit.exit (h : Fit w used) (hl : Lists w) (hcur : w.living w.current = true)
    (hused : ∀ q, used' q → used q ∧ q ≠ p) : Fit (procmmExit w p) used' := by
  obtain ⟨hmachine, harea, hmem⟩ := procmmExit_others hl p
  have hsame : ∀ {q}, q ≠ p → (procmmExit w p).mem q = w.mem q := fun hqp => (hmem _).trans (if_neg hqp)
  refine h.change (P := fun _ => False) (procmmExit_reworks hl p).1.frame hcur ?_ (fun {q a} ha => ?_)
    (fun q _ hu => (hused q hu).1) (fun _ hP => hP.elim) fun {q x a} hu ha _ => ⟨a, ?_⟩
  · rw [hmachine]
    exact .refl h.spaces
  · rw [harea]
    rw [hmem] at ha
    split at ha
    · cases ha
    · exact h.below ha
  · rw [At, hsame (hused q hu).2, harea]
    exact ha

-- ---------------------------------------------------------------------------
-- A fault inside an area
-- ---------------------------------------------------------------------------

theorem insideFault_changes {dirs : Frame → Prop} {present write r : Bool} (hl : Lists w)
    (hs : Spaces w.machine dirs) (hc : dirs w.machine.cr3) (hx : x < kernelOffset)
    (hinc : findIncluding w w.current x = some a)
    (h : procmmHandlePageFault w x present write = .ok (r, w')) :
    Changes dirs w.machine.cr3 (fun y => pageMask y = pageMask x) w.machine w'.machine := by
  have hpage : pageMask x < kernelOffset := Nat.lt_of_le_of_lt (pageMask_le x) hx
  have hset : ∀ {m m' : Machine} {v : Entry}, m.cr3 = w.machine.cr3 →
      Changes dirs w.machine.cr3 (fun y => pageMask y = pageMask x) w.machine m →
      vmmPageSet m (pageMask x) v = .ok m' →
      Changes dirs w.machine.cr3 (fun y => pageMask y = pageMask x) w.machine m' := by
    intro m m' v hcr3 hm hset
    have hsets := Sets.through_cr3 hm.spaces (hcr3.symm ▸ hc) hpage hset
    refine hm.trans ?_
    rw [← hcr3]
    exact hsets.changes.mono fun y hy => hy.trans (pageMask_pageMask x)
  have halloc : ∀ {m : Machine} {f : Frame}, pmmAllocPage w.machine = .ok (f, m) → m.cr3 = w.machine.cr3 ∧
      Changes dirs w.machine.cr3 (fun y => pageMask y = pageMask x) w.machine m := by
    intro m f halloc
    unfold pmmAllocPage at halloc
    cases hfree : w.machine.free with
    | nil =>
      rw [hfree] at halloc
      cases halloc
    | cons g rest =>
      rw [hfree] at halloc
      obtain ⟨rfl, rfl⟩ := Prod.mk.inj (Except.ok.inj halloc)
      exact ⟨rfl, .of_tables (hs.alloc hfree) rfl rfl⟩
  unfold procmmHandlePageFault at h
  simp only [hinc] at h
  split at h
  · next hcond =>
    simp only [Bool.and_eq_true] at hcond
    obtain ⟨w1, hsplit, h⟩ := bind_ok.mp h
    obtain ⟨-, hm1, -⟩ := splitArea_recuts hl (at_of_findIncluding hinc) hcond.1.1 hsplit
    rw [hm1] at h
    split at h
    · obtain ⟨m, hm, h⟩ := bind_ok.mp h
      obtain ⟨-, rfl⟩ := Prod.mk.inj (Except.ok.inj h)
      exact hset rfl (.refl hs) hm
    · obtain ⟨⟨f, m⟩, hm, h⟩ := bind_ok.mp h
      obtain ⟨m2, hm2, h⟩ := bind_ok.mp h
      obtain ⟨-, rfl⟩ := Prod.mk.inj (Except.ok.inj h)
      obtain ⟨hcr3, hm⟩ := halloc hm
      have hm2 := hset hcr3 hm hm2
      exact hm2.trans (.of_tables (hm2.spaces.of_tables rfl rfl) rfl rfl)
  · split at h
    · obtain ⟨⟨f, m⟩, hm, h⟩ := bind_ok.mp h
      obtain ⟨m2, hm2, h⟩ := bind_ok.mp h
      obtain ⟨-, rfl⟩ := Prod.mk.inj (Except.ok.inj h)
      obtain ⟨hcr3, hm⟩ := halloc hm
      exact hset hcr3 hm hm2
    · obtain ⟨-, rfl⟩ := Prod.mk.inj (Except.ok.inj h)
      exact .refl hs

theorem Fit.insideFault {present write r : Bool} (h : Fit w used) (hl : Lists w)
    (hcur : w.living w.current = true) (hinc : findIncluding w w.current x = some a)
    (hfault : procmmHandlePageFault w x present write = .ok (r, w'))
    (hused : ∀ q, w.living q = true → used' q → used q) : Fit w' used' := by
  have hat := at_of_findIncluding hinc
  have hwf := hl.wf_below h hat.1
  have hr := insideFault_recuts hl hinc hfault
  have hm := insideFault_changes hl h.spaces (h.loaded_dir hcur) (hwf.lt hat.2) hinc hfault
  rw [h.loaded] at hm
  refine h.change hr.frame hcur hm (fun ha => ?_) hused (fun {y} _ hy _ => ?_) fun _ ha _ => hr.covers ha
  · obtain ⟨b, hb, hle⟩ := hr.within ha
    exact hle.trans (h.below hb)
  · exact hr.covers ⟨hat.1, (hwf.covers_page hy).trans hat.2⟩

-- ---------------------------------------------------------------------------
-- A fork
-- ---------------------------------------------------------------------------

theorem Inheriting.loop_changes {dirs : Frame → Prop} {w₀ : Mem} {child : Nat} {done todo : List Nat}
    (h : Inheriting w₀ child done w) (hf : Forked w₀ p child) (hlist : w₀.mem p = done ++ todo)
    (hbelow : ∀ a ∈ w₀.mem p, (w₀.area a).stop ≤ kernelOffset) (hpd : w₀.pd child = 0)
    (hc : dirs w₀.machine.cr3) (hd : dirs (w₀.pd p))
    (hm : Changes dirs (w₀.pd p) (fun y => ∃ a, At w₀ p y a) w₀.machine w.machine)
    (hloop : todo.foldlM (passOn child) w = .ok w') :
    Changes dirs (w₀.pd p) (fun y => ∃ a, At w₀ p y a) w₀.machine w'.machine := by
  induction todo generalizing w done with
  | nil =>
    obtain rfl := Except.ok.inj hloop
    exact hm
  | cons a todo ih =>
    rw [List.foldlM_cons] at hloop
    obtain ⟨v, hpass, hloop⟩ := bind_ok.mp hloop
    refine ih (h.pass hf hlist hpass) (by rw [hlist, List.append_assoc]; rfl) ?_ hloop
    cases hns : (w₀.area a).flags.noshare with
    | true =>
      rw [passOn, h.area_todo hf hlist, hns, if_pos rfl] at hpass
      obtain rfl := Except.ok.inj hpass
      exact hm
    | false =>
      obtain ⟨m, m', hpm, rfl⟩ := h.pass_eq hf hlist hns hpass
      obtain ⟨hprotect, hfill⟩ := hpm
      rw [h.frame.pd] at hprotect hfill
      rw [hpd] at hfill
      have ha : a ∈ w₀.mem p := hlist ▸ List.mem_append_right _ List.mem_cons_self
      have hal := hf.lists.wf ha
      have hcw : dirs w.machine.cr3 := hm.cr3.symm ▸ hc
      have hm1 : Changes dirs (w₀.pd p) (fun y => ∃ a, At w₀ p y a) w.machine m := by
        split at hprotect
        · refine ((writeProtect_ok hm.spaces hcw hd hal.start (hbelow a ha) hprotect).1.changes hal.start
            hal.stop).mono fun y hy => ?_
          exact ⟨a, ha, MemArea.covers_iff.mpr hy⟩
        · rw [← Except.ok.inj hprotect]
          exact .refl hm.spaces
      have hm2 : Changes dirs (w₀.pd p) (fun y => ∃ a, At w₀ p y a) m m' := by
        split at hfill
        · exact populate_unloaded_changes hm1.spaces (hm1.cr3.symm ▸ hcw) hfill
        · rw [← Except.ok.inj hfill]
          exact .refl hm1.spaces
      exact (hm.trans hm1).trans hm2

theorem forkStart_pd (hq : q ≠ w.nextPid) : (forkStart w).pd q = w.pd q := by
  simp [forkStart, allocProcess, Mem.pd, Mem.setProc, hq]

theorem forkStart_pd_child : (forkStart w).pd w.nextPid = 0 := by
  simp [forkStart, allocProcess, Mem.pd, Mem.setProc]

structure Clones (w w' : Mem) : Prop where
  nextPid : w'.nextPid = w.nextPid + 1
  current : w'.current = w.current
  cr3 : w'.machine.cr3 = w.machine.cr3
  pd : ∀ {q}, q ≠ w.nextPid → w'.pd q = w.pd q
  new : ¬ Dirs w w.pd (w'.pd w.nextPid)
  spaces : Spaces w'.machine fun f => Dirs w w.pd f ∨ f = w'.pd w.nextPid
  leaf : ∀ {q y}, w.living q = true → y < kernelOffset →
    w.pd q ≠ w.pd w.current ∨ (¬ ∃ a, At w w.current y a) →
    w'.machine.leaf (w.pd q) y = w.machine.leaf (w.pd q) y
  child : ∀ {y}, y < kernelOffset →
    w'.machine.leaf (w'.pd w.nextPid) y = w'.machine.leaf (w.pd w.current) y

structure Passes (w w' : Mem) : Prop where
  old : ∀ {q y b}, q ≠ w.nextPid → At w q y b → At w' q y b
  heir : ∀ {y b}, At w w.current y b → (w.area b).flags.noshare = false → ∃ c, At w' w.nextPid y c
  stops : ∀ {q c}, c ∈ w'.mem q → ∃ r, ∃ b ∈ w.mem r, (w'.area c).stop = (w.area b).stop

theorem forkStart_at (hl : Linked w) : At (forkStart w) q x b ↔ At w q x b := by
  unfold At
  rw [forkStart_lists hl]
  rfl

theorem forkProcess_clones {child : Nat} (h : Fit w used) (hl : Lists w) (ht : TextsApart w w.current)
    (hcur : w.living w.current = true) (hfork : forkProcess w = .ok (child, w')) : Clones w w' := by
  obtain ⟨rfl, w1, m, pd, hloop, hclone, hi, rfl⟩ := forkProcess_inherits hl ht hcur hfork
  have hf := hl.forked ht hcur
  have hmem := forkStart_lists hl.toLinked
  have hc := h.loaded_dir hcur
  have hstart : (forkStart w).pd w.current = w.pd w.current := forkStart_pd hf.ne
  have hdir : Dirs w w.pd ((forkStart w).pd w.current) := hstart ▸ ⟨w.current, hcur, rfl⟩
  have hm := hf.inheriting.loop_changes hf (hmem _) (fun a ha => h.below (hmem _ ▸ ha)) forkStart_pd_child hc hdir
    (.refl h.spaces) hloop
  have hc1 : Dirs w w.pd w1.machine.cr3 := hm.cr3.symm ▸ hc
  have hcloned : Cloned (Dirs w w.pd) w1.machine pd m := (vmmClonePd_spec hm.spaces hc1).of_eq_ok hclone
  have hpd : (({ w1 with machine := m } : Mem).setProc w.nextPid { w1.proc w.nextPid with pd := pd }).pd w.nextPid =
      pd := by simp [Mem.pd, Mem.setProc]
  refine ⟨hi.frame.nextPid, hi.frame.current, hcloned.cr3.trans hm.cr3, fun {q} hq => ?_, ?_, ?_,
    fun {q y} hq hy hout => ?_, fun {y} hy => ?_⟩
  · refine Eq.trans ?_ ((hi.frame.pd q).trans (forkStart_pd hq))
    simp [Mem.pd, Mem.setProc, hq]
  · rw [hpd]
    exact hm.spaces.freeNotDir hcloned.fresh
  · rw [hpd]
    exact hcloned.spaces
  · refine (hcloned.leaf_old hm.spaces hc1 ⟨q, hq, rfl⟩ hy).trans (hm.leaf ⟨q, hq, rfl⟩ hy ?_)
    rw [hstart]
    exact hout.imp_right (mt (Exists.imp fun a ha => (forkStart_at hl.toLinked).mp ha))
  · rw [hpd, ← h.loaded]
    refine (hcloned.leaf hy).1.trans ?_
    rw [hm.cr3]
    exact (hcloned.leaf_old hm.spaces hc1 hc hy).symm

theorem forkProcess_passes {child : Nat} (hl : Lists w) (ht : TextsApart w w.current)
    (hcur : w.living w.current = true) (hfork : forkProcess w = .ok (child, w')) : Passes w w' := by
  obtain ⟨rfl, w1, m, pd, -, -, hi, rfl⟩ := forkProcess_inherits hl ht hcur hfork
  have hf := hl.forked ht hcur
  have hmem := forkStart_lists hl.toLinked
  have hold : ∀ {q}, q ≠ w.nextPid → w1.mem q = w.mem q := fun hq => (hi.mem hq).trans (hmem _)
  have hrange : ∀ {q b}, q ≠ w.nextPid → b ∈ w1.mem q → (w1.area b).start = (w.area b).start ∧
      (w1.area b).stop = (w.area b).stop := hi.range hf.lists
  refine ⟨fun {q y b} hq hb => ?_, fun {y b} hb hns => ?_, fun {q c} hc => ?_⟩
  · have hb1 : b ∈ w1.mem q := (hold hq).symm ▸ hb.1
    refine ⟨(setPd_lists q).symm ▸ hb1, MemArea.covers_iff.mpr ?_⟩
    obtain ⟨h1, h2⟩ := hrange hq hb1
    have hx := MemArea.covers_iff.mp hb.2
    rwa [← h1, ← h2] at hx
  · have hpassed : b ∈ passed (forkStart w) ((forkStart w).mem w.current) := by
      refine List.mem_filter.mpr ⟨(hmem _).symm ▸ hb.1, ?_⟩
      change (!(w.area b).flags.noshare) = true
      rw [hns]
      rfl
    have hheir := hi.heirs.mem_iff.mpr (List.mem_map.mpr ⟨b, hpassed, rfl⟩)
    obtain ⟨c, hc, hcb⟩ := List.mem_map.mp hheir
    refine ⟨c, (setPd_lists _).symm ▸ hc, ?_⟩
    change (w1.area c).covers y = true
    rw [hcb]
    exact hb.2
  · have hc1 : c ∈ w1.mem q := setPd_lists q ▸ hc
    by_cases hq : q = w.nextPid
    · subst hq
      obtain ⟨b, hb, -, hcb⟩ := hi.heir hc1
      refine ⟨w.current, b, hmem _ ▸ hb, ?_⟩
      change (w1.area c).stop = (w.area b).stop
      rw [hcb]
      rfl
    · exact ⟨q, c, hold hq ▸ hc1, (hrange hq hc1).2⟩

theorem Clones.living (h : Clones w w') (hq : w'.living q = true) :
    w.living q = true ∧ q ≠ w.nextPid ∨ q = w.nextPid := by
  obtain ⟨h0, hlt⟩ := living_iff.mp hq
  rw [h.nextPid] at hlt
  rcases Nat.lt_succ_iff_lt_or_eq.mp hlt with hlt | rfl
  · exact .inl ⟨living_iff.mpr ⟨h0, hlt⟩, Nat.ne_of_lt hlt⟩
  · exact .inr rfl

theorem Clones.parent (hc : Clones w w') (h : Fit w used) (hcur : w.living w.current = true)
    (hrun : used w.current) (hx : x < kernelOffset) (hp : (w'.machine.leaf (w.pd w.current) x).present = true) :
    ∃ a, At w w.current x a := by
  by_contra hnone
  rw [hc.leaf hcur hx (.inr hnone), ← mapped_iff_leaf] at hp
  exact hnone (h.covered _ hcur hrun x hx hp)

/-- A process all of whose areas are passed on leaves nothing mapped in the child that is not
in an area of the child. -/
theorem Fit.fork {child : Nat} (h : Fit w used) (hl : Lists w) (ht : TextsApart w w.current)
    (hcur : w.living w.current = true) (hrun : used w.current)
    (hpass : ∀ a ∈ w.mem w.current, (w.area a).flags.noshare = false)
    (hfork : forkProcess w = .ok (child, w')) (hused : ∀ q, used' q → used q ∨ q = w.nextPid) : Fit w' used' := by
  have hc := forkProcess_clones h hl ht hcur hfork
  have hp := forkProcess_passes hl ht hcur hfork
  refine ⟨?_, ?_, ?_, ?_, ?_⟩
  · refine hc.spaces.mono ?_
    rintro d ⟨q, hq, rfl⟩
    rcases hc.living hq with ⟨hq, hqc⟩ | rfl
    · exact .inl ⟨q, hq, (hc.pd hqc).symm⟩
    · exact .inr rfl
  · intro q r hq hr heq
    rcases hc.living hq with ⟨hq, hqc⟩ | rfl <;> rcases hc.living hr with ⟨hr, hrc⟩ | rfl
    · rw [hc.pd hqc, hc.pd hrc] at heq
      exact h.own hq hr heq
    · rw [hc.pd hqc] at heq
      exact absurd ⟨q, hq, heq⟩ hc.new
    · rw [hc.pd hrc] at heq
      exact absurd ⟨r, hr, heq.symm⟩ hc.new
    · rfl
  · have hne : w.current ≠ w.nextPid := Nat.ne_of_lt (living_iff.mp hcur).2
    rw [hc.cr3, h.loaded, hc.current, hc.pd hne]
  · intro q b hb
    obtain ⟨r, c, hcm, hstop⟩ := hp.stops hb
    exact hstop ▸ h.below hcm
  · intro q hq hu y hy hmapped
    rw [mapped_iff_leaf] at hmapped
    rcases hc.living hq with ⟨hq, hqc⟩ | rfl
    · rw [hc.pd hqc] at hmapped
      by_cases hqcur : q = w.current
      · subst hqcur
        obtain ⟨a, ha⟩ := hc.parent h hcur hrun hy hmapped
        exact ⟨a, hp.old hqc ha⟩
      · rw [hc.leaf hq hy (.inl fun hpd => hqcur (h.own hq hcur hpd)), ← mapped_iff_leaf] at hmapped
        obtain ⟨a, ha⟩ := h.covered q hq ((hused q hu).resolve_right hqc) y hy hmapped
        exact ⟨a, hp.old hqc ha⟩
    · rw [hc.child hy] at hmapped
      obtain ⟨a, ha⟩ := hc.parent h hcur hrun hy hmapped
      exact hp.heir ha (hpass a ha.1)

end

-- ---------------------------------------------------------------------------
-- Runs
-- ---------------------------------------------------------------------------

namespace World

structure Started (s : World) : Prop extends Fresh s where
  spaces : Spaces s.mem.machine (Dirs s.mem s.mem.pd)
  own : OwnDirs s.mem s.mem.pd
  loaded : s.mem.machine.cr3 = s.mem.pd s.current
  running : s.exited s.current = false
  unmapped : ∀ p x, s.mem.living p = true → x < kernelOffset → s.mem.machine.mapped (s.mem.pd p) x = false

/-- The range asked of `new_area` ends in user space and does not run backwards; a process
that forks has no area that is kept from the child. -/
def Straight (s : World) : MemAct → Prop
  | .fork => ∀ b ∈ s.mem.mem s.current, (s.mem.area b).flags.noshare = false
  | a => ∀ r, s.request a = some r → pageMask r.start ≤ areaStop r.stop ∧ areaStop r.stop ≤ kernelOffset

/-- What is mapped for a process lies in its areas. -/
def AreasCover (s : World) : Prop :=
  ∀ p, s.mem.living p = true → s.exited p = false → Covered s.mem p

def Unmaps (s : World) : Prop :=
  ∀ s', s.step .removeAll = some s' → ∀ x, x < kernelOffset →
    s'.mem.machine.mapped (s'.mem.pd s'.current) x = false

structure Fitted (s : World) : Prop where
  kept : s.Kept
  fit : Fit s.mem fun p => s.exited p = false
  running : s.exited s.current = false

section
variable {s s' : World} {w : Mem} {a : MemAct} {r : Request} {b : Nat}

theorem Started.fitted (h : s.Started) : s.Fitted where
  kept := h.kept
  fit :=
    { spaces := h.spaces
      own := h.own
      loaded := h.loaded
      below := fun ha => by simp [h.empty] at ha
      covered := fun p hp _ x hx hmapped => by simp [h.unmapped p x hp hx] at hmapped }
  running := h.running

theorem Straight.request (h : s.Straight a) (hreq : s.request a = some r) :
    pageMask r.start ≤ areaStop r.stop ∧ areaStop r.stop ≤ kernelOffset := by
  cases a with
  | fork => cases hreq
  | _ => exact h r hreq

theorem Kept.lists_straight (h : s.Kept) (hs : s.Straight a) (hreq : s.request a = some r)
    (hnew : newArea s.mem s.current r.start r.stop r.flags r.type = .ok (b, w)) : Lists w := by
  have hl := h.sound.lists
  obtain ⟨-, he⟩ := hl.toLinked.newArea_entered hnew
  exact he.lists_forward hl (hl.toLinked.newArea h.living hnew) (newArea_ok hnew).1 (pageMask_pageMask _)
    pageMask_areaStop (hs.request hreq).1

/-- `k_syscall_vidmem` puts back the frame that its area was given and maps the video memory. -/
theorem Fitted.vidmem (h : s.Fitted) {m : Machine} {used : Nat → Prop}
    (hnew : newArea s.mem s.current videoMemory 0xB9000 vidmemFlags mmTypeData = .ok (b, w))
    (hset : vmmPageSet { w.machine with free := (vmmPageGet w.machine videoMemory).frame :: w.machine.free }
      videoMemory (vmmPageVal 0xB8 ⟨true, true, true⟩) = .ok m)
    (hused : ∀ q, s.mem.living q = true → used q → s.exited q = false) : Fit { w with machine := m } used := by
  have hlow : videoMemory < kernelOffset := by norm_num [videoMemory, kernelOffset]
  have hc := h.fit.loaded_dir h.kept.living
  have hd : Dirs s.mem s.mem.pd (s.mem.pd s.current) := ⟨_, h.kept.living, rfl⟩
  have hfill : populate s.mem.machine (s.mem.pd s.current) videoMemory (videoMemory + pageSize) true =
      .ok w.machine := (newArea_frame hnew).2
  obtain ⟨f, hleaf, hspaces⟩ := populate_one h.fit.spaces hc hd hlow hfill
  have hcr3 : w.machine.cr3 = s.mem.machine.cr3 :=
    (newArea_changes h.fit.spaces hc hd (by decide) hnew).cr3
  have hget : vmmPageGet w.machine videoMemory = vmmPageVal f ⟨true, true, true⟩ := by
    have hleaf : w.machine.leaf w.machine.cr3 videoMemory = vmmPageVal f ⟨true, true, true⟩ := by
      rw [hcr3, h.fit.loaded]
      exact hleaf
    rw [vmmPageGet_leaf (by rw [hleaf]; rfl), hleaf]
  rw [hget] at hset
  have hsets := Sets.through_cr3 hspaces (hcr3.symm ▸ hc) hlow hset
  refine h.fit.newArea h.kept.sound.lists h.kept.living h.kept.living (by decide) (by decide) hnew ?_ hused
  have hback : Changes (Dirs s.mem s.mem.pd) (s.mem.pd s.current)
      (fun y => pageMask videoMemory ≤ y ∧ y < areaStop 0xB9000) w.machine
      { w.machine with free := f :: w.machine.free } := .of_tables hspaces rfl rfl
  refine hback.trans ?_
  have hdir : s.mem.pd s.current = w.machine.cr3 := h.fit.loaded.symm.trans hcr3.symm
  rw [hdir]
  exact hsets.changes.mono fun y => range_of_page (pageMask_pageMask _) pageMask_areaStop (by decide)

theorem Fitted.step (h : s.Fitted) (hstraight : s.Straight a) (hs : s.step a = some s') : s'.Fitted := by
  have hkept : s'.Kept := h.kept.step hs fun hreq hnew => h.kept.lists_straight hstraight hreq hnew
  obtain ⟨hmoves, -, hold, hkeep⟩ := step_moves hs
  have hl := h.kept.sound.lists
  have hlive := h.kept.living
  have hused : ∀ q, s.mem.living q = true → s'.exited q = false → s.exited q = false := fun q hq hu =>
    (hold q hu).resolve_right fun ⟨_, hqc⟩ => absurd (living_iff.mp (hqc ▸ hq)).2 (Nat.lt_irrefl _)
  have hrun : s'.exited s.current = false := (hkeep _ h.running).resolve_right fun heq => by
    subst heq
    exact (exit_exited hs).2 rfl
  suffices hfit : Fit s'.mem (fun q => s'.exited q = false) ∧ s'.exited s'.mem.current = false from
    ⟨hkept, hfit.1, hfit.2⟩
  generalize s'.mem = w' at hmoves
  cases hmoves with
  | schedule _ hex =>
    exact ⟨(h.fit.mono hused).switchProcess _, (hkeep _ hex).resolve_right nofun⟩
  | removeAll hremove =>
    have hcur := (procmmRemoveall_reworks hl hremove).1.frame.current
    exact ⟨(h.fit.mono hused).removeall hl hlive hlive hremove, hcur ▸ hrun⟩
  | nothing => exact ⟨h.fit.mono hused, hrun⟩
  | enters hreq hnew =>
    obtain ⟨hle, hlow⟩ := hstraight.request hreq
    have hfirst := newArea_changes h.fit.spaces (h.fit.loaded_dir hlive) ⟨_, hlive, rfl⟩ hlow hnew
    exact ⟨h.fit.newArea hl hlive hlive hle hlow hnew (.refl hfirst.spaces) hused,
      (newArea_frame hnew).1.current ▸ hrun⟩
  | vidmem hnew hset => exact ⟨h.vidmem hnew hset hused, (newArea_frame hnew).1.current ▸ hrun⟩
  | fault hinc hfault =>
    exact ⟨h.fit.insideFault hl hlive hinc hfault hused,
      (insideFault_recuts hl hinc hfault).frame.current ▸ hrun⟩
  | fork hfork =>
    exact ⟨h.fit.fork hl (h.kept.sound.texts _) hlive h.running hstraight hfork
      fun q hq => (hold q hq).imp_right And.right, (h.kept.sound.fork hlive hfork).2.current ▸ hrun⟩
  | @exit p =>
    refine ⟨h.fit.exit hl hlive fun q hq => ⟨(hold q hq).resolve_right nofun, ?_⟩,
      (procmmExit_reworks hl p).1.frame.current ▸ hrun⟩
    rintro rfl
    rw [(exit_exited hs).1] at hq
    cases hq

theorem Fitted.areasCover (h : s.Fitted) : s.AreasCover := h.fit.covered

theorem Fitted.unmaps (h : s.Fitted) : s.Unmaps := by
  intro s' hs x hx
  have h' : s'.Fitted := h.step (a := .removeAll) (fun _ hreq => nomatch hreq) hs
  have hempty : s'.mem.mem s'.current = [] := by
    obtain ⟨w, hremove, hs⟩ := bind_ok.mp (step_some.mp hs)
    obtain rfl := Except.ok.inj hs
    obtain ⟨hr, hempty⟩ := procmmRemoveall_reworks h.kept.sound.lists hremove
    change w.mem w.current = []
    rw [hr.frame.current]
    exact hempty
  by_contra hmapped
  obtain ⟨a, ha, -⟩ := h'.fit.covered _ h'.kept.living h'.running x hx (by simpa using hmapped)
  rw [hempty] at ha
  cases ha

/-- In a run of such steps the areas of every process cover what is mapped for it, and
`execve` leaves nothing of the old program mapped. -/
theorem areas_cover (h : Reach World.step Straight Started s) : s.AreasCover ∧ s.Unmaps := by
  have hfit : s.Fitted := h.invariant (fun _ => Started.fitted) fun _ _ _ hf hok hs => hf.step hok hs
  exact ⟨hfit.areasCover, hfit.unmaps⟩

end

instance (s : World) : (a : MemAct) → Decidable (s.Straight a)
  | .fork => inferInstanceAs (Decidable (∀ b ∈ s.mem.mem s.current, _))
  | .schedule _ | .removeAll | .beginLoad | .endLoad | .exit _ => .isTrue fun _ hreq => nomatch hreq
  | .loadSegment ph => decidable_of_iff (∀ r ∈ s.request (.loadSegment ph), _) Iff.rfl
  | .newStack => decidable_of_iff (∀ r ∈ s.request .newStack, _) Iff.rfl
  | .sbrk incr => decidable_of_iff (∀ r ∈ s.request (.sbrk incr), _) Iff.rfl
  | .vidmem => decidable_of_iff (∀ r ∈ s.request .vidmem, _) Iff.rfl
  | .fault f => decidable_of_iff (∀ r ∈ s.request (.fault f), _) Iff.rfl

theorem firstProcess_living {p : Nat} (h : firstProcess.mem.living p = true) : p = 1 := by
  obtain ⟨h0, hlt⟩ := living_iff.mp h
  exact Nat.le_antisymm (Nat.lt_succ_iff.mp hlt) h0

theorem firstProcess_dirs {f : Frame} (h : Dirs firstProcess.mem firstProcess.mem.pd f) : f = 1 := by
  obtain ⟨p, hp, rfl⟩ := h
  obtain rfl := firstProcess_living hp
  rfl

theorem firstProcess_started : firstProcess.Started where
  toFresh := firstProcess_fresh
  spaces :=
    { nonzero := fun hd h0 => by cases (firstProcess_dirs hd).symm.trans h0
      tableNotDir := fun _ _ _ hp => nomatch hp
      tableUnique := fun _ _ _ _ hp => nomatch hp
      freeNotDir := fun hf hd => by
        have hle := (List.mem_range'_1.mp (firstProcess_dirs hd ▸ hf)).1
        exact absurd hle (by decide)
      freeNotTable := fun _ _ _ hp => nomatch hp
      freeNonzero := fun hf => absurd (List.mem_range'_1.mp hf).1 (by decide)
      freeNodup := List.nodup_range' }
  own hp hq _ := (firstProcess_living hp).trans (firstProcess_living hq).symm
  loaded := rfl
  running := rfl
  unmapped _ _ _ _ := rfl

def videoRun : List MemAct := execve smallElf ++
  [.sbrk 0x1800, .fault ⟨0xBFFFEFFC, false, true⟩, .fault ⟨0xBFFFEFFC, false, true⟩, .vidmem] ++ execve smallElf

theorem areas_cover_videoRun : ∃ s, exec World.step firstProcess videoRun = some s ∧ s.AreasCover ∧ s.Unmaps := by
  have hrun : (exec World.step firstProcess videoRun).isSome = true := by decide +kernel
  obtain ⟨s, hs⟩ := Option.isSome_iff_exists.mp hrun
  have hok : Along World.step Straight firstProcess videoRun := by decide +kernel
  exact ⟨s, hs, areas_cover ((Reach.start firstProcess_started).along hok hs)⟩

/-- A program that gets a page and gives it back. -/
def sbrkRun : List MemAct := execve smallElf ++ [.sbrk 0x1000, .sbrk (-0x1000)]

/-- The page that was given back is still mapped, and still is when the areas are removed. -/
theorem page_outside_areas : ∃ s, Reach World.step Any Started s ∧ ¬ s.AreasCover ∧ ¬ s.Unmaps := by
  have hrun : (exec World.step firstProcess sbrkRun).isSome = true := by decide +kernel
  obtain ⟨s, hs⟩ := Option.isSome_iff_exists.mp hrun
  have hseen : (exec World.step firstProcess sbrkRun).map (fun s => (s.mem.living 1, s.exited 1,
      s.mem.machine.mapped (s.mem.pd 1) 0x2000, findIncluding s.mem 1 0x2000)) =
      some (true, false, true, none) := by
    decide +kernel
  have hafter : (exec World.step firstProcess (sbrkRun ++ [.removeAll])).map (fun s =>
      s.mem.machine.mapped (s.mem.pd s.current) 0x2000) = some true := by decide +kernel
  rw [hs, Option.map_some, Option.some_inj, Prod.mk.injEq, Prod.mk.injEq, Prod.mk.injEq] at hseen
  obtain ⟨hlive, hrunning, hmapped, hnone⟩ := hseen
  refine ⟨s, (Reach.start firstProcess_started).exec hs, fun h => ?_, fun h => ?_⟩
  · obtain ⟨a, ha⟩ := h 1 hlive hrunning 0x2000 (by decide) hmapped
    exact findIncluding_eq_none.mp hnone a ha
  · obtain ⟨s', hs', hmapped⟩ := Option.map_eq_some_iff.mp hafter
    obtain ⟨t, ht, hstep⟩ := Option.bind_eq_some_iff.mp (exec_append.symm.trans hs')
    obtain rfl := Option.some.inj (hs.symm.trans ht)
    rw [exec_cons] at hstep
    obtain ⟨u, hu, hend⟩ := Option.bind_eq_some_iff.mp hstep
    obtain rfl := Option.some.inj hend
    rw [h u hu 0x2000 (by decide)] at hmapped
    cases hmapped

end World

end Os5
