import Os5.Mem.Fork

/-!
# Giving up areas

`procmm_exit` and `procmm_removeall` take the areas of a process away one after
the other; what is left of the other processes is not touched.
-/

namespace Os5

open Machine Circular Outcome

/-- From `w` to `w'` process `p` lost its area `a`, and perhaps entries inside it. -/
structure Dropped (w : Mem) (p a : Nat) (w' : Mem) : Prop where
  nextPid : w'.nextPid = w.nextPid
  current : w'.current = w.current
  nextArea : w'.nextArea = w.nextArea
  pd : w'.pd = w.pd
  area : w'.area = w.area
  mem : ∀ q, w'.mem q = if q = p then (w.mem p).erase a else w.mem q
  copies : w'.copies = Circular.remove w.copies a
  machine : ∃ u, Remaps (Dirs w w.pd) (w.pd p) u w.machine w'.machine ∧
    ∀ y e, (w.area a).covers y = false → u y e = e

section
variable {w w' w₀ : Mem} {p q a b c x y : Nat} {img : Nat → Nat → Option Cell} {todo : List Nat}

theorem Dropped.mem_iff (h : Dropped w p a w') (hl : Layout w) (ha : a ∈ w.mem p) :
    b ∈ w'.mem q ↔ b ∈ w.mem q ∧ b ≠ a := by
  rw [h.mem]
  split
  · next hq =>
    subst hq
    rw [(hl.nodup q).mem_erase_iff]
    tauto
  · next hq =>
    refine ⟨fun hb => ⟨hb, ?_⟩, fun hb => hb.1⟩
    rintro rfl
    exact hq ((hl.owner hb).symm.trans (hl.owner ha))

theorem Dropped.at_iff (h : Dropped w p a w') (hl : Layout w) (ha : a ∈ w.mem p) :
    At w' q x b ↔ At w q x b ∧ b ≠ a := by
  unfold At
  rw [h.mem_iff hl ha, h.area]
  tauto

theorem Dropped.live_iff (h : Dropped w p a w') (hl : Layout w) (ha : a ∈ w.mem p) :
    Live w' b ↔ Live w b ∧ b ≠ a := by
  unfold Live
  rw [h.mem_iff hl ha, h.area]

theorem Dropped.same_iff (h : Dropped w p a w') (hl : Layout w) (ha : a ∈ w.mem p) (hb : Live w b)
    (hba : b ≠ a) : SameRing w'.copies b c ↔ c ≠ a ∧ SameRing w.copies b c := by
  rw [h.copies, (hl.rings.remove (hl.live ha)).2.2 b c hb]
  constructor
  · rintro (rfl | ⟨-, h2, h3⟩)
    · exact ⟨hba, hl.rings.self hb⟩
    · exact ⟨h2, h3⟩
  · exact fun ⟨h2, h3⟩ => .inr ⟨hba, h2, h3⟩

theorem Dropped.layout (h : Dropped w p a w') (hl : Layout w) (ha : a ∈ w.mem p) : Layout w' where
  owner hb := by
    rw [h.area]
    exact hl.owner ((h.mem_iff hl ha).mp hb).1
  living hb := by
    have := hl.living ((h.mem_iff hl ha).mp hb).1
    unfold Mem.living at this ⊢
    rwa [h.nextPid]
  nodup q := by
    rw [h.mem]
    split
    · exact (hl.nodup p).erase a
    · exact hl.nodup q
  fresh hb := by
    rw [h.nextArea]
    exact hl.fresh ((h.mem_iff hl ha).mp hb).1
  wf hb := by
    rw [h.area]
    exact hl.wf ((h.mem_iff hl ha).mp hb).1
  apart hb hc := hl.apart ((h.at_iff hl ha).mp hb).1 ((h.at_iff hl ha).mp hc).1
  rings := by
    obtain ⟨hR, hself, -⟩ := hl.rings.remove (hl.live ha)
    rw [h.copies]
    exact (hR.without hself).congr fun b => h.live_iff hl ha
  range hb hs := by
    obtain ⟨hb, hba⟩ := (h.live_iff hl ha).mp hb
    rw [h.area]
    exact hl.range hb ((h.same_iff hl ha hb hba).mp hs).2
  cow hb hs hne := by
    obtain ⟨hb, hba⟩ := (h.live_iff hl ha).mp hb
    rw [h.area]
    exact hl.cow hb ((h.same_iff hl ha hb hba).mp hs).2 hne
  flags hb := by
    rw [h.area]
    exact hl.flags ((h.mem_iff hl ha).mp hb).1

theorem Dropped.dirs (h : Dropped w p a w') : Dirs w' w'.pd = Dirs w w.pd := by
  unfold Dirs Mem.living
  rw [h.nextPid, h.pd]

theorem Dropped.entry (h : Dropped w p a w') (hl : Layout w) (hb : Backed w w.pd) (ho : OwnDirs w w.pd)
    (ha : a ∈ w.mem p) (hq : At w' q x b) :
    w'.machine.pde (w'.pd q) x = w.machine.pde (w.pd q) x ∧
      w'.machine.pte (w'.pd q) x = w.machine.pte (w.pd q) x := by
  obtain ⟨u, hr, hu⟩ := h.machine
  obtain ⟨hq, hba⟩ := (h.at_iff hl ha).mp hq
  rw [h.pd]
  refine ⟨hr.pde (hb.dirs hl hq) (hl.at_lt hq), ?_⟩
  rw [hr.pte (hb.dirs hl hq) (hl.at_lt hq) (hb.pde_present hq)]
  split
  · next hd =>
    obtain rfl := ho (hl.living hq.1) (hl.living ha) hd
    refine hu _ _ ?_
    rw [← Bool.not_eq_true]
    exact fun hc => hba (hl.apart hq ⟨ha, hc⟩)
  · rfl

theorem Dropped.frame (h : Dropped w p a w') (hl : Layout w) (hb : Backed w w.pd) (ho : OwnDirs w w.pd)
    (ha : a ∈ w.mem p) (hq : At w' q x b) : w'.frame w'.pd q x = w.frame w.pd q x :=
  congrArg Entry.frame (h.entry hl hb ho ha hq).2

theorem Dropped.backed (h : Dropped w p a w') (hl : Layout w) (hb : Backed w w.pd) (ho : OwnDirs w w.pd)
    (ha : a ∈ w.mem p) : Backed w' w'.pd where
  spaces := by
    obtain ⟨u, hr, -⟩ := h.machine
    rw [h.dirs]
    exact hb.spaces.remaps hr
  loaded := by
    obtain ⟨u, hr, -⟩ := h.machine
    rw [h.dirs, hr.cr3]
    exact hb.loaded
  pde hq := by
    rw [(h.entry hl hb ho ha hq).1]
    exact hb.pde ((h.at_iff hl ha).mp hq).1
  pte hq := by
    rw [(h.entry hl hb ho ha hq).2, h.area]
    exact hb.pte ((h.at_iff hl ha).mp hq).1
  shared hq hr heq := by
    rw [h.frame hl hb ho ha hq, h.frame hl hb ho ha hr] at heq
    obtain ⟨hq, hqa⟩ := (h.at_iff hl ha).mp hq
    obtain ⟨hr, hra⟩ := (h.at_iff hl ha).mp hr
    obtain ⟨h1, h2⟩ := hb.shared hq hr heq
    exact ⟨h1, (h.same_iff hl ha (hl.at_live hq) hqa).mpr ⟨hra, h2⟩⟩
  same hq hr hs := by
    rw [h.frame hl hb ho ha hq, h.frame hl hb ho ha hr]
    obtain ⟨hq, hqa⟩ := (h.at_iff hl ha).mp hq
    exact hb.same hq ((h.at_iff hl ha).mp hr).1 ((h.same_iff hl ha (hl.at_live hq) hqa).mp hs).2
  notFree hq := by
    obtain ⟨u, hr, -⟩ := h.machine
    rw [h.frame hl hb ho ha hq, hr.free]
    exact hb.notFree ((h.at_iff hl ha).mp hq).1

theorem Dropped.agrees (h : Dropped w p a w') (hl : Layout w) (hb : Backed w w.pd) (ho : OwnDirs w w.pd)
    (ha : a ∈ w.mem p) (he : Agrees w w.pd img) : Agrees w' w'.pd img := by
  intro q x b hq
  obtain ⟨u, hr, -⟩ := h.machine
  rw [he ((h.at_iff hl ha).mp hq).1]
  unfold Mem.cell
  rw [h.frame hl hb ho ha hq, h.area, hr.byte]

-- ---------------------------------------------------------------------------
-- Removing all areas of a process
-- ---------------------------------------------------------------------------

/-- The areas `todo` of `p` are still to be removed. -/
structure Dropping (w₀ : Mem) (img : Nat → Nat → Option Cell) (p : Nat) (todo : List Nat) (w : Mem) :
    Prop where
  layout : Layout w
  backed : Backed w w.pd
  agrees : Agrees w w.pd img
  ownDirs : OwnDirs w w.pd
  nextPid : w.nextPid = w₀.nextPid
  current : w.current = w₀.current
  pd : w.pd = w₀.pd
  area : w.area = w₀.area
  cr3 : w.machine.cr3 = w₀.machine.cr3
  free : w.machine.free = w₀.machine.free
  mem : ∀ {q}, q ≠ p → w.mem q = w₀.mem q
  todo : w.mem p = todo

theorem Dropping.step (h : Dropping w₀ img p (a :: todo) w) (hd : Dropped w p a w') :
    Dropping w₀ img p todo w' := by
  have ha : a ∈ w.mem p := by
    rw [h.todo]
    exact List.mem_cons_self
  obtain ⟨u, hr, -⟩ := hd.machine
  refine ⟨hd.layout h.layout ha, hd.backed h.layout h.backed h.ownDirs ha,
    hd.agrees h.layout h.backed h.ownDirs ha h.agrees, ?_, hd.nextPid.trans h.nextPid,
    hd.current.trans h.current, hd.pd.trans h.pd, hd.area.trans h.area, hr.cr3.trans h.cr3,
    hr.free.trans h.free, ?_, ?_⟩
  · intro q r hq hr
    unfold Mem.living at hq hr
    rw [hd.nextPid] at hq hr
    rw [hd.pd]
    exact h.ownDirs hq hr
  · intro q hq
    rw [hd.mem, if_neg hq]
    exact h.mem hq
  · rw [hd.mem, if_pos rfl, h.todo, List.erase_cons_head]

theorem Inv.dropping (h : Inv w img) (p : Nat) : Dropping w img p (w.mem p) w :=
  ⟨h.layout, h.backed, h.agrees, h.ownDirs, rfl, rfl, rfl, rfl, rfl, rfl, fun _ => rfl, rfl⟩

theorem Dropping.inv (h : Dropping w₀ img p [] w) (hi : Inv w₀ img) :
    Inv w (Function.update img p fun _ => none) := by
  have hne : ∀ {q x a}, At w q x a → q ≠ p := by
    rintro q x a ha rfl
    have := ha.1
    rw [h.todo] at this
    cases this
  refine ⟨h.layout, h.backed, fun ha => ?_, fun {q x} hx => ?_, h.ownDirs, h.nextPid ▸ hi.pos⟩
  · rw [Function.update_of_ne (hne ha)]
    exact h.agrees ha
  · by_cases hq : q = p
    · rw [hq, Function.update_self]
    · rw [Function.update_of_ne hq]
      refine hi.absent fun a ha => hx a ?_
      unfold At at ha ⊢
      rwa [h.mem hq, h.area]

theorem Dropping.ordered (h : Dropping w₀ img p [] w) (ho : ∀ q, Ordered w₀ q) (q : Nat) : Ordered w q := by
  unfold Ordered
  by_cases hq : q = p
  · rw [hq, h.todo]
    exact .nil
  · rw [h.mem hq, h.area]
    exact ho q

theorem freeArea_dropped (hl : Layout w) (ha : a ∈ w.mem p) {m : Machine}
    {u : Nat → Entry → Entry} (hr : Remaps (Dirs w w.pd) (w.pd p) u w.machine m)
    (hu : ∀ y e, (w.area a).covers y = false → u y e = e) :
    Dropped w p a (freeArea { w with machine := m } a) := by
  have hown := hl.owner ha
  refine ⟨rfl, rfl, rfl, ?_, rfl, fun q => ?_, rfl, u, hr, hu⟩
  · funext q
    exact setMem_pd _ _ _ _
  · refine (setMem_mem _ _ _ _).trans ?_
    simp only [hown]
    rfl

theorem procmmExit_spec (h : Inv w img) (p : Nat) : Dropping w img p [] (procmmExit w p) := by
  unfold procmmExit
  have key : ∀ (todo : List Nat) (w1 : Mem), Dropping w img p todo w1 →
      Dropping w img p [] (todo.foldl freeArea w1) := by
    intro todo
    induction todo with
    | nil => exact fun _ h => h
    | cons a todo ih =>
      intro w1 h1
      have ha : a ∈ w1.mem p := by
        rw [h1.todo]
        exact List.mem_cons_self
      exact ih _ (h1.step (freeArea_dropped h1.layout ha .refl fun _ _ _ => rfl))
  exact key _ _ (h.dropping p)

theorem removeArea_spec (h : Dropping w₀ img p (a :: todo) w) :
    ∃ w', removeArea p w a = .ok w' ∧ Dropping w₀ img p todo w' := by
  have ha : a ∈ w.mem p := by
    rw [h.todo]
    exact List.mem_cons_self
  obtain ⟨h1, h2, -, h4⟩ := h.layout.wf ha
  have hat : ∀ {y}, (w.area a).start ≤ y → y < (w.area a).stop → At w p y a :=
    fun hy1 hy2 => ⟨ha, MemArea.covers_iff.mpr ⟨hy1, hy2⟩⟩
  obtain ⟨m1, hm1, hr⟩ := rewriteRange_spec (g := fun _ => Entry.zero) h.backed.spaces h.backed.loaded
    (d := w.pd p) ⟨p, h.layout.living ha, rfl⟩ h1 h2 h4
    fun y hy1 hy2 => ⟨h.backed.pde_present (hat hy1 hy2), h.backed.pte_present (hat hy1 hy2)⟩
  refine ⟨_, ?_, h.step (freeArea_dropped h.layout ha hr ?_)⟩
  · unfold rewritePages at hm1
    simp only [removeArea, hm1, bind, Except.bind]
    rfl
  · intro y e hy
    refine if_neg fun hc => ?_
    rw [MemArea.covers_iff.mpr hc] at hy
    cases hy

theorem procmmRemoveall_spec (h : Inv w img) (p : Nat) :
    ∃ w', procmmRemoveall w p = .ok w' ∧ Dropping w img p [] w' := by
  unfold procmmRemoveall
  have key : ∀ (todo : List Nat) (w1 : Mem), Dropping w img p todo w1 →
      ∃ w', todo.foldlM (removeArea p) w1 = .ok w' ∧ Dropping w img p [] w' := by
    intro todo
    induction todo with
    | nil => exact fun w1 h1 => ⟨w1, rfl, h1⟩
    | cons a todo ih =>
      intro w1 h1
      obtain ⟨w2, hw2, h2⟩ := removeArea_spec h1
      obtain ⟨w3, hw3, h3⟩ := ih w2 h2
      refine ⟨w3, ?_, h3⟩
      rw [List.foldlM_cons, hw2]
      exact hw3
  exact key _ _ (h.dropping p)

end

end Os5
