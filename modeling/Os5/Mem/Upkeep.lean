import Os5.Mem.Inherit
import Os5.Mem.StackFaults

/-!
# Lists under removal and copy on write

Freeing an area takes it out of its list, and a fault on a page that is copy on
write splits the page out of its area and gives it away from the ring. Neither
makes a read-only area, and neither moves an area past another.
-/

namespace Os5

open Machine Circular Outcome

/-- From `w` to `w'` areas were freed, cut or made writable. -/
structure Reworks (w w' : Mem) : Prop where
  lists : Lists w'
  frame : SameFrame w w'
  ordered : ∀ {q}, Ordered w q → Ordered w' q
  readOnly : ∀ {q a}, a ∈ w'.mem q → (w'.area a).flags.readOnly = true → a ∈ w.mem q ∧ w'.area a = w.area a

/-- Areas were cut or made writable, and what they covered is still covered. -/
structure Recuts (w w' : Mem) : Prop extends Reworks w w' where
  covers : ∀ {q x b}, At w q x b → ∃ c, At w' q x c
  within : ∀ {q c}, c ∈ w'.mem q → ∃ b ∈ w.mem q, (w'.area c).stop ≤ (w.area b).stop

section
variable {w w' w'' : Mem} {p q a b c x : Nat} {m : Machine} {todo : List Nat}

theorem Reworks.refl (hl : Lists w) : Reworks w w := ⟨hl, .refl, id, fun ha _ => ⟨ha, rfl⟩⟩

theorem Reworks.trans (h1 : Reworks w w') (h2 : Reworks w' w'') : Reworks w w'' where
  lists := h2.lists
  frame := h1.frame.trans h2.frame
  ordered ho := h2.ordered (h1.ordered ho)
  readOnly {q a} ha hro := by
    obtain ⟨ha', hae⟩ := h2.readOnly ha hro
    obtain ⟨haw, hae'⟩ := h1.readOnly ha' (hae ▸ hro)
    exact ⟨haw, hae.trans hae'⟩

theorem Reworks.texts (h : Reworks w w') (ht : TextsApart w q) : TextsApart w' q :=
  ht.of_old fun _ => h.readOnly

theorem Recuts.trans (h1 : Recuts w w') (h2 : Recuts w' w'') : Recuts w w'' where
  toReworks := h1.toReworks.trans h2.toReworks
  covers h := by
    obtain ⟨c, hc⟩ := h1.covers h
    exact h2.covers hc
  within h := by
    obtain ⟨b, hb, hle⟩ := h2.within h
    obtain ⟨c, hc, hle'⟩ := h1.within hb
    exact ⟨c, hc, hle.trans hle'⟩

theorem Reworks.recuts (h : Reworks w w') (hmem : ∀ q, w'.mem q = w.mem q)
    (hrange : ∀ b, (w'.area b).start = (w.area b).start ∧ (w'.area b).stop = (w.area b).stop) : Recuts w w' where
  toReworks := h
  covers {q x b} hb := by
    refine ⟨b, (hmem q).symm ▸ hb.1, ?_⟩
    rw [MemArea.covers_iff, (hrange b).1, (hrange b).2]
    exact MemArea.covers_iff.mp hb.2
  within {q c} hc := ⟨c, hmem q ▸ hc, Nat.le_of_eq (hrange c).2⟩

theorem Recuts.refl (hl : Lists w) : Recuts w w := (Reworks.refl hl).recuts (fun _ => rfl) fun _ => ⟨rfl, rfl⟩

-- ---------------------------------------------------------------------------
-- Freeing
-- ---------------------------------------------------------------------------

theorem sameFrame_machine (w : Mem) (m : Machine) : SameFrame w { w with machine := m } :=
  ⟨rfl, rfl, fun _ => rfl, fun _ => rfl⟩

theorem Lists.withMachine (hl : Lists w) (m : Machine) : Lists { w with machine := m } :=
  ⟨hl.toLinked.congr (fun _ => rfl) rfl rfl rfl fun _ h => h, hl.wf⟩

theorem Reworks.free (hl : Lists w) (ha : a ∈ w.mem p) (m : Machine) :
    Reworks w (freeArea { w with machine := m } a) where
  lists := by
    have hl' := hl.withMachine m
    have hmem : ∀ {b q}, b ∈ (freeArea { w with machine := m } a).mem q → b ∈ w.mem q := fun hb =>
      ((hl'.toLinked.mem_freeArea (w := { w with machine := m }) ha).mp hb).1
    exact ⟨hl'.toLinked.freeArea ha, fun hb => hl.wf (hmem hb)⟩
  frame := (sameFrame_machine w m).trans freeArea_frame.1
  ordered {q} ho := by
    rw [Ordered, freeArea_mem]
    split
    · exact List.Pairwise.sublist List.erase_sublist ho
    · exact ho
  readOnly {q b} hb _ :=
    ⟨((hl.withMachine m).toLinked.mem_freeArea (w := { w with machine := m }) ha).mp hb |>.1, rfl⟩

theorem freeArea_rest (hl : Lists w) (hlist : w.mem p = a :: todo) (m : Machine) :
    (freeArea { w with machine := m } a).mem p = todo := by
  have hown := hl.owner (p := p) (a := a) (hlist ▸ List.mem_cons_self)
  refine (freeArea_mem (w := { w with machine := m })).trans ?_
  rw [if_pos hown.symm]
  refine (congrArg (List.erase · a) hlist).trans ?_
  exact List.erase_cons_head ..

theorem procmmExit_reworks (hl : Lists w) (p : Nat) : Reworks w (procmmExit w p) ∧ (procmmExit w p).mem p = [] := by
  unfold procmmExit
  generalize htodo : w.mem p = todo
  induction todo generalizing w with
  | nil => exact ⟨.refl hl, htodo⟩
  | cons a todo ih =>
    have hfree := Reworks.free hl (htodo ▸ List.mem_cons_self) w.machine
    obtain ⟨h1, h2⟩ := ih hfree.lists (freeArea_rest hl htodo w.machine)
    exact ⟨hfree.trans h1, h2⟩

theorem removeArea_eq (h : removeArea p w a = .ok w') : ∃ m, w' = freeArea { w with machine := m } a := by
  obtain ⟨m, -, h⟩ := bind_ok.mp h
  exact ⟨_, (Except.ok.inj h).symm⟩

theorem procmmRemoveall_reworks (hl : Lists w) (h : procmmRemoveall w p = .ok w') :
    Reworks w w' ∧ w'.mem p = [] := by
  unfold procmmRemoveall at h
  generalize htodo : w.mem p = todo at h
  induction todo generalizing w with
  | nil =>
    obtain rfl := Except.ok.inj h
    exact ⟨.refl hl, htodo⟩
  | cons a todo ih =>
    rw [List.foldlM_cons] at h
    obtain ⟨w1, hstep, h⟩ := bind_ok.mp h
    obtain ⟨m, rfl⟩ := removeArea_eq hstep
    have hfree := Reworks.free hl (p := p) (htodo ▸ List.mem_cons_self) m
    obtain ⟨h1, h2⟩ := ih hfree.lists (freeArea_rest hl htodo m) h
    exact ⟨hfree.trans h1, h2⟩

-- ---------------------------------------------------------------------------
-- Copy on write
-- ---------------------------------------------------------------------------

theorem Lists.sameRanges (hl : Lists w) (ha : Live w a) (hcow : (w.area a).flags.cow = true) : SameRanges w a :=
  fun _ hs => (hl.copies ha hs hcow).2

theorem page_inside {v : MemArea} (hv : v.Aligned) (hx : v.covers x = true) :
    v.start ≤ pageMask x ∧ pageMask x + pageSize ≤ v.stop ∧
      wrap (pageMask x + pageSize) = pageMask x + pageSize ∧
      pageMask (pageMask x + pageSize) = pageMask x + pageSize := by
  obtain ⟨h1, h2, h3, h4⟩ := hv
  rw [MemArea.covers_iff] at hx
  unfold pageMask pageSize wrap at *
  omega

theorem Cut.reworks {lo hi : Nat} {pc : Parts} {done : List Nat} (hc : Cut w a lo hi pc done w') (hl : Lists w)
    (ha : Live w a) (hcow : (w.area a).flags.cow = true) : Reworks w w' where
  lists := hc.lists hl (hl.sameRanges ha hcow)
  frame := ⟨hc.nextPid, hc.current, hc.pd, hc.stackLimit⟩
  ordered ho := hc.ordered hl.listed (hl.sameRanges ha hcow) ho
  readOnly {q b} hb hro := by
    obtain ⟨c, hcm, k, hk⟩ := hc.mem_iff.mp hb
    have harea := hc.area (hl.live hcm) hk
    have hnot : c ∉ done := by
      intro hdone
      rw [harea, Part.shape_flags] at hro
      have := (hl.copies ha ((hc.ring c).mp hdone) hcow).1
      rw [MmFlags.readOnly_cow hro] at this
      cases this
    obtain rfl := hc.mid_of_not_done hnot hk
    obtain rfl := Option.some.inj ((hc.mid c).symm.trans hk)
    exact ⟨hcm, by simpa [Part.shape, hnot] using harea⟩

theorem Cut.recuts {lo hi : Nat} {pc : Parts} {done : List Nat} (hc : Cut w a lo hi pc done w') (hl : Lists w)
    (ha : Live w a) (hcow : (w.area a).flags.cow = true) : Recuts w w' where
  toReworks := hc.reworks hl ha hcow
  covers {q x b} hb := by
    obtain ⟨k, c, hk, hpart⟩ := hc.exists_part (hl.sameRanges ha hcow) hb.2
    exact ⟨c, (hc.at_iff hl.listed (hl.sameRanges ha hcow)).mpr ⟨b, hb, k, hk, hpart⟩⟩
  within {q c} hcm := by
    obtain ⟨b, hb, k, hk⟩ := hc.mem_iff.mp hcm
    exact ⟨b, hb, (hc.part_range (hl.sameRanges ha hcow) (hl.live hb) hk).2⟩

theorem splitArea_recuts (hl : Lists w) (ha : At w p x a) (hcow : (w.area a).flags.cow = true)
    (h : splitArea w a (pageMask x) (wrap (pageMask x + pageSize)) = .ok w') :
    Recuts w w' ∧ w'.machine = w.machine ∧ a ∈ w'.mem p ∧
      w'.area a = { w.area a with start := pageMask x, stop := pageMask x + pageSize } := by
  obtain ⟨h1, h2, h3, h4⟩ := page_inside (hl.wf ha.1) ha.2
  have hlive := hl.live ha.1
  rw [h3] at h
  obtain ⟨w1, hw1, ⟨rfl, hs, he⟩ | ⟨pc, done, hc⟩⟩ := splitArea_cut hl.listed hlive (pageMask_pageMask x) h4
    (Nat.le_add_right _ _) h1 h2
  · obtain rfl := Except.ok.inj (hw1.symm.trans h)
    exact ⟨.refl hl, rfl, ha.1, congrArg₂ (fun s e => { w1.area a with start := s, stop := e }) hs he⟩
  · obtain rfl := Except.ok.inj (hw1.symm.trans h)
    exact ⟨hc.recuts hl hlive hcow, hc.machine, hc.mem_iff.mpr ⟨a, ha.1, .mid, hc.mid a⟩,
      (hc.area_self hl.listed hlive).2⟩

theorem Linked.unCow (hl : Linked w) (hlone : ∀ b, SameRing w.copies a b → b = a) : Linked (unCow w a) := by
  have hlive : ∀ {b}, Live (Os5.unCow w a) b ↔ Live w b := by
    intro b
    unfold Live
    rw [unCow_owner]
    rfl
  refine ⟨fun hb => ?_, hl.living, hl.nodup, hl.fresh, hl.rings.congr fun _ => hlive, fun hb hs hcow => ?_,
    fun hb hs hw hcow => ?_⟩
  · rw [unCow_owner]
    exact hl.owner hb
  · rename_i b c
    have hba : b ≠ a := by
      rintro rfl
      rw [unCow_flags_self] at hcow
      cases hcow
    have hca : c ≠ a := by
      rintro rfl
      exact hba (hlone b (SameRing.symm hs))
    rw [unCow_flags w a b hba] at hcow
    rw [unCow_flags w a c hca, unCow_start, unCow_start, unCow_stop, unCow_stop]
    exact hl.copies (hlive.mp hb) hs hcow
  · rename_i b c
    by_cases hba : b = a
    · subst hba
      exact hlone c hs
    · rw [unCow_flags w a b hba] at hw hcow
      exact hl.lone (hlive.mp hb) hs hw hcow

theorem Linked.leave (hl : Linked w) (ha : a ∈ w.mem p) :
    Linked { w with copies := Circular.remove w.copies a } ∧
      ∀ b, SameRing (Circular.remove w.copies a) a b → b = a := by
  obtain ⟨hR, hself, hsame⟩ := hl.rings.remove (hl.live ha)
  have hring : ∀ {b c}, Live w b → SameRing (Circular.remove w.copies a) b c → SameRing w.copies b c := by
    intro b c hb hs
    rcases (hsame b c hb).mp hs with rfl | ⟨-, -, hs⟩
    · exact hl.rings.self hb
    · exact hs
  exact ⟨⟨hl.owner, hl.living, hl.nodup, hl.fresh, hR, fun hb hs => hl.copies hb (hring hb hs),
    fun hb hs => hl.lone hb (hring hb hs)⟩, fun b hs => List.mem_singleton.mp (hself.sameRing.mp hs)⟩

theorem unCow_recuts (hl : Lists w) (hlone : ∀ b, SameRing w.copies a b → b = a) : Recuts w (unCow w a) := by
  refine Reworks.recuts ?_ (fun _ => rfl) fun b => ⟨unCow_start .., unCow_stop ..⟩
  refine ⟨⟨hl.toLinked.unCow hlone, fun hb => (hl.wf hb).congr (unCow_start ..) (unCow_stop ..)⟩,
    ⟨rfl, rfl, fun _ => rfl, fun _ => rfl⟩, fun ho => ho.congr rfl fun _ _ => ⟨unCow_start .., unCow_stop ..⟩,
    fun {q b} hb hro => ⟨hb, ?_⟩⟩
  have hba : b ≠ a := by
    rintro rfl
    rw [unCow_flags_self] at hro
    simp [MmFlags.readOnly] at hro
  rw [unCow_area, if_neg hba]

theorem Lists.recuts_machine (hl : Lists w) (m : Machine) : Recuts w { w with machine := m } :=
  Reworks.recuts ⟨hl.withMachine m, sameFrame_machine w m, id, fun ha _ => ⟨ha, rfl⟩⟩ (fun _ => rfl)
    fun _ => ⟨rfl, rfl⟩

theorem leave_recuts (hl : Lists w) (ha : a ∈ w.mem p) :
    Recuts w { w with copies := Circular.remove w.copies a } :=
  Reworks.recuts ⟨⟨(hl.toLinked.leave ha).1, hl.wf⟩, ⟨rfl, rfl, fun _ => rfl, fun _ => rfl⟩, id,
    fun ha _ => ⟨ha, rfl⟩⟩ (fun _ => rfl) fun _ => ⟨rfl, rfl⟩

/-- The stack that a fault at `address` makes grow. -/
def growing (w : Mem) (address : Nat) : Option Nat :=
  match findIncluding w w.current address with
  | some _ => none
  | none =>
    match findAbove w w.current address with
    | none => none
    | some above =>
      if wrap ((w.area above).start + 2 ^ 32 - address) ≥ pageSize then none
      else if ¬ (w.area above).flags.growsdown then none
      else if address ≤ (w.proc w.current).stackLimit then none
      else some above

theorem insideFault_recuts {present write r : Bool} (hl : Lists w)
    (hinc : findIncluding w w.current x = some a)
    (h : procmmHandlePageFault w x present write = .ok (r, w')) : Recuts w w' := by
  have hat := at_of_findIncluding hinc
  unfold procmmHandlePageFault at h
  simp only [hinc] at h
  split at h
  · next hcond =>
    simp only [Bool.and_eq_true] at hcond
    obtain ⟨w1, hsplit, h⟩ := bind_ok.mp h
    obtain ⟨hr1, -, ha1, -⟩ := splitArea_recuts hl hat hcond.1.1 hsplit
    split at h
    · next hempty =>
      obtain ⟨m, -, h⟩ := bind_ok.mp h
      obtain ⟨-, rfl⟩ := Prod.mk.inj (Except.ok.inj h)
      have hlone := (hr1.lists.rings.isEmpty_iff (hr1.lists.live ha1)).mp hempty
      exact (hr1.trans (hr1.lists.recuts_machine m)).trans (unCow_recuts (hr1.lists.withMachine m) hlone)
    · obtain ⟨⟨f, m1⟩, -, h⟩ := bind_ok.mp h
      obtain ⟨m2, -, h⟩ := bind_ok.mp h
      obtain ⟨-, rfl⟩ := Prod.mk.inj (Except.ok.inj h)
      have hm := hr1.lists.recuts_machine (m2.copyBytes (vmmPageGet w1.machine x).frame f)
      have hleave := leave_recuts hm.lists ha1
      exact ((hr1.trans hm).trans hleave).trans (unCow_recuts hleave.lists (hm.lists.toLinked.leave ha1).2)
  · split at h
    · obtain ⟨⟨f, m1⟩, -, h⟩ := bind_ok.mp h
      obtain ⟨m2, -, h⟩ := bind_ok.mp h
      obtain ⟨-, rfl⟩ := Prod.mk.inj (Except.ok.inj h)
      exact hl.recuts_machine m2
    · obtain ⟨-, rfl⟩ := Prod.mk.inj (Except.ok.inj h)
      exact .refl hl

theorem growing_mem {above : Nat} (h : growing w x = some above) : above ∈ w.mem w.current := by
  unfold growing at h
  cases hinc : findIncluding w w.current x with
  | some a =>
    rw [hinc] at h
    cases h
  | none =>
    cases habove : findAbove w w.current x with
    | none =>
      rw [hinc, habove] at h
      cases h
    | some c =>
      simp only [hinc, habove] at h
      split_ifs at h
      obtain rfl := Option.some.inj h
      exact findAbove_mem habove

theorem outsideFault_cases {present write r : Bool} (hinc : findIncluding w w.current x = none)
    (h : procmmHandlePageFault w x present write = .ok (r, w')) :
    (growing w x = none ∧ w' = w) ∨ ∃ above b, growing w x = some above ∧
      newArea w w.current (pageMask x) (w.area above).start (w.area above).flags (w.area above).type =
        .ok (b, w') := by
  unfold procmmHandlePageFault at h
  unfold growing
  simp only [hinc] at h ⊢
  cases habove : findAbove w w.current x with
  | none =>
    rw [habove] at h
    exact .inl ⟨rfl, (Prod.mk.inj (Except.ok.inj h)).2.symm⟩
  | some above =>
    simp only [habove] at h ⊢
    split at h
    · next hfar => exact .inl ⟨if_pos hfar, (Prod.mk.inj (Except.ok.inj h)).2.symm⟩
    · next hnear =>
      rw [if_neg hnear]
      split at h
      · next hup => exact .inl ⟨if_pos hup, (Prod.mk.inj (Except.ok.inj h)).2.symm⟩
      · next hdown =>
        rw [if_neg hdown]
        split at h
        · next hlimit => exact .inl ⟨if_pos hlimit, (Prod.mk.inj (Except.ok.inj h)).2.symm⟩
        · next hover =>
          obtain ⟨⟨b, v⟩, hnew, h⟩ := bind_ok.mp h
          obtain ⟨-, rfl⟩ := Prod.mk.inj (Except.ok.inj h)
          exact .inr ⟨above, b, if_neg hover, hnew⟩

end

end Os5
