import Os5.Mem.Granted
import Os5.Mem.Mapped

/-!
# A process that starts over

What replacing a program rests on: all areas of a process can be removed where their page
tables are, a copy gets to pages that were asked for and to no others below `KERNEL_OFFSET`,
and an empty stack gets its first page with the first store there.
-/

namespace Os5

open Machine Outcome Transition

-- ---------------------------------------------------------------------------
-- Giving up all memory
-- ---------------------------------------------------------------------------

def TablesThere (w : Mem) (p : Nat) : Prop := ∀ x a, At w p x a → (w.machine.pde (w.pd p) x).present = true

section
variable {dirs : Frame → Prop} {d : Frame} {m : Machine} {w w' : Mem} {p a x : Nat} {pages todo : List Nat}

theorem clearLoop_ok (hs : Spaces m dirs) (hc : dirs m.cr3) (hd : dirs d) (hl : Loaded m d)
    (hpages : ∀ x ∈ pages, x < kernelOffset ∧ (m.pde d x).present = true) : ∃ m' u,
    (pages.foldlM (fun m j => vmmExpageSet m j Entry.zero) m : Except Stop Machine) = .ok m' ∧
      Remaps dirs d u m m' := by
  induction pages generalizing m with
  | nil => exact ⟨m, _, rfl, .refl⟩
  | cons x pages ih =>
    obtain ⟨hx, hp⟩ := hpages x List.mem_cons_self
    have hset := hs.setPte hd hx hp Entry.zero
    obtain ⟨m', u, hm', hrest⟩ := ih (hs.remaps hset) (hset.cr3.symm ▸ hc) (hl.setPte hs hc hd hx hp _)
      fun y hy => by
        obtain ⟨hlow, hpresent⟩ := hpages y (List.mem_cons_of_mem _ hy)
        exact ⟨hlow, by rwa [hset.pde hd hlow]⟩
    refine ⟨m', _, ?_, hset.trans hrest⟩
    rw [List.foldlM_cons, vmmExpageSet_loaded hl hp]
    exact hm'

theorem removeArea_ok (hs : Spaces w.machine dirs) (hc : dirs w.machine.cr3) (hd : dirs (w.pd p))
    (ha : (w.area a).Wf) (htables : ∀ x, (w.area a).covers x = true → (w.machine.pde (w.pd p) x).present = true) :
    ∃ m u, removeArea p w a = .ok (freeArea { w with machine := m } a) ∧
      Remaps dirs (w.pd p) u w.machine m := by
  have hload := hs.exdirSet (d := w.pd p) hc (w.pd p)
  obtain ⟨m, u, hm, hclear⟩ := @clearLoop_ok dirs (w.pd p) _
    (pagesFrom (w.area a).start (w.area a).stop) (hs.remaps hload) hc hd (vmmExdirSet_loaded (hs.nonzero hd)) fun x hx => by
      obtain ⟨h1, h2, -⟩ := (mem_pagesFrom ha.start).mp hx
      have hlow : x < kernelOffset := h2.trans_le ha.below
      refine ⟨hlow, ?_⟩
      rw [hload.pde hd hlow]
      exact htables x (MemArea.covers_iff.mpr ⟨h1, h2⟩)
  have hall := hload.trans hclear
  have hback := (hs.remaps hall).exdirSet (d := w.pd p) (hall.cr3.symm ▸ hc) (vmmExdirSet w.machine (w.pd p)).1
  refine ⟨_, _, ?_, hall.trans hback⟩
  rw [removeArea]
  exact bind_ok.mpr ⟨m, hm, rfl⟩

theorem removeAreas_ok (hs : Spaces w.machine dirs) (hc : dirs w.machine.cr3) (hd : dirs (w.pd p))
    (htodo : ∀ a ∈ todo, (w.area a).Wf ∧
      ∀ x, (w.area a).covers x = true → (w.machine.pde (w.pd p) x).present = true) :
    ∃ w', todo.foldlM (removeArea p) w = .ok w' := by
  induction todo generalizing w with
  | nil => exact ⟨w, rfl⟩
  | cons a todo ih =>
    obtain ⟨hwf, htables⟩ := htodo a List.mem_cons_self
    obtain ⟨m, u, hm, hremaps⟩ := removeArea_ok hs hc hd hwf htables
    have hpd : (freeArea { w with machine := m } a).pd p = w.pd p := freeArea_frame.1.pd p
    have hspaces : Spaces (freeArea { w with machine := m } a).machine dirs := hs.remaps hremaps
    obtain ⟨w', hw'⟩ := ih hspaces (hremaps.cr3.symm ▸ hc) (hpd.symm ▸ hd) fun b hb => by
      obtain ⟨hb1, hb2⟩ := htodo b (List.mem_cons_of_mem _ hb)
      refine ⟨hb1, fun x hx => ?_⟩
      rw [hpd]
      exact (hremaps.pde hd (hb1.lt hx)).symm ▸ hb2 x hx
    refine ⟨w', ?_⟩
    rw [List.foldlM_cons, hm]
    exact hw'

theorem clearLoop_tables {m' : Machine} (hs : Spaces m dirs) (hc : dirs m.cr3) (hd : dirs d) (hl : Loaded m d)
    (hpages : ∀ x ∈ pages, x < kernelOffset)
    (h : (pages.foldlM (fun m j => vmmExpageSet m j Entry.zero) m : Except Stop Machine) = .ok m') :
    ∀ x ∈ pages, (m.pde d x).present = true := by
  induction pages generalizing m with
  | nil => exact fun x hx => absurd hx List.not_mem_nil
  | cons x pages ih =>
    rw [List.foldlM_cons] at h
    obtain ⟨m1, hset, h⟩ := bind_ok.mp h
    have hx := hpages x List.mem_cons_self
    obtain ⟨hsets, hl1⟩ := Sets.through_exdir hs hc hd hl hx hset
    have hp : (m.pde d x).present = true := by
      by_contra hmissing
      exact absurd (hsets.made (by simpa using hmissing)).1 (by decide)
    have hrest := ih hsets.spaces (hsets.cr3.symm ▸ hc) hl1 (fun y hy => hpages y (List.mem_cons_of_mem _ hy)) h
    intro y hy
    rcases List.mem_cons.mp hy with rfl | hy
    · exact hp
    · have hlow := hpages y (List.mem_cons_of_mem _ hy)
      have hsame : m1.pde d y = m.pde d y := by
        by_cases hj : dirIdx y = dirIdx x
        · have hpy : (m.pde d y).present = true := by
            rw [Machine.pde, hj]
            exact hp
          exact hsets.kept hd (dirIdx_lt hlow) (.inl hpy)
        · exact hsets.kept hd (dirIdx_lt hlow) (.inr (.inr hj))
      rw [← hsame]
      exact hrest y hy

theorem removeArea_tables (hs : Spaces w.machine dirs) (hc : dirs w.machine.cr3) (hd : dirs (w.pd p))
    (ha : (w.area a).Wf) (h : removeArea p w a = .ok w') :
    ∀ x, (w.area a).covers x = true → (w.machine.pde (w.pd p) x).present = true := by
  obtain ⟨m, hloop, -⟩ := bind_ok.mp h
  have hload := hs.exdirSet (d := w.pd p) hc (w.pd p)
  have hpages : ∀ x ∈ pagesFrom (w.area a).start (w.area a).stop, x < kernelOffset := fun x hx =>
    ((mem_pagesFrom ha.start).mp hx).2.1.trans_le ha.below
  have htables := clearLoop_tables (hs.remaps hload) hc hd (vmmExdirSet_loaded (hs.nonzero hd)) hpages hloop
  intro x hx
  have hpage := htables (pageMask x)
    ((pageMask_mem_pagesFrom ha.start ha.stop).mpr (MemArea.covers_iff.mp hx))
  rw [hload.pde hd ((pageMask_le x).trans_lt (ha.lt hx)), Machine.pde, dirIdx_pageMask] at hpage
  exact hpage

theorem removeAreas_tables (hs : Spaces w.machine dirs) (hc : dirs w.machine.cr3) (hd : dirs (w.pd p))
    (hwf : ∀ a ∈ todo, (w.area a).Wf) (h : todo.foldlM (removeArea p) w = .ok w') :
    ∀ a ∈ todo, ∀ x, (w.area a).covers x = true → (w.machine.pde (w.pd p) x).present = true := by
  induction todo generalizing w with
  | nil => exact fun a ha => absurd ha List.not_mem_nil
  | cons a todo ih =>
    rw [List.foldlM_cons] at h
    obtain ⟨w1, hstep, h⟩ := bind_ok.mp h
    have hwfa := hwf a List.mem_cons_self
    have hfirst := removeArea_tables hs hc hd hwfa hstep
    obtain ⟨m, u, hm, hremaps⟩ := removeArea_ok hs hc hd hwfa hfirst
    obtain rfl := Except.ok.inj (hstep.symm.trans hm)
    have hpd : (freeArea { w with machine := m } a).pd p = w.pd p := freeArea_frame.1.pd p
    have hspaces : Spaces (freeArea { w with machine := m } a).machine dirs := hs.remaps hremaps
    have hrest := ih hspaces (hremaps.cr3.symm ▸ hc) (hpd.symm ▸ hd)
      (fun b hb => hwf b (List.mem_cons_of_mem _ hb)) h
    intro b hb x hx
    rcases List.mem_cons.mp hb with rfl | hb
    · exact hfirst x hx
    · have hpresent := hrest b hb x hx
      rw [hpd] at hpresent
      rw [← hremaps.pde hd ((hwf b (List.mem_cons_of_mem _ hb)).lt hx)]
      exact hpresent

theorem World.reach_fitted {v : World} (h : Reach World.step World.Straight World.Started v) : v.Fitted :=
  h.invariant (fun _ => Started.fitted) fun _ _ _ hf hok hs => hf.step hok hs

theorem World.Fitted.wf {v : World} (h : v.Fitted) (ha : a ∈ v.mem.mem p) : (v.mem.area a).Wf :=
  have hal := h.kept.sound.lists.wf ha
  ⟨hal.start, hal.stop, hal.le, h.fit.below ha⟩

theorem World.Fitted.removeall_iff {v : World} (h : v.Fitted) :
    (∃ w', procmmRemoveall v.mem v.current = .ok w') ↔ TablesThere v.mem v.current := by
  have hs := h.fit.spaces
  have hc := h.fit.loaded_dir h.kept.living
  constructor
  · rintro ⟨w', hw'⟩ x a ⟨ha, hx⟩
    exact removeAreas_tables hs hc ⟨_, h.kept.living, rfl⟩ (fun b hb => h.wf hb) hw' a ha x hx
  · exact fun htables => removeAreas_ok hs hc ⟨_, h.kept.living, rfl⟩ fun a ha =>
      ⟨h.wf ha, fun x hx => htables x a ⟨ha, hx⟩⟩

end

-- ---------------------------------------------------------------------------
-- Copies to what was asked for
-- ---------------------------------------------------------------------------

/-- Every address of the copy lies in pages that were asked for. -/
def Inside (rs : List Request) (ptr n : Nat) : Prop := ∀ x, ptr ≤ x → x < ptr + n → ∃ r ∈ rs, r.Spans x

/-- Memory that is there at once and does not grow. -/
def Plain (rs : List Request) : Prop := ∀ r ∈ rs, r.flags.populates = true ∧ r.flags.growsdown = false

section
variable {w w' : Mem} {rs : List Request} {ptr x n : Nat} {b : Byte} {data : List Byte}

theorem Request.Fits.start_lt {r : Request} (h : r.Fits) : r.start < 2 ^ 32 := by
  have hle := h.le.trans h.low
  unfold pageMask kernelOffset at hle
  omega

theorem Granted.copyOut_machine (h : Granted w rs) (hlow : ptr + data.length ≤ kernelOffset)
    (hmap : ∀ x, ptr ≤ x → x < ptr + data.length → w.machine.mapped w.machine.cr3 x = true) : ∃ m,
    Os5.copyOut w ptr data = .ok { w with machine := m } ∧ Granted { w with machine := m } rs ∧
      m.cr3 = w.machine.cr3 ∧ m.table = w.machine.table := by
  obtain ⟨m, hm, hwritten⟩ := copyOut_own h.own hlow hmap
  exact ⟨m, hm, h.withMachine hwritten.cr3 hwritten.table hwritten.free, hwritten.cr3, hwritten.table⟩

theorem Granted.copyOut_inside (h : Granted w rs) (hplain : Plain rs) (hin : Inside rs ptr data.length) : ∃ m,
    Os5.copyOut w ptr data = .ok { w with machine := m } ∧ Granted { w with machine := m } rs := by
  by_cases hnil : data = []
  · subst hnil
    exact ⟨w.machine, rfl, h⟩
  · have hpos := List.length_pos_iff.mpr hnil
    obtain ⟨r, hr, -, hlast⟩ := hin (ptr + (data.length - 1)) (by omega) (by omega)
    have hlow := hlast.trans_le (h.low r hr)
    have hall : ptr + data.length ≤ kernelOffset := by omega
    obtain ⟨m, hm, hg, -⟩ := h.copyOut_machine hall fun x h1 h2 => by
      obtain ⟨r, hr, hspans⟩ := hin x h1 h2
      exact h.mapped r hr (hplain r hr).1 x hspans
    exact ⟨m, hm, hg⟩

theorem store_refused (hmap : w.machine.mapped w.machine.cr3 x = false) (hnone : findIncluding w w.current x = none)
    (habove : ∀ a, findAbove w w.current x = some a → (w.area a).flags.growsdown = false) (hx : x < kernelOffset) :
    kernelStore x b maxRestarts w = .error .fault := by
  have hfault : procmmHandlePageFault w x false true = .ok (false, w) := by
    unfold procmmHandlePageFault
    simp only [hnone]
    cases hfound : findAbove w w.current x with
    | none => rfl
    | some above =>
      simp only [habove above hfound, Bool.false_eq_true, not_false_eq_true, if_true]
      split <;> rfl
  rw [kernelStore, if_neg (by rw [hmap]; exact Bool.false_ne_true)]
  refine (congrArg (· >>= _) hfault).trans ?_
  change (if kernelOffset ≤ x then _ else _) = _
  exact if_neg (Nat.not_le_of_lt hx)

theorem Granted.store_outside (h : Granted w rs) (hplain : Plain rs) (hx : x < kernelOffset)
    (hout : ∀ r ∈ rs, ¬r.Spans x) : kernelStore x b maxRestarts w = .error .fault := by
  refine store_refused (h.unmapped x hx hout) (findIncluding_eq_none.mpr fun a ha => ?_) (fun a ha => ?_) hx
  · obtain ⟨r, hr, hspans, -⟩ := h.only x a ha
    exact hout r hr hspans
  · obtain ⟨r, hr, hflags, -⟩ := h.ends a (findAbove_mem ha)
    rw [hflags]
    exact (hplain r hr).2

theorem Granted.copyOut_outside (h : Granted w rs) (hplain : Plain rs) (h1 : ptr ≤ x) (h2 : x < ptr + data.length)
    (hx : x < kernelOffset) (hout : ∀ r ∈ rs, ¬r.Spans x) : ∀ w', Os5.copyOut w ptr data ≠ .ok w' := by
  induction data generalizing w ptr with
  | nil => exact absurd (h1.trans_lt h2) (Nat.lt_irrefl _)
  | cons b data ih =>
    intro w' hok
    obtain ⟨w1, hstore, hok⟩ := bind_ok.mp hok
    by_cases hin : ∃ r ∈ rs, r.Spans ptr
    · have hfirst : Inside rs ptr [b].length := fun y hy1 hy2 => by
        obtain rfl : y = ptr := Nat.le_antisymm (Nat.lt_succ_iff.mp hy2) hy1
        exact hin
      obtain ⟨m, hm, hg⟩ := h.copyOut_inside hplain hfirst
      obtain ⟨w2, hstore2, hrest⟩ := bind_ok.mp hm
      obtain rfl := Except.ok.inj (hstore.symm.trans hstore2)
      obtain rfl := Except.ok.inj hrest
      have hne : ptr ≠ x := by
        rintro rfl
        obtain ⟨r, hr, hspans⟩ := hin
        exact hout r hr hspans
      rw [List.length_cons] at h2
      exact ih hg (by omega) (by omega) w' hok
    · rw [h.store_outside hplain (h1.trans_lt hx) fun r hr hspans => hin ⟨r, hr, hspans⟩] at hstore
      cases hstore

end

-- ---------------------------------------------------------------------------
-- The first page of a stack
-- ---------------------------------------------------------------------------

abbrev stackPage : Nat := 0xBFFFE000

/-- The area `execve` makes for the stack, with nothing in it. -/
def stackRequest : Request := ⟨userStackTop, userStackTop, stackFlags, mmTypeStack⟩

/-- What a fault in the page below it asks for. -/
def stackGrowth : Request := ⟨stackPage, userStackTop, stackFlags, mmTypeStack⟩

/-- The stack is empty, and the areas below it leave its first page free. -/
structure EmptyStack (w : Mem) (rs : List Request) : Prop where
  granted : Granted w (rs ++ [stackRequest])
  below : ∀ r ∈ rs, areaStop r.stop ≤ stackPage
  limit : (w.proc w.current).stackLimit < stackPage
  last : ∃ a l, w.mem w.current = l ++ [a] ∧ l ≠ [] ∧ (∀ b ∈ l, (w.area b).stop ≤ stackPage) ∧
    w.area a = ⟨userStackTop, userStackTop, stackFlags, mmTypeStack, w.current⟩

structure StackUsed (w : Mem) (rs : List Request) : Prop where
  granted : Granted w (rs ++ [stackRequest] ++ [stackGrowth])
  page : ∀ x, stackGrowth.Spans x → w.machine.mapped w.machine.cr3 x = true

section
variable {w w' : Mem} {m : Machine} {rs : List Request} {r : Request} {ptr x y n : Nat} {b : Byte} {data : List Byte}
  {flags : PageFlags}

theorem stackRequest_spans : ¬stackRequest.Spans x := fun h => absurd (h.1.trans_lt h.2) (by decide)

theorem stackGrowth_spans : stackGrowth.Spans x ↔ stackPage ≤ x ∧ x < userStackTop := Iff.rfl

theorem stackGrowth_page (h : stackGrowth.Spans x) : pageMask x = stackPage := by
  obtain ⟨h1, h2⟩ := stackGrowth_spans.mp h
  unfold stackPage at h1
  unfold userStackTop at h2
  unfold pageMask stackPage
  omega

theorem Request.spans_page : r.Spans (pageMask x) ↔ r.Spans x := by
  have hpages : ∀ {y}, r.Spans y ↔ pageMask y ∈ pagesFrom (pageMask r.start) (areaStop r.stop) := fun {y} =>
    (pageMask_mem_pagesFrom (pageMask_pageMask r.start) pageMask_areaStop).symm
  rw [hpages, hpages, pageMask_pageMask]

theorem Request.Spans.same_page (h : r.Spans x) (hpage : pageMask y = pageMask x) : r.Spans y := by
  rw [← Request.spans_page, hpage]
  exact h.page

theorem leaf_congr (h : pageMask x = pageMask y) {d : Frame} : m.leaf d x = m.leaf d y := by
  have hpde : m.pde d x = m.pde d y := by rw [Machine.pde, Machine.pde, (samePage_iff.mp h).1]
  rw [Machine.leaf, Machine.leaf, hpde, m.pte_congr d h]

theorem Granted.newStack (h : Granted w rs) (hne : rs ≠ []) (hplain : Plain rs)
    (hbelow : ∀ r ∈ rs, areaStop r.stop ≤ stackPage) (hlimit : (w.proc w.current).stackLimit < stackPage) :
    Yields (w.grant stackRequest) (· = .outOfMemory) fun v => EmptyStack v.2 rs := by
  have hfits : stackRequest.Fits := ⟨by decide, by decide⟩
  have hgrant := h.newArea hfits fun q hq x _ h1 _ hspans => by
    have htop : userStackTop ≤ x := h1
    have hlt := hspans.2.trans_le (hbelow q hq)
    exact absurd (htop.trans_lt hlt) (by decide)
  refine yields_iff.mpr ⟨fun v hv => ?_, (yields_iff.mp hgrant).2⟩
  obtain ⟨hg, -⟩ := hgrant.of_eq_ok hv
  have hframe := (newArea_frame hv).1
  obtain ⟨-, he⟩ := h.lists.toLinked.newArea_entered hv
  have hflags : ∀ c ∈ w.mem w.current, (w.area c).flags ≠ stackFlags := fun c hc hsame => by
    obtain ⟨r, hr, hflags, -⟩ := h.ends c hc
    have hpop := (hplain r hr).1
    rw [← hflags, hsame] at hpop
    cases hpop
  -- no other area has the flags of a stack, so the new one is not joined to any
  have hleft : leftOf w w.current userStackTop stackFlags mmTypeStack = none := by
    by_contra hsome
    obtain ⟨c, hc⟩ := Option.ne_none_iff_exists'.mp hsome
    obtain ⟨-, hmem, -, hsame, -⟩ := leftOf_some hc
    exact hflags c hmem hsame
  have hright : rightOf w w.current userStackTop userStackTop stackFlags mmTypeStack = none := by
    by_contra hsome
    obtain ⟨c, hc⟩ := Option.ne_none_iff_exists'.mp hsome
    obtain ⟨-, hmem, -, -, hsame, -⟩ := rightOf_some hc
    exact hflags c hmem hsame
  have hstops : ∀ c ∈ w.mem w.current, (w.area c).stop ≤ stackPage := fun c hc => by
    obtain ⟨r, hr, -, hstop⟩ := h.ends c hc
    exact hstop ▸ hbelow r hr
  have hmem : v.2.mem w.current = w.mem w.current ++ [w.nextArea] := by
    refine he.mem.trans ?_
    change (rightOf w w.current userStackTop userStackTop stackFlags mmTypeStack).elim id _
      ((leftOf w w.current userStackTop stackFlags mmTypeStack).elim _ _) = _
    rw [hright, hleft]
    exact insertSorted_last fun c hc hlt => absurd
      ((hlt.trans_le (h.lists.wf hc).le).trans_le (hstops c hc)) (by decide)
  have hnew : enteredAs w w.current userStackTop stackFlags mmTypeStack = w.nextArea := enteredAs_alone hleft
  refine ⟨hg, hbelow, ?_, w.nextArea, w.mem w.current, ?_, h.nonempty hne, fun c hc => ?_, ?_⟩
  · rw [hframe.current, hframe.stackLimit]
    exact hlimit
  · rw [hframe.current, hmem]
  · rw [he.area (h.lists.fresh hc) (by
      rw [show enteredAs w w.current (pageMask stackRequest.start) stackRequest.flags stackRequest.type =
        w.nextArea from hnew]
      exact h.lists.toLinked.mem_ne hc)]
    exact hstops c hc
  · have hentered := he.entered
    rw [show enteredAs w w.current (pageMask stackRequest.start) stackRequest.flags stackRequest.type =
      w.nextArea from hnew] at hentered
    rw [hentered, hframe.current]
    change MemArea.mk ((leftOf w w.current userStackTop stackFlags mmTypeStack).elim _ _)
      ((rightOf w w.current userStackTop userStackTop stackFlags mmTypeStack).elim _ _) _ _ _ = _
    rw [hright, hleft]
    rfl

/-- A stack without an area below it does not grow: `find_above` never finds the first area. -/
theorem Granted.store_alone {v : Nat × Mem} (h : Granted w []) (hv : w.grant stackRequest = .ok v)
    (hx : x < kernelOffset) : kernelStore x b maxRestarts v.2 = .error .fault := by
  have hempty : w.mem w.current = [] := List.eq_nil_iff_forall_not_mem.mpr fun a ha => by
    obtain ⟨r, hr, -⟩ := h.ends a ha
    cases hr
  obtain ⟨hg, -⟩ := h.newArea_ok ⟨by decide, by decide⟩ (fun q hq => absurd hq List.not_mem_nil) hv
  have hout : ∀ r ∈ [] ++ [stackRequest], ¬r.Spans x := fun r hr hspans => by
    obtain rfl := List.mem_singleton.mp hr
    exact stackRequest_spans hspans
  obtain ⟨-, he⟩ := h.lists.toLinked.newArea_entered hv
  have hmem : v.2.mem v.2.current = [w.nextArea] := by
    rw [(newArea_frame hv).1.current, he.mem, leftOf, rightOf, hempty]
    rfl
  have hnone : findIncluding v.2 v.2.current x = none := findIncluding_eq_none.mpr fun a ha => by
    obtain ⟨r, hr, hspans, -⟩ := hg.only x a ha
    exact hout r hr hspans
  have habove : findAbove v.2 v.2.current x = none := by
    rw [findAbove, hnone, hmem]
    rfl
  exact store_refused (hg.unmapped x hx hout) hnone (fun a ha => by cases habove.symm.trans ha) hx

theorem EmptyStack.fault (h : EmptyStack w rs) (h1 : stackPage < x) (h2 : x < userStackTop) :
    w.machine.mapped w.machine.cr3 x = false ∧ procmmHandlePageFault w x false true = (do
      let (_, w) ← w.grant stackGrowth
      return (true, w)) := by
  have hlow : x < kernelOffset := h2.trans (by decide)
  have hout : ∀ r ∈ rs ++ [stackRequest], ¬r.Spans x := fun r hr hspans => by
    rcases List.mem_append.mp hr with hr | hr
    · exact absurd (hspans.2.trans_le (h.below r hr)) (Nat.not_lt_of_le h1.le)
    · obtain rfl := List.mem_singleton.mp hr
      exact stackRequest_spans hspans
  refine ⟨h.granted.unmapped x hlow hout, ?_⟩
  have hnone : findIncluding w w.current x = none := findIncluding_eq_none.mpr fun a ha => by
    obtain ⟨r, hr, hspans, -⟩ := h.granted.only x a ha
    exact hout r hr hspans
  obtain ⟨a, l, hmem, hne, hstops, harea⟩ := h.last
  obtain ⟨l, b, rfl⟩ := (List.eq_nil_or_concat l).resolve_left hne
  have habove : findAbove w w.current x = some a := by
    have hb : (w.area b).stop < x := (hstops b (by simp)).trans_lt h1
    rw [findAbove, hnone, hmem]
    simp [findAboveWalk, hb]
  have hpage : pageMask x = stackPage := stackGrowth_page ⟨h1.le, h2⟩
  have hnear : ¬wrap (userStackTop + 2 ^ 32 - x) ≥ pageSize := by
    unfold stackPage at h1
    unfold userStackTop at h2 ⊢
    unfold wrap pageSize
    omega
  have hlimit : ¬x ≤ (w.proc w.current).stackLimit := Nat.not_le_of_lt (h.limit.trans h1)
  unfold procmmHandlePageFault
  simp only [hnone, habove, harea, hpage]
  rw [if_neg hnear, if_neg (by decide), if_neg hlimit]
  rfl

theorem EmptyStack.grows (h : EmptyStack w rs) : Yields (w.grant stackGrowth) (· = .outOfMemory) fun v =>
    Granted v.2 (rs ++ [stackRequest] ++ [stackGrowth]) := by
  refine (h.granted.newArea ⟨by decide, by decide⟩ fun q hq x _ h1 _ hspans => ?_).imp fun v hv => hv.1
  rcases List.mem_append.mp hq with hq | hq
  · have hlt := hspans.2.trans_le (h.below q hq)
    exact absurd (show stackPage ≤ x from h1) (Nat.not_le_of_lt hlt)
  · obtain rfl := List.mem_singleton.mp hq
    exact stackRequest_spans hspans

theorem vmmPageSet_error {e : Stop} {v : Entry} (hx : x < kernelOffset) (hv : v.present = true)
    (h : vmmPageSet m x v = .error e) : e = .outOfMemory := by
  have hpage : pageMask x < kernelOffset := (pageMask_le x).trans_lt hx
  cases hp : (m.pde m.cr3 x).present with
  | true =>
    rw [vmmPageSet_present hp] at h
    cases h
  | false =>
    have hmissing : (m.pde m.cr3 (pageMask x)).present = false := by rwa [Machine.pde, dirIdx_pageMask]
    cases hfree : m.free with
    | nil =>
      have herr : vmmPageSet m x v = .error .outOfMemory := by
        simp only [vmmPageSet, vmmPageTouch_full hpage hmissing hfree, bind, Except.bind]
      exact (Except.error.inj (herr.symm.trans h)).symm
    | cons f rest =>
      have hroom : tableFrames m m.cr3 x ≤ m.free.length := by
        rw [tableFrames, hp, hfree]
        exact Nat.succ_le_succ (Nat.zero_le _)
      obtain ⟨m', hm'⟩ := (vmmPageSet_ok_iff hx hv).mpr hroom
      rw [h] at hm'
      cases hm'

theorem Granted.usePage (h : Granted w rs) (hr : r ∈ rs) (hx : r.Spans x) (hflags : flags.present = true) :
    Yields (do
      let (f, m) ← pmmAllocPage w.machine
      vmmPageSet m (pageMask x) (vmmPageVal f flags)) (· = .outOfMemory) fun m =>
      Granted { w with machine := m } rs ∧ ∀ y, pageMask y = pageMask x → m.mapped m.cr3 y = true := by
  have hlow : pageMask x < kernelOffset := hx.page.2.trans_le (h.low r hr)
  cases hfree : w.machine.free with
  | nil =>
    have hfull : pmmAllocPage w.machine = .error .outOfMemory := by rw [pmmAllocPage, hfree]
    rw [hfull]
    exact rfl
  | cons f rest =>
    have halloc : pmmAllocPage w.machine = .ok (f, { w.machine with free := rest }) := by rw [pmmAllocPage, hfree]
    rw [halloc]
    refine yields_iff.mpr ⟨fun m hm => ?_, fun e he => ?_⟩
    · have hset := Sets.through_cr3 (h.spaces.alloc hfree) rfl hlow hm
      have hcr3 : m.cr3 = w.machine.cr3 := hset.cr3
      have hleaf : ∀ y, y < kernelOffset → m.leaf m.cr3 y =
          if pageMask y = pageMask x then vmmPageVal f flags else w.machine.leaf w.machine.cr3 y := by
        intro y hy
        rw [hcr3, hset.leaf rfl hy, pageMask_pageMask]
        simp only [true_and]
        rfl
      have hused : ∀ y, y < kernelOffset → pageMask y = pageMask x → m.mapped m.cr3 y = true := by
        intro y hy hpage
        rw [mapped_iff_leaf, hleaf y hy, if_pos hpage]
        exact hflags
      have hkept : ∀ y, y < kernelOffset → pageMask y ≠ pageMask x →
          m.mapped m.cr3 y = w.machine.mapped w.machine.cr3 y := by
        intro y hy hpage
        rw [Bool.eq_iff_iff, mapped_iff_leaf, mapped_iff_leaf, hleaf y hy, if_neg hpage]
      have hown : OwnFrames m w.machine.cr3 := h.own.sets h.spaces rfl hfree hset
      have hspans : ∀ {y}, pageMask y = pageMask x → r.Spans y := fun hpage => hx.same_page hpage
      refine ⟨⟨h.lists.withMachine m, h.living, hcr3.trans h.loaded, ?_, ?_, h.low, h.areas, h.only, h.ends,
        h.nonempty, fun q hq hpop y hy => ?_, fun y hy hout => ?_⟩, fun y hpage => ?_⟩
      · change Spaces m (· = m.cr3)
        rw [hcr3]
        exact hset.spaces
      · change OwnFrames m m.cr3
        rw [hcr3]
        exact hown
      · have hylow := hy.2.trans_le (h.low q hq)
        by_cases hpage : pageMask y = pageMask x
        · exact hused y hylow hpage
        · exact (hkept y hylow hpage).trans (h.mapped q hq hpop y hy)
      · exact (hkept y hy fun hpage => hout r hr (hspans hpage)).trans (h.unmapped y hy hout)
      · exact hused y ((hspans hpage).2.trans_le (h.low r hr)) hpage
    · exact vmmPageSet_error (v := vmmPageVal f flags) hlow hflags he

theorem Granted.stackUsed (h : Granted w (rs ++ [stackRequest] ++ [stackGrowth])) (hx : stackGrowth.Spans x)
    (hmap : w.machine.mapped w.machine.cr3 x = true) : StackUsed w rs := by
  refine ⟨h, fun y hy => ?_⟩
  rw [mapped_iff_leaf] at hmap ⊢
  rw [leaf_congr ((stackGrowth_page hy).trans (stackGrowth_page hx).symm)]
  exact hmap

theorem StackUsed.copyOut (h : StackUsed w rs) (h1 : stackPage ≤ ptr) (h2 : ptr + data.length ≤ userStackTop) :
    ∃ w', Os5.copyOut w ptr data = .ok w' ∧ StackUsed w' rs := by
  obtain ⟨m, hm, hg, hcr3, htable⟩ := h.granted.copyOut_machine (h2.trans (by decide)) fun x hx1 hx2 =>
    h.page x ⟨h1.trans hx1, hx2.trans_le h2⟩
  refine ⟨_, hm, hg, fun x hx => ?_⟩
  have hmap := h.page x hx
  rw [mapped_iff_leaf] at hmap ⊢
  change (m.leaf m.cr3 x).present = true
  rwa [hcr3, leaf_of_tables htable]

theorem Granted.store_stack (h : Granted w (rs ++ [stackRequest] ++ [stackGrowth]))
    (hbelow : ∀ r ∈ rs, areaStop r.stop ≤ stackPage) (hx : stackGrowth.Spans x) :
    Yields (kernelStore x b (n + 2) w) (· = .outOfMemory) (StackUsed · rs) := by
  have hstores : ∀ {v k}, StackUsed v rs → ∃ v', kernelStore x b (k + 1) v = .ok v' ∧ StackUsed v' rs := by
    intro v k hv
    obtain ⟨v', hv', hused⟩ := hv.copyOut hx.1 (show x + [b].length ≤ userStackTop from hx.2)
    obtain ⟨v1, hstore, hrest⟩ := bind_ok.mp hv'
    obtain rfl := Except.ok.inj hrest
    refine ⟨v1, ?_, hused⟩
    rw [kernelStore, if_pos (hv.page x hx)] at hstore ⊢
    exact hstore
  by_cases hmap : w.machine.mapped w.machine.cr3 x = true
  · exact .of_ok (hstores (h.stackUsed hx hmap))
  · obtain ⟨a, ha⟩ : ∃ a, findIncluding w w.current x = some a := by
      obtain ⟨a, ha, -⟩ := h.areas stackGrowth (by simp) x hx
      exact Option.ne_none_iff_exists'.mp fun hnone => findIncluding_eq_none.mp hnone a ha
    have hflags : (w.area a).flags = stackFlags := by
      obtain ⟨r, hr, hspans, hflags⟩ := h.only x a (at_of_findIncluding ha)
      rw [hflags]
      rcases List.mem_append.mp hr with hr | hr
      · rcases List.mem_append.mp hr with hr | hr
        · exact absurd (hspans.2.trans_le (hbelow r hr)) (Nat.not_lt_of_le hx.1)
        · obtain rfl := List.mem_singleton.mp hr
          rfl
      · obtain rfl := List.mem_singleton.mp hr
        rfl
    have hfault : procmmHandlePageFault w x false true = (do
        let m ← (do
          let (f, m) ← pmmAllocPage w.machine
          vmmPageSet m (pageMask x) (vmmPageVal f ⟨true, true, true⟩))
        return (true, { w with machine := m })) := by
      unfold procmmHandlePageFault
      simp only [ha, hflags, bind_assoc]
      rfl
    have huse := @Granted.usePage w _ stackGrowth x ⟨true, true, true⟩ h (by simp) hx rfl
    rw [kernelStore, if_neg hmap, hfault]
    refine Yields.bind (P := fun v => v.1 = true ∧ StackUsed v.2 rs) (huse.bind fun m hm => ?_) fun v hv => ?_
    · exact ⟨rfl, hm.1.stackUsed hx (hm.2 x rfl)⟩
    · obtain ⟨resolved, v⟩ := v
      obtain ⟨rfl, hv⟩ := hv
      exact .of_ok (hstores hv)

theorem EmptyStack.store (h : EmptyStack w rs) (h1 : stackPage < x) (h2 : x < userStackTop) :
    Yields (kernelStore x b maxRestarts w) (· = .outOfMemory) (StackUsed · rs) := by
  obtain ⟨hmap, hfault⟩ := h.fault h1 h2
  rw [kernelStore, hmap, if_neg Bool.false_ne_true, hfault]
  refine Yields.bind (P := fun v => v.1 = true ∧ Granted v.2 (rs ++ [stackRequest] ++ [stackGrowth]))
    (h.grows.bind fun v hv => ?_) fun v hv => ?_
  · exact ⟨rfl, hv⟩
  · obtain ⟨resolved, v⟩ := v
    obtain ⟨rfl, hv⟩ := hv
    exact hv.store_stack h.below ⟨h1.le, h2⟩

theorem EmptyStack.copyOut (h : EmptyStack w rs) (h1 : stackPage < ptr) (h2 : ptr + data.length ≤ userStackTop)
    (hne : data ≠ []) : Yields (Os5.copyOut w ptr data) (· = .outOfMemory) (StackUsed · rs) := by
  obtain ⟨b, data, rfl⟩ := List.exists_cons_of_ne_nil hne
  rw [List.length_cons] at h2
  refine (h.store h1 (by omega)).bind fun v hv => .of_ok ?_
  exact hv.copyOut (by omega) (by omega)

end

end Os5
