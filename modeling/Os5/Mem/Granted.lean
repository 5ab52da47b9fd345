import Os5.Mem.OwnFrames

/-!
# Memory that was asked for

A process that starts with no memory and asks for range after range has areas where it asked
for them and nowhere else. A call of `new_area` for pages that are free leaves the bytes of the
other pages alone, and a copy changes the bytes it is for.
-/

namespace Os5

open Machine Outcome

def Mem.byteAt (w : Mem) (x : Nat) : Option Byte := w.machine.byteAt w.machine.cr3 x

def Request.Spans (r : Request) (x : Nat) : Prop := pageMask r.start ≤ x ∧ x < areaStop r.stop

def Request.Clear (r q : Request) : Prop :=
  ∀ x, pageMask x = x → pageMask r.start ≤ x → x ≤ areaStop r.stop → ¬q.Spans x

structure Request.Fits (r : Request) : Prop where
  le : pageMask r.start ≤ areaStop r.stop
  low : areaStop r.stop ≤ kernelOffset

/-- The running process has its directory loaded, frames of its own, and areas for the ranges
it asked for. -/
structure Granted (w : Mem) (rs : List Request) : Prop where
  lists : Lists w
  living : w.living w.current = true
  loaded : w.machine.cr3 = w.pd w.current
  spaces : Spaces w.machine (· = w.machine.cr3)
  own : OwnFrames w.machine w.machine.cr3
  low : ∀ r ∈ rs, areaStop r.stop ≤ kernelOffset
  areas : ∀ r ∈ rs, ∀ x, r.Spans x → ∃ a, At w w.current x a ∧ (w.area a).flags = r.flags
  only : ∀ x a, At w w.current x a → ∃ r ∈ rs, r.Spans x ∧ (w.area a).flags = r.flags
  ends : ∀ a ∈ w.mem w.current, ∃ r ∈ rs, (w.area a).flags = r.flags ∧ (w.area a).stop = areaStop r.stop
  nonempty : rs ≠ [] → w.mem w.current ≠ []
  mapped : ∀ r ∈ rs, r.flags.populates = true → ∀ x, r.Spans x → w.machine.mapped w.machine.cr3 x = true
  unmapped : ∀ x, x < kernelOffset → (∀ r ∈ rs, ¬r.Spans x) → w.machine.mapped w.machine.cr3 x = false

section
variable {w w' : Mem} {rs : List Request} {r q : Request} {a b x ptr : Nat} {data : List Byte}

def Mem.grant (w : Mem) (r : Request) : Except Stop (Nat × Mem) :=
  newArea w w.current r.start r.stop r.flags r.type

theorem Request.Spans.page (h : r.Spans x) : r.Spans (pageMask x) :=
  ⟨Nat.mul_le_mul_right _ ((Nat.le_div_iff_mul_le (by decide)).mpr h.1), (pageMask_le x).trans_lt h.2⟩

-- ---------------------------------------------------------------------------
-- The call of `new_area`
-- ---------------------------------------------------------------------------

theorem Granted.scan (h : Granted w rs) (hr : r.Fits) (hclear : ∀ q ∈ rs, r.Clear q) :
    scanHangs w w.current (pageMask r.start) (areaStop r.stop) = false := by
  have hlast : ¬lastPage ≤ areaStop r.stop := by
    have hlow := hr.low
    unfold kernelOffset at hlow
    unfold lastPage
    omega
  rw [scanHangs, Bool.or_eq_false_iff, decide_eq_false_iff_not, List.any_eq_false]
  refine ⟨hlast, fun x hx hsome => ?_⟩
  obtain ⟨h1, h2, hpage⟩ := (mem_pagesFrom (pageMask_pageMask r.start)).mp hx
  obtain ⟨a, ha⟩ := Option.isSome_iff_exists.mp hsome
  obtain ⟨q, hq, hspans, -⟩ := h.only x a (at_of_findIncluding ha)
  exact hclear q hq x hpage h1 (Nat.le_of_lt_succ h2) hspans

theorem Granted.hangs (h : Granted w rs) (hq : q ∈ rs) (hclear : ¬r.Clear q) : w.grant r = .error .hang := by
  unfold Request.Clear at hclear
  push Not at hclear
  obtain ⟨x, hpage, h1, h2, hspans⟩ := hclear
  obtain ⟨a, ha, -⟩ := h.areas q hq x hspans
  have hscan : scanHangs w w.current (pageMask r.start) (areaStop r.stop) = true := by
    by_contra hfalse
    exact scan_free (Bool.eq_false_iff.mpr hfalse) (pageMask_pageMask r.start) hpage h1 h2 ha
  rw [Mem.grant, newArea_eq, if_pos hscan]

theorem Granted.newArea_error {e : Stop} (h : Granted w rs) (hr : r.Fits)
    (hscan : scanHangs w w.current (pageMask r.start) (areaStop r.stop) = false)
    (hnew : w.grant r = .error e) : e = .outOfMemory := by
  have hpopulate : Yields (populate w.machine w.machine.cr3 (pageMask r.start) (areaStop r.stop) r.flags.write)
      (· = .outOfMemory) fun m => OwnFrames m w.machine.cr3 :=
    populate_own h.spaces rfl rfl h.own (pageMask_pageMask r.start) hr.low
  rw [Mem.grant, newArea_eq, if_neg (by rw [hscan]; exact Bool.false_ne_true), ← h.loaded] at hnew
  by_cases hpop : r.flags.populates = true
  · rw [if_pos hpop] at hnew
    cases hfill : populate w.machine w.machine.cr3 (pageMask r.start) (areaStop r.stop) r.flags.write with
    | ok m =>
      rw [hfill] at hnew
      cases hnew
    | error e' =>
      rw [hfill] at hnew hpopulate
      exact (Except.error.inj hnew) ▸ hpopulate
  · rw [if_neg hpop] at hnew
    cases hnew

/-- What a call does to the machine: pages of the range are mapped, or nothing is. -/
structure Fetched (w : Mem) (r : Request) (m : Machine) : Prop where
  cr3 : m.cr3 = w.machine.cr3
  byte : m.byte = w.machine.byte
  spaces : Spaces m (· = w.machine.cr3)
  own : OwnFrames m w.machine.cr3
  mapped : r.flags.populates = true → ∀ x, r.Spans x → m.mapped w.machine.cr3 x = true
  leaf : ∀ x, x < kernelOffset → ¬r.Spans x → m.leaf w.machine.cr3 x = w.machine.leaf w.machine.cr3 x

theorem Granted.fetched (h : Granted w rs) (hr : r.Fits) (hnew : w.grant r = .ok (b, w')) :
    Fetched w r w'.machine := by
  have hmachine := (newArea_frame hnew).2
  rw [← h.loaded] at hmachine
  have hstart : pageMask (pageMask r.start) = pageMask r.start := pageMask_pageMask _
  by_cases hpop : r.flags.populates = true
  · rw [if_pos hpop] at hmachine
    have hfills := populate_fills h.spaces rfl rfl hstart hr.low hmachine
    have hown := (populate_own h.spaces rfl rfl h.own hstart hr.low).of_eq_ok hmachine
    have hpage : ∀ {x}, r.Spans x ↔ pageMask x ∈ pagesFrom (pageMask r.start) (areaStop r.stop) := fun {x} =>
      (pageMask_mem_pagesFrom hstart pageMask_areaStop).symm
    refine ⟨hfills.cr3, hfills.byte, hfills.spaces, hown, fun _ x hx => ?_, fun x hx hout => ?_⟩
    · have hfilled := hfills.filled (hpage.mp hx) (pageMask_pageMask x).symm
      rw [mapped_iff_leaf]
      exact congrArg PageFlags.present hfilled
    · refine hfills.leaf rfl hx (.inr fun y hy hxy => hout (hpage.mpr ?_))
      rwa [hxy, ((mem_pagesFrom hstart).mp hy).2.2]
  · rw [if_neg hpop] at hmachine
    have hsame : w'.machine = w.machine := (Except.ok.inj hmachine).symm
    rw [hsame]
    exact ⟨rfl, rfl, h.spaces, h.own, fun hyes => absurd hyes hpop, fun _ _ _ => rfl⟩

/-- What stays when the process gets or fills memory. -/
structure Keeps (w : Mem) (P : Nat → Prop) (w' : Mem) : Prop where
  current : w'.current = w.current
  bytes : ∀ x, x < kernelOffset → ¬P x → w'.byteAt x = w.byteAt x

theorem Granted.newArea_ok (h : Granted w rs) (hr : r.Fits) (hclear : ∀ q ∈ rs, r.Clear q)
    (hnew : w.grant r = .ok (b, w')) : Granted w' (rs ++ [r]) ∧ Keeps w r.Spans w' := by
  have hscan := h.scan hr hclear
  have hstart : pageMask (pageMask r.start) = pageMask r.start := pageMask_pageMask _
  have hl := h.lists
  have hframe := (newArea_frame hnew).1
  have hfetched := h.fetched hr hnew
  obtain ⟨-, he⟩ := hl.toLinked.newArea_entered hnew
  have hlists : Lists w' := he.lists_forward hl (hl.toLinked.newArea h.living hnew) hscan hstart
    pageMask_areaStop hr.le
  have hcr3 := hfetched.cr3
  have hspans : ∀ {x}, w'.machine.mapped w.machine.cr3 x = w'.machine.mapped w'.machine.cr3 x := by
    rw [hcr3]
    exact rfl
  refine ⟨⟨hlists, ?_, ?_, ?_, ?_, ?_, ?_, ?_, ?_, fun _ => ?_, ?_, ?_⟩, hframe.current, fun x hx hout => ?_⟩
  · rw [hframe.living, hframe.current]
    exact h.living
  · rw [hcr3, hframe.pd, hframe.current]
    exact h.loaded
  · rw [hcr3]
    exact hfetched.spaces
  · rw [hcr3]
    exact hfetched.own
  · intro q hq
    rcases List.mem_append.mp hq with hq | hq
    · exact h.low q hq
    · rw [List.mem_singleton.mp hq]
      exact hr.low
  · intro q hq x hx
    rw [hframe.current]
    rcases List.mem_append.mp hq with hq | hq
    · obtain ⟨a, ha, hflags⟩ := h.areas q hq x hx
      obtain ⟨c, hc, hsame, -⟩ := he.at_kept hl hscan hstart hr.le ha
      exact ⟨c, hc, hsame.trans hflags⟩
    · obtain rfl := List.mem_singleton.mp hq
      exact ⟨_, he.at_new hl hscan hstart hr.le hx, by rw [he.entered]⟩
  · intro x a ha
    rw [hframe.current] at ha
    rcases he.at_back hl hscan hstart hr.le ha with ⟨hx, hflags⟩ | ⟨c, hc, hflags⟩
    · exact ⟨r, List.mem_append_right _ (List.mem_singleton.mpr rfl), hx, hflags⟩
    · obtain ⟨q, hq, hx, hsame⟩ := h.only x c hc
      exact ⟨q, List.mem_append_left _ hq, hx, hflags.trans hsame⟩
  · intro a ha
    rw [hframe.current] at ha
    by_cases hinto : a = enteredAs w w.current (pageMask r.start) r.flags r.type
    · refine ⟨r, List.mem_append_right _ (List.mem_singleton.mpr rfl), ?_, ?_⟩
      · rw [hinto, he.entered]
      · rw [hinto]
        exact (he.forward hl hscan hstart hr.le).2
    · obtain ⟨hsame, hmem⟩ := he.area_old hl.toLinked ha hinto
      obtain ⟨q, hq, hend⟩ := h.ends a hmem
      exact ⟨q, List.mem_append_left _ hq, by rwa [hsame]⟩
  · rw [hframe.current]
    exact List.ne_nil_of_mem (he.entered_mem hl.toLinked)
  · intro q hq hpop x hx
    rw [hcr3]
    rcases List.mem_append.mp hq with hq | hq
    · by_cases hin : r.Spans x
      · exact absurd hx.page (hclear q hq _ (pageMask_pageMask x) hin.page.1 hin.page.2.le)
      · have hlow : x < kernelOffset := hx.2.trans_le (h.low q hq)
        rw [mapped_iff_leaf, hfetched.leaf x hlow hin, ← mapped_iff_leaf]
        exact h.mapped q hq hpop x hx
    · obtain rfl := List.mem_singleton.mp hq
      exact hfetched.mapped hpop x hx
  · intro x hx hout
    have hold := h.unmapped x hx fun q hq => hout q (List.mem_append_left _ hq)
    rw [← Bool.not_eq_true, mapped_iff_leaf] at hold
    rw [hcr3, ← Bool.not_eq_true, mapped_iff_leaf, hfetched.leaf x hx (hout r (by simp))]
    exact hold
  · rw [Mem.byteAt, Mem.byteAt, hcr3]
    exact byteAt_of_leaf (hfetched.leaf x hx hout) hfetched.byte

theorem Granted.newArea (h : Granted w rs) (hr : r.Fits) (hclear : ∀ q ∈ rs, r.Clear q) :
    Yields (w.grant r) (· = .outOfMemory) fun v => Granted v.2 (rs ++ [r]) ∧ Keeps w r.Spans v.2 :=
  yields_iff.mpr ⟨fun _ hnew => h.newArea_ok hr hclear hnew,
    fun _ hnew => h.newArea_error hr (h.scan hr hclear) hnew⟩

-- ---------------------------------------------------------------------------
-- Copies
-- ---------------------------------------------------------------------------

structure Copied (w : Mem) (ptr : Nat) (data : List Byte) (w' : Mem) : Prop where
  current : w'.current = w.current
  bytes : ∀ x, x < kernelOffset → w'.byteAt x =
    if ptr ≤ x ∧ x < ptr + data.length then data[x - ptr]? else w.byteAt x

theorem Granted.withMachine (h : Granted w rs) {m : Machine} (hcr3 : m.cr3 = w.machine.cr3)
    (htable : m.table = w.machine.table) (hfree : m.free = w.machine.free) :
    Granted { w with machine := m } rs where
  lists := h.lists.withMachine m
  living := h.living
  loaded := hcr3.trans h.loaded
  spaces := by
    change Spaces m (· = m.cr3)
    rw [hcr3]
    exact h.spaces.of_tables htable hfree
  own := by
    change OwnFrames m m.cr3
    rw [hcr3]
    exact h.own.of_leaf (fun _ _ => leaf_of_tables htable) hfree
  low := h.low
  areas := h.areas
  only := h.only
  ends := h.ends
  nonempty := h.nonempty
  mapped q hq hpop x hx := by
    change m.mapped m.cr3 x = true
    rw [hcr3, mapped_iff_leaf, leaf_of_tables htable, ← mapped_iff_leaf]
    exact h.mapped q hq hpop x hx
  unmapped x hx hout := by
    change m.mapped m.cr3 x = false
    rw [hcr3, ← Bool.not_eq_true, mapped_iff_leaf, leaf_of_tables htable, ← mapped_iff_leaf, Bool.not_eq_true]
    exact h.unmapped x hx hout

theorem Granted.copyOut (h : Granted w rs) (hlow : ptr + data.length ≤ kernelOffset)
    (hmap : ∀ x, ptr ≤ x → x < ptr + data.length → w.machine.mapped w.machine.cr3 x = true) :
    ∃ w', Os5.copyOut w ptr data = .ok w' ∧ Granted w' rs ∧ Copied w ptr data w' := by
  obtain ⟨m, hm, hwritten⟩ := copyOut_own h.own hlow hmap
  refine ⟨_, hm, h.withMachine hwritten.cr3 hwritten.table hwritten.free, rfl, fun x hx => ?_⟩
  change m.byteAt m.cr3 x = _
  rw [hwritten.cr3, hwritten.byteAt x hx]
  rfl

end

end Os5
