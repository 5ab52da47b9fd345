import Os5.Mem.NewArea
import Os5.Mem.Tables
import Os5.Mem.UserPointers

/-!
# Faults below the stack

`procmm_handle_page_fault` puts a new area between the page of the fault and the
stack above it, and `new_area` looks for a collision up to the end of the new
area inclusive. The end is where the stack starts, so only an empty stack can
grow; and no stack grows at the first address of a page.
-/

namespace Os5

open Machine Circular Outcome

structure PageFault where
  address : Nat
  present : Bool
  write : Bool

def resolveAll (w : Mem) : List PageFault → Except Stop Mem
  | [] => .ok w
  | f :: faults => do
    let (resolved, w) ← procmmHandlePageFault w f.address f.present f.write
    if resolved then resolveAll w faults else throw .segv

/-- The lowest area that grows down has pages, and each of the faults is for the next page
below it, on pages that are free. -/
structure StackRoom (w : Mem) (stack : Nat) (faults : List PageFault) : Prop where
  mem : stack ∈ w.mem w.current
  aligned : ∀ a ∈ w.mem w.current, (w.area a).Aligned
  apart : ∀ x a b, At w w.current x a → At w w.current x b → a = b
  growsdown : (w.area stack).flags.growsdown = true
  nonempty : (w.area stack).start < (w.area stack).stop
  lowest : ∀ a ∈ w.mem w.current, (w.area a).flags.growsdown = true →
    (w.area stack).start ≤ (w.area a).start
  nonNil : faults ≠ []
  page : ∀ (i : Nat) (f : PageFault), faults[i]? = some f → pageMask f.address + pageSize * (i + 1) = (w.area stack).start
  free : ∀ (i : Nat) (f : PageFault) (x : Nat), faults[i]? = some f → pageMask x = pageMask f.address → ∀ a, ¬ At w w.current x a
  limit : ∀ f ∈ faults, (w.proc w.current).stackLimit < f.address
  below : ∃ a ∈ w.mem w.current, ∀ f ∈ faults, (w.area a).stop < pageMask f.address

section
variable {w : Mem} {p x a stack start stop type : Nat} {flags : MmFlags} {faults : List PageFault}

theorem newArea_meets (hstart : pageMask start = start) (hstop : pageMask stop = stop)
    (hle : start ≤ stop) (ha : At w p stop a) : newArea w p start stop flags type = .error .hang := by
  have hmem : stop ∈ pagesFrom start (stop + 1) :=
    (mem_pagesFrom hstart).mpr ⟨hle, Nat.lt_succ_self _, hstop⟩
  have hscan : scanHangs w p start stop = true := by
    unfold scanHangs
    rw [Bool.or_eq_true]
    refine .inr (List.any_eq_true.mpr ⟨stop, hmem, ?_⟩)
    rw [Option.isSome_iff_ne_none]
    exact fun hnone => findIncluding_eq_none.mp hnone a ha
  rw [newArea_eq, hstart, areaStop_eq hstop, if_pos hscan]

theorem findAboveWalk_mem {l : List Nat} (h : findAboveWalk w x l = some a) : a ∈ l := by
  induction l with
  | nil => cases h
  | cons b l ih =>
    cases l with
    | nil => cases h
    | cons c l =>
      unfold findAboveWalk at h
      split at h
      · rw [← Option.some.inj h]
        exact List.mem_cons_self
      · exact List.mem_cons_of_mem _ (ih h)

theorem findAbove_mem (h : findAbove w p x = some a) : a ∈ w.mem p := by
  unfold findAbove at h
  cases hf : findIncluding w p x with
  | some b =>
    rw [hf] at h
    rw [← Option.some.inj h]
    exact (at_of_findIncluding hf).1
  | none =>
    rw [hf] at h
    exact List.mem_reverse.mp (findAboveWalk_mem h)

theorem wrap_distance {y : Nat} (hx : pageMask x + pageSize ≤ y) (hy : y < 2 ^ 32) (hpage : pageMask y = y)
    (h : wrap (y + 2 ^ 32 - x) < pageSize) : y = pageMask x + pageSize := by
  unfold pageMask pageSize at *
  unfold wrap at h
  omega

theorem stackFault_unresolved (present write : Bool) (hstack : At w w.current (w.area stack).start stack)
    (haligned : ∀ a ∈ w.mem w.current, (w.area a).Aligned)
    (hlowest : ∀ a ∈ w.mem w.current, (w.area a).flags.growsdown = true →
      (w.area stack).start ≤ (w.area a).start)
    (hpage : pageMask x + pageSize = (w.area stack).start) (hfree : ∀ a, ¬ At w w.current x a) :
    procmmHandlePageFault w x present write = .ok (false, w) ∨
      procmmHandlePageFault w x present write = .error .hang := by
  unfold procmmHandlePageFault
  rw [findIncluding_eq_none.mpr hfree]
  cases habove : findAbove w w.current x with
  | none => exact .inl rfl
  | some above =>
    simp only
    split_ifs with hdist hdown hlimit
    · exact .inl rfl
    · exact .inl rfl
    · right
      have hmem := findAbove_mem habove
      have hwf := haligned above hmem
      have hle := hlowest above hmem hdown
      have hstart : (w.area above).start = (w.area stack).start := by
        rw [← hpage] at hle ⊢
        exact wrap_distance hle (Nat.lt_of_le_of_lt hwf.le hwf.lt) hwf.start (Nat.lt_of_not_le hdist)
      have hbelow : pageMask x ≤ (w.area stack).start := by omega
      rw [hstart, newArea_meets (pageMask_pageMask x) (hstart ▸ hwf.start) hbelow hstack]
      rfl
    · exact .inl rfl

/-- Not one fault below a stack that has pages is resolved. -/
theorem growth_fails (h : StackRoom w stack faults) :
    (∀ w', resolveAll w faults ≠ .ok w') ∧
      ∀ f, faults[0]? = some f →
        procmmHandlePageFault w f.address f.present f.write = .ok (false, w) ∨
        procmmHandlePageFault w f.address f.present f.write = .error .hang := by
  obtain ⟨f, rest, rfl⟩ := List.exists_cons_of_ne_nil h.nonNil
  have hstack : At w w.current (w.area stack).start stack :=
    ⟨h.mem, MemArea.covers_iff.mpr ⟨le_rfl, h.nonempty⟩⟩
  have hfirst := stackFault_unresolved f.present f.write hstack h.aligned h.lowest
    (by simpa using h.page 0 f rfl) (h.free 0 f _ rfl rfl)
  refine ⟨fun w' hw' => ?_, fun g hg => ?_⟩
  · unfold resolveAll at hw'
    rcases hfirst with hrefused | hhang
    · rw [hrefused] at hw'
      cases hw'
    · rw [hhang] at hw'
      cases hw'
  · obtain rfl := Option.some.inj hg
    exact hfirst

end

-- ---------------------------------------------------------------------------
-- Addresses that were checked
-- ---------------------------------------------------------------------------

def Stores (w : Mem) (x : Nat) : Prop :=
  w.machine.mapped w.machine.cr3 x = true ∨ ∃ w', procmmHandlePageFault w x false true = .ok (true, w')

/-- The stack above can grow down to the address. -/
structure Growable (w : Mem) (x above : Nat) : Prop where
  found : findAbove w w.current x = some above
  growsdown : (w.area above).flags.growsdown = true
  near : x ≤ (w.area above).start ∧ (w.area above).start < x + pageSize
  limit : (w.proc w.current).stackLimit < x
  empty : findIncluding w w.current (w.area above).start = none
  frames : (w.area above).flags.populates = true → pageMask x < (w.area above).start →
    1 + tableFrames w.machine w.machine.cr3 x ≤ w.machine.free.length

/-- The page is there, or comes with its first use, or with the stack. -/
def Served (w : Mem) (x : Nat) : Prop :=
  w.machine.mapped w.machine.cr3 x = true ∨
  (∃ a, findIncluding w w.current x = some a ∧ (w.area a).flags.addonuse = true ∧
    1 + tableFrames w.machine w.machine.cr3 x ≤ w.machine.free.length) ∨
  (findIncluding w w.current x = none ∧ ∃ above, Growable w x above)

structure Settled (w : Mem) : Prop where
  loaded : w.machine.cr3 = w.pd w.current
  spaces : Spaces w.machine (· = w.machine.cr3)
  aligned : ∀ a ∈ w.mem w.current, (w.area a).Aligned
  ordered : Ordered w w.current

section
variable {w : Mem} {m : Machine} {x a above page : Nat} {e : Entry} {d : Frame}

theorem tableFrames_page : tableFrames m d (pageMask x) = tableFrames m d x := by
  rw [tableFrames, tableFrames, Machine.pde, Machine.pde, dirIdx_pageMask]

theorem pagesFrom_self : pagesFrom x x = [] := by
  unfold pagesFrom
  rw [Nat.sub_self]
  rfl

theorem pagesFrom_one : pagesFrom x (x + pageSize) = [x] := by
  unfold pagesFrom
  rw [Nat.add_sub_cancel_left]
  rfl

theorem mapPage_ok_iff {n : Nat} {α : Type} {rest : List α} :
    1 + n ≤ rest.length + 1 ↔ n ≤ rest.length := by omega

theorem usePage_ok_iff (flags : PageFlags) (hx : x < kernelOffset) (hp : flags.present = true) :
    (∃ m', (do
      let (f, m) ← pmmAllocPage m
      vmmPageSet m x (vmmPageVal f flags) : Except Stop Machine) = .ok m') ↔
      1 + tableFrames m m.cr3 x ≤ m.free.length := by
  cases hfree : m.free with
  | nil =>
    refine iff_of_false ?_ (by simp)
    rintro ⟨m', hm'⟩
    simp [pmmAllocPage, hfree, bind, Except.bind] at hm'
  | cons f rest =>
    have halloc : pmmAllocPage m = .ok (f, { m with free := rest }) := by rw [pmmAllocPage, hfree]
    have hset := vmmPageSet_ok_iff (m := { m with free := rest }) (v := vmmPageVal f flags) hx hp
    rw [List.length_cons, mapPage_ok_iff]
    refine Iff.trans ?_ hset
    rw [halloc]
    rfl

theorem populate_ok_iff (write : Bool) (hs : Spaces m (· = m.cr3)) (hx : x < kernelOffset) :
    (∃ m', populate m m.cr3 x (x + pageSize) write = .ok m') ↔
      1 + tableFrames m m.cr3 x ≤ m.free.length := by
  have hl : Loaded (vmmExdirSet m m.cr3).2 m.cr3 := vmmExdirSet_loaded (hs.nonzero rfl)
  have hs1 : Spaces (vmmExdirSet m m.cr3).2 (· = m.cr3) := hs.remaps (hs.exdirSet (d := m.cr3) rfl _)
  have htable : tableFrames (vmmExdirSet m m.cr3).2 m.cr3 x = tableFrames m m.cr3 x := by
    rw [tableFrames, tableFrames, Machine.pde, exdirSet_dir hs rfl rfl (dirIdx_lt hx)]
    rfl
  have hpop : (∃ m', populate m m.cr3 x (x + pageSize) write = .ok m') ↔ ∃ m', (do
      let (f, m) ← pmmAllocPage (vmmExdirSet m m.cr3).2
      vmmExpageSet m x (vmmPageVal f ⟨true, write, true⟩) : Except Stop Machine) = .ok m' := by
    unfold populate
    rw [pagesFrom_one]
    simp only [List.foldlM_cons, List.foldlM_nil]
    constructor
    · rintro ⟨m', hm'⟩
      obtain ⟨m1, h1, -⟩ := bind_ok.mp hm'
      obtain ⟨m2, h2, h3⟩ := bind_ok.mp h1
      exact ⟨m2, h2⟩
    · rintro ⟨m1, h1⟩
      exact ⟨_, bind_ok.mpr ⟨m1, bind_ok.mpr ⟨m1, h1, rfl⟩, rfl⟩⟩
  rw [hpop, ← htable]
  have hfree : (vmmExdirSet m m.cr3).2.free = m.free := rfl
  have hcr3 : (vmmExdirSet m m.cr3).2.cr3 = m.cr3 := rfl
  rw [← hfree]
  generalize (vmmExdirSet m m.cr3).2 = m1 at hl hs1 hcr3
  cases hlist : m1.free with
  | nil =>
    refine iff_of_false ?_ (by simp)
    rintro ⟨m', hm'⟩
    simp [pmmAllocPage, hlist, bind, Except.bind] at hm'
  | cons f rest =>
    have halloc : pmmAllocPage m1 = .ok (f, { m1 with free := rest }) := by rw [pmmAllocPage, hlist]
    have hset := vmmExpageSet_ok_iff (m := { m1 with free := rest }) (d := m.cr3)
      (v := vmmPageVal f ⟨true, write, true⟩) (hs1.alloc hlist) hcr3 hl hx rfl
    rw [List.length_cons, mapPage_ok_iff]
    refine Iff.trans ?_ hset
    rw [halloc]
    rfl

theorem scan_near {p start : Nat} (haligned : ∀ a ∈ w.mem p, (w.area a).Aligned) (hfree : ∀ a, ¬ At w p x a)
    (hlow : x < kernelOffset) (hstart : pageMask start = start) (hle : x ≤ start)
    (hnear : start < x + pageSize) :
    scanHangs w p (pageMask x) start = (findIncluding w p start).isSome := by
  have hlast : ¬ lastPage ≤ start := by
    unfold lastPage
    unfold kernelOffset at hlow
    unfold pageSize at hnear
    omega
  have hpage : findIncluding w p (pageMask x) = none := by
    refine findIncluding_eq_none.mpr fun a ha => hfree a ⟨ha.1, ?_⟩
    rw [← (haligned a ha.1).covers_page (pageMask_pageMask x)]
    exact ha.2
  unfold scanHangs
  rw [decide_eq_false hlast, Bool.false_or, Bool.eq_iff_iff, List.any_eq_true]
  constructor
  · rintro ⟨i, hi, hsome⟩
    obtain ⟨h1, h2, h3⟩ := (mem_pagesFrom (pageMask_pageMask x)).mp hi
    by_cases hix : i = pageMask x
    · rw [hix, hpage] at hsome
      cases hsome
    · have hi : i = start := by
        unfold pageMask at *
        unfold pageSize at hnear
        omega
      rwa [← hi]
  · intro hsome
    refine ⟨start, (mem_pagesFrom (pageMask_pageMask x)).mpr ⟨?_, Nat.lt_succ_self _, hstart⟩, hsome⟩
    exact Nat.le_trans (pageMask_le x) hle

theorem growth_ok_iff (h : Settled w) (hx : x < kernelOffset) (hfree : ∀ a, ¬ At w w.current x a)
    (hmem : above ∈ w.mem w.current) (hle : x ≤ (w.area above).start)
    (hnear : (w.area above).start < x + pageSize) :
    (∃ r, newArea w w.current (pageMask x) (w.area above).start (w.area above).flags
      (w.area above).type = .ok r) ↔
    findIncluding w w.current (w.area above).start = none ∧
      ((w.area above).flags.populates = true → pageMask x < (w.area above).start →
        1 + tableFrames w.machine w.machine.cr3 x ≤ w.machine.free.length) := by
  have hstart := (h.aligned above hmem).start
  rw [newArea_eq, pageMask_pageMask, areaStop_eq hstart, scan_near h.aligned hfree hx hstart hle hnear]
  cases hinc : findIncluding w w.current (w.area above).start with
  | some a => simp
  | none =>
    simp only [Option.isSome_none, Bool.false_eq_true, if_false, true_and]
    cases hpop : (w.area above).flags.populates with
    | false => simp [Except.bind]
    | true =>
      have hlow : pageMask x < kernelOffset := Nat.lt_of_le_of_lt (pageMask_le x) hx
      have hbind : (∃ r, ((populate w.machine (w.pd w.current) (pageMask x) (w.area above).start
          (w.area above).flags.write).bind fun m => .ok (glueArea (withArea w m w.current (pageMask x)
            (w.area above).start (w.area above).flags (w.area above).type) w.nextArea)) = .ok r) ↔
          ∃ m', populate w.machine (w.pd w.current) (pageMask x) (w.area above).start
            (w.area above).flags.write = .ok m' := by
        cases populate w.machine (w.pd w.current) (pageMask x) (w.area above).start
          (w.area above).flags.write <;> simp [Except.bind]
      rw [if_pos rfl, hbind, ← h.loaded, ← tableFrames_page]
      by_cases hpage : pageMask x < (w.area above).start
      · have hone : (w.area above).start = pageMask x + pageSize := by
          unfold pageMask at *
          unfold pageSize at *
          omega
        have hok := populate_ok_iff (w.area above).flags.write h.spaces hlow
        rw [← hone] at hok
        exact hok.trans ⟨fun hframes _ _ => hframes, fun hframes => hframes rfl hpage⟩
      · have hsame : (w.area above).start = pageMask x := by
          have := pageMask_le x
          omega
        rw [hsame]
        refine iff_of_true ?_ fun _ hlt => absurd hlt (Nat.lt_irrefl _)
        unfold populate
        rw [pagesFrom_self]
        exact ⟨_, rfl⟩

theorem insideFault_iff (hx : x < kernelOffset) (hinc : findIncluding w w.current x = some a) :
    (∃ w', procmmHandlePageFault w x false true = .ok (true, w')) ↔
      (w.area a).flags.addonuse = true ∧
        1 + tableFrames w.machine w.machine.cr3 x ≤ w.machine.free.length := by
  have hlow : pageMask x < kernelOffset := Nat.lt_of_le_of_lt (pageMask_le x) hx
  have hframes := usePage_ok_iff (m := w.machine) ⟨true, (w.area a).flags.write, true⟩ hlow rfl
  rw [tableFrames_page] at hframes
  rw [← hframes]
  unfold procmmHandlePageFault
  simp only [hinc, Bool.and_false, Bool.false_eq_true, if_false, Bool.not_false, Bool.and_true]
  cases (w.area a).flags.addonuse with
  | false =>
    simp only [Bool.false_eq_true, if_false, false_and, iff_false]
    rintro ⟨w', hw'⟩
    cases hw'
  | true =>
    simp only [if_true, true_and]
    constructor
    · rintro ⟨w', hw'⟩
      obtain ⟨⟨f, m⟩, halloc, hw'⟩ := bind_ok.mp hw'
      obtain ⟨m', hset, -⟩ := bind_ok.mp hw'
      exact ⟨m', bind_ok.mpr ⟨(f, m), halloc, hset⟩⟩
    · rintro ⟨m', hm'⟩
      obtain ⟨⟨f, m⟩, halloc, hset⟩ := bind_ok.mp hm'
      exact ⟨_, bind_ok.mpr ⟨(f, m), halloc, bind_ok.mpr ⟨m', hset, rfl⟩⟩⟩

/-- The distance the handler computes is below a page only for a start within a page above. -/
theorem wrap_near {y : Nat} (hx : x < kernelOffset) (hy : y < 2 ^ 32) :
    wrap (y + 2 ^ 32 - x) < pageSize ↔ x ≤ y ∧ y < x + pageSize := by
  unfold wrap pageSize
  unfold kernelOffset at hx
  omega

theorem outsideFault_iff (h : Settled w) (hx : x < kernelOffset)
    (hout : findIncluding w w.current x = none) :
    (∃ w', procmmHandlePageFault w x false true = .ok (true, w')) ↔ ∃ above, Growable w x above := by
  have hrefused : ∀ w', (.ok (false, w) : Except Stop (Bool × Mem)) ≠ .ok (true, w') := by
    intro w' hw'
    cases hw'
  unfold procmmHandlePageFault
  simp only [hout]
  cases habove : findAbove w w.current x with
  | none =>
    refine iff_of_false (fun ⟨w', hw'⟩ => hrefused w' hw') fun ⟨b, hgrow⟩ => ?_
    rw [hgrow.found] at habove
    cases habove
  | some above =>
    have honly : ∀ {b}, Growable w x b → b = above := fun hgrow =>
      Option.some.inj (hgrow.found.symm.trans habove)
    have hmem := findAbove_mem habove
    have hwf := h.aligned above hmem
    have hnear := wrap_near hx (Nat.lt_of_le_of_lt hwf.le hwf.lt)
    simp only
    split_ifs with hdist hdown hlimit
    · refine iff_of_false (fun ⟨w', hw'⟩ => hrefused w' hw') fun ⟨b, hgrow⟩ => ?_
      obtain rfl := honly hgrow
      exact absurd (hnear.mpr hgrow.near) (Nat.not_lt_of_le hdist)
    · refine iff_of_false (fun ⟨w', hw'⟩ => hrefused w' hw') fun ⟨b, hgrow⟩ => ?_
      obtain rfl := honly hgrow
      exact absurd hgrow.limit (Nat.not_lt_of_le hlimit)
    · obtain ⟨hle, hlt⟩ := hnear.mp (Nat.lt_of_not_le hdist)
      have hgrowth := growth_ok_iff h hx (findIncluding_eq_none.mp hout) hmem hle hlt
      constructor
      · rintro ⟨w', hw'⟩
        obtain ⟨r, hnew, -⟩ := bind_ok.mp hw'
        obtain ⟨hempty, hframes⟩ := hgrowth.mp ⟨r, hnew⟩
        exact ⟨above, habove, hdown, ⟨hle, hlt⟩, Nat.lt_of_not_le hlimit, hempty, hframes⟩
      · rintro ⟨b, hgrow⟩
        obtain rfl := honly hgrow
        obtain ⟨r, hnew⟩ := hgrowth.mpr ⟨hgrow.empty, hgrow.frames⟩
        exact ⟨r.2, bind_ok.mpr ⟨r, hnew, rfl⟩⟩
    · refine iff_of_false (fun ⟨w', hw'⟩ => hrefused w' hw') fun ⟨b, hgrow⟩ => ?_
      obtain rfl := honly hgrow
      exact hdown hgrow.growsdown

theorem stores_iff_served (h : Settled w) (hx : x < kernelOffset) : Stores w x ↔ Served w x := by
  unfold Stores Served
  refine or_congr_right ?_
  cases hinc : findIncluding w w.current x with
  | some a =>
    rw [insideFault_iff hx hinc]
    simp
  | none =>
    rw [outsideFault_iff h hx hinc]
    simp

/-- Where the check lets a buffer pass, a store of the kernel gets to a page exactly if the
page is there, or comes with its first use, or with a stack that is still empty and within
a page of the address. -/
theorem checked_store_iff (h : Settled w) (hx : x < kernelOffset) :
    (procmmCheckAddress w x = 2 ∨ procmmCheckAddress w x = 3 → Stores w x) ↔
      (procmmCheckAddress w x = 2 ∨ procmmCheckAddress w x = 3 → Served w x) :=
  imp_congr_right fun _ => stores_iff_served h hx

end

def pushes : List PageFault := [⟨0xBFFFDFF0, false, true⟩, ⟨0xBFFFCFF0, false, true⟩]

theorem codeAndStack_mem {a : Nat} (h : a ∈ codeAndStack.mem codeAndStack.current) :
    a = 0 ∨ a = 1 ∨ a = 2 := by
  simpa [codeAndStack, Mem.mem] using h

theorem codeAndStack_covers {x a : Nat} (h : At codeAndStack codeAndStack.current x a) :
    (a = 0 ∧ 0x1000 ≤ x ∧ x < 0x2000) ∨ (a = 1 ∧ 0x3000 ≤ x ∧ x < 0x5000) ∨
      (a = 2 ∧ 0xBFFFE000 ≤ x ∧ x < 0xBFFFF000) := by
  have hx := MemArea.covers_iff.mp h.2
  rcases codeAndStack_mem h.1 with rfl | rfl | rfl
  · exact .inl ⟨rfl, hx⟩
  · exact .inr (.inl ⟨rfl, hx⟩)
  · exact .inr (.inr ⟨rfl, hx⟩)

theorem pushes_cases {i : Nat} {f : PageFault} (h : pushes[i]? = some f) :
    (i = 0 ∧ f = ⟨0xBFFFDFF0, false, true⟩) ∨ (i = 1 ∧ f = ⟨0xBFFFCFF0, false, true⟩) := by
  match i with
  | 0 => exact .inl ⟨rfl, (Option.some.inj h).symm⟩
  | 1 => exact .inr ⟨rfl, (Option.some.inj h).symm⟩
  | i + 2 => cases h

theorem pushes_room : StackRoom codeAndStack 2 pushes where
  mem := by decide
  aligned a ha := by rcases codeAndStack_mem ha with rfl | rfl | rfl <;> constructor <;> decide
  apart x a b ha hb := by
    have h1 := codeAndStack_covers ha
    have h2 := codeAndStack_covers hb
    omega
  growsdown := by decide
  nonempty := by decide
  lowest a ha := by rcases codeAndStack_mem ha with rfl | rfl | rfl <;> decide
  nonNil := by simp [pushes]
  page i f hf := by rcases pushes_cases hf with ⟨rfl, rfl⟩ | ⟨rfl, rfl⟩ <;> decide
  free i f x hf hx a ha := by
    have h1 := codeAndStack_covers ha
    rcases pushes_cases hf with ⟨-, rfl⟩ | ⟨-, rfl⟩ <;>
    · unfold pageMask at hx
      simp only at hx
      omega
  limit f hf := by
    simp only [pushes, List.mem_cons, List.not_mem_nil, or_false] at hf
    rcases hf with rfl | rfl <;> decide
  below := ⟨1, by decide, fun f hf => by
    simp only [pushes, List.mem_cons, List.not_mem_nil, or_false] at hf
    rcases hf with rfl | rfl <;> decide⟩

theorem growth_fails_pushes : StackRoom codeAndStack 2 pushes ∧
    ∀ w', resolveAll codeAndStack pushes ≠ .ok w' :=
  ⟨pushes_room, (growth_fails pushes_room).1⟩

/-- The first push below the page of the stack does not come back from `new_area`. -/
theorem push_hangs : StackRoom codeAndStack 2 pushes ∧
    procmmHandlePageFault codeAndStack 0xBFFFDFF0 false true = .error .hang := by
  have hout : findIncluding codeAndStack codeAndStack.current 0xBFFFDFF0 = none := by decide
  have habove : findAbove codeAndStack codeAndStack.current 0xBFFFDFF0 = some 2 := by decide
  have hmeets : ∀ flags type, newArea codeAndStack codeAndStack.current (pageMask 0xBFFFDFF0)
      (codeAndStack.area 2).start flags type = .error .hang := fun flags type =>
    newArea_meets (a := 2) (by decide) (by decide) (by decide) ⟨by decide, by decide⟩
  refine ⟨pushes_room, ?_⟩
  unfold procmmHandlePageFault
  simp only [hout, habove]
  rw [if_neg (by decide), if_neg (by decide), if_neg (by decide), hmeets]
  rfl

theorem codeAndStack_settled : Settled codeAndStack where
  loaded := by decide
  spaces := onePage_start.spaces.mono fun d hd => ⟨1, onePage_living.mpr rfl, hd.symm⟩
  aligned := pushes_room.aligned
  ordered := by
    unfold Ordered
    decide

theorem checked_store_iff_codeAndStack :
    (procmmCheckAddress codeAndStack 0x1234 = 2 ∨ procmmCheckAddress codeAndStack 0x1234 = 3 →
      Stores codeAndStack 0x1234) ↔
    (procmmCheckAddress codeAndStack 0x1234 = 2 ∨ procmmCheckAddress codeAndStack 0x1234 = 3 →
      Served codeAndStack 0x1234) :=
  checked_store_iff codeAndStack_settled (by decide)

/-- The check takes the address for one on the stack, far below it; the fault is not resolved. -/
theorem checked_store_fails : Settled codeAndStack ∧ procmmCheckAddress codeAndStack 0xB8000000 = 2 ∧
    codeAndStack.machine.mapped codeAndStack.machine.cr3 0xB8000000 = false ∧
    procmmHandlePageFault codeAndStack 0xB8000000 false true = .ok (false, codeAndStack) := by
  have hout : findIncluding codeAndStack codeAndStack.current 0xB8000000 = none := by decide
  have habove : findAbove codeAndStack codeAndStack.current 0xB8000000 = some 2 := by decide
  refine ⟨codeAndStack_settled, by decide, by decide, ?_⟩
  unfold procmmHandlePageFault
  simp only [hout, habove]
  rw [if_pos (by decide)]
  rfl

end Os5
