import Os5.Mem.Eager
import Os5.Mem.NewArea
import Os5.Mem.Tables

/-!
# Who may write to an area

A page can be written from user mode if both its entries allow it. `new_area` sets
the write bit of the page for each area, but the entry of the directory has the
bits of the page for which the table was made.
-/

namespace Os5

open Machine Outcome

structure AreaCall where
  start : Nat
  stop : Nat
  flags : MmFlags
  type : Nat
  deriving DecidableEq, Repr

def newAreas (w : Mem) (p : Nat) (calls : List AreaCall) : Except Stop Mem :=
  calls.foldlM (fun w c => do
    let (_, w) ← newArea w p c.start c.stop c.flags c.type
    return w) w

namespace AreaCall

def pages (c : AreaCall) : List Nat := pagesFrom (pageMask c.start) (areaStop c.stop)

def covers (c : AreaCall) (x : Nat) : Prop := pageMask c.start ≤ x ∧ x < areaStop c.stop

def inSlot (i : Nat) (c : AreaCall) : Bool := c.pages.any fun y => dirIdx y = i

def bits (c : AreaCall) : PageFlags := ⟨true, c.flags.write, true⟩

end AreaCall

def Apart (calls : List AreaCall) : Prop :=
  calls.Pairwise fun c d => areaStop c.stop < pageMask d.start ∨ areaStop d.stop < pageMask c.start

/-- The directory entry for `x` will allow writing: it does already, or the first of the
calls with a page in its slot is for a writable area. -/
def OpensForWriting (m : Machine) (d : Frame) (calls : List AreaCall) (x : Nat) : Prop :=
  if (m.pde d x).present then (m.pde d x).write = true ∧ (m.pde d x).user = true
  else ∀ c, calls.find? (AreaCall.inSlot (dirIdx x)) = some c → c.flags.write = true

structure Populated (dirs : Frame → Prop) (d : Frame) (calls : List AreaCall) (m m' : Machine) : Prop where
  cr3 : m'.cr3 = m.cr3
  spaces : Spaces m' dirs
  kept : ∀ {j}, j < 768 → (m.table d j).present = true ∨ calls.find? (AreaCall.inSlot j) = none →
    m'.table d j = m.table d j
  made : ∀ {j c}, j < 768 → (m.table d j).present = false → calls.find? (AreaCall.inSlot j) = some c →
    (m'.table d j).toPageFlags = c.bits
  leaf : ∀ {c x}, c ∈ calls → c.covers x → (m'.leaf d x).toPageFlags = c.bits
  other : ∀ {x}, x < kernelOffset → (∀ c ∈ calls, ¬ c.covers x) → m'.leaf d x = m.leaf d x

section
variable {dirs : Frame → Prop} {d : Frame} {m m' m'' : Machine} {w w' : Mem} {p x i : Nat} {c : AreaCall}
  {calls : List AreaCall}

theorem AreaCall.pageMask_mem : pageMask x ∈ c.pages ↔ c.covers x :=
  pageMask_mem_pagesFrom (pageMask_pageMask _) pageMask_areaStop

theorem AreaCall.inSlot_iff : c.inSlot i = true ↔ ∃ x, c.covers x ∧ dirIdx x = i := by
  unfold AreaCall.inSlot
  rw [List.any_eq_true]
  constructor
  · rintro ⟨y, hy, hi⟩
    have hpage : pageMask y = y := ((mem_pagesFrom (pageMask_pageMask _)).mp hy).2.2
    exact ⟨y, pageMask_mem.mp (hpage.symm ▸ hy), by simpa using hi⟩
  · rintro ⟨x, hx, rfl⟩
    exact ⟨pageMask x, pageMask_mem.mpr hx, by simp [dirIdx_pageMask]⟩

theorem Populated.nil (hs : Spaces m dirs) : Populated dirs d [] m m :=
  ⟨rfl, hs, fun _ _ => rfl, by simp, by simp, fun _ _ => rfl⟩

theorem Populated.cons {m₁ : Machine} (hd : dirs d) (hbelow : areaStop c.stop ≤ kernelOffset)
    (hapart : ∀ b ∈ calls, ∀ x, c.covers x → ¬ b.covers x)
    (h1 : Fills dirs d c.pages c.bits m m₁) (h : Populated dirs d calls m₁ m') :
    Populated dirs d (c :: calls) m m' where
  cr3 := h.cr3.trans h1.cr3
  spaces := h.spaces
  kept {j} hj hold := by
    have hfirst : m₁.table d j = m.table d j := by
      refine h1.kept hd hj (hold.imp_right fun hnone => .inr fun x hx hjx => ?_)
      rw [List.find?_cons] at hnone
      split at hnone
      · cases hnone
      · next hslot => simp [AreaCall.inSlot, hjx] at hslot; exact hslot x hx rfl
    rw [h.kept hj, hfirst]
    rw [hfirst]
    refine hold.imp_right fun hnone => ?_
    rw [List.find?_cons] at hnone
    split at hnone
    · cases hnone
    · exact hnone
  made {j b} hj hmissing hfirst := by
    rw [List.find?_cons] at hfirst
    split at hfirst
    · next hslot =>
      obtain rfl := Option.some.inj hfirst
      obtain ⟨x, hx, rfl⟩ := AreaCall.inSlot_iff.mp hslot
      have hmem := AreaCall.pageMask_mem.mpr hx
      have hmade : (m₁.table d (dirIdx x)).toPageFlags = c.bits := by
        have := h1.made hmem (by rwa [Machine.pde, dirIdx_pageMask])
        rwa [Machine.pde, dirIdx_pageMask] at this
      rw [h.kept hj (.inl (congrArg PageFlags.present hmade)), hmade]
    · next hslot =>
      have hsame : m₁.table d j = m.table d j := by
        refine h1.kept hd hj (.inr (.inr fun x hx hjx => ?_))
        simp [AreaCall.inSlot, hjx] at hslot
        exact hslot x hx rfl
      exact h.made hj (by rwa [hsame]) hfirst
  leaf {b x} hb hx := by
    rcases List.mem_cons.mp hb with rfl | hb
    · have hlow : x < kernelOffset := Nat.lt_of_lt_of_le hx.2 hbelow
      rw [h.other hlow fun a ha => hapart a ha x hx]
      exact h1.filled (AreaCall.pageMask_mem.mpr hx) (pageMask_pageMask x).symm
    · exact h.leaf hb hx
  other {x} hx hout := by
    rw [h.other hx fun b hb => hout b (List.mem_cons_of_mem _ hb)]
    refine h1.leaf hd hx (.inr fun y hy hpage => hout c List.mem_cons_self ?_)
    have hy' : pageMask y = y := ((mem_pagesFrom (pageMask_pageMask _)).mp hy).2.2
    exact AreaCall.pageMask_mem.mp (hpage.trans hy' ▸ hy)

theorem Apart.cons (h : Apart (c :: calls)) :
    (∀ b ∈ calls, ∀ x, c.covers x → ¬ b.covers x) ∧ Apart calls := by
  obtain ⟨hc, hrest⟩ := List.pairwise_cons.mp h
  refine ⟨fun b hb x hx hx' => ?_, hrest⟩
  obtain ⟨h1, h2⟩ := hx
  obtain ⟨h3, h4⟩ := hx'
  rcases hc b hb with hlt | hlt <;> omega

theorem newAreas_populated (hs : Spaces w.machine dirs) (hc : dirs w.machine.cr3) (hd : dirs (w.pd p))
    (hapart : Apart calls) (hbelow : ∀ c ∈ calls, areaStop c.stop ≤ kernelOffset)
    (hfill : ∀ c ∈ calls, c.flags.populates = true) (h : newAreas w p calls = .ok w') :
    w'.pd p = w.pd p ∧ Populated dirs (w.pd p) calls w.machine w'.machine := by
  induction calls generalizing w with
  | nil =>
    obtain rfl := Except.ok.inj h
    exact ⟨rfl, .nil hs⟩
  | cons c calls ih =>
    obtain ⟨w1, hstep, h⟩ := bind_ok.mp ((List.foldlM_cons (m := Except Stop)).symm.trans h)
    obtain ⟨⟨a, w2⟩, hnew, hw⟩ := bind_ok.mp hstep
    obtain rfl := Except.ok.inj hw
    obtain ⟨hframe, hpop⟩ := newArea_frame hnew
    rw [if_pos (hfill c List.mem_cons_self)] at hpop
    have hb := hbelow c List.mem_cons_self
    have h1 := populate_fills hs hc hd (pageMask_pageMask _) hb hpop
    obtain ⟨hne, hrest⟩ := hapart.cons
    have hpd : w2.pd p = w.pd p := hframe.pd p
    obtain ⟨hpd', hall⟩ := ih h1.spaces (by rw [h1.cr3]; exact hc) (by rw [hpd]; exact hd) hrest
      (fun b hb => hbelow b (List.mem_cons_of_mem _ hb)) (fun b hb => hfill b (List.mem_cons_of_mem _ hb)) h
    rw [hpd] at hall hpd'
    exact ⟨hpd', .cons hd hb hne h1 hall⟩

theorem Populated.opens_iff (h : Populated dirs d calls m m') (hmem : c ∈ calls) (hx : c.covers x)
    (hlow : x < kernelOffset) :
    OpensForWriting m d calls x ↔ (m'.pde d x).write = true ∧ (m'.pde d x).user = true := by
  unfold OpensForWriting
  cases hp : (m.pde d x).present with
  | true =>
    have hsame : m'.pde d x = m.pde d x := h.kept (dirIdx_lt hlow) (.inl hp)
    rw [if_pos rfl, hsame]
  | false =>
    have hslot : c.inSlot (dirIdx x) = true := AreaCall.inSlot_iff.mpr ⟨x, hx, rfl⟩
    cases hfirst : calls.find? (AreaCall.inSlot (dirIdx x)) with
    | none => exact absurd hslot (by simpa using List.find?_eq_none.mp hfirst c hmem)
    | some b =>
      have hmade : (m'.pde d x).toPageFlags = b.bits := h.made (dirIdx_lt hlow) hp hfirst
      rw [if_neg Bool.false_ne_true, hmade]
      simp [AreaCall.bits]

theorem Populated.mapped (h : Populated dirs d calls m m') (hmem : c ∈ calls) (hx : c.covers x) :
    (m'.pde d x).present = true ∧ (m'.pte d x).toPageFlags = c.bits := by
  have hleaf := h.leaf hmem hx
  have hp : (m'.pde d x).present = true := by
    by_contra hp
    rw [leaf_missing (by simpa using hp)] at hleaf
    cases congrArg PageFlags.present hleaf
  rw [leaf_present hp] at hleaf
  exact ⟨hp, hleaf⟩

/-- After the calls the pages of the read-only areas cannot be written, and those of the
writable areas all can exactly if each has a directory entry that allows it. -/
theorem areas_writable_iff (hs : Spaces w.machine dirs) (hc : dirs w.machine.cr3) (hd : dirs (w.pd p))
    (hapart : Apart calls) (hbelow : ∀ c ∈ calls, areaStop c.stop ≤ kernelOffset)
    (hfill : ∀ c ∈ calls, c.flags.populates = true) (h : newAreas w p calls = .ok w') :
    (∀ c ∈ calls, ∀ x, c.covers x → if c.flags.write then w'.machine.userWritable (w.pd p) x = true
      else (w'.machine.pte (w.pd p) x).write = false) ↔
    ∀ c ∈ calls, c.flags.write = true → ∀ x, c.covers x → OpensForWriting w.machine (w.pd p) calls x := by
  obtain ⟨-, hpop⟩ := newAreas_populated hs hc hd hapart hbelow hfill h
  have hpage : ∀ c ∈ calls, ∀ x, c.covers x →
      ((if c.flags.write then w'.machine.userWritable (w.pd p) x = true
        else (w'.machine.pte (w.pd p) x).write = false) ↔
      (c.flags.write = true → OpensForWriting w.machine (w.pd p) calls x)) := by
    intro c hmem x hx
    have hlow : x < kernelOffset := Nat.lt_of_lt_of_le hx.2 (hbelow c hmem)
    obtain ⟨hp, hpte⟩ := hpop.mapped hmem hx
    rw [hpop.opens_iff hmem hx hlow]
    cases hwrite : c.flags.write with
    | true => simp [userWritable, hp, hpte, AreaCall.bits, hwrite]
    | false => simp [hpte, AreaCall.bits, hwrite]
  constructor
  · intro hall c hmem hwrite x hx
    exact (hpage c hmem x hx).mp (hall c hmem x hx) hwrite
  · intro hall c hmem x hx
    exact (hpage c hmem x hx).mpr fun hwrite => hall c hmem hwrite x hx

end

def readFlags : MmFlags := { dataFlags with write := false }

/-- A program's data, and its code in the same 4 MB. -/
def dataThenCode : List AreaCall :=
  [⟨0x8050000, 0x8052000, dataFlags, 1⟩, ⟨0x8048000, 0x8049800, readFlags, 1⟩]

/-- The order in which a linker puts them into the program. -/
def codeThenData : List AreaCall :=
  [⟨0x8048000, 0x8049800, readFlags, 1⟩, ⟨0x8050000, 0x8052000, dataFlags, 1⟩]

theorem areas_writable_iff_dataThenCode : ∃ w', newAreas onePage 1 dataThenCode = .ok w' ∧
    ((∀ c ∈ dataThenCode, ∀ x, c.covers x →
      if c.flags.write then w'.machine.userWritable (onePage.pd 1) x = true
      else (w'.machine.pte (onePage.pd 1) x).write = false) ↔
    ∀ c ∈ dataThenCode, c.flags.write = true → ∀ x, c.covers x →
      OpensForWriting onePage.machine (onePage.pd 1) dataThenCode x) := by
  have hdone : (newAreas onePage 1 dataThenCode).toOption.isSome = true := by decide +kernel
  cases hw : newAreas onePage 1 dataThenCode with
  | error s =>
    rw [hw] at hdone
    cases hdone
  | ok w' =>
    exact ⟨w', rfl, areas_writable_iff onePage_start.spaces onePage_start.loaded
      ⟨1, onePage_living.mpr rfl, rfl⟩ (by unfold Apart; decide) (by decide) (by decide) hw⟩

/-- The data cannot be written: its table came with the code. -/
theorem data_not_writable : ∃ w', newAreas onePage 1 codeThenData = .ok w' ∧
    (∃ c ∈ codeThenData, c.flags.write = true ∧ c.covers 0x8050000) ∧
    w'.machine.userWritable (onePage.pd 1) 0x8050000 = false := by
  have hdone : (newAreas onePage 1 codeThenData).toOption.map
      (fun w' => w'.machine.userWritable (onePage.pd 1) 0x8050000) = some false := by decide +kernel
  cases hw : newAreas onePage 1 codeThenData with
  | error s =>
    rw [hw] at hdone
    cases hdone
  | ok w' =>
    rw [hw] at hdone
    exact ⟨w', rfl, ⟨_, List.mem_cons_of_mem _ List.mem_cons_self, rfl, by decide, by decide⟩,
      Option.some.inj hdone⟩

end Os5
