import Os5.Mem.Procmm

/-!
# The layout of the areas

`Layout w`: the areas of every process are page-aligned, below `KERNEL_OFFSET`
and disjoint, the rings of copies are well formed, and the members of one ring
have the same range and are copy on write unless they are alone.
-/

namespace Os5

open Machine Circular

def Live (w : Mem) (a : Nat) : Prop := a ∈ w.mem (w.area a).owner

/-- The address `x` of process `p` lies in area `a`. -/
def At (w : Mem) (p x a : Nat) : Prop := a ∈ w.mem p ∧ (w.area a).covers x = true

structure MemArea.Wf (a : MemArea) : Prop where
  start : pageMask a.start = a.start
  stop : pageMask a.stop = a.stop
  le : a.start ≤ a.stop
  below : a.stop ≤ kernelOffset

structure MemArea.Aligned (a : MemArea) : Prop where
  start : pageMask a.start = a.start
  stop : pageMask a.stop = a.stop
  le : a.start ≤ a.stop
  lt : a.stop < 2 ^ 32

structure Layout (w : Mem) : Prop where
  owner : ∀ {p a}, a ∈ w.mem p → (w.area a).owner = p
  living : ∀ {p a}, a ∈ w.mem p → w.living p = true
  nodup : ∀ p, (w.mem p).Nodup
  fresh : ∀ {p a}, a ∈ w.mem p → a < w.nextArea
  wf : ∀ {p a}, a ∈ w.mem p → (w.area a).Wf
  apart : ∀ {p a b x}, At w p x a → At w p x b → a = b
  rings : Rings w.copies (Live w)
  range : ∀ {a b}, Live w a → SameRing w.copies a b →
    (w.area a).start = (w.area b).start ∧ (w.area a).stop = (w.area b).stop
  cow : ∀ {a b}, Live w a → SameRing w.copies a b → a ≠ b → (w.area a).flags.cow = true
  flags : ∀ {p a}, a ∈ w.mem p → (w.area a).flags.write = !(w.area a).flags.cow

def Ordered (w : Mem) (p : Nat) : Prop :=
  (w.mem p).Pairwise fun a b => (w.area a).stop ≤ (w.area b).start

theorem Ordered.apart {w : Mem} {p a b : Nat} (h : Ordered w p) (ha : a ∈ w.mem p) (hb : b ∈ w.mem p)
    (hne : a ≠ b) : (w.area a).stop ≤ (w.area b).start ∨ (w.area b).stop ≤ (w.area a).start := by
  let r : Nat → Nat → Prop := fun c d =>
    (w.area c).stop ≤ (w.area d).start ∨ (w.area d).stop ≤ (w.area c).start
  have hsym : Std.Symm r := ⟨fun _ _ h => h.symm⟩
  have hpair : (w.mem p).Pairwise r := List.Pairwise.imp (fun h => Or.inl h) h
  exact hpair.forall ha hb hne

/-- What the lists and rings of areas keep also where the layout is lost: the copies of an
area have its range as long as it is copy on write, and a writable area has none. -/
structure Linked (w : Mem) : Prop where
  owner : ∀ {p a}, a ∈ w.mem p → (w.area a).owner = p
  living : ∀ {p a}, a ∈ w.mem p → w.living p = true
  nodup : ∀ p, (w.mem p).Nodup
  fresh : ∀ {p a}, a ∈ w.mem p → a < w.nextArea
  rings : Rings w.copies (Live w)
  copies : ∀ {a b}, Live w a → SameRing w.copies a b → (w.area a).flags.cow = true →
    (w.area b).flags.cow = true ∧ (w.area a).start = (w.area b).start ∧ (w.area a).stop = (w.area b).stop
  lone : ∀ {a b}, Live w a → SameRing w.copies a b → (w.area a).flags.write = true →
    (w.area a).flags.cow = false → b = a

structure Lists (w : Mem) : Prop extends Linked w where
  wf : ∀ {p a}, a ∈ w.mem p → (w.area a).Aligned

/-- The areas are in the lists of their owners, and the rings of copies are closed. -/
structure Listed (w : Mem) : Prop where
  owner : ∀ {p a}, a ∈ w.mem p → (w.area a).owner = p
  nodup : ∀ p, (w.mem p).Nodup
  fresh : ∀ {p a}, a ∈ w.mem p → a < w.nextArea
  rings : Rings w.copies (Live w)

-- ---------------------------------------------------------------------------
-- Pages of a range
-- ---------------------------------------------------------------------------

section
variable {start stop x y i : Nat}

theorem mem_pagesFrom (hs : pageMask start = start) :
    i ∈ pagesFrom start stop ↔ start ≤ i ∧ i < stop ∧ pageMask i = i := by
  unfold pageMask at *
  simp only [pagesFrom, List.mem_map, List.mem_range]
  constructor
  · rintro ⟨k, hk, rfl⟩
    omega
  · rintro ⟨h1, h2, h3⟩
    exact ⟨(i - start) / 0x1000, by omega, by omega⟩

theorem map_pageMask_pagesFrom (hs : pageMask start = start) :
    (pagesFrom start stop).map pageMask = pagesFrom start stop := by
  have h : ∀ i ∈ pagesFrom start stop, pageMask i = i := fun i hi => ((mem_pagesFrom hs).mp hi).2.2
  rw [List.map_congr_left h, List.map_id']

theorem pagesFrom_nodup : (pagesFrom start stop).Nodup := by
  unfold pagesFrom
  refine List.Nodup.map ?_ List.nodup_range
  intro a b h
  simp only at h
  omega

theorem pageMask_mem_pagesFrom (hs : pageMask start = start) (he : pageMask stop = stop) :
    pageMask y ∈ pagesFrom start stop ↔ start ≤ y ∧ y < stop := by
  rw [mem_pagesFrom hs]
  unfold pageMask at *
  omega

end

section
variable {a : MemArea} {x y : Nat}

theorem MemArea.covers_iff : a.covers x = true ↔ a.start ≤ x ∧ x < a.stop := by
  simp [MemArea.covers]

theorem MemArea.Wf.aligned (h : a.Wf) : a.Aligned :=
  ⟨h.start, h.stop, h.le, Nat.lt_of_le_of_lt h.below (by norm_num)⟩

theorem MemArea.Aligned.covers_page (h : a.Aligned) (hxy : pageMask x = pageMask y) :
    a.covers x = a.covers y := by
  rw [Bool.eq_iff_iff, covers_iff, covers_iff]
  have h1 := h.start
  have h2 := h.stop
  unfold pageMask at *
  omega

theorem MemArea.Wf.covers_page (h : a.Wf) (hxy : pageMask x = pageMask y) : a.covers x = a.covers y :=
  h.aligned.covers_page hxy

theorem MemArea.Wf.lt (h : a.Wf) (hx : a.covers x = true) : x < kernelOffset :=
  Nat.lt_of_lt_of_le (covers_iff.mp hx).2 h.below

end

section
variable {w : Mem} {p a b x y : Nat}

theorem at_of_findIncluding (h : findIncluding w p x = some a) : At w p x a :=
  ⟨List.mem_of_find?_eq_some h, by simpa using List.find?_some h⟩

theorem findIncluding_eq_some (hl : Layout w) : findIncluding w p x = some a ↔ At w p x a := by
  refine ⟨at_of_findIncluding, fun h => ?_⟩
  · cases hf : findIncluding w p x with
    | none =>
      have := List.find?_eq_none.mp hf a h.1
      exact absurd h.2 this
    | some b =>
      rw [hl.apart (at_of_findIncluding hf) h]

theorem findIncluding_eq_none : findIncluding w p x = none ↔ ∀ a, ¬ At w p x a := by
  unfold findIncluding At
  rw [List.find?_eq_none]
  constructor
  · intro h a ha
    exact h a ha.1 ha.2
  · intro h a ha hc
    exact h a ⟨ha, by simpa using hc⟩

theorem Linked.live (hl : Linked w) (h : a ∈ w.mem p) : Live w a := by
  rwa [Live, hl.owner h]

theorem Listed.live (hl : Listed w) (h : a ∈ w.mem p) : Live w a := by
  rwa [Live, hl.owner h]

theorem Lists.listed (hl : Lists w) : Listed w := ⟨hl.owner, hl.nodup, hl.fresh, hl.rings⟩

theorem Layout.lists (hl : Layout w) : Lists w where
  owner := hl.owner
  living := hl.living
  nodup := hl.nodup
  fresh := hl.fresh
  wf h := (hl.wf h).aligned
  rings := hl.rings
  copies {a b} ha hs hcow := by
    refine ⟨?_, hl.range ha hs⟩
    by_cases hne : a = b
    · exact hne ▸ hcow
    · exact hl.cow (hl.rings.closed ha hs) hs.symm (Ne.symm hne)
  lone {a b} ha hs _ hcow := by
    by_contra hne
    rw [hl.cow ha hs (Ne.symm hne)] at hcow
    cases hcow

theorem Layout.live (hl : Layout w) (h : a ∈ w.mem p) : Live w a := by
  rwa [Live, hl.owner h]

theorem Layout.at_page (hl : Layout w) (hxy : pageMask x = pageMask y) (h : At w p x a) : At w p y a :=
  ⟨h.1, (hl.wf h.1).covers_page hxy ▸ h.2⟩

theorem Layout.at_live (hl : Layout w) (h : At w p x a) : Live w a := hl.live h.1

theorem Layout.at_lt (hl : Layout w) (h : At w p x a) : x < kernelOffset := (hl.wf h.1).lt h.2

theorem Layout.at_ring (hl : Layout w) (h : At w p x a) (hs : SameRing w.copies a b) :
    At w (w.area b).owner x b := by
  obtain ⟨h1, h2⟩ := hl.range (hl.at_live h) hs
  have hb : Live w b := hl.rings.closed (hl.at_live h) hs
  refine ⟨hb, ?_⟩
  have := h.2
  rw [MemArea.covers_iff] at this ⊢
  rwa [← h1, ← h2]

theorem Layout.isEmpty_iff (hl : Layout w) (h : a ∈ w.mem p) :
    isEmpty w.copies a = true ↔ ∀ b, SameRing w.copies a b → b = a :=
  hl.rings.isEmpty_iff (hl.live h)

theorem Layout.congr {w' : Mem} (hl : Layout w) (hmem : ∀ q, w'.mem q = w.mem q) (harea : w'.area = w.area)
    (hnext : w'.nextArea = w.nextArea) (hcopies : w'.copies = w.copies)
    (hliv : ∀ q, w.living q = true → w'.living q = true) : Layout w' := by
  have hat : ∀ {q x a}, At w' q x a ↔ At w q x a := by
    intro q x a
    unfold At
    rw [hmem, harea]
  have hlive : ∀ {a}, Live w' a ↔ Live w a := by
    intro a
    unfold Live
    rw [hmem, harea]
  refine ⟨fun ha => ?_, fun ha => hliv _ (hl.living (hmem _ ▸ ha)), fun q => ?_, fun ha => ?_, fun ha => ?_,
    fun ha hb => hl.apart (hat.mp ha) (hat.mp hb), ?_, fun ha hs => ?_, fun ha hs hn => ?_, fun ha => ?_⟩
  · rw [harea]
    exact hl.owner (hmem _ ▸ ha)
  · rw [hmem]
    exact hl.nodup q
  · rw [hnext]
    exact hl.fresh (hmem _ ▸ ha)
  · rw [harea]
    exact hl.wf (hmem _ ▸ ha)
  · rw [hcopies]
    exact hl.rings.congr fun _ => hlive
  · rw [harea]
    exact hl.range (hlive.mp ha) (hcopies ▸ hs)
  · rw [harea]
    exact hl.cow (hlive.mp ha) (hcopies ▸ hs) hn
  · rw [harea]
    exact hl.flags (hmem _ ▸ ha)

end

end Os5
