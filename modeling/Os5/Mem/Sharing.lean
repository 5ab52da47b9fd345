import Os5.Mem.Spaces
import Os5.Mem.Split

/-!
# Who shares a frame

`Backed w dir`: every address of every area is mapped, with the write bit its
area allows, and two addresses have one frame only if they are the same address
of two areas in one ring. `dir` gives the directory of each process; while a
fork is under way the child still goes by the directory of its parent.
-/

namespace Os5

open Machine Circular Outcome

def Dirs (w : Mem) (dir : Nat → Frame) (f : Frame) : Prop := ∃ p, w.living p = true ∧ dir p = f

def Mem.frame (w : Mem) (dir : Nat → Frame) (p x : Nat) : Frame := (w.machine.pte (dir p) x).frame

structure Backed (w : Mem) (dir : Nat → Frame) : Prop where
  spaces : Spaces w.machine (Dirs w dir)
  loaded : Dirs w dir w.machine.cr3
  pde : ∀ {p x a}, At w p x a → (w.machine.pde (dir p) x).toPageFlags = ⟨true, true, true⟩
  pte : ∀ {p x a}, At w p x a →
    (w.machine.pte (dir p) x).toPageFlags = ⟨true, (w.area a).flags.write, true⟩
  shared : ∀ {p q x y a b}, At w p x a → At w q y b → w.frame dir p x = w.frame dir q y →
    pageMask x = pageMask y ∧ SameRing w.copies a b
  same : ∀ {p q x a b}, At w p x a → At w q x b → SameRing w.copies a b →
    w.frame dir p x = w.frame dir q x
  notFree : ∀ {p x a}, At w p x a → w.frame dir p x ∉ w.machine.free

/-- What a program should find at an address, and whether a fork passes it on. -/
structure Cell where
  noshare : Bool
  value : Byte
  deriving DecidableEq, Repr

def Mem.cell (w : Mem) (dir : Nat → Frame) (p x a : Nat) : Cell :=
  ⟨(w.area a).flags.noshare, w.machine.byte (w.frame dir p x) (pageFlagMask x)⟩

/-- The areas hold what `img` says. -/
def Agrees (w : Mem) (dir : Nat → Frame) (img : Nat → Nat → Option Cell) : Prop :=
  ∀ {p x a}, At w p x a → img p x = some (w.cell dir p x a)

section
variable {w w' : Mem} {dir : Nat → Frame} {img : Nat → Nat → Option Cell} {p q x y a b : Nat}

theorem Layout.at_owner (hl : Layout w) (h : At w p x a) : (w.area a).owner = p := hl.owner h.1

theorem Layout.at_eq (hl : Layout w) (h : At w p x a) (h' : At w q y a) : p = q :=
  (hl.at_owner h).symm.trans (hl.at_owner h')

theorem Backed.pde_present (hb : Backed w dir) (h : At w p x a) :
    (w.machine.pde (dir p) x).present = true := by
  have := hb.pde h
  simp [this]

theorem Backed.pte_present (hb : Backed w dir) (h : At w p x a) :
    (w.machine.pte (dir p) x).present = true := by
  have := hb.pte h
  simp [this]

theorem Backed.dirs (_ : Backed w dir) (hl : Layout w) (h : At w p x a) : Dirs w dir (dir p) :=
  ⟨p, hl.living h.1, rfl⟩

theorem Machine.pte_congr (m : Machine) (d : Frame) (h : pageMask x = pageMask y) :
    m.pte d x = m.pte d y := by
  obtain ⟨h1, h2⟩ := samePage_iff.mp h
  simp [Machine.pte, Machine.pde, h1, h2]

theorem Mem.frame_congr (w : Mem) (dir : Nat → Frame) (p : Nat) (h : pageMask x = pageMask y) :
    w.frame dir p x = w.frame dir p y := by
  rw [Mem.frame, Mem.frame, w.machine.pte_congr _ h]

theorem eq_of_page (h1 : pageMask x = pageMask y) (h2 : pageFlagMask x = pageFlagMask y) : x = y := by
  unfold pageMask pageFlagMask at *
  omega

-- ---------------------------------------------------------------------------
-- Other areas, same addresses
-- ---------------------------------------------------------------------------

theorem Regroups.frame (hr : Regroups w w') (p x : Nat) : w'.frame dir p x = w.frame dir p x := by
  rw [Mem.frame, Mem.frame, hr.machine]

theorem Regroups.dirs (hr : Regroups w w') : Dirs w' dir = Dirs w dir := by
  unfold Dirs Mem.living
  rw [hr.nextPid]

theorem Regroups.backed (hr : Regroups w w') (hl : Layout w) (hl' : Layout w') (hb : Backed w dir) :
    Backed w' dir where
  spaces := by
    rw [hr.machine, hr.dirs]
    exact hb.spaces
  loaded := by
    rw [hr.machine, hr.dirs]
    exact hb.loaded
  pde h := by
    obtain ⟨a, ha, -⟩ := hr.down h
    rw [hr.machine]
    exact hb.pde ha
  pte h := by
    obtain ⟨a, ha, hf, -⟩ := hr.down h
    rw [hr.machine, hf]
    exact hb.pte ha
  shared h h' heq := by
    obtain ⟨a, ha, -⟩ := hr.down h
    obtain ⟨b, hb', -⟩ := hr.down h'
    rw [hr.frame, hr.frame] at heq
    obtain ⟨hpage, hs⟩ := hb.shared ha hb' heq
    exact ⟨hpage, (hr.ring ha (hl.at_page hpage.symm hb') h (hl'.at_page hpage.symm h')).mpr hs⟩
  same h h' hs := by
    obtain ⟨a, ha, -⟩ := hr.down h
    obtain ⟨b, hb', -⟩ := hr.down h'
    rw [hr.frame, hr.frame]
    exact hb.same ha hb' ((hr.ring ha hb' h h').mp hs)
  notFree h := by
    obtain ⟨a, ha, -⟩ := hr.down h
    rw [hr.frame, hr.machine]
    exact hb.notFree ha

theorem Regroups.agrees (hr : Regroups w w') (he : Agrees w dir img) : Agrees w' dir img := by
  intro p x a' h
  obtain ⟨a, ha, hf, -⟩ := hr.down h
  rw [he ha]
  unfold Mem.cell
  rw [hr.frame, hr.machine, hf]

-- ---------------------------------------------------------------------------
-- A store
-- ---------------------------------------------------------------------------

/-- Without copy on write a frame belongs to one page of one process. -/
theorem Backed.sole (hb : Backed w dir) (hl : Layout w) (h : At w p x a) (h' : At w q y b)
    (hw : (w.area a).flags.cow = false) (heq : w.frame dir p x = w.frame dir q y) :
    p = q ∧ pageMask x = pageMask y := by
  obtain ⟨hpage, hs⟩ := hb.shared h h' heq
  have hab : a = b := by
    by_contra hne
    have := hl.cow (hl.at_live h) hs hne
    rw [hw] at this
    cases this
  subst hab
  exact ⟨hl.at_eq h h', hpage⟩

theorem Backed.store (hb : Backed w dir) (d : Frame) (x : Nat) (v : Byte) :
    Backed { w with machine := w.machine.store d x v } dir :=
  ⟨hb.spaces.of_tables rfl rfl, hb.loaded, hb.pde, hb.pte, hb.shared, hb.same, hb.notFree⟩

theorem Agrees.store (he : Agrees w dir img) (hb : Backed w dir) (hl : Layout w) (h : At w p x a)
    (hw : (w.area a).flags.cow = false) (v : Byte) :
    Agrees { w with machine := w.machine.store (dir p) x v } dir
      (Function.update img p (Function.update (img p) x (some ⟨(w.area a).flags.noshare, v⟩))) := by
  intro q y b h'
  have hcell : Mem.cell { w with machine := w.machine.store (dir p) x v } dir q y b =
      ⟨(w.area b).flags.noshare, if w.frame dir q y = w.frame dir p x ∧ pageFlagMask y = pageFlagMask x
        then v else w.machine.byte (w.frame dir q y) (pageFlagMask y)⟩ := by
    unfold Mem.cell
    congr 1
    exact setByte_byte _ _ _ _ _ _
  rw [hcell]
  by_cases hsame : q = p ∧ y = x
  · obtain ⟨rfl, rfl⟩ := hsame
    obtain rfl := hl.apart h h'
    simp
  · rw [if_neg]
    · by_cases hq : q = p
      · subst hq
        rw [Function.update_self, Function.update_of_ne (fun e => hsame ⟨rfl, e⟩)]
        exact he h'
      · rw [Function.update_of_ne hq]
        exact he h'
    · rintro ⟨hf, ho⟩
      obtain ⟨rfl, hpage⟩ := hb.sole hl h h' hw hf.symm
      exact hsame ⟨rfl, eq_of_page hpage.symm ho⟩

-- ---------------------------------------------------------------------------
-- A page of one's own
-- ---------------------------------------------------------------------------

/-- From `w` to `w'` the page of `x`, an area of its own, stops being copy on write:
its entry is `e`, whose frame nobody else has and which holds what was there. -/
structure Owned (w : Mem) (dir : Nat → Frame) (p x a : Nat) (e : Entry) (w' : Mem) : Prop where
  proc : w'.proc = w.proc
  nextPid : w'.nextPid = w.nextPid
  current : w'.current = w.current
  nextArea : w'.nextArea = w.nextArea
  area : w'.area = (unCow w a).area
  cr3 : w'.machine.cr3 = w.machine.cr3
  spaces : Spaces w'.machine (Dirs w dir)
  pde : ∀ {q y}, Dirs w dir (dir q) → y < kernelOffset → w'.machine.pde (dir q) y = w.machine.pde (dir q) y
  pte : ∀ {q y b}, At w q y b → w'.machine.pte (dir q) y =
    if q = p ∧ pageMask y = pageMask x then e else w.machine.pte (dir q) y
  entry : e.toPageFlags = ⟨true, true, true⟩
  own : ∀ {q y b}, At w q y b → w.frame dir q y = e.frame → q = p ∧ pageMask y = pageMask x
  free : ∀ {f}, f ∈ w'.machine.free → f ∈ w.machine.free ∧ f ≠ e.frame
  freeLen : w.machine.free.length ≤ w'.machine.free.length + 1
  byte : ∀ {f i}, f ≠ e.frame → w'.machine.byte f i = w.machine.byte f i
  copied : ∀ i, w'.machine.byte e.frame i = w.machine.byte (w.frame dir p x) i
  rings : Rings w'.copies (Live w)
  alone : ∀ {b}, SameRing w'.copies a b → b = a
  others : ∀ {b c}, Live w b → b ≠ a → c ≠ a → (SameRing w'.copies b c ↔ SameRing w.copies b c)

theorem Owned.mem {e : Entry} (ho : Owned w dir p x a e w') (q : Nat) : w'.mem q = w.mem q := by
  rw [Mem.mem, Mem.mem, ho.proc]

section
variable (w) (a b)

theorem unCow_area : (unCow w a).area b = { w.area b with
    flags := if b = a then { (w.area b).flags with cow := false, write := true } else (w.area b).flags } := by
  by_cases h : b = a
  · subst h
    simp [unCow, Mem.setArea]
  · simp [unCow, Mem.setArea, h]

theorem unCow_owner : ((unCow w a).area b).owner = (w.area b).owner := by rw [unCow_area]
theorem unCow_start : ((unCow w a).area b).start = (w.area b).start := by rw [unCow_area]
theorem unCow_stop : ((unCow w a).area b).stop = (w.area b).stop := by rw [unCow_area]
theorem unCow_covers : ((unCow w a).area b).covers x = (w.area b).covers x := by rw [unCow_area]; rfl

theorem unCow_flags_self : ((unCow w a).area a).flags =
    { (w.area a).flags with cow := false, write := true } := by
  rw [unCow_area, if_pos rfl]

theorem unCow_flags (h : b ≠ a) : ((unCow w a).area b).flags = (w.area b).flags := by
  rw [unCow_area, if_neg h]

theorem unCow_noshare : ((unCow w a).area b).flags.noshare = (w.area b).flags.noshare := by
  rw [unCow_area]
  dsimp only
  split <;> rfl

end

theorem Owned.at_iff {e : Entry} (ho : Owned w dir p x a e w') : At w' q y b ↔ At w q y b := by
  unfold At
  rw [ho.mem, ho.area, unCow_covers]

theorem Owned.live_iff {e : Entry} (ho : Owned w dir p x a e w') : Live w' b ↔ Live w b := by
  unfold Live
  rw [ho.mem, ho.area, unCow_owner]

theorem Owned.dirs {e : Entry} (ho : Owned w dir p x a e w') : Dirs w' dir = Dirs w dir := by
  unfold Dirs Mem.living
  rw [ho.nextPid]

theorem Owned.frame {e : Entry} (ho : Owned w dir p x a e w') (h : At w q y b) :
    w'.frame dir q y = if q = p ∧ pageMask y = pageMask x then e.frame else w.frame dir q y := by
  rw [Mem.frame, ho.pte h]
  split <;> rfl

theorem Owned.layout {e : Entry} (ho : Owned w dir p x a e w') (hl : Layout w) : Layout w' where
  owner h := by
    rw [ho.mem] at h
    rw [ho.area, unCow_owner, hl.owner h]
  living h := by
    rw [ho.mem] at h
    have := hl.living h
    unfold Mem.living at this ⊢
    rwa [ho.nextPid]
  nodup q := by
    rw [ho.mem]
    exact hl.nodup q
  fresh h := by
    rw [ho.mem] at h
    rw [ho.nextArea]
    exact hl.fresh h
  wf h := by
    rw [ho.mem] at h
    obtain ⟨h1, h2, h3, h4⟩ := hl.wf h
    rw [ho.area, unCow_area]
    exact ⟨h1, h2, h3, h4⟩
  apart h h' := hl.apart (ho.at_iff.mp h) (ho.at_iff.mp h')
  rings b hb := by
    obtain ⟨xs, hx, hall⟩ := ho.rings b (ho.live_iff.mp hb)
    exact ⟨xs, hx, fun n hn => ho.live_iff.mpr (hall n hn)⟩
  range {b c} hb hs := by
    have hb := ho.live_iff.mp hb
    rw [ho.area, unCow_start, unCow_stop, unCow_start, unCow_stop]
    by_cases hba : b = a
    · subst hba
      rw [ho.alone hs]
      exact ⟨rfl, rfl⟩
    · by_cases hca : c = a
      · subst hca
        exact absurd (ho.alone hs.symm) hba
      · exact hl.range hb ((ho.others hb hba hca).mp hs)
  cow {b c} hb hs hne := by
    have hb := ho.live_iff.mp hb
    have hba : b ≠ a := by
      rintro rfl
      exact hne (ho.alone hs).symm
    have hca : c ≠ a := by
      rintro rfl
      exact hne (ho.alone hs.symm)
    rw [ho.area, unCow_flags w a b hba]
    exact hl.cow hb ((ho.others hb hba hca).mp hs) hne
  flags {q b} h := by
    rw [ho.mem] at h
    rw [ho.area]
    by_cases hba : b = a
    · subst hba
      rw [unCow_flags_self]
      rfl
    · rw [unCow_flags w a b hba]
      exact hl.flags h

theorem Owned.ordered {e : Entry} (ho : Owned w dir p x a e w') (h : Ordered w q) : Ordered w' q := by
  unfold Ordered at *
  rw [ho.mem, ho.area]
  simpa only [unCow_start, unCow_stop] using h

theorem Owned.backed {e : Entry} (ho : Owned w dir p x a e w') (hl : Layout w) (hb : Backed w dir)
    (h : At w p x a) (hpage : ∀ {y}, (w.area a).covers y = true → pageMask y = pageMask x) :
    Backed w' dir where
  spaces := by
    rw [ho.dirs]
    exact ho.spaces
  loaded := by
    rw [ho.dirs, ho.cr3]
    exact hb.loaded
  pde h' := by
    have h' := ho.at_iff.mp h'
    rw [ho.pde (hb.dirs hl h') (hl.at_lt h')]
    exact hb.pde h'
  pte {q y b} h' := by
    have h' := ho.at_iff.mp h'
    rw [ho.pte h', ho.area]
    split
    · next hc =>
      obtain ⟨rfl, hp⟩ := hc
      obtain rfl := hl.apart h (hl.at_page hp h')
      rw [unCow_flags_self, ho.entry]
    · next hc =>
      have hba : b ≠ a := by
        rintro rfl
        exact hc ⟨hl.at_eq h' h, hpage h'.2⟩
      rw [unCow_flags w a b hba]
      exact hb.pte h'
  shared {q q' y y' b b'} h1 h2 heq := by
    have h1 := ho.at_iff.mp h1
    have h2 := ho.at_iff.mp h2
    rw [ho.frame h1, ho.frame h2] at heq
    have key : ∀ {q y b}, At w q y b → (q = p ∧ pageMask y = pageMask x ↔ b = a) := by
      intro q y b hq
      constructor
      · rintro ⟨rfl, hp⟩
        exact hl.apart (hl.at_page hp hq) h
      · rintro rfl
        exact ⟨hl.at_eq hq h, hpage hq.2⟩
    have hself : SameRing w'.copies a a := ho.rings.self (hl.at_live h)
    by_cases c1 : q = p ∧ pageMask y = pageMask x
    · have hba := (key h1).mp c1
      rw [if_pos c1] at heq
      by_cases c2 : q' = p ∧ pageMask y' = pageMask x
      · rw [hba, (key h2).mp c2]
        exact ⟨c1.2.trans c2.2.symm, hself⟩
      · rw [if_neg c2] at heq
        exact absurd (ho.own h2 heq.symm) c2
    · rw [if_neg c1] at heq
      by_cases c2 : q' = p ∧ pageMask y' = pageMask x
      · rw [if_pos c2] at heq
        exact absurd (ho.own h1 heq) c1
      · rw [if_neg c2] at heq
        obtain ⟨h3, h4⟩ := hb.shared h1 h2 heq
        exact ⟨h3, (ho.others (hl.at_live h1) (mt (key h1).mpr c1) (mt (key h2).mpr c2)).mpr h4⟩
  same {q q' y b b'} h1 h2 hs := by
    have h1 := ho.at_iff.mp h1
    have h2 := ho.at_iff.mp h2
    by_cases hba : b = a
    · subst hba
      obtain rfl := ho.alone hs
      obtain rfl := hl.at_eq h1 h2
      rfl
    · have hca : b' ≠ a := by
        rintro rfl
        exact hba (ho.alone hs.symm)
      have key : ∀ {q y b}, At w q y b → b ≠ a → ¬ (q = p ∧ pageMask y = pageMask x) := by
        rintro q y b hq hne ⟨rfl, hp⟩
        exact hne (hl.apart (hl.at_page hp hq) h)
      rw [ho.frame h1, ho.frame h2, if_neg (key h1 hba), if_neg (key h2 hca)]
      exact hb.same h1 h2 ((ho.others (hl.at_live h1) hba hca).mp hs)
  notFree {q y b} h' := by
    have h' := ho.at_iff.mp h'
    rw [ho.frame h']
    split
    · exact fun hf => (ho.free hf).2 rfl
    · exact fun hf => hb.notFree h' (ho.free hf).1

theorem Owned.agrees {e : Entry} (ho : Owned w dir p x a e w') (he : Agrees w dir img) :
    Agrees w' dir img := by
  intro q y b h
  have h := ho.at_iff.mp h
  rw [he h]
  unfold Mem.cell
  rw [ho.frame h, ho.area, unCow_noshare]
  congr 2
  split
  · next hc =>
    obtain ⟨rfl, hp⟩ := hc
    rw [ho.copied, w.frame_congr dir q hp]
  · next hc =>
    by_cases hf : w.frame dir q y = e.frame
    · exact absurd (ho.own h hf) hc
    · rw [ho.byte hf]

end

end Os5
