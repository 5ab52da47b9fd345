import Os5.Mem.ReadOnly
import Os5.Mem.Room

/-!
# What a fork makes of the lists

`procmm_fork` goes through the list of the parent and enters a copy of each area
that is not `NOSHARE` in the list of the child. No two of the copies are joined:
areas of the parent that touch differ in their flags or type also when they are
marked as shared.
-/

namespace Os5

open Machine Circular Outcome

/-- Areas that a fork passes on as they are. -/
def MmFlags.readOnly (f : MmFlags) : Bool := !f.write && !f.cow && !f.noshare

/-- The read-only areas of a process are shared all together, and where two of them touch
they differ. -/
structure TextsApart (w : Mem) (p : Nat) : Prop where
  together : ∀ {a b}, a ∈ w.mem p → b ∈ w.mem p → (w.area a).flags.readOnly = true →
    (w.area b).flags.readOnly = true → (w.area a).flags.shared = (w.area b).flags.shared
  apart : ∀ {a b}, a ∈ w.mem p → b ∈ w.mem p → a ≠ b → (w.area a).flags.readOnly = true →
    (w.area a).flags = (w.area b).flags → (w.area a).type = (w.area b).type → (w.area a).stop ≠ (w.area b).start

section
variable {w w' v : Mem} {p q a b c n x start stop type : Nat} {flags : MmFlags} {l : List Nat} {m : Machine}

-- ---------------------------------------------------------------------------
-- Read-only areas
-- ---------------------------------------------------------------------------

theorem TextsApart.of_old (h : TextsApart w p)
    (hold : ∀ a ∈ w'.mem p, (w'.area a).flags.readOnly = true → a ∈ w.mem p ∧ w'.area a = w.area a) :
    TextsApart w' p where
  together {a b} ha hb hra hrb := by
    obtain ⟨ha, hae⟩ := hold a ha hra
    obtain ⟨hb, hbe⟩ := hold b hb hrb
    rw [hae] at hra ⊢
    rw [hbe] at hrb ⊢
    exact h.together ha hb hra hrb
  apart {a b} ha hb hne hra hflags htype := by
    obtain ⟨ha, hae⟩ := hold a ha hra
    obtain ⟨hb, hbe⟩ := hold b hb (hflags ▸ hra)
    rw [hae, hbe] at hflags htype ⊢
    rw [hae] at hra
    exact h.apart ha hb hne hra hflags htype

theorem MmFlags.readOnly_cow {f : MmFlags} (h : f.readOnly = true) : f.cow = false := by
  simp only [MmFlags.readOnly, Bool.and_eq_true, Bool.not_eq_true'] at h
  exact h.1.2

theorem Entered.apart_left (h : TextsApart w p) (he : Entered w p start stop flags type w') (ha : a ∈ w.mem p)
    (hne : a ≠ enteredAs w p start flags type) (hro : flags.readOnly = true)
    (hflags : (w.area a).flags = flags) (htype : (w.area a).type = type) :
    (w.area a).stop ≠ (w'.area (enteredAs w p start flags type)).start := by
  rw [he.entered]
  cases hleft : leftOf w p start flags type with
  | none => exact leftOf_none hleft (MmFlags.readOnly_cow hro) ha hflags htype
  | some c =>
    obtain ⟨-, hc, -, hcf, hct⟩ := leftOf_some hleft
    rw [enteredAs_some hleft] at hne
    exact h.apart ha hc hne (hflags ▸ hro) (hflags.trans hcf.symm) (htype.trans hct.symm)

theorem Entered.apart_right (h : TextsApart w p) (he : Entered w p start stop flags type w') (hb : b ∈ w.mem p)
    (hne : b ≠ enteredAs w p start flags type) (hnot : rightOf w p start stop flags type ≠ some b)
    (hro : flags.readOnly = true) (hflags : (w.area b).flags = flags) (htype : (w.area b).type = type) :
    (w'.area (enteredAs w p start flags type)).stop ≠ (w.area b).start := by
  rw [he.entered]
  cases hright : rightOf w p start stop flags type with
  | none => exact (rightOf_none hright (MmFlags.readOnly_cow hro) hb hne hflags htype).symm
  | some c =>
    obtain ⟨-, hc, -, -, hcf, hct⟩ := rightOf_some hright
    have hcb : c ≠ b := fun hcb => hnot (hright.trans (congrArg some hcb))
    exact h.apart hc hb hcb (hcf.symm ▸ hro) (hcf.trans hflags.symm) (hct.trans htype.symm)

theorem Entered.texts (hl : Linked w) (h : TextsApart w p) (he : Entered w p start stop flags type w')
    (hshared : flags.readOnly = true → ∀ b ∈ w.mem p, (w.area b).flags.readOnly = true →
      (w.area b).flags.shared = flags.shared) : TextsApart w' p := by
  set into := enteredAs w p start flags type with hinto
  have hflags : (w'.area into).flags = flags := by rw [he.entered]
  have htype : (w'.area into).type = type := by rw [he.entered]
  have hold : ∀ {b}, b ∈ w'.mem p → b ≠ into → w'.area b = w.area b ∧ b ∈ w.mem p := fun hb hne =>
    he.area_old hl hb hne
  have hro : ∀ {b}, b ∈ w'.mem p → (∃ c ∈ w.mem p, (w.area c).flags = (w'.area b).flags) ∨
      (w'.area b).flags = flags := by
    intro b hb
    by_cases hbi : b = into
    · exact .inr (hbi ▸ hflags)
    · obtain ⟨hbe, hbm⟩ := hold hb hbi
      exact .inl ⟨b, hbm, by rw [hbe]⟩
  constructor
  · intro a b ha hb hra hrb
    rcases hro ha with ⟨c, hc, hcf⟩ | haf <;> rcases hro hb with ⟨d, hd, hdf⟩ | hbf
    · rw [← hcf] at hra ⊢
      rw [← hdf] at hrb ⊢
      exact h.together hc hd hra hrb
    · rw [hbf] at hrb ⊢
      rw [← hcf] at hra ⊢
      exact hshared hrb c hc hra
    · rw [haf] at hra ⊢
      rw [← hdf] at hrb ⊢
      exact (hshared hra d hd hrb).symm
    · rw [haf, hbf]
  · intro a b ha hb hne hra hfl hty
    by_cases hai : a = into
    · have hbi : b ≠ into := hai ▸ hne.symm
      obtain ⟨hbe, hbm⟩ := hold hb hbi
      rw [hai, hflags] at hra hfl
      rw [hai, htype] at hty
      rw [hai, hbe]
      rw [hbe] at hfl hty
      exact he.apart_right h hbm hbi ((he.mem_iff hl).mp hb).2 hra hfl.symm hty.symm
    · obtain ⟨hae, ham⟩ := hold ha hai
      rw [hae] at hra hfl hty ⊢
      by_cases hbi : b = into
      · rw [hbi, hflags] at hfl
        rw [hbi, htype] at hty
        rw [hbi]
        exact he.apart_left h ham hai (hfl ▸ hra) hfl hty
      · obtain ⟨hbe, hbm⟩ := hold hb hbi
        rw [hbe] at hfl hty ⊢
        exact h.apart ham hbm hne hra hfl hty

-- ---------------------------------------------------------------------------
-- Passing on one area
-- ---------------------------------------------------------------------------

theorem MmFlags.passedOn_write (f : MmFlags) : f.passedOn.write = false := by
  unfold MmFlags.passedOn
  split
  · rfl
  · next h => simpa using fun hw => h (.inl hw)

theorem MmFlags.passedOn_cow (f : MmFlags) : f.passedOn.cow = (f.write || f.cow) := by
  obtain ⟨r, wr, s, n, c, g, au, ad⟩ := f
  cases wr <;> cases c <;> simp [MmFlags.passedOn, MmFlags.shareCow]

theorem MmFlags.passedOn_noshare (f : MmFlags) : f.passedOn.noshare = f.noshare := by
  unfold MmFlags.passedOn
  split <;> rfl

def markArea (w : Mem) (m : Machine) (a : Nat) : Mem :=
  { w.setArea a { w.area a with flags := (w.area a).flags.passedOn } with machine := m }

theorem markArea_area : (markArea w m a).area b =
    { w.area b with flags := if b = a then (w.area a).flags.passedOn else (w.area b).flags } := by
  refine (setArea_area _).trans ?_
  split
  · next h => rw [h]
  · rfl

theorem Linked.markArea (hl : Linked w) : Linked (markArea w m a) := by
  have hlive : ∀ {b}, Live (Os5.markArea w m a) b ↔ Live w b := by
    intro b
    unfold Live
    rw [markArea_area]
    rfl
  refine ⟨fun hb => ?_, hl.living, hl.nodup, hl.fresh, hl.rings.congr fun _ => hlive, fun hb hs hcow => ?_,
    fun hb hs hw hcow => ?_⟩
  · rw [markArea_area]
    exact hl.owner hb
  · rename_i b c
    rw [markArea_area] at hcow
    rw [markArea_area, markArea_area]
    have hb := hlive.mp hb
    have hsame : SameRing w.copies b c := hs
    -- a writable area has no copies, the copies of one that is copy on write are so too
    have hcopies : (w.area b).flags.cow = true → (if c = a then (w.area a).flags.passedOn else
        (w.area c).flags).cow = true ∧ (w.area b).start = (w.area c).start ∧ (w.area b).stop = (w.area c).stop := by
      intro hbcow
      obtain ⟨h1, h2⟩ := hl.copies hb hsame hbcow
      refine ⟨?_, h2⟩
      split
      · next hca =>
        rw [MmFlags.passedOn_cow, ← hca, h1, Bool.or_true]
      · exact h1
    by_cases hba : b = a
    · rw [if_pos hba, MmFlags.passedOn_cow, Bool.or_eq_true] at hcow
      by_cases hacow : (w.area b).flags.cow = true
      · exact hcopies hacow
      · have hlone := hl.lone hb hsame (hba ▸ hcow.resolve_right (hba ▸ hacow)) (by simpa using hacow)
        rw [hlone, if_pos hba, MmFlags.passedOn_cow, Bool.or_eq_true]
        exact ⟨hcow, rfl, rfl⟩
    · rw [if_neg hba] at hcow
      exact hcopies hcow
  · rename_i b c
    rw [markArea_area] at hw hcow
    by_cases hba : b = a
    · rw [if_pos hba, MmFlags.passedOn_write] at hw
      cases hw
    · rw [if_neg hba] at hw hcow
      exact hl.lone (hlive.mp hb) hs hw hcow

/-- A copy of the area `a` for the process `p`, entered in the ring of `a`. -/
def withCopy (w : Mem) (m : Machine) (p a : Nat) : Mem :=
  let v := withArea w m p (w.area a).start (w.area a).stop (w.area a).flags (w.area a).type
  { v with copies := Circular.append v.copies a w.nextArea }

theorem withCopy_area (hb : b ≠ w.nextArea) : (withCopy w m p a).area b = w.area b := withArea_old (m := m) hb

theorem withCopy_self : (withCopy w m p a).area w.nextArea = { w.area a with owner := p } := withArea_self (m := m)

theorem Linked.withCopy_sorted (hl : Linked w) :
    (Os5.withCopy w m p a).mem p = insertSorted w (w.area a).stop w.nextArea (w.mem p) := hl.withArea_sorted

theorem withCopy_other (hq : q ≠ p) : (withCopy w m p a).mem q = w.mem q :=
  (withArea_mem (m := m)).trans (if_neg hq)

theorem Linked.withCopy (hl : Linked w) (ha : a ∈ w.mem q) (hp : w.living p = true)
    (hwrite : (w.area a).flags.write = false) : Linked (withCopy w m p a) := by
  have hnew : Linked (Os5.withArea w m p (w.area a).start (w.area a).stop (w.area a).flags (w.area a).type) :=
    hl.withArea hp
  have hlive : ∀ {b}, Live (Os5.withCopy w m p a) b ↔ Live w b ∨ b = w.nextArea := hl.live_withArea
  obtain ⟨hR, hsame⟩ := hl.rings.appendNew (hl.live ha) hl.next_not_live
  have hR' : Rings (Os5.withCopy w m p a).copies (Live (Os5.withCopy w m p a)) := hR.congr fun _ => hlive
  -- the new area is like `a` but for its owner
  have harea : ∀ b, ((Os5.withCopy w m p a).area b).flags = (w.area (org w a b)).flags ∧
      ((Os5.withCopy w m p a).area b).start = (w.area (org w a b)).start ∧
      ((Os5.withCopy w m p a).area b).stop = (w.area (org w a b)).stop := by
    intro b
    by_cases hb : b = w.nextArea
    · subst hb
      rw [withCopy_self, org_new]
      exact ⟨rfl, rfl, rfl⟩
    · rw [withCopy_area hb, org_old hb]
      exact ⟨rfl, rfl, rfl⟩
  have horg : ∀ {b c}, Live (Os5.withCopy w m p a) b → SameRing (Os5.withCopy w m p a).copies b c →
      Live w (org w a b) ∧ SameRing w.copies (org w a b) (org w a c) := by
    intro b c hb hs
    have hc := hR'.closed hb hs
    refine ⟨?_, (hsame b c (hlive.mp hb) (hlive.mp hc)).mp hs⟩
    unfold org
    split
    · exact hl.live ha
    · next hne => exact (hlive.mp hb).resolve_right hne
  refine ⟨hnew.owner, hnew.living, hnew.nodup, hnew.fresh, hR', fun hb hs hcow => ?_, fun hb hs hw hcow => ?_⟩
  · rename_i b c
    obtain ⟨hbl, hbc⟩ := horg hb hs
    obtain ⟨hbf, hbs, hbe⟩ := harea b
    obtain ⟨hcf, hcs, hce⟩ := harea c
    rw [hbf] at hcow
    rw [hcf, hbs, hcs, hbe, hce]
    exact hl.copies hbl hbc hcow
  · rename_i b c
    obtain ⟨hbl, hbc⟩ := horg hb hs
    rw [(harea b).1] at hw hcow
    have hlone := hl.lone hbl hbc hw hcow
    -- the ring of `a` holds no writable area
    have hba : org w a b ≠ a := by
      intro hba
      rw [hba, hwrite] at hw
      cases hw
    have hb' : b ≠ w.nextArea := fun hb' => hba (hb' ▸ org_new w a)
    have hc' : c ≠ w.nextArea := fun hc' => hba (hlone.symm.trans (hc' ▸ org_new w a))
    rwa [org_old hb', org_old hc'] at hlone

end

-- ---------------------------------------------------------------------------
-- The list of the child
-- ---------------------------------------------------------------------------

def MemArea.copyFor (child : Nat) (a : MemArea) : MemArea := { a with flags := a.flags.passedOn, owner := child }

def MemArea.marked (a : MemArea) : MemArea :=
  { a with flags := if a.flags.noshare then a.flags else a.flags.passedOn }

def passed (w : Mem) (l : List Nat) : List Nat := l.filter fun a => !(w.area a).flags.noshare

/-- The loop of `procmm_fork` for the areas `done` of `parent`, from `w₀` on. -/
structure Inheriting (w₀ : Mem) (child : Nat) (done : List Nat) (w : Mem) : Prop where
  linked : Linked w
  frame : SameFrame w₀ w
  mem : ∀ {q}, q ≠ child → w.mem q = w₀.mem q
  next : w₀.nextArea ≤ w.nextArea
  area : ∀ {b}, b < w₀.nextArea → w.area b = if b ∈ done then (w₀.area b).marked else w₀.area b
  heirs : ((w.mem child).map w.area).Perm ((passed w₀ done).map fun b => (w₀.area b).copyFor child)
  ordered : (done.Pairwise fun b c => (w₀.area b).stop ≤ (w₀.area c).start) → Ordered w child
  new : ∀ c ∈ w.mem child, w₀.nextArea ≤ c

section
variable {w₀ w w' : Mem} {p q a b c n child start stop type : Nat} {flags : MmFlags} {done todo : List Nat}
  {m : Machine}

theorem passed_concat : passed w (done ++ [a]) =
    passed w done ++ if (w.area a).flags.noshare then [] else [a] := by
  rw [passed, List.filter_append]
  cases hns : (w.area a).flags.noshare <;> simp [hns, passed]

theorem Inheriting.heir (h : Inheriting w₀ child done w) (hc : c ∈ w.mem child) : ∃ b ∈ done,
    (w₀.area b).flags.noshare = false ∧ w.area c = (w₀.area b).copyFor child := by
  have hmem := h.heirs.mem_iff.mp (List.mem_map_of_mem (f := w.area) hc)
  obtain ⟨b, hb, hbc⟩ := List.mem_map.mp hmem
  obtain ⟨hb, hns⟩ := List.mem_filter.mp hb
  exact ⟨b, hb, by simpa using hns, hbc.symm⟩

theorem MmFlags.passedOn_inj {f g : MmFlags} (hf : f.passedOn.cow = false) (hfg : f.passedOn = g.passedOn)
    (hshared : f.shared = g.shared) : f = g ∧ f.write = false := by
  have hg : g.passedOn.cow = false := hfg ▸ hf
  rw [MmFlags.passedOn_cow, Bool.or_eq_false_iff] at hf hg
  have hplain : ∀ {k : MmFlags}, k.write = false → k.cow = false → k.passedOn = { k with shared := true } := by
    intro k hw hc
    rw [MmFlags.passedOn, if_neg (by simp [hw, hc])]
  rw [hplain hf.1 hf.2, hplain hg.1 hg.2] at hfg
  refine ⟨?_, hf.1⟩
  cases f
  cases g
  simp_all

theorem Inheriting.differs (h : Inheriting w₀ child done w) (hl : Lists w₀) (ht : TextsApart w₀ p)
    (hlist : w₀.mem p = done ++ a :: todo) (hns : (w₀.area a).flags.noshare = false)
    (hcow : (w₀.area a).flags.passedOn.cow = false) (hc : c ∈ w.mem child)
    (hflags : (w.area c).flags = (w₀.area a).flags.passedOn) (htype : (w.area c).type = (w₀.area a).type) :
    (w.area c).stop ≠ (w₀.area a).start ∧ (w.area c).start ≠ (w₀.area a).stop := by
  obtain ⟨b, hb, hbns, hbc⟩ := h.heir hc
  have hbp : b ∈ w₀.mem p := hlist ▸ List.mem_append_left _ hb
  have hap : a ∈ w₀.mem p := hlist ▸ List.mem_append_right _ List.mem_cons_self
  have hne : b ≠ a := by
    have hnodup := hl.nodup p
    rw [hlist, List.nodup_append] at hnodup
    exact hnodup.2.2 b hb a List.mem_cons_self
  rw [hbc] at hflags htype ⊢
  have hbcow : (w₀.area b).flags.passedOn.cow = false := (congrArg MmFlags.cow hflags).trans hcow
  have hro : ∀ {k}, (w₀.area k).flags.noshare = false → (w₀.area k).flags.passedOn.cow = false →
      (w₀.area k).flags.readOnly = true := by
    intro k h1 h2
    rw [MmFlags.passedOn_cow, Bool.or_eq_false_iff] at h2
    simp [MmFlags.readOnly, h1, h2]
  have hshared := ht.together hbp hap (hro hbns hbcow) (hro hns hcow)
  have heq := (MmFlags.passedOn_inj hbcow hflags hshared).1
  exact ⟨ht.apart hbp hap hne (hro hbns hbcow) heq htype,
    (ht.apart hap hbp hne.symm (hro hns hcow) heq.symm htype.symm).symm⟩

structure Forked (w₀ : Mem) (p child : Nat) : Prop where
  lists : Lists w₀
  texts : TextsApart w₀ p
  living : w₀.living child = true
  ne : p ≠ child
  empty : w₀.mem child = []

theorem Forked.inheriting (hf : Forked w₀ p child) : Inheriting w₀ child [] w₀ where
  linked := hf.lists.toLinked
  frame := .refl
  mem _ := rfl
  next := Nat.le_refl _
  area _ := by simp
  heirs := by simp [hf.empty, passed]
  ordered _ := by simp [Ordered, hf.empty]
  new c hc := by simp [hf.empty] at hc

theorem Forked.split (hf : Forked w₀ p child) (hlist : w₀.mem p = done ++ a :: todo) :
    a ∈ w₀.mem p ∧ a ∉ done := by
  have hnodup := hf.lists.nodup p
  rw [hlist] at hnodup
  refine ⟨hlist ▸ List.mem_append_right _ List.mem_cons_self, fun ha => ?_⟩
  exact (List.nodup_append.mp hnodup).2.2 a ha a List.mem_cons_self rfl

theorem Inheriting.area_todo (h : Inheriting w₀ child done w) (hf : Forked w₀ p child)
    (hlist : w₀.mem p = done ++ a :: todo) : w.area a = w₀.area a := by
  obtain ⟨ha, hnot⟩ := hf.split hlist
  rw [h.area (hf.lists.fresh ha), if_neg hnot]

theorem Inheriting.skip (h : Inheriting w₀ child done w) (hns : (w₀.area a).flags.noshare = true) :
    Inheriting w₀ child (done ++ [a]) w := by
  have hmarked : (w₀.area a).marked = w₀.area a := by rw [MemArea.marked, if_pos hns]
  refine { h with area := fun {b} hb => ?_, heirs := ?_, ordered := fun hpair => ?_ }
  · rw [h.area hb]
    by_cases hba : b = a
    · simp [hba, hmarked]
    · simp [hba]
  · rw [passed_concat, hns, if_pos rfl, List.append_nil]
    exact h.heirs
  · exact h.ordered (List.pairwise_append.mp hpair).1

theorem markArea_frame : SameFrame w (markArea w m a) := ⟨rfl, rfl, fun _ => rfl, fun _ => rfl⟩

theorem withCopy_frame : SameFrame w (withCopy w m p a) := by
  have hframe : SameFrame w (withArea w m p (w.area a).start (w.area a).stop (w.area a).flags (w.area a).type) :=
    withArea_frame
  exact hframe.trans ⟨rfl, rfl, fun _ => rfl, fun _ => rfl⟩

theorem Inheriting.copy (h : Inheriting w₀ child done w) (hf : Forked w₀ p child)
    (hlist : w₀.mem p = done ++ a :: todo) (hns : (w₀.area a).flags.noshare = false) (m m' : Machine) :
    Inheriting w₀ child (done ++ [a]) (withCopy (markArea w m a) m' child a) := by
  obtain ⟨ha, hnot⟩ := hf.split hlist
  have hareaA := h.area_todo hf hlist
  have hfresh := hf.lists.fresh ha
  have haw : a ∈ w.mem p := by rwa [h.mem hf.ne]
  have hv : Linked (markArea w m a) := h.linked.markArea
  have hva : (markArea w m a).area a = { w₀.area a with flags := (w₀.area a).flags.passedOn } := by
    rw [markArea_area, if_pos rfl, hareaA]
  have hvold : ∀ {b}, b ≠ a → (markArea w m a).area b = w.area b := by
    intro b hb
    rw [markArea_area, if_neg hb]
  have hliving : w.living child = true := by
    rw [Mem.living, h.frame.nextPid]
    exact hf.living
  have hmem : (withCopy (markArea w m a) m' child a).mem child =
      insertSorted (markArea w m a) (w₀.area a).stop w.nextArea (w.mem child) := by
    rw [hv.withCopy_sorted, hva]
    rfl
  have hnew : (withCopy (markArea w m a) m' child a).area w.nextArea = (w₀.area a).copyFor child := by
    refine (withCopy_self (w := markArea w m a)).trans ?_
    rw [hva]
    rfl
  have hold : ∀ {b}, b ≠ w.nextArea → b ≠ a → (withCopy (markArea w m a) m' child a).area b = w.area b :=
    fun hb hba => (withCopy_area (w := markArea w m a) hb).trans (hvold hba)
  have hheir : ∀ {c}, c ∈ w.mem child → (withCopy (markArea w m a) m' child a).area c = w.area c := fun hc =>
    hold (h.linked.mem_ne hc) fun hca => Nat.not_lt_of_le (h.new _ hc) (hca ▸ hfresh)
  refine ⟨?_, h.frame.trans (markArea_frame.trans withCopy_frame), fun hq => ?_, ?_, fun {b} hb => ?_, ?_,
    fun hpair => ?_, fun c hc => ?_⟩
  · exact hv.withCopy haw hliving (by rw [hva]; exact MmFlags.passedOn_write _)
  · exact (withCopy_other hq).trans (h.mem hq)
  · exact h.next.trans (Nat.le_succ _)
  · have hbn : b ≠ w.nextArea := Nat.ne_of_lt (Nat.lt_of_lt_of_le hb h.next)
    by_cases hba : b = a
    · subst hba
      rw [if_pos (by simp), MemArea.marked, hns, if_neg Bool.false_ne_true]
      exact (withCopy_area (w := markArea w m b) hbn).trans hva
    · rw [hold hbn hba, h.area hb]
      simp [hba]
  · have hmap : (w.mem child).map (withCopy (markArea w m a) m' child a).area = (w.mem child).map w.area :=
      List.map_congr_left fun c hc => hheir hc
    rw [hmem, passed_concat, hns, if_neg Bool.false_ne_true]
    refine (insertSorted_perm.map _).trans ?_
    rw [List.map_cons, hnew, hmap, List.map_append]
    exact (h.heirs.cons _).trans (List.perm_append_singleton _ _).symm
  · -- all areas passed on before end at or below the start of this one
    obtain ⟨hdone, -, hbelow⟩ := List.pairwise_append.mp hpair
    have hsorted : insertSorted (withCopy (markArea w m a) m' child a) (w₀.area a).stop w.nextArea (w.mem child) =
        insertSorted (markArea w m a) (w₀.area a).stop w.nextArea (w.mem child) := by
      refine insertSorted_congr fun c hc => ?_
      have hca : c ≠ a := fun hca => Nat.not_lt_of_le (h.new c hc) (hca ▸ hfresh)
      rw [hheir hc, hvold hca]
    have hstop : ((withCopy (markArea w m a) m' child a).area w.nextArea).stop = (w₀.area a).stop := by
      rw [hnew]
      rfl
    rw [Ordered, hmem, ← hsorted, ← hstop]
    refine insertSorted_ordered ?_ (fun c hc => ?_) fun c hc _ => ?_
    · refine List.Pairwise.imp_of_mem (fun hb hc hle => ?_) (h.ordered hdone)
      rwa [hheir hb, hheir hc]
    · obtain ⟨b, hb, -, hbc⟩ := h.heir hc
      rw [hheir hc, hbc]
      exact (hf.lists.wf (hlist ▸ List.mem_append_left _ hb)).le
    · obtain ⟨b, hb, -, hbc⟩ := h.heir hc
      rw [hheir hc, hbc, hnew]
      exact hbelow b hb a (List.mem_singleton_self a)
  · rw [hmem, mem_insertSorted] at hc
    rcases hc with rfl | hc
    · exact h.next
    · exact h.new c hc

structure PassMachine (w : Mem) (p child : Nat) (a : MemArea) (m m' : Machine) : Prop where
  protect : (if a.flags.write ∨ a.flags.cow then writeProtect w.machine (w.pd p) a.start a.stop
    else .ok w.machine) = .ok m
  fill : (if a.flags.passedOn.populates then populate m (w.pd child) a.start a.stop false else .ok m) = .ok m'

theorem Inheriting.pass_eq (h : Inheriting w₀ child done w) (hf : Forked w₀ p child)
    (hlist : w₀.mem p = done ++ a :: todo) (hns : (w₀.area a).flags.noshare = false)
    (hpass : passOn child w a = .ok w') :
    ∃ m m', PassMachine w p child (w₀.area a) m m' ∧ w' = withCopy (markArea w m a) m' child a := by
  obtain ⟨ha, -⟩ := hf.split hlist
  have hareaA := h.area_todo hf hlist
  have hal := hf.lists.wf ha
  have hfresh := hf.lists.fresh ha
  rw [passOn, hareaA, hns, if_neg Bool.false_ne_true, shareArea_eq] at hpass
  obtain ⟨v, hmark, hpass⟩ := bind_ok.mp hpass
  rw [markShared_eq, hareaA, hf.lists.owner ha] at hmark
  obtain ⟨m, hm, hv⟩ := bind_ok.mp hmark
  obtain rfl : markArea w m a = v := by
    rw [markArea, hareaA]
    exact Except.ok.inj hv
  obtain ⟨⟨n, u⟩, hnew, hpass⟩ := bind_ok.mp hpass
  have hva : (markArea w m a).area a = { w₀.area a with flags := (w₀.area a).flags.passedOn } := by
    rw [markArea_area, if_pos rfl, hareaA]
  rw [hva] at hnew
  have hv : Linked (markArea w m a) := h.linked.markArea
  have hchild : ∀ {c}, c ∈ w.mem child → (markArea w m a).area c = w.area c := by
    intro c hc
    have hca : c ≠ a := fun hca => Nat.not_lt_of_le (h.new c hc) (hca ▸ hfresh)
    rw [markArea_area, if_neg hca]
  have hleft : leftOf (markArea w m a) child (pageMask (w₀.area a).start) (w₀.area a).flags.passedOn
      (w₀.area a).type = none := by
    by_contra hsome
    obtain ⟨c, hc⟩ := Option.ne_none_iff_exists'.mp hsome
    obtain ⟨hcow, hcm, hcs, hcf, hct⟩ := leftOf_some hc
    rw [hchild hcm] at hcs hcf hct
    exact (h.differs hf.lists hf.texts hlist hns hcow hcm hcf hct).1 (hcs.trans hal.start)
  have hright : rightOf (markArea w m a) child (pageMask (w₀.area a).start) (areaStop (w₀.area a).stop)
      (w₀.area a).flags.passedOn (w₀.area a).type = none := by
    by_contra hsome
    obtain ⟨c, hc⟩ := Option.ne_none_iff_exists'.mp hsome
    obtain ⟨hcow, hcm, hcs, -, hcf, hct⟩ := rightOf_some hc
    rw [hchild hcm] at hcs hcf hct
    exact (h.differs hf.lists hf.texts hlist hns hcow hcm hcf hct).2 (hcs.trans (areaStop_eq hal.stop))
  obtain ⟨hframe, hfill⟩ := newArea_frame hnew
  obtain ⟨rfl, m', rfl⟩ := hv.newArea_alone hnew hleft hright
  rw [hal.start, areaStop_eq hal.stop] at hpass hfill
  refine ⟨m, m', ⟨hm, ?_⟩, ?_⟩
  · rw [MmFlags.passedOn_write] at hfill
    exact hfill
  · obtain rfl := Except.ok.inj hpass
    rw [withCopy, hva]

theorem Inheriting.pass (h : Inheriting w₀ child done w) (hf : Forked w₀ p child)
    (hlist : w₀.mem p = done ++ a :: todo) (hpass : passOn child w a = .ok w') :
    Inheriting w₀ child (done ++ [a]) w' := by
  cases hns : (w₀.area a).flags.noshare with
  | true =>
    rw [passOn, h.area_todo hf hlist, hns, if_pos rfl] at hpass
    obtain rfl := Except.ok.inj hpass
    exact h.skip hns
  | false =>
    obtain ⟨m, m', -, rfl⟩ := h.pass_eq hf hlist hns hpass
    exact h.copy hf hlist hns m m'

theorem Inheriting.loop (h : Inheriting w₀ child done w) (hf : Forked w₀ p child)
    (hlist : w₀.mem p = done ++ todo) (hloop : todo.foldlM (passOn child) w = .ok w') :
    Inheriting w₀ child (w₀.mem p) w' := by
  induction todo generalizing w done with
  | nil =>
    obtain rfl := Except.ok.inj hloop
    rwa [hlist, List.append_nil]
  | cons a todo ih =>
    rw [List.foldlM_cons] at hloop
    obtain ⟨v, hpass, hloop⟩ := bind_ok.mp hloop
    exact ih (h.pass hf hlist hpass) (by rw [hlist, List.append_assoc]; rfl) hloop

-- ---------------------------------------------------------------------------
-- The lists after the fork
-- ---------------------------------------------------------------------------

theorem MemArea.Aligned.congr {u v : MemArea} (h : u.Aligned) (h1 : v.start = u.start) (h2 : v.stop = u.stop) :
    v.Aligned := .of_range h1 h2 h.start h.stop h.le h.lt

theorem MemArea.marked_range (v : MemArea) : v.marked.start = v.start ∧ v.marked.stop = v.stop := ⟨rfl, rfl⟩

theorem Inheriting.range (h : Inheriting w₀ child done w) (hl : Lists w₀) (hq : q ≠ child) (hb : b ∈ w.mem q) :
    (w.area b).start = (w₀.area b).start ∧ (w.area b).stop = (w₀.area b).stop := by
  rw [h.area (hl.fresh (h.mem hq ▸ hb))]
  split
  · exact MemArea.marked_range _
  · exact ⟨rfl, rfl⟩

theorem Inheriting.lists (h : Inheriting w₀ child done w) (hf : Forked w₀ p child)
    (hdone : ∀ b ∈ done, b ∈ w₀.mem p) : Lists w := by
  refine ⟨h.linked, fun {q b} hb => ?_⟩
  by_cases hq : q = child
  · subst hq
    obtain ⟨c, hc, -, hbc⟩ := h.heir hb
    rw [hbc]
    exact (hf.lists.wf (hdone c hc)).congr rfl rfl
  · obtain ⟨h1, h2⟩ := h.range hf.lists hq hb
    exact (hf.lists.wf (h.mem hq ▸ hb)).congr h1 h2

theorem Inheriting.ordered_all (h : Inheriting w₀ child (w₀.mem p) w) (hf : Forked w₀ p child)
    (ho : ∀ q, Ordered w₀ q) (q : Nat) : Ordered w q := by
  by_cases hq : q = child
  · subst hq
    exact h.ordered (ho p)
  · exact (ho q).congr (h.mem hq) fun b hb => h.range hf.lists hq (h.mem hq ▸ hb)

theorem MmFlags.passedOn_shared (f : MmFlags) : f.passedOn.shared = true := by
  unfold MmFlags.passedOn
  split <;> rfl

theorem MmFlags.passedOn_readOnly {f : MmFlags} (h : f.passedOn.readOnly = true) : f.readOnly = true := by
  have hcow := MmFlags.readOnly_cow h
  rw [MmFlags.passedOn_cow, Bool.or_eq_false_iff] at hcow
  simp only [MmFlags.readOnly, Bool.and_eq_true, Bool.not_eq_true', MmFlags.passedOn_noshare] at h ⊢
  exact ⟨hcow, h.2⟩

theorem MemArea.marked_flags {v : MemArea} (h : v.marked.flags.readOnly = true) :
    v.marked.flags = v.flags.passedOn := by
  rw [MemArea.marked]
  split
  · next hns =>
    rw [MemArea.marked, hns, if_pos rfl] at h
    simp [MmFlags.readOnly, hns] at h
  · rfl

theorem TextsApart.passedOn (h : TextsApart w p) (ha : a ∈ w.mem p) (hb : b ∈ w.mem p) (hne : a ≠ b)
    (hro : (w.area a).flags.passedOn.readOnly = true)
    (hflags : (w.area a).flags.passedOn = (w.area b).flags.passedOn) (htype : (w.area a).type = (w.area b).type) :
    (w.area a).stop ≠ (w.area b).start := by
  have hra := MmFlags.passedOn_readOnly hro
  have hrb := MmFlags.passedOn_readOnly (hflags ▸ hro)
  have heq := (MmFlags.passedOn_inj (MmFlags.readOnly_cow hro) hflags (h.together ha hb hra hrb)).1
  exact h.apart ha hb hne hra heq htype

theorem Inheriting.texts_parent (h : Inheriting w₀ child (w₀.mem p) w) (hf : Forked w₀ p child) :
    TextsApart w p := by
  have harea : ∀ {b}, b ∈ w.mem p → b ∈ w₀.mem p ∧ w.area b = (w₀.area b).marked := by
    intro b hb
    rw [h.mem hf.ne] at hb
    exact ⟨hb, by rw [h.area (hf.lists.fresh hb), if_pos hb]⟩
  constructor
  · intro a b ha hb hra hrb
    rw [(harea ha).2] at hra ⊢
    rw [(harea hb).2] at hrb ⊢
    rw [MemArea.marked_flags hra, MemArea.marked_flags hrb, MmFlags.passedOn_shared, MmFlags.passedOn_shared]
  · intro a b ha hb hne hra hflags htype
    obtain ⟨ha, hae⟩ := harea ha
    obtain ⟨hb, hbe⟩ := harea hb
    rw [hae] at hra hflags htype ⊢
    rw [hbe] at hflags htype ⊢
    have hrb := hflags ▸ hra
    rw [MemArea.marked_flags hra, MemArea.marked_flags hrb] at hflags
    rw [MemArea.marked_flags hra] at hra
    exact hf.texts.passedOn ha hb hne hra hflags htype

theorem Inheriting.texts_child (h : Inheriting w₀ child (w₀.mem p) w) (hf : Forked w₀ p child) :
    TextsApart w child := by
  let differ : MemArea → MemArea → Prop := fun u v =>
    u.flags.readOnly = true → u.flags = v.flags → u.type = v.type → u.stop ≠ v.start
  have hparent : (w₀.mem p).Pairwise fun a b => differ ((w₀.area a).copyFor child) ((w₀.area b).copyFor child) ∧
      differ ((w₀.area b).copyFor child) ((w₀.area a).copyFor child) :=
    (hf.lists.nodup p).pairwise_of_forall_ne fun a ha b hb hne =>
      ⟨hf.texts.passedOn ha hb hne, hf.texts.passedOn hb ha hne.symm⟩
  have hall : ((w.mem child).map w.area).Pairwise fun u v => differ u v ∧ differ v u := by
    rw [h.heirs.pairwise_iff fun h => h.symm, List.pairwise_map]
    exact List.Pairwise.sublist List.filter_sublist hparent
  constructor
  · intro a b ha hb _ _
    obtain ⟨_, _, _, hae⟩ := h.heir ha
    obtain ⟨_, _, _, hbe⟩ := h.heir hb
    rw [hae, hbe]
    exact (MmFlags.passedOn_shared _).trans (MmFlags.passedOn_shared _).symm
  · intro a b ha hb hne
    let r : Nat → Nat → Prop := fun c d => differ (w.area c) (w.area d) ∧ differ (w.area d) (w.area c)
    have hsym : Std.Symm r := ⟨fun _ _ h => h.symm⟩
    have hpair : (w.mem child).Pairwise r := List.pairwise_map.mp hall
    exact (hpair.forall ha hb hne).1

theorem Inheriting.texts (h : Inheriting w₀ child (w₀.mem p) w) (hf : Forked w₀ p child)
    (ht : ∀ q, TextsApart w₀ q) (q : Nat) : TextsApart w q := by
  by_cases hqp : q = p
  · subst hqp
    exact h.texts_parent hf
  · by_cases hqc : q = child
    · subst hqc
      exact h.texts_child hf
    · refine (ht q).of_old fun b hb _ => ?_
      rw [h.mem hqc] at hb
      have hbp : b ∉ w₀.mem p := fun hbp => hqp ((hf.lists.owner hb).symm.trans (hf.lists.owner hbp))
      exact ⟨hb, by rw [h.area (hf.lists.fresh hb), if_neg hbp]⟩

-- ---------------------------------------------------------------------------
-- The whole fork
-- ---------------------------------------------------------------------------

theorem living_iff : w.living p = true ↔ 0 < p ∧ p < w.nextPid := by
  simp only [Mem.living, Bool.and_eq_true, decide_eq_true_eq]

theorem forkStart_lists (hl : Linked w) (q : Nat) : (forkStart w).mem q = w.mem q := by
  by_cases hq : q = w.nextPid
  · have hempty : w.mem w.nextPid = [] := by
      rw [List.eq_nil_iff_forall_not_mem]
      intro a ha
      exact Nat.lt_irrefl _ (living_iff.mp (hl.living ha)).2
    subst hq
    rw [hempty]
    simp [forkStart, allocProcess, Mem.mem, Mem.setProc]
  · simp [forkStart, allocProcess, Mem.mem, Mem.setProc, hq]

theorem forkStart_living (hp : w.living p = true) : (forkStart w).living p = true := by
  rw [living_iff] at hp ⊢
  exact ⟨hp.1, hp.2.trans (Nat.lt_succ_self _)⟩

theorem Lists.forked (hl : Lists w) (ht : TextsApart w w.current)
    (hcur : w.living w.current = true) : Forked (forkStart w) w.current w.nextPid where
  lists := ⟨hl.toLinked.congr (forkStart_lists hl.toLinked) rfl rfl rfl fun _ => forkStart_living,
    fun ha => hl.wf (forkStart_lists hl.toLinked _ ▸ ha)⟩
  texts := ht.of_old fun a ha _ => ⟨forkStart_lists hl.toLinked _ ▸ ha, rfl⟩
  living := living_iff.mpr ⟨by have := (living_iff.mp hcur); omega, Nat.lt_succ_self _⟩
  ne := Nat.ne_of_lt (living_iff.mp hcur).2
  empty := by
    rw [forkStart_lists hl.toLinked, List.eq_nil_iff_forall_not_mem]
    intro a ha
    exact Nat.lt_irrefl _ (living_iff.mp (hl.living ha)).2

theorem forkProcess_inherits (hl : Lists w) (ht : TextsApart w w.current) (hcur : w.living w.current = true) (h : forkProcess w = .ok (child, w')) : child = w.nextPid ∧
    ∃ w1 m pd, (w.mem w.current).foldlM (passOn w.nextPid) (forkStart w) = .ok w1 ∧
      vmmClonePd w1.machine = .ok (pd, m) ∧ Inheriting (forkStart w) w.nextPid ((forkStart w).mem w.current) w1 ∧
      w' = ({ w1 with machine := m } : Mem).setProc w.nextPid { w1.proc w.nextPid with pd := pd } := by
  rw [forkProcess_eq, forkStart_lists hl.toLinked] at h
  obtain ⟨w1, hloop, h⟩ := bind_ok.mp h
  obtain ⟨⟨pd, m⟩, hclone, h⟩ := bind_ok.mp h
  obtain ⟨rfl, rfl⟩ := Prod.mk.inj (Except.ok.inj h)
  have hf := hl.forked ht hcur
  exact ⟨rfl, w1, m, pd, hloop, hclone, hf.inheriting.loop hf (forkStart_lists hl.toLinked _) hloop, rfl⟩

theorem forkProcess_child (h : forkProcess w = .ok (child, w')) : child = w.nextPid := by
  rw [forkProcess_eq] at h
  obtain ⟨w1, -, h⟩ := bind_ok.mp h
  obtain ⟨r, -, h⟩ := bind_ok.mp h
  exact (Prod.mk.inj (Except.ok.inj h)).1.symm

structure SameForked (w w' : Mem) : Prop where
  nextPid : w'.nextPid = w.nextPid + 1
  current : w'.current = w.current
  mem : ∀ {q}, q ≠ w.current → q ≠ w.nextPid → w'.mem q = w.mem q
  area : ∀ {q b}, q ≠ w.current → b ∈ w.mem q → w'.area b = w.area b

theorem setPd_lists {f : Frame} (q : Nat) :
    (({ w with machine := m } : Mem).setProc p { w.proc p with pd := f }).mem q = w.mem q := by
  by_cases hq : q = p
  · subst hq
    simp [Mem.mem, Mem.setProc]
  · simp [Mem.mem, Mem.setProc, hq]

end

end Os5
