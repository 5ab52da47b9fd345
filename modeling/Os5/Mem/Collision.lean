import Os5.Mem.Mapped
import Os5.Mem.StackFaults

/-!
# Collisions

The loop of `new_area` that looks for a collision, turn after turn, and what the call does
to the map of a process when the loop gets through.
-/

namespace Os5

open Machine Circular Outcome

/-- The loop of `new_area`, for a number of turns: the area it meets, or none when it has
got through. -/
def scanAreas (w : Mem) (p stop : Nat) : Nat → Nat → Option (Option Nat)
  | 0, _ => none
  | n + 1, i =>
    if i ≤ stop then
      match findIncluding w p i with
      | some a => some (some a)
      | none => scanAreas w p stop n (wrap (i + pageSize))
    else some none

def EntersBranch (w : Mem) (p start stop : Nat) : Prop := ∃ n a, scanAreas w p stop n start = some (some a)

def GetsThrough (w : Mem) (p start stop : Nat) : Prop := ∃ n, scanAreas w p stop n start = some none

def Overlaps (w : Mem) (p start stop : Nat) : Prop := ∃ x a, (start ≤ x ∧ x < stop) ∧ At w p x a

def mapping (w : Mem) (p x : Nat) : Option (MmFlags × Nat) :=
  (findIncluding w p x).map fun a => ((w.area a).flags, (w.area a).type)

/-- `list_empty(a->copies)` -/
def Alone (w : Mem) (a : Nat) : Prop := Circular.isEmpty w.copies a = true

/-- An area that may be joined to a range: its border there is the one of the range. -/
structure Joinable (w : Mem) (a border edge : Nat) (flags : MmFlags) (type : Nat) : Prop where
  touches : border = edge
  flags : (w.area a).flags = flags
  type : (w.area a).type = type
  alone : Alone w a

/-- From `w` to `w'` the map of the process was extended by the range. An area that was
there before and is returned was joined on the left, one that is gone on the right. -/
structure Extends (w : Mem) (p start stop : Nat) (flags : MmFlags) (type r : Nat) (w' : Mem) : Prop where
  map : ∀ x, mapping w' p x = if start ≤ x ∧ x < stop then some (flags, type) else mapping w p x
  ordered : Ordered w' p
  left : r ∈ w.mem p → Joinable w r (w.area r).stop start flags type
  right : ∀ b ∈ w.mem p, b ∉ w'.mem p → Joinable w b (w.area b).start stop flags type
  kept : ∀ b ∈ w.mem p, b ∈ w'.mem p → b ≠ r → w'.area b = w.area b

def AreaLaw (w : Mem) (p start stop : Nat) (flags : MmFlags) (type : Nat) : Prop :=
  (EntersBranch w p (pageMask start) (areaStop stop) ↔ Overlaps w p (pageMask start) (areaStop stop)) ∧
  (¬Overlaps w p (pageMask start) (areaStop stop) →
    GetsThrough w p (pageMask start) (areaStop stop) ∧
    ∃ r w', newArea w p start stop flags type = .ok (r, w') ∧
      Extends w p (pageMask start) (areaStop stop) flags type r w')

/-- No area lies where the range ends, no empty one inside the range, and what can be joined
to it has no copies. -/
structure Free (w : Mem) (p start stop : Nat) (flags : MmFlags) (type : Nat) : Prop where
  below : stop < lastPage
  behind : ∀ a, ¬At w p stop a
  room : Room w p start stop flags type
  left : ∀ a, leftOf w p start flags type = some a → Alone w a
  right : ∀ c, rightOf w p start stop flags type = some c → Alone w c

section
variable {w w' : Mem} {p q a b c n i x r start stop type : Nat} {flags : MmFlags}

-- ---------------------------------------------------------------------------
-- The loop
-- ---------------------------------------------------------------------------

theorem pageMask_next (h : pageMask i = i) : pageMask (i + pageSize) = i + pageSize := by
  unfold pageMask at *
  rw [Nat.add_div_right _ (by decide), Nat.succ_mul, h]

theorem scanAreas_past (h : ¬i ≤ stop) : scanAreas w p stop (n + 1) i = some none := by
  rw [scanAreas, if_neg h]

theorem scanAreas_met (h : i ≤ stop) (hfind : findIncluding w p i = some a) :
    scanAreas w p stop (n + 1) i = some (some a) := by
  rw [scanAreas, if_pos h, hfind]

theorem scanAreas_next (h : i ≤ stop) (hfind : findIncluding w p i = none) :
    scanAreas w p stop (n + 1) i = scanAreas w p stop n (wrap (i + pageSize)) := by
  rw [scanAreas, if_pos h, hfind]

theorem entersBranch_of {k : Nat} (hstop : stop < 2 ^ 32) (hle : i + k * pageSize ≤ stop)
    (hat : At w p (i + k * pageSize) a) : EntersBranch w p i stop := by
  induction k generalizing i with
  | zero =>
    rw [Nat.zero_mul, Nat.add_zero] at hle hat
    cases hfind : findIncluding w p i with
    | none => exact absurd hat (findIncluding_eq_none.mp hfind a)
    | some b => exact ⟨0 + 1, b, scanAreas_met hle hfind⟩
  | succ k ih =>
    have hnext : i + pageSize + k * pageSize = i + (k + 1) * pageSize := by
      rw [Nat.succ_mul]
      omega
    have hturn : i ≤ stop := le_trans (Nat.le_add_right _ _) hle
    have hwrap : wrap (i + pageSize) = i + pageSize := Nat.mod_eq_of_lt (by omega)
    rw [← hnext] at hle hat
    cases hfind : findIncluding w p i with
    | some b => exact ⟨0 + 1, b, scanAreas_met hturn hfind⟩
    | none =>
      obtain ⟨n, b, hn⟩ := ih hle hat
      exact ⟨n + 1, b, by rw [scanAreas_next hturn hfind, hwrap]; exact hn⟩

theorem getsThrough_of {k : Nat} (hstop : stop < lastPage) (hi : pageMask i = i) (hle : i ≤ stop + pageSize)
    (hk : stop < i + k * pageSize) (hfree : ∀ x, pageMask x = x → i ≤ x → x ≤ stop → ∀ a, ¬At w p x a) :
    GetsThrough w p i stop := by
  induction k generalizing i with
  | zero => exact ⟨0 + 1, scanAreas_past (by omega)⟩
  | succ k ih =>
    by_cases hturn : i ≤ stop
    · have hwrap : wrap (i + pageSize) = i + pageSize := by
        refine Nat.mod_eq_of_lt ?_
        unfold lastPage at hstop
        unfold pageSize
        omega
      have hk' : stop < i + pageSize + k * pageSize := by
        rw [Nat.succ_mul] at hk
        omega
      obtain ⟨n, hn⟩ := ih (pageMask_next hi) (Nat.add_le_add_right hturn _) hk' fun x hx h1 h2 =>
        hfree x hx (le_trans (Nat.le_add_right _ _) h1) h2
      have hfind : findIncluding w p i = none := findIncluding_eq_none.mpr (hfree i hi le_rfl hturn)
      exact ⟨n + 1, by rw [scanAreas_next hturn hfind, hwrap]; exact hn⟩
    · exact ⟨0 + 1, scanAreas_past hturn⟩

theorem scanAreas_mono {v : Option Nat} (m : Nat) (h : scanAreas w p stop n i = some v) :
    scanAreas w p stop (n + m) i = some v := by
  induction n generalizing i with
  | zero => cases h
  | succ n ih =>
    rw [Nat.succ_add]
    by_cases hturn : i ≤ stop
    · cases hfind : findIncluding w p i with
      | some a => rwa [scanAreas_met hturn hfind] at h ⊢
      | none =>
        rw [scanAreas_next hturn hfind] at h ⊢
        exact ih h
    · rwa [scanAreas_past hturn] at h ⊢

theorem GetsThrough.not_entersBranch (h : GetsThrough w p start stop) : ¬EntersBranch w p start stop := by
  obtain ⟨n, hn⟩ := h
  rintro ⟨m, a, hm⟩
  have h1 := scanAreas_mono m hn
  have h2 := scanAreas_mono n hm
  rw [Nat.add_comm, h1] at h2
  cases h2

theorem not_getsThrough (hstop : lastPage ≤ stop) (hi : pageMask i = i) (hlt : i < 2 ^ 32) :
    ¬GetsThrough w p i stop := by
  rintro ⟨n, hn⟩
  induction n generalizing i with
  | zero => cases hn
  | succ n ih =>
    have hturn : i ≤ stop := by
      unfold pageMask at hi
      unfold lastPage at hstop
      omega
    have hpage : pageMask (wrap (i + pageSize)) = wrap (i + pageSize) := by
      have hflag := pageFlag_of_mask (pageMask_next hi)
      refine pageMask_of_flag ?_
      unfold pageFlagMask at *
      unfold wrap
      omega
    cases hfind : findIncluding w p i with
    | some a =>
      rw [scanAreas_met hturn hfind] at hn
      cases hn
    | none =>
      rw [scanAreas_next hturn hfind] at hn
      exact ih hpage (Nat.mod_lt _ (by decide)) hn

theorem scanHangs_iff (hstart : pageMask start = start) (hle : start ≤ stop) (hstop : stop < 2 ^ 32) :
    scanHangs w p start stop = false ↔ GetsThrough w p start stop := by
  constructor
  · intro h
    have hlast := scan_lt h
    refine @getsThrough_of w p start stop (stop / pageSize + 1) hlast hstart (by omega) ?_ fun x hx h1 h2 _ =>
      scan_free h hstart hx h1 h2
    unfold pageSize
    omega
  · intro h
    rw [scanHangs, Bool.or_eq_false_iff, decide_eq_false_iff_not, List.any_eq_false]
    refine ⟨fun hlast => not_getsThrough hlast hstart (lt_of_le_of_lt hle hstop) h, fun x hx hsome => ?_⟩
    obtain ⟨h1, h2, hpage⟩ := (mem_pagesFrom hstart).mp hx
    obtain ⟨a, ha⟩ := Option.isSome_iff_exists.mp hsome
    have hx : start + (x - start) / pageSize * pageSize = x := by
      unfold pageMask pageSize at *
      omega
    refine h.not_entersBranch (@entersBranch_of w p a start stop ((x - start) / pageSize) hstop ?_ ?_)
    · rw [hx]
      exact Nat.le_of_lt_succ h2
    · rw [hx]
      exact at_of_findIncluding ha

-- ---------------------------------------------------------------------------
-- The map
-- ---------------------------------------------------------------------------

theorem Ordered.at_unique (ho : Ordered w p) (ha : At w p x a) (hb : At w p x b) : a = b := by
  by_contra hne
  have h1 := MemArea.covers_iff.mp ha.2
  have h2 := MemArea.covers_iff.mp hb.2
  obtain h | h := ho.apart ha.1 hb.1 hne
  · exact absurd (h1.2.trans_le (h.trans h2.1)) (lt_irrefl _)
  · exact absurd (h2.2.trans_le (h.trans h1.1)) (lt_irrefl _)

theorem mapping_none : mapping w p x = none ↔ ∀ a, ¬At w p x a := by
  rw [mapping, Option.map_eq_none_iff, findIncluding_eq_none]

theorem mapping_at (ho : Ordered w p) (ha : At w p x a) :
    mapping w p x = some ((w.area a).flags, (w.area a).type) := by
  cases hfind : findIncluding w p x with
  | none => exact absurd ha (findIncluding_eq_none.mp hfind a)
  | some b =>
    obtain rfl := ho.at_unique ha (at_of_findIncluding hfind)
    rw [mapping, hfind, Option.map_some]

theorem Entered.at_back (hl : Lists w) (h : Entered w p start stop flags type w')
    (hscan : scanHangs w p start stop = false) (hstart : pageMask start = start) (hle : start ≤ stop)
    (hb : At w' p x b) : ((start ≤ x ∧ x < stop) ∧ (w'.area b).flags = flags) ∨
      ∃ a, At w p x a ∧ (w'.area b).flags = (w.area a).flags := by
  by_cases hinto : b = enteredAs w p start flags type
  · obtain ⟨hfirst, hlast⟩ := h.forward hl hscan hstart hle
    have hx := MemArea.covers_iff.mp hb.2
    have hflags : (w'.area b).flags = flags := by rw [hinto, h.entered]
    rw [hinto, hfirst, hlast] at hx
    by_cases hbefore : start ≤ x
    · exact .inl ⟨⟨hbefore, hx.2⟩, hflags⟩
    · cases hleft : leftOf w p start flags type with
      | none =>
        rw [hleft] at hx
        exact absurd hx.1 hbefore
      | some a =>
        rw [hleft] at hx
        obtain ⟨-, ha, has, hsame, -⟩ := leftOf_some hleft
        exact .inr ⟨a, ⟨ha, MemArea.covers_iff.mpr ⟨hx.1, has ▸ Nat.lt_of_not_le hbefore⟩⟩,
          hflags.trans hsame.symm⟩
  · obtain ⟨hsame, hmem⟩ := h.area_old hl.toLinked hb.1 hinto
    exact .inr ⟨b, ⟨hmem, hsame ▸ hb.2⟩, by rw [hsame]⟩

theorem Entered.mapping (hl : Lists w) (h : Entered w p start stop flags type w')
    (hscan : scanHangs w p start stop = false) (hstart : pageMask start = start) (hle : start ≤ stop)
    (ho : Ordered w p) (ho' : Ordered w' p) :
    mapping w' p x = if start ≤ x ∧ x < stop then some (flags, type) else mapping w p x := by
  split
  · next hx =>
    rw [mapping_at ho' (h.at_new hl hscan hstart hle hx), h.entered]
  · next hx =>
    by_cases hat : ∃ a, At w p x a
    · obtain ⟨a, ha⟩ := hat
      obtain ⟨b, hb, hflags, htype⟩ := h.at_kept hl hscan hstart hle ha
      rw [mapping_at ho' hb, mapping_at ho ha, hflags, htype]
    · rw [mapping_none.mpr fun a ha => hat ⟨a, ha⟩, mapping_none]
      intro b hb
      rcases h.at_back hl hscan hstart hle hb with ⟨hnew, -⟩ | ⟨a, ha, -⟩
      · exact hx hnew
      · exact hat ⟨a, ha⟩

-- ---------------------------------------------------------------------------
-- The order of the list
-- ---------------------------------------------------------------------------

theorem insertSorted_behind {l : List Nat} (hl : l.Pairwise fun a b => (w.area a).start ≤ (w.area b).start)
    (hb : b ∈ l) (hbs : (w.area b).start ≤ stop) : [b, n].Sublist (insertSorted w stop n l) := by
  induction l with
  | nil => cases hb
  | cons a l ih =>
    obtain ⟨ha, hl⟩ := List.pairwise_cons.mp hl
    have hfirst : (w.area a).start ≤ stop := by
      obtain rfl | hb := List.mem_cons.mp hb
      · exact hbs
      · exact (ha b hb).trans hbs
    rw [insertSorted, if_neg (Nat.not_lt_of_le hfirst)]
    obtain rfl | hb := List.mem_cons.mp hb
    · exact (List.singleton_sublist.mpr (mem_insertSorted.mpr (.inl rfl))).cons_cons b
    · exact (ih hl hb).cons a

theorem Lists.starts (hl : Lists w) (ho : Ordered w p) :
    (w.mem p).Pairwise fun a b => (w.area a).start ≤ (w.area b).start :=
  List.Pairwise.imp_of_mem (fun ha _ hle => (hl.wf ha).le.trans hle) ho

theorem Entered.room (hl : Lists w) (h : Entered w p start stop flags type w')
    (hscan : scanHangs w p start stop = false) (hstart : pageMask start = start) (hle : start ≤ stop)
    (ho : Ordered w p) (ho' : Ordered w' p) : Room w p start stop flags type := by
  obtain ⟨hfirst, hlast⟩ := h.forward hl hscan hstart hle
  have hmem := h.mem
  unfold Room
  split
  · next a hleft =>
    obtain ⟨-, ha, has, -⟩ := leftOf_some hleft
    rw [enteredAs_some hleft] at hlast
    refine ⟨(hl.wf ha).le.trans (has ▸ hle), fun b hb hab => ?_⟩
    have hne : b ≠ a := by
      rintro rfl
      simpa using (hl.nodup p).sublist hab
    by_cases hright : rightOf w p start stop flags type = some b
    · exact (rightOf_some hright).2.2.1.ge
    · have hpair : [a, b].Sublist (w'.mem p) := by
        rw [hmem, hleft, Option.elim_some]
        cases hc : rightOf w p start stop flags type with
        | none => exact hab
        | some c =>
          have hca : a ≠ c := by
            rintro rfl
            exact (rightOf_some hc).2.2.2.1 (enteredAs_some hleft).symm
          have hcb : b ≠ c := fun hbc => hright (hbc ▸ hc)
          have herase := hab.erase c
          rwa [List.erase_of_not_mem (by simp [hca.symm, hcb.symm])] at herase
      have hsame := h.area (hl.fresh hb) (enteredAs_some hleft ▸ hne)
      have hlt := List.pairwise_iff_forall_sublist.mp ho' hpair
      rwa [hlast, hsame] at hlt
  · next hleft =>
    rw [enteredAs_alone hleft, hleft] at hfirst
    rw [enteredAs_alone hleft] at hlast
    refine ⟨hle, fun b hb h1 h2 => ?_⟩
    by_contra hright
    have hnb : b ≠ w.nextArea := hl.toLinked.mem_ne hb
    have hpair : [b, w.nextArea].Sublist (w'.mem p) := by
      rw [hmem, hleft, Option.elim_none]
      have hinsert := @insertSorted_behind w b w.nextArea stop (w.mem p) (hl.starts ho) hb h2
      cases hc : rightOf w p start stop flags type with
      | none => exact hinsert
      | some c =>
        have hcn : w.nextArea ≠ c := (hl.toLinked.mem_ne (rightOf_some hc).2.1).symm
        have hcb : b ≠ c := fun hbc => hright (hbc ▸ hc)
        have herase := hinsert.erase c
        rwa [List.erase_of_not_mem (by simp [hcn.symm, hcb.symm])] at herase
    have hsame := h.area (hl.fresh hb) (enteredAs_alone hleft ▸ hnb)
    have hlt := List.pairwise_iff_forall_sublist.mp ho' hpair
    rw [hsame, hfirst] at hlt
    exact absurd (h1.trans_le ((hl.wf hb).le.trans hlt)) (lt_irrefl _)

-- ---------------------------------------------------------------------------
-- The call
-- ---------------------------------------------------------------------------

def FindsFrames (w : Mem) (p start stop : Nat) (flags : MmFlags) : Prop :=
  flags.populates = true → ∃ m, populate w.machine (w.pd p) start stop flags.write = .ok m

theorem newArea_comes_back (hscan : scanHangs w p (pageMask start) (areaStop stop) = false)
    (hframes : FindsFrames w p (pageMask start) (areaStop stop) flags) :
    ∃ r w', newArea w p start stop flags type = .ok (r, w') := by
  obtain ⟨m, hm⟩ : ∃ m, (if flags.populates then
      populate w.machine (w.pd p) (pageMask start) (areaStop stop) flags.write
    else .ok w.machine) = .ok m := by
    by_cases hpop : flags.populates = true
    · obtain ⟨m, hm⟩ := hframes hpop
      exact ⟨m, by rw [if_pos hpop, hm]⟩
    · exact ⟨w.machine, if_neg hpop⟩
  have hok : newArea w p start stop flags type =
      .ok (glueArea (withArea w m p (pageMask start) (areaStop stop) flags type) w.nextArea) := by
    rw [newArea_eq, if_neg (by rw [hscan]; exact Bool.false_ne_true), hm]
    rfl
  exact ⟨_, _, hok⟩

theorem areaStop_ge (hstop : stop ≤ lastPage) : stop ≤ areaStop stop ∧ areaStop stop ≤ lastPage := by
  unfold areaStop
  split
  · next hflag =>
    have hwrap : wrap (stop + pageSize) = stop + pageSize := by
      refine Nat.mod_eq_of_lt ?_
      unfold pageFlagMask at hflag
      unfold lastPage at hstop
      unfold pageSize
      omega
    rw [hwrap]
    unfold pageFlagMask at hflag
    unfold pageMask
    unfold lastPage at *
    unfold pageSize
    omega
  · next hflag =>
    rw [pageMask_of_flag (not_not.mp hflag)]
    exact ⟨le_rfl, hstop⟩

theorem Overlaps.entersBranch (hl : Lists w) (hstart : pageMask start = start)
    (hstop : pageMask stop = stop) (hlt : stop < 2 ^ 32) (h : Overlaps w p start stop) :
    EntersBranch w p start stop := by
  obtain ⟨x, a, ⟨h1, h2⟩, ha⟩ := h
  have hpage : start + (pageMask x - start) / pageSize * pageSize = pageMask x ∧ pageMask x ≤ stop := by
    unfold pageMask pageSize at *
    omega
  refine @entersBranch_of w p a start stop ((pageMask x - start) / pageSize) hlt (hpage.1.symm ▸ hpage.2) ?_
  rw [hpage.1]
  exact ⟨ha.1, ((hl.wf ha.1).covers_page (pageMask_pageMask x)).trans ha.2⟩

theorem Free.scan (h : Free w p start stop flags type) (hstart : pageMask start = start)
    (hle : start ≤ stop) (hno : ¬Overlaps w p start stop) : GetsThrough w p start stop := by
  refine @getsThrough_of w p start stop (stop / pageSize + 1) h.below hstart (by omega) ?_ ?_
  · unfold pageSize
    omega
  · intro x hx h1 h2 a ha
    obtain rfl | hlt := Nat.eq_or_lt_of_le h2
    · exact h.behind a ha
    · exact hno ⟨x, a, ⟨h1, hlt⟩, ha⟩

theorem Free.extends (h : Free w p start stop flags type) (hl : Lists w) (ho : Ordered w p)
    (hscan : scanHangs w p start stop = false) (hstart : pageMask start = start) (hle : start ≤ stop)
    (he : Entered w p start stop flags type w') :
    Extends w p start stop flags type (enteredAs w p start flags type) w' := by
  have ho' := he.ordered hl ho hscan hstart h.room
  refine ⟨fun x => he.mapping hl hscan hstart hle ho ho', ho', fun hr => ?_, fun b hb hgone => ?_,
    fun b hb hb' hne => he.area (hl.fresh hb) hne⟩
  · cases hleft : leftOf w p start flags type with
    | none => exact absurd (enteredAs_alone hleft) (hl.toLinked.mem_ne hr)
    | some a =>
      rw [enteredAs_some hleft]
      obtain ⟨-, -, has, hflags, htype⟩ := leftOf_some hleft
      exact ⟨has, hflags, htype, h.left a hleft⟩
  · have hright : rightOf w p start stop flags type = some b := by
      by_contra hright
      exact hgone ((he.mem_iff hl.toLinked).mpr ⟨.inl hb, hright⟩)
    obtain ⟨-, -, hbs, -, hflags, htype⟩ := rightOf_some hright
    exact ⟨hbs, hflags, htype, h.right b hright⟩

theorem Extends.free (h : Extends w p start stop flags type (enteredAs w p start flags type) w')
    (hl : Lists w) (ho : Ordered w p) (hscan : scanHangs w p start stop = false)
    (hstart : pageMask start = start) (hstop : pageMask stop = stop) (hle : start ≤ stop)
    (he : Entered w p start stop flags type w') : Free w p start stop flags type where
  below := scan_lt hscan
  behind _ := scan_free hscan hstart hstop hle le_rfl
  room := he.room hl hscan hstart hle ho h.ordered
  left a hleft := by
    have hinto := enteredAs_some hleft
    have hleft := h.left (hinto ▸ (leftOf_some hleft).2.1)
    rw [hinto] at hleft
    exact hleft.alone
  right c hright := by
    refine (h.right c (rightOf_some hright).2.1 fun hc => ?_).alone
    exact ((he.mem_iff hl.toLinked).mp hc).2 hright

/-- `new_area` finds collisions and extends the map as it should if and only if the range
overlaps an area, or is free with the page behind it. -/
theorem newArea_law (hl : Lists w) (ho : Ordered w p) (hle : start ≤ stop) (hstop : stop ≤ lastPage)
    (hframes : ¬Overlaps w p (pageMask start) (areaStop stop) →
      FindsFrames w p (pageMask start) (areaStop stop) flags) :
    AreaLaw w p start stop flags type ↔ Overlaps w p (pageMask start) (areaStop stop) ∨
      Free w p (pageMask start) (areaStop stop) flags type := by
  have hfirst : pageMask (pageMask start) = pageMask start := pageMask_pageMask start
  have hrange : pageMask start ≤ areaStop stop := (pageMask_le start).trans (hle.trans (areaStop_ge hstop).1)
  have hlt : areaStop stop < 2 ^ 32 := lt_of_le_of_lt (areaStop_ge hstop).2 (by norm_num [lastPage])
  have hiff := @scanHangs_iff w p (pageMask start) (areaStop stop) hfirst hrange hlt
  by_cases hover : Overlaps w p (pageMask start) (areaStop stop)
  · have hbranch := hover.entersBranch hl hfirst pageMask_areaStop hlt
    exact iff_of_true ⟨iff_of_true hbranch hover, fun hno => absurd hover hno⟩ (.inl hover)
  · constructor
    · rintro ⟨-, hmap⟩
      obtain ⟨hthrough, r, w', hok, hext⟩ := hmap hover
      obtain ⟨rfl, he⟩ := hl.newArea_entered hok
      exact .inr (hext.free hl ho (hiff.mpr hthrough) hfirst pageMask_areaStop hrange he)
    · rintro (hyes | hfree)
      · exact absurd hyes hover
      · have hthrough := hfree.scan hfirst hrange hover
        have hscan := hiff.mpr hthrough
        obtain ⟨r, w', hok⟩ := @newArea_comes_back w p start stop type flags hscan (hframes hover)
        obtain ⟨rfl, he⟩ := hl.newArea_entered hok
        exact ⟨iff_of_false hthrough.not_entersBranch hover,
          fun _ => ⟨hthrough, _, w', hok, hfree.extends hl ho hscan hfirst hrange he⟩⟩

end

theorem codeAndStack_lists : Lists codeAndStack := by
  have hproc : ∀ {q a}, a ∈ codeAndStack.mem q → q = 1 ∧ (a = 0 ∨ a = 1 ∨ a = 2) := by
    intro q a ha
    by_cases hq : q = 1
    · subst hq
      exact ⟨rfl, codeAndStack_mem ha⟩
    · simp [Mem.mem, codeAndStack, hq] at ha
  have hring : ∀ a, Ring codeAndStack.copies a [] := fun a => ring_nil.mpr ⟨rfl, rfl⟩
  have hsame : ∀ {a b}, SameRing codeAndStack.copies a b → b = a := fun h =>
    List.mem_singleton.mp ((hring _).sameRing.mp h)
  refine ⟨⟨fun ha => ?_, fun ha => ?_, fun q => ?_, fun ha => ?_, fun a _ => ⟨[], hring a, by simp⟩,
    fun _ hs hcow => ?_, fun _ hs _ _ => hsame hs⟩, fun ha => ?_⟩
  · obtain ⟨rfl, rfl | rfl | rfl⟩ := hproc ha <;> rfl
  · obtain ⟨rfl, -⟩ := hproc ha
    rfl
  · by_cases hq : q = 1
    · subst hq
      decide
    · simp [Mem.mem, codeAndStack, hq]
  · obtain ⟨-, rfl | rfl | rfl⟩ := hproc ha <;> decide
  · obtain rfl := hsame hs
    exact ⟨hcow, rfl, rfl⟩
  · obtain ⟨rfl, rfl | rfl | rfl⟩ := hproc ha <;> constructor <;> decide

def lazyFlags : MmFlags := ⟨true, true, false, false, false, false, false, true⟩

theorem newArea_law_codeAndStack : AreaLaw codeAndStack 1 0x6000 0x7800 lazyFlags 1 := by
  have ho : Ordered codeAndStack 1 := codeAndStack_settled.ordered
  refine (newArea_law codeAndStack_lists ho (by decide) (by decide)
    fun _ hpop => absurd hpop (by decide)).mpr (.inr ?_)
  have hleft : leftOf codeAndStack 1 (pageMask 0x6000) lazyFlags 1 = none := by decide
  have hright : rightOf codeAndStack 1 (pageMask 0x6000) (areaStop 0x7800) lazyFlags 1 = none := by decide
  refine ⟨by decide, findIncluding_eq_none.mp (by decide), ?_, fun a ha => ?_, fun c hc => ?_⟩
  · unfold Room
    rw [hleft]
    exact ⟨by decide, by decide⟩
  · rw [hleft] at ha
    cases ha
  · rw [hright] at hc
    cases hc

/-- The page between the code and the data touches both of them. -/
theorem newArea_touching : Lists codeAndStack ∧ Ordered codeAndStack 1 ∧
    EntersBranch codeAndStack 1 (pageMask 0x2000) (areaStop 0x3000) ∧
    ¬Overlaps codeAndStack 1 (pageMask 0x2000) (areaStop 0x3000) := by
  refine ⟨codeAndStack_lists, codeAndStack_settled.ordered, ⟨2, 1, by decide⟩, ?_⟩
  rintro ⟨x, a, ⟨h1, h2⟩, ha⟩
  have hx : 0x2000 ≤ x ∧ x < 0x3000 := ⟨h1, h2⟩
  have hcovers := codeAndStack_covers ha
  omega

end Os5
