import Os5.Mem.Insertion

/-!
# Room for an area

`new_area` keeps the list of a process in order where it finds room: the range does
not run backwards, and no area starts inside it. The scan of `new_area` sees to
that only as far as areas cover addresses, and for ranges that do not run backwards.
-/

namespace Os5

open Machine Circular Outcome

/-- With a neighbour on the left that can be joined, the range may also take some of it away. -/
def Room (w : Mem) (p start stop : Nat) (flags : MmFlags) (type : Nat) : Prop :=
  match leftOf w p start flags type with
  | some a => (w.area a).start ≤ stop ∧
      ∀ b ∈ w.mem p, [a, b].Sublist (w.mem p) → stop ≤ (w.area b).start
  | none => start ≤ stop ∧ ∀ b ∈ w.mem p, start < (w.area b).start → (w.area b).start ≤ stop →
      rightOf w p start stop flags type = some b

section
variable {w w' : Mem} {p q a b c n x start stop type : Nat} {flags : MmFlags} {l : List Nat}

-- ---------------------------------------------------------------------------
-- The scan
-- ---------------------------------------------------------------------------

theorem scan_free (h : scanHangs w p start stop = false) (hstart : pageMask start = start)
    (hx : pageMask x = x) (h1 : start ≤ x) (h2 : x ≤ stop) : ¬ At w p x b := by
  simp only [scanHangs, Bool.or_eq_false_iff, List.any_eq_false] at h
  have hmem : x ∈ pagesFrom start (stop + 1) := (mem_pagesFrom hstart).mpr ⟨h1, Nat.lt_succ_of_le h2, hx⟩
  have hnone : findIncluding w p x = none := by simpa using h.2 x hmem
  exact findIncluding_eq_none.mp hnone b

theorem scan_lt (h : scanHangs w p start stop = false) : stop < lastPage := by
  simp only [scanHangs, Bool.or_eq_false_iff, decide_eq_false_iff_not] at h
  exact Nat.lt_of_not_le h.1

theorem scan_left (h : scanHangs w p start stop = false) (hstart : pageMask start = start)
    (hle : start ≤ stop) (hb : b ∈ w.mem p) (hbs : (w.area b).start ≤ start) : (w.area b).stop ≤ start := by
  by_contra hgt
  exact scan_free h hstart hstart (Nat.le_refl _) hle
    ⟨hb, MemArea.covers_iff.mpr ⟨hbs, Nat.lt_of_not_le hgt⟩⟩

theorem scan_inside (h : scanHangs w p start stop = false) (hstart : pageMask start = start)
    (hb : b ∈ w.mem p) (hal : (w.area b).Aligned) (h1 : start ≤ (w.area b).start) (h2 : (w.area b).start ≤ stop) :
    (w.area b).stop = (w.area b).start := by
  refine Nat.le_antisymm ?_ hal.le
  by_contra hgt
  exact scan_free h hstart hal.start h1 h2 ⟨hb, MemArea.covers_iff.mpr ⟨Nat.le_refl _, Nat.lt_of_not_le hgt⟩⟩

-- ---------------------------------------------------------------------------
-- The order of a list
-- ---------------------------------------------------------------------------

theorem insertSorted_erase_other (hc : (w.area c).start ≤ stop) (hcn : c ≠ n) :
    (insertSorted w stop n l).erase c = insertSorted w stop n (l.erase c) := by
  induction l with
  | nil =>
    rw [insertSorted, List.erase_nil, List.erase_cons_tail (by simpa using hcn.symm)]
    rfl
  | cons a l ih =>
    by_cases hac : a = c
    · subst hac
      rw [insertSorted, if_neg (Nat.not_lt_of_le hc), List.erase_cons_head, List.erase_cons_head]
    · have htail : (a :: l).erase c = a :: l.erase c := List.erase_cons_tail (by simpa using hac)
      rw [htail, insertSorted, insertSorted]
      split
      · rw [List.erase_cons_tail (by simpa using hcn.symm), htail]
      · rw [List.erase_cons_tail (by simpa using hac), ih]

theorem insertSorted_ordered (hl : l.Pairwise fun a b => (w.area a).stop ≤ (w.area b).start)
    (hle : ∀ b ∈ l, (w.area b).start ≤ (w.area b).stop)
    (hn : ∀ b ∈ l, (w.area b).start ≤ (w.area n).stop → (w.area b).stop ≤ (w.area n).start) :
    (insertSorted w (w.area n).stop n l).Pairwise fun a b => (w.area a).stop ≤ (w.area b).start := by
  induction l with
  | nil => exact List.pairwise_singleton _ _
  | cons a l ih =>
    obtain ⟨ha, hl⟩ := List.pairwise_cons.mp hl
    unfold insertSorted
    split
    · next hlt =>
      refine List.pairwise_cons.mpr ⟨fun b hb => ?_, List.pairwise_cons.mpr ⟨ha, hl⟩⟩
      rcases List.mem_cons.mp hb with rfl | hb
      · exact Nat.le_of_lt hlt
      · exact (Nat.le_of_lt hlt).trans ((hle a List.mem_cons_self).trans (ha b hb))
    · next hlt =>
      refine List.pairwise_cons.mpr ⟨fun b hb => ?_, ih hl (fun b hb => hle b (List.mem_cons_of_mem _ hb))
        fun b hb => hn b (List.mem_cons_of_mem _ hb)⟩
      rcases mem_insertSorted.mp hb with rfl | hb
      · exact hn a List.mem_cons_self (Nat.le_of_not_lt hlt)
      · exact ha b hb

theorem insertSorted_perm : (insertSorted w stop n l).Perm (n :: l) := by
  induction l with
  | nil => exact .refl _
  | cons a l ih =>
    unfold insertSorted
    split
    · exact .refl _
    · exact (ih.cons a).trans (.swap n a l)

theorem Ordered.congr (h : Ordered w p) (hmem : w'.mem p = w.mem p)
    (harea : ∀ b ∈ w.mem p, (w'.area b).start = (w.area b).start ∧ (w'.area b).stop = (w.area b).stop) :
    Ordered w' p := by
  rw [Ordered, hmem]
  refine List.Pairwise.imp_of_mem (fun ha hb hle => ?_) h
  rw [(harea _ ha).2, (harea _ hb).1]
  exact hle

-- ---------------------------------------------------------------------------
-- The area that was entered
-- ---------------------------------------------------------------------------

theorem enteredAs_alone (h : leftOf w p start flags type = none) :
    enteredAs w p start flags type = w.nextArea := by
  rw [enteredAs, h, Option.getD_none]

theorem enteredAs_some (h : leftOf w p start flags type = some a) : enteredAs w p start flags type = a := by
  rw [enteredAs, h, Option.getD_some]

theorem Room.right_stop (hl : Lists w) (ho : Ordered w p) (hroom : Room w p start stop flags type)
    (hscan : scanHangs w p start stop = false) (hstart : pageMask start = start)
    (hright : rightOf w p start stop flags type = some c) : (w.area c).stop = stop := by
  obtain ⟨-, hc, hcs, hne, -⟩ := rightOf_some hright
  have hforward : start ≤ stop → (w.area c).stop = stop := fun hle =>
    (scan_inside hscan hstart hc (hl.wf hc) (hcs ▸ hle) (Nat.le_of_eq hcs)).trans hcs
  unfold Room at hroom
  split at hroom
  · next a hleft =>
    obtain ⟨-, ha, has, -⟩ := leftOf_some hleft
    rw [enteredAs_some hleft] at hne
    by_cases hle : start ≤ stop
    · exact hforward hle
    · have hac := (hl.wf hc).le
      rcases ho.apart ha hc hne.symm with h | h
      · omega
      · have := hroom.1
        omega
  · exact hforward hroom.1

theorem Entered.mem_iff (hl : Linked w) (h : Entered w p start stop flags type w') : b ∈ w'.mem p ↔
    (b ∈ w.mem p ∨ b = enteredAs w p start flags type) ∧ rightOf w p start stop flags type ≠ some b := by
  have hbase : b ∈ (leftOf w p start flags type).elim (insertSorted w stop w.nextArea (w.mem p))
      (fun _ => w.mem p) ↔ b ∈ w.mem p ∨ b = enteredAs w p start flags type := by
    cases hleft : leftOf w p start flags type with
    | none => rw [enteredAs_alone hleft, Option.elim_none, mem_insertSorted, or_comm]
    | some a =>
      rw [enteredAs_some hleft, Option.elim_some]
      exact ⟨.inl, fun hb => hb.elim id fun hba => hba ▸ (leftOf_some hleft).2.1⟩
  have hnodup : ((leftOf w p start flags type).elim (insertSorted w stop w.nextArea (w.mem p))
      (fun _ => w.mem p)).Nodup := by
    cases leftOf w p start flags type with
    | none => exact insertSorted_nodup (fun hn => hl.mem_ne hn rfl) (hl.nodup p)
    | some a => exact hl.nodup p
  rw [h.mem]
  cases hright : rightOf w p start stop flags type with
  | none =>
    rw [Option.elim_none, id, hbase]
    simp
  | some c =>
    rw [Option.elim_some, hnodup.mem_erase_iff, hbase]
    simp [and_comm, eq_comm]

theorem Entered.area_old (hl : Linked w) (h : Entered w p start stop flags type w') (hb : b ∈ w'.mem q)
    (hne : b ≠ enteredAs w p start flags type) : w'.area b = w.area b ∧ b ∈ w.mem q := by
  have hmem : b ∈ w.mem q := by
    by_cases hqp : q = p
    · subst hqp
      exact ((h.mem_iff hl).mp hb).1.resolve_right hne
    · rwa [h.memOther hqp] at hb
  exact ⟨h.area (hl.fresh hmem) hne, hmem⟩

theorem enteredAs_other (hl : Linked w) (hqp : q ≠ p) (hb : b ∈ w.mem q) :
    b ≠ enteredAs w p start flags type := by
  rintro rfl
  cases hleft : leftOf w p start flags type with
  | none => exact hl.mem_ne hb (enteredAs_alone hleft)
  | some a =>
    rw [enteredAs_some hleft] at hb
    exact hqp ((hl.owner hb).symm.trans (hl.owner (leftOf_some hleft).2.1))

theorem Entered.ordered_other (hl : Linked w) (h : Entered w p start stop flags type w') (hqp : q ≠ p)
    (ho : Ordered w q) : Ordered w' q := by
  refine ho.congr (h.memOther hqp) fun b hb => ?_
  rw [h.area (hl.fresh hb) (enteredAs_other hl hqp hb)]
  exact ⟨rfl, rfl⟩

theorem Entered.ordered_joined (hl : Lists w) (ho : Ordered w p) (h : Entered w p start stop flags type w')
    (hstop : (w'.area a).stop = stop) (hleft : leftOf w p start flags type = some a)
    (hroom : ∀ b ∈ w.mem p, [a, b].Sublist (w.mem p) → stop ≤ (w.area b).start) : Ordered w' p := by
  have hinto := enteredAs_some hleft
  have hstart : (w'.area a).start = (w.area a).start := by
    rw [← hinto, h.entered, hinto, hleft]
    rfl
  have hold : ∀ {b}, b ∈ w.mem p → b ≠ a → w'.area b = w.area b := fun hb hne =>
    h.area (hl.fresh hb) (hinto ▸ hne)
  have hall : (w.mem p).Pairwise fun b c => (w'.area b).stop ≤ (w'.area c).start := by
    refine List.pairwise_iff_forall_sublist.mpr fun {b c} hbc => ?_
    have hb : b ∈ w.mem p := hbc.subset List.mem_cons_self
    have hc : c ∈ w.mem p := hbc.subset (List.mem_cons_of_mem _ List.mem_cons_self)
    have hne : b ≠ c := by
      rintro rfl
      simpa using (hl.nodup p).sublist hbc
    have hle : (w.area b).stop ≤ (w.area c).start := List.pairwise_iff_forall_sublist.mp ho hbc
    by_cases hba : b = a
    · subst hba
      rw [hstop, hold hc hne.symm]
      exact hroom c hc hbc
    · rw [hold hb hba]
      by_cases hca : c = a
      · rwa [hca, hstart, ← hca]
      · rwa [hold hc hca]
  rw [Ordered, h.mem, hleft, Option.elim_some]
  cases rightOf w p start stop flags type with
  | none => exact hall
  | some c => exact hall.sublist List.erase_sublist

theorem Entered.ordered_alone (hl : Lists w) (ho : Ordered w p) (h : Entered w p start stop flags type w')
    (hscan : scanHangs w p start stop = false) (hstart : pageMask start = start)
    (hnew : (w'.area w.nextArea).start = start ∧ (w'.area w.nextArea).stop = stop)
    (hleft : leftOf w p start flags type = none) (hle : start ≤ stop)
    (hroom : ∀ b ∈ w.mem p, start < (w.area b).start → (w.area b).start ≤ stop →
      rightOf w p start stop flags type = some b) : Ordered w' p := by
  have hold : ∀ {b}, b ∈ w.mem p → w'.area b = w.area b := fun hb =>
    h.area (hl.fresh hb) (enteredAs_alone hleft ▸ hl.mem_ne hb)
  -- The list without the area on the right, into which the new one is put.
  have hinsert : ∀ l : List Nat, l.Sublist (w.mem p) → (∀ b ∈ l, rightOf w p start stop flags type ≠ some b) →
      (insertSorted w stop w.nextArea l).Pairwise fun a b => (w'.area a).stop ≤ (w'.area b).start := by
    intro l hsub hnot
    have hsorted : insertSorted w' stop w.nextArea l = insertSorted w stop w.nextArea l :=
      insertSorted_congr fun b hb => congrArg MemArea.start (hold (hsub.subset hb))
    rw [← hsorted, ← hnew.2]
    refine insertSorted_ordered ?_ (fun b hb => ?_) fun b hb hbs => ?_
    · refine List.Pairwise.imp_of_mem (fun ha hb hab => ?_) (List.Pairwise.sublist hsub ho)
      rwa [hold (hsub.subset ha), hold (hsub.subset hb)]
    · rw [hold (hsub.subset hb)]
      exact (hl.wf (hsub.subset hb)).le
    · rw [hold (hsub.subset hb), hnew.2] at hbs
      rw [hold (hsub.subset hb), hnew.1]
      refine scan_left hscan hstart hle (hsub.subset hb) (Nat.le_of_not_lt fun hgt => ?_)
      exact hnot b hb (hroom b (hsub.subset hb) hgt hbs)
  rw [Ordered, h.mem, hleft, Option.elim_none]
  cases hright : rightOf w p start stop flags type with
  | none => exact hinsert (w.mem p) (List.Sublist.refl _) fun b _ hb => by rw [hright] at hb; cases hb
  | some c =>
    obtain ⟨-, hc, hcs, hne, -⟩ := rightOf_some hright
    rw [Option.elim_some, insertSorted_erase_other (Nat.le_of_eq hcs) (enteredAs_alone hleft ▸ hne)]
    refine hinsert _ List.erase_sublist fun b hb hbc => ?_
    obtain rfl := Option.some.inj (hright.symm.trans hbc)
    exact ((hl.nodup p).mem_erase_iff.mp hb).1 rfl

theorem Entered.range (h : Entered w p start stop flags type w')
    (hright : ∀ c, rightOf w p start stop flags type = some c → (w.area c).stop = stop) :
    (w'.area (enteredAs w p start flags type)).start =
      (leftOf w p start flags type).elim start (fun a => (w.area a).start) ∧
    (w'.area (enteredAs w p start flags type)).stop = stop := by
  rw [h.entered]
  refine ⟨rfl, ?_⟩
  cases hc : rightOf w p start stop flags type with
  | none => rfl
  | some c => exact hright c hc

theorem Entered.ordered (hl : Lists w) (ho : Ordered w p) (h : Entered w p start stop flags type w')
    (hscan : scanHangs w p start stop = false) (hstart : pageMask start = start)
    (hroom : Room w p start stop flags type) : Ordered w' p := by
  have hrange := h.range fun c hc => hroom.right_stop hl ho hscan hstart hc
  unfold Room at hroom
  split at hroom
  · next a hleft =>
    rw [enteredAs_some hleft] at hrange
    exact h.ordered_joined hl ho hrange.2 hleft hroom.2
  · next hleft =>
    rw [enteredAs_alone hleft, hleft] at hrange
    exact h.ordered_alone hl ho hscan hstart hrange hleft hroom.1 hroom.2

theorem MemArea.Aligned.of_range {v : MemArea} (h1 : v.start = start) (h2 : v.stop = stop)
    (hstart : pageMask start = start) (hstop : pageMask stop = stop) (hle : start ≤ stop) (hlt : stop < 2 ^ 32) :
    v.Aligned := by
  subst h1 h2
  exact ⟨hstart, hstop, hle, hlt⟩

theorem Entered.aligned (hl : Lists w) (h : Entered w p start stop flags type w')
    (hnew : (w'.area (enteredAs w p start flags type)).Aligned) (hb : b ∈ w'.mem q) : (w'.area b).Aligned := by
  by_cases hne : b = enteredAs w p start flags type
  · rwa [hne]
  · obtain ⟨harea, hmem⟩ := h.area_old hl.toLinked hb hne
    rw [harea]
    exact hl.wf hmem

theorem Entered.lists (hl : Lists w) (hl' : Linked w') (ho : Ordered w p)
    (h : Entered w p start stop flags type w') (hscan : scanHangs w p start stop = false)
    (hstart : pageMask start = start) (hstop : pageMask stop = stop) (hroom : Room w p start stop flags type) :
    Lists w' := by
  have hrange := h.range fun c hc => hroom.right_stop hl ho hscan hstart hc
  have hlt : stop < 2 ^ 32 := by
    have := scan_lt hscan
    unfold lastPage at this
    omega
  refine ⟨hl', fun hb => h.aligned hl ?_ hb⟩
  unfold Room at hroom
  split at hroom
  · next a hleft =>
    rw [hleft] at hrange
    exact .of_range hrange.1 hrange.2 (hl.wf (leftOf_some hleft).2.1).start hstop hroom.1 hlt
  · next hleft =>
    rw [hleft] at hrange
    exact .of_range hrange.1 hrange.2 hstart hstop hroom.1 hlt

end

end Os5
