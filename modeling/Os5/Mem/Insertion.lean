import Os5.Mem.Fork
import Os5.Mem.NewArea

/-!
# Entering and joining areas

What `new_area` does to the lists and rings of areas. The order of a list survives
where there is room for the new area: no area that is left starts inside it.
-/

namespace Os5

open Machine Circular Outcome

section
variable {w w' : Mem} {p q a b c n start stop type : Nat} {flags : MmFlags} {m : Machine}

-- ---------------------------------------------------------------------------
-- The links
-- ---------------------------------------------------------------------------

theorem Linked.congr (hl : Linked w) (hmem : ∀ q, w'.mem q = w.mem q) (harea : w'.area = w.area)
    (hnext : w'.nextArea = w.nextArea) (hcopies : w'.copies = w.copies)
    (hliv : ∀ q, w.living q = true → w'.living q = true) : Linked w' := by
  have hlive : ∀ {a}, Live w' a ↔ Live w a := by
    intro a
    unfold Live
    rw [hmem, harea]
  refine ⟨fun ha => ?_, fun ha => hliv _ (hl.living (hmem _ ▸ ha)), fun q => ?_, fun ha => ?_, ?_, fun ha hs => ?_,
    fun ha hs => ?_⟩
  · rw [harea]
    exact hl.owner (hmem _ ▸ ha)
  · rw [hmem]
    exact hl.nodup q
  · rw [hnext]
    exact hl.fresh (hmem _ ▸ ha)
  · rw [hcopies]
    exact hl.rings.congr fun _ => hlive
  · rw [harea]
    exact hl.copies (hlive.mp ha) (hcopies ▸ hs)
  · rw [harea]
    exact hl.lone (hlive.mp ha) (hcopies ▸ hs)

theorem Linked.mem_freeArea (hl : Linked w) (ha : a ∈ w.mem p) :
    b ∈ (freeArea w a).mem q ↔ b ∈ w.mem q ∧ b ≠ a := by
  rw [freeArea_mem, hl.owner ha]
  split
  · next hq =>
    rw [(hl.nodup q).mem_erase_iff]
    tauto
  · next hq =>
    refine ⟨fun hb => ⟨hb, ?_⟩, fun hb => hb.1⟩
    rintro rfl
    exact hq ((hl.owner hb).symm.trans (hl.owner ha))

theorem Linked.freeArea (hl : Linked w) (ha : a ∈ w.mem p) : Linked (freeArea w a) := by
  have hlive : ∀ {b}, Live (Os5.freeArea w a) b ↔ Live w b ∧ b ≠ a := hl.mem_freeArea ha
  have hremove := hl.rings.remove (hl.live ha)
  have hsame : ∀ {b c}, Live w b → b ≠ a → SameRing (Os5.freeArea w a).copies b c → SameRing w.copies b c := by
    intro b c hb hne hs
    rcases (hremove.2.2 b c hb).mp hs with rfl | ⟨-, -, hs⟩
    · exact hl.rings.self hb
    · exact hs
  refine ⟨fun hb => hl.owner ((hl.mem_freeArea ha).mp hb).1, fun hb => hl.living ((hl.mem_freeArea ha).mp hb).1,
    fun q => ?_, fun hb => hl.fresh ((hl.mem_freeArea ha).mp hb).1, ?_, fun hb hs => ?_, fun hb hs => ?_⟩
  · rw [freeArea_mem]
    split
    · exact (hl.nodup q).erase a
    · exact hl.nodup q
  · exact (hremove.1.without hremove.2.1).congr fun b => hlive
  · obtain ⟨hb, hne⟩ := hlive.mp hb
    exact hl.copies hb (hsame hb hne hs)
  · obtain ⟨hb, hne⟩ := hlive.mp hb
    exact hl.lone hb (hsame hb hne hs)

theorem Linked.setStop {e : Nat} (hl : Linked w) (hcow : (w.area a).flags.cow = false) :
    Linked (w.setArea a { w.area a with stop := e }) := by
  have harea : ∀ b, (w.setArea a { w.area a with stop := e }).area b =
      { w.area b with stop := if b = a then e else (w.area b).stop } := by
    intro b
    rw [setArea_area]
    split
    · next h => rw [h]
    · rfl
  have hlive : ∀ {b}, Live (w.setArea a { w.area a with stop := e }) b ↔ Live w b := by
    intro b
    unfold Live
    rw [harea]
    rfl
  refine ⟨fun hb => ?_, hl.living, hl.nodup, hl.fresh, hl.rings.congr fun _ => hlive, fun hb hs hbcow => ?_,
    fun hb hs hw hbcow => ?_⟩
  · rw [harea]
    exact hl.owner hb
  · rw [harea] at hbcow
    have hb := hlive.mp hb
    obtain ⟨h1, h2, h3⟩ := hl.copies hb hs hbcow
    have hba : ∀ {c}, (w.area c).flags.cow = true → c ≠ a := by
      intro c hc hca
      rw [hca, hcow] at hc
      cases hc
    rw [harea, harea, if_neg (hba hbcow), if_neg (hba h1)]
    exact ⟨h1, h2, h3⟩
  · rw [harea] at hw hbcow
    exact hl.lone (hlive.mp hb) hs hw hbcow

theorem Linked.next_not_live (hl : Linked w) : ¬ Live w w.nextArea := fun h => Nat.lt_irrefl _ (hl.fresh h)

theorem Linked.mem_withArea (_ : Linked w) :
    b ∈ (withArea w m p start stop flags type).mem q ↔ b ∈ w.mem q ∨ q = p ∧ b = w.nextArea := by
  rw [withArea_mem]
  split
  · next hq =>
    subst hq
    rw [mem_insertSorted]
    tauto
  · next hq => tauto

theorem Linked.live_withArea (hl : Linked w) :
    Live (withArea w m p start stop flags type) b ↔ Live w b ∨ b = w.nextArea := by
  unfold Live
  rw [hl.mem_withArea]
  by_cases hb : b = w.nextArea
  · subst hb
    rw [withArea_area, if_pos rfl]
    simp
  · rw [withArea_area, if_neg hb]
    simp [hb]

theorem Linked.withArea (hl : Linked w) (hp : w.living p = true) :
    Linked (withArea w m p start stop flags type) := by
  have hold : ∀ {b q}, b ∈ w.mem q → (Os5.withArea w m p start stop flags type).area b = w.area b := by
    intro b q hb
    rw [withArea_area, if_neg (Nat.ne_of_lt (hl.fresh hb))]
  have hnew : (Os5.withArea w m p start stop flags type).area w.nextArea = ⟨start, stop, flags, type, p⟩ := by
    rw [withArea_area, if_pos rfl]
  have hlive : ∀ {b}, Live (Os5.withArea w m p start stop flags type) b ↔ Live w b ∨ b = w.nextArea :=
    hl.live_withArea
  obtain ⟨hR, hself, hsame⟩ := hl.rings.init hl.next_not_live
  refine ⟨fun hb => ?_, fun hb => ?_, fun q => ?_, fun hb => ?_, hR.congr fun _ => hlive, fun hb hs hcow => ?_,
    fun hb hs hw hcow => ?_⟩
  · rcases hl.mem_withArea.mp hb with hb | ⟨rfl, rfl⟩
    · rw [hold hb]
      exact hl.owner hb
    · rw [hnew]
  · rcases hl.mem_withArea.mp hb with hb | ⟨rfl, rfl⟩
    · exact hl.living hb
    · exact hp
  · rw [withArea_mem]
    split
    · exact insertSorted_nodup (fun hb => Nat.lt_irrefl _ (hl.fresh hb)) (hl.nodup p)
    · exact hl.nodup q
  · rcases hl.mem_withArea.mp hb with hb | ⟨rfl, rfl⟩
    · exact (hl.fresh hb).trans (Nat.lt_succ_self _)
    · exact Nat.lt_succ_self _
  · rename_i a b
    rcases hlive.mp hb with hb | rfl
    · have hs := (hsame _ _ hb).mp hs
      rw [hold hb] at hcow ⊢
      rw [hold (hl.rings.closed hb hs)]
      exact hl.copies hb hs hcow
    · obtain rfl := List.mem_singleton.mp (hself.sameRing.mp hs)
      exact ⟨hcow, rfl, rfl⟩
  · rename_i a b
    rcases hlive.mp hb with hb | rfl
    · rw [hold hb] at hw hcow
      exact hl.lone hb ((hsame _ _ hb).mp hs) hw hcow
    · exact List.mem_singleton.mp (hself.sameRing.mp hs)

theorem glues_ne (h : glues w a b = true) : a ≠ b ∧ (w.area a).flags = (w.area b).flags ∧
    (w.area a).type = (w.area b).type := by
  simpa [glues, and_assoc] using h

theorem Linked.glueLeft (hl : Linked w) (ha : a ∈ w.mem p) (hcow : (w.area a).flags.cow = false) :
    Linked (glueLeft w p a).2 ∧ (glueLeft w p a).1 ∈ (glueLeft w p a).2.mem p ∧
      ((glueLeft w p a).2.area (glueLeft w p a).1).flags.cow = false := by
  unfold Os5.glueLeft
  split
  · next c hc =>
    have hmem := List.mem_of_find?_eq_some hc
    have hglue := List.find?_some hc
    simp only [Bool.and_eq_true] at hglue
    obtain ⟨hne, hflags, -⟩ := glues_ne hglue.2
    have hset := hl.setStop (e := (w.area a).stop) (hflags ▸ hcow)
    refine ⟨hset.freeArea (p := p) ha, (hset.mem_freeArea (p := p) ha).mpr ⟨hmem, hne⟩, ?_⟩
    change ((w.setArea c _).area c).flags.cow = false
    rw [setArea_self]
    exact hflags ▸ hcow
  · exact ⟨hl, ha, hcow⟩

theorem Linked.glueRight (hl : Linked w) (hcow : (w.area a).flags.cow = false) :
    Linked (glueRight w p a).2 := by
  unfold Os5.glueRight
  split
  · next c hc => exact (hl.setStop hcow).freeArea (p := p) (List.mem_of_find?_eq_some hc)
  · exact hl

theorem Linked.glueArea (hl : Linked w) (ha : a ∈ w.mem p) : Linked (glueArea w a).2 := by
  rw [glueArea_eq, hl.owner ha]
  split
  · next h =>
    obtain ⟨h1, -, h3⟩ := hl.glueLeft ha h.2
    exact h1.glueRight h3
  · exact hl

theorem Linked.newArea (hl : Linked w) (hp : w.living p = true)
    (h : newArea w p start stop flags type = .ok (a, w')) : Linked w' := by
  obtain ⟨-, m, -, hglue⟩ := newArea_ok h
  have hw' := congrArg Prod.snd hglue
  rw [← show (Os5.glueArea _ _).2 = w' from hw']
  exact (hl.withArea hp).glueArea (p := p) (hl.mem_withArea.mpr (.inr ⟨rfl, rfl⟩))

end

-- ---------------------------------------------------------------------------
-- The new area
-- ---------------------------------------------------------------------------

/-- The area that `glue_area` joins a new one to, on its left. -/
def leftOf (w : Mem) (p start : Nat) (flags : MmFlags) (type : Nat) : Option Nat :=
  if flags.cow then none
  else (w.mem p).find? fun b =>
    (w.area b).stop = start && ((w.area b).flags = flags && (w.area b).type = type)

/-- The area that stands for the new one after `glue_area`. -/
def enteredAs (w : Mem) (p start : Nat) (flags : MmFlags) (type : Nat) : Nat :=
  (leftOf w p start flags type).getD w.nextArea

def rightOf (w : Mem) (p start stop : Nat) (flags : MmFlags) (type : Nat) : Option Nat :=
  if flags.cow then none
  else (w.mem p).find? fun b => (w.area b).start = stop &&
    (b ≠ enteredAs w p start flags type && ((w.area b).flags = flags && (w.area b).type = type))

/-- From `w` to `w'` process `p` got an area from `start` to `stop`, joined to its neighbours. -/
structure Entered (w : Mem) (p start stop : Nat) (flags : MmFlags) (type : Nat) (w' : Mem) : Prop where
  mem : w'.mem p = (rightOf w p start stop flags type).elim id (fun c l => l.erase c)
    ((leftOf w p start flags type).elim (insertSorted w stop w.nextArea (w.mem p)) fun _ => w.mem p)
  memOther : ∀ {q}, q ≠ p → w'.mem q = w.mem q
  nextArea : w'.nextArea = w.nextArea + 1
  area : ∀ {b}, b < w.nextArea → b ≠ enteredAs w p start flags type → w'.area b = w.area b
  entered : w'.area (enteredAs w p start flags type) =
    ⟨(leftOf w p start flags type).elim start fun a => (w.area a).start,
      (rightOf w p start stop flags type).elim stop fun c => (w.area c).stop, flags, type, p⟩

section
variable {w w' v : Mem} {p q a b c n start stop type : Nat} {flags : MmFlags} {m : Machine}
  {P : Nat → Bool} {l : List Nat}

theorem insertSorted_find (hn : P n = false) : (insertSorted w stop n l).find? P = l.find? P := by
  induction l with
  | nil => simp [insertSorted, hn]
  | cons a l ih =>
    unfold insertSorted
    split
    · rw [List.find?_cons, hn]
    · rw [List.find?_cons, List.find?_cons, ih]

theorem insertSorted_erase (hn : n ∉ l) : (insertSorted w stop n l).erase n = l := by
  induction l with
  | nil => simp [insertSorted]
  | cons a l ih =>
    obtain ⟨hna, hnl⟩ : n ≠ a ∧ n ∉ l := by simpa using hn
    unfold insertSorted
    split
    · simp
    · rw [List.erase_cons_tail (by simpa using Ne.symm hna), ih hnl]

theorem leftOf_some (h : leftOf w p start flags type = some a) : flags.cow = false ∧ a ∈ w.mem p ∧
    (w.area a).stop = start ∧ (w.area a).flags = flags ∧ (w.area a).type = type := by
  unfold leftOf at h
  split at h
  · cases h
  · next hcow => exact ⟨by simpa using hcow, List.mem_of_find?_eq_some h, by simpa using List.find?_some h⟩

theorem rightOf_some (h : rightOf w p start stop flags type = some c) : flags.cow = false ∧ c ∈ w.mem p ∧
    (w.area c).start = stop ∧ c ≠ enteredAs w p start flags type ∧ (w.area c).flags = flags ∧
    (w.area c).type = type := by
  unfold rightOf at h
  split at h
  · cases h
  · next hcow => exact ⟨by simpa using hcow, List.mem_of_find?_eq_some h, by simpa using List.find?_some h⟩

theorem leftOf_none (h : leftOf w p start flags type = none) (hcow : flags.cow = false) (hb : b ∈ w.mem p)
    (hflags : (w.area b).flags = flags) (htype : (w.area b).type = type) : (w.area b).stop ≠ start := by
  rw [leftOf, if_neg (by simp [hcow])] at h
  simpa [hflags, htype] using List.find?_eq_none.mp h b hb

theorem rightOf_none (h : rightOf w p start stop flags type = none) (hcow : flags.cow = false)
    (hb : b ∈ w.mem p) (hne : b ≠ enteredAs w p start flags type) (hflags : (w.area b).flags = flags)
    (htype : (w.area b).type = type) : (w.area b).start ≠ stop := by
  rw [rightOf, if_neg (by simp [hcow])] at h
  simpa [hne, hflags, htype] using List.find?_eq_none.mp h b hb

theorem Linked.mem_ne (hl : Linked w) (hb : b ∈ w.mem p) : b ≠ w.nextArea := Nat.ne_of_lt (hl.fresh hb)

theorem withArea_self : (withArea w m p start stop flags type).area w.nextArea = ⟨start, stop, flags, type, p⟩ := by
  rw [withArea_area, if_pos rfl]

theorem withArea_old (hb : b ≠ w.nextArea) : (withArea w m p start stop flags type).area b = w.area b := by
  rw [withArea_area, if_neg hb]

theorem Linked.withArea_sorted (hl : Linked w) : (Os5.withArea w m p start stop flags type).mem p =
    insertSorted w stop w.nextArea (w.mem p) := by
  rw [withArea_mem, if_pos rfl]
  refine insertSorted_congr fun b hb => ?_
  change (Function.update w.area w.nextArea _ b).start = _
  rw [Function.update_of_ne (hl.mem_ne hb)]

theorem glueArea_withArea : glueArea (withArea w m p start stop flags type) w.nextArea =
    if flags.cow then (w.nextArea, withArea w m p start stop flags type)
    else glueRight (glueLeft (withArea w m p start stop flags type) p w.nextArea).2 p
      (glueLeft (withArea w m p start stop flags type) p w.nextArea).1 := by
  have hempty : Circular.isEmpty (withArea w m p start stop flags type).copies w.nextArea = true :=
    ring_init.isEmpty_iff.mpr rfl
  rw [glueArea_eq, withArea_self, hempty]
  cases flags.cow <;> simp

theorem Linked.glueLeft_withArea (hl : Linked w) (hcow : flags.cow = false) :
    Os5.glueLeft (Os5.withArea w m p start stop flags type) p w.nextArea =
      match leftOf w p start flags type with
      | some a => (a, Os5.freeArea ((Os5.withArea w m p start stop flags type).setArea a
          { w.area a with stop := stop }) w.nextArea)
      | none => (w.nextArea, Os5.withArea w m p start stop flags type) := by
  have hfind : ((Os5.withArea w m p start stop flags type).mem p).find? (fun b =>
      ((Os5.withArea w m p start stop flags type).area b).stop = start &&
        glues (Os5.withArea w m p start stop flags type) b w.nextArea) = leftOf w p start flags type := by
    rw [hl.withArea_sorted, insertSorted_find (by simp [glues]), leftOf, if_neg (by simp [hcow])]
    refine List.find?_congr fun b hb => ?_
    simp only [glues, withArea_self, withArea_old (hl.mem_ne hb), hl.mem_ne hb, ne_eq, not_false_eq_true,
      decide_true, Bool.true_and]
  unfold Os5.glueLeft
  rw [withArea_self, hfind]
  cases hleft : leftOf w p start flags type with
  | none => rfl
  | some a => simp only [withArea_old (hl.mem_ne (leftOf_some hleft).2.1)]

structure JoinedLeft (w : Mem) (p start stop : Nat) (flags : MmFlags) (type : Nat) (v : Mem) : Prop where
  mem : v.mem p = (leftOf w p start flags type).elim (insertSorted w stop w.nextArea (w.mem p)) fun _ => w.mem p
  memOther : ∀ {q}, q ≠ p → v.mem q = w.mem q
  nextArea : v.nextArea = w.nextArea + 1
  area : ∀ {b}, b < w.nextArea → b ≠ enteredAs w p start flags type → v.area b = w.area b
  entered : v.area (enteredAs w p start flags type) =
    ⟨(leftOf w p start flags type).elim start fun a => (w.area a).start, stop, flags, type, p⟩

theorem Linked.joinedLeft_alone (hl : Linked w) (hleft : leftOf w p start flags type = none) :
    JoinedLeft w p start stop flags type (Os5.withArea w m p start stop flags type) where
  mem := by rw [hl.withArea_sorted, hleft, Option.elim_none]
  memOther hq := by rw [withArea_mem, if_neg hq]
  nextArea := rfl
  area hb _ := withArea_old (Nat.ne_of_lt hb)
  entered := by
    rw [enteredAs, hleft]
    exact withArea_self

theorem Linked.joinedLeft_some (hl : Linked w) (hleft : leftOf w p start flags type = some a) :
    JoinedLeft w p start stop flags type (Os5.freeArea ((Os5.withArea w m p start stop flags type).setArea a
      { w.area a with stop := stop }) w.nextArea) := by
  obtain ⟨-, ha, -, hflags, htype⟩ := leftOf_some hleft
  have howner : (((Os5.withArea w m p start stop flags type).setArea a
      { w.area a with stop := stop }).area w.nextArea).owner = p := by
    rw [setArea_area, if_neg (hl.mem_ne ha).symm, withArea_self]
  refine ⟨?_, fun hq => ?_, rfl, fun hb hne => ?_, ?_⟩
  · rw [freeArea_mem, if_pos howner.symm, hleft, Option.elim_some]
    refine (congrArg (List.erase · w.nextArea) hl.withArea_sorted).trans ?_
    exact insertSorted_erase fun h => hl.mem_ne h rfl
  · rw [freeArea_mem, howner, if_neg hq]
    exact withArea_mem.trans (if_neg hq)
  · rw [enteredAs, hleft] at hne
    exact ((setArea_area _).trans (if_neg hne)).trans (withArea_old (Nat.ne_of_lt hb))
  · rw [enteredAs, hleft]
    refine (setArea_self _ _ _).trans ?_
    rw [hflags, htype, hl.owner ha]
    rfl

theorem JoinedLeft.find_right (hl : Linked w) (hcow : flags.cow = false)
    (h : JoinedLeft w p start stop flags type v) :
    (v.mem p).find? (fun b => (v.area b).start = (v.area (enteredAs w p start flags type)).stop &&
      glues v b (enteredAs w p start flags type)) = rightOf w p start stop flags type := by
  have hbase : (w.mem p).find? (fun b => (v.area b).start = (v.area (enteredAs w p start flags type)).stop &&
      glues v b (enteredAs w p start flags type)) = rightOf w p start stop flags type := by
    rw [rightOf, if_neg (by simp [hcow])]
    refine List.find?_congr fun b hb => ?_
    rw [glues, h.entered]
    by_cases hne : b = enteredAs w p start flags type
    · simp [hne]
    · simp [hne, h.area (hl.fresh hb) hne]
  rw [h.mem]
  cases hleft : leftOf w p start flags type with
  | some a => exact hbase
  | none =>
    rw [Option.elim_none, insertSorted_find]
    · exact hbase
    · simp [glues, enteredAs, hleft]

theorem Linked.glueRight_entered (hl : Linked w) (hcow : flags.cow = false)
    (h : JoinedLeft w p start stop flags type v) :
    Entered w p start stop flags type (Os5.glueRight v p (enteredAs w p start flags type)).2 := by
  have hold : ∀ {b}, b ∈ w.mem p → b ≠ enteredAs w p start flags type → v.area b = w.area b := fun hb hne =>
    h.area (hl.fresh hb) hne
  unfold Os5.glueRight
  rw [h.find_right hl hcow]
  cases hright : rightOf w p start stop flags type with
  | none =>
    refine ⟨?_, h.memOther, h.nextArea, h.area, ?_⟩
    · rw [hright]
      exact h.mem
    · rw [hright]
      exact h.entered
  | some c =>
    obtain ⟨-, hc, -, hne, -, -⟩ := rightOf_some hright
    have hvc := hold hc hne
    have howner : ((v.setArea (enteredAs w p start flags type) { v.area (enteredAs w p start flags type) with stop := (v.area c).stop }).area c).owner = p := by
      rw [setArea_area, if_neg hne, hvc, hl.owner hc]
    refine ⟨?_, fun hq => ?_, h.nextArea, fun hb hne => ?_, ?_⟩
    · rw [freeArea_mem, if_pos howner.symm, hright]
      exact congrArg (List.erase · c) h.mem
    · rw [freeArea_mem, howner, if_neg hq]
      exact h.memOther hq
    · exact ((setArea_area _).trans (if_neg hne)).trans (h.area hb hne)
    · refine (setArea_self _ _ _).trans ?_
      rw [h.entered, hvc, hright]
      rfl

theorem Linked.newArea_entered (hl : Linked w) (h : Os5.newArea w p start stop flags type = .ok (a, w')) :
    a = enteredAs w p (pageMask start) flags type ∧
      Entered w p (pageMask start) (areaStop stop) flags type w' := by
  obtain ⟨-, m, -, hglue⟩ := newArea_ok h
  rw [glueArea_withArea] at hglue
  cases hcow : flags.cow with
  | true =>
    rw [hcow, if_pos rfl] at hglue
    obtain ⟨rfl, rfl⟩ := Prod.mk.inj hglue
    have hleft : leftOf w p (pageMask start) flags type = none := by rw [leftOf, if_pos hcow]
    have hright : rightOf w p (pageMask start) (areaStop stop) flags type = none := by rw [rightOf, if_pos hcow]
    have hj : JoinedLeft w p (pageMask start) (areaStop stop) flags type _ := hl.joinedLeft_alone (m := m) hleft
    refine ⟨by rw [enteredAs, hleft, Option.getD_none], ?_, hj.memOther, hj.nextArea, hj.area, ?_⟩
    · rw [hright]
      exact hj.mem
    · rw [hright]
      exact hj.entered
  | false =>
    rw [hcow, if_neg Bool.false_ne_true, hl.glueLeft_withArea hcow] at hglue
    have hright1 : ∀ (u : Mem) b, (Os5.glueRight u p b).1 = b := by
      intro u b
      unfold Os5.glueRight
      split <;> rfl
    cases hleft : leftOf w p (pageMask start) flags type with
    | none =>
      rw [hleft] at hglue
      have hinto : enteredAs w p (pageMask start) flags type = w.nextArea := by
        rw [enteredAs, hleft, Option.getD_none]
      obtain ⟨rfl, rfl⟩ := Prod.ext_iff.mp hglue
      refine ⟨(hright1 _ _).trans hinto.symm, ?_⟩
      rw [← hinto]
      exact hl.glueRight_entered hcow (hl.joinedLeft_alone hleft)
    | some b =>
      rw [hleft] at hglue
      have hinto : enteredAs w p (pageMask start) flags type = b := by rw [enteredAs, hleft, Option.getD_some]
      obtain ⟨rfl, rfl⟩ := Prod.ext_iff.mp hglue
      refine ⟨(hright1 _ _).trans hinto.symm, ?_⟩
      have hj : JoinedLeft w p (pageMask start) (areaStop stop) flags type _ := hl.joinedLeft_some (m := m) hleft
      have hentered := hl.glueRight_entered hcow hj
      rwa [hinto] at hentered

theorem Linked.newArea_alone (hl : Linked w) (h : Os5.newArea w p start stop flags type = .ok (a, w'))
    (hleft : leftOf w p (pageMask start) flags type = none)
    (hright : rightOf w p (pageMask start) (areaStop stop) flags type = none) :
    a = w.nextArea ∧ ∃ m, w' = Os5.withArea w m p (pageMask start) (areaStop stop) flags type := by
  obtain ⟨-, m, -, hglue⟩ := newArea_ok h
  rw [glueArea_withArea] at hglue
  cases hcow : flags.cow with
  | true =>
    rw [hcow, if_pos rfl] at hglue
    obtain ⟨rfl, rfl⟩ := Prod.mk.inj hglue
    exact ⟨rfl, m, rfl⟩
  | false =>
    have hj : JoinedLeft w p (pageMask start) (areaStop stop) flags type _ := hl.joinedLeft_alone (m := m) hleft
    have hnone := hj.find_right hl hcow
    rw [hright, enteredAs, hleft, Option.getD_none] at hnone
    rw [hcow, if_neg Bool.false_ne_true, hl.glueLeft_withArea hcow, hleft, Os5.glueRight, hnone] at hglue
    obtain ⟨rfl, rfl⟩ := Prod.mk.inj hglue
    exact ⟨rfl, m, rfl⟩

end

end Os5
