import Os5.Mem.UserPointers

/-!
# The area at or above an address

What `find_above` finds in a sorted list of areas. The walk is from the end of the list; it stops at
an area whose predecessor ends below the address, and never looks behind the first area.
-/

namespace Os5

section
variable {w : Mem} {p x a b : Nat} {l : List Nat}

-- ---------------------------------------------------------------------------
-- The walk
-- ---------------------------------------------------------------------------

theorem findAboveWalk_eq_none : findAboveWalk w x l = none ↔ ∀ c ∈ l.tail, x ≤ (w.area c).stop := by
  fun_induction findAboveWalk w x l with
  | case1 b a rest hstop =>
    simp only [reduceCtorEq, List.tail_cons, false_iff]
    intro hall
    have := hall a List.mem_cons_self
    omega
  | case2 b a rest hstop ih =>
    rw [ih]
    simp only [List.tail_cons, List.forall_mem_cons]
    exact ⟨fun h => ⟨by omega, h⟩, fun h => h.2⟩
  | case3 l hshort =>
    cases l with
    | nil => simp
    | cons b l =>
      cases l with
      | nil => simp
      | cons a rest => exact absurd rfl (hshort b a rest)

/-- On the reversed list: the area after `b` ends below the address, and those before it up to `b` do
not, apart from the last area of all, which is not asked. -/
theorem findAboveWalk_eq_some (h : findAboveWalk w x l = some b) : ∃ post a pre,
    l = post ++ b :: a :: pre ∧ (w.area a).stop < x ∧ ∀ c ∈ (post ++ [b]).tail, x ≤ (w.area c).stop := by
  fun_induction findAboveWalk w x l with
  | case1 c a rest hstop =>
    obtain rfl := Option.some.inj h
    exact ⟨[], a, rest, rfl, hstop, by simp⟩
  | case2 c d rest hstop ih =>
    obtain ⟨post, a, pre, hl, ha, hpost⟩ := ih h
    refine ⟨c :: post, a, pre, by rw [hl, List.cons_append], ha, ?_⟩
    -- the first area passed is the one the walk has just asked
    obtain ⟨tail, htail⟩ : ∃ tail, post ++ [b] = d :: tail := by
      cases post with
      | nil => exact ⟨[], by rw [(List.cons.inj hl).1]; rfl⟩
      | cons e post => exact ⟨post ++ [b], by rw [(List.cons.inj hl).1]; rfl⟩
    rw [htail, List.tail_cons] at hpost
    rw [List.cons_append, List.tail_cons, htail, List.forall_mem_cons]
    exact ⟨Nat.le_of_not_lt hstop, hpost⟩
  | case3 => cases h

-- ---------------------------------------------------------------------------
-- What it finds
-- ---------------------------------------------------------------------------

/-- The comment on `find_above`: an area that contains the address, or else the nearest one above it. -/
def NearestAbove (w : Mem) (p x : Nat) : Option Nat → Prop
  | some a => At w p x a ∨ (∀ b, ¬At w p x b) ∧ a ∈ w.mem p ∧ x < (w.area a).start ∧
      ∀ b ∈ w.mem p, x < (w.area b).start → (w.area a).start ≤ (w.area b).start
  | none => ∀ b ∈ w.mem p, ¬At w p x b ∧ (w.area b).start ≤ x

/-- Two neighbours have the address strictly between them, or no area reaches above it and none but
the last ends below it. -/
def Bracketed (w : Mem) (p x : Nat) : Prop :=
  (∃ a b, [a, b] <:+: w.mem p ∧ (w.area a).stop < x ∧ x < (w.area b).start) ∨
  (∀ a ∈ w.mem p, (w.area a).stop ≤ x) ∧ ∀ a ∈ (w.mem p).dropLast, (w.area a).stop = x

theorem above_of_not_at (ha : a ∈ w.mem p) (hout : ∀ b, ¬At w p x b) (hstop : x < (w.area a).stop) : x < (w.area a).start := by
  by_contra hle
  exact hout a ⟨ha, MemArea.covers_iff.mpr ⟨Nat.le_of_not_lt hle, hstop⟩⟩

variable (hle : ∀ a ∈ w.mem p, (w.area a).start ≤ (w.area a).stop)
include hle

theorem nearestAbove_none (hout : ∀ b, ¬At w p x b) (hwalk : ∀ c ∈ (w.mem p).dropLast, x ≤ (w.area c).stop) :
    NearestAbove w p x none ↔ Bracketed w p x := by
  constructor
  · intro hnone
    have hstop : ∀ a ∈ w.mem p, (w.area a).stop ≤ x := by
      intro a ha
      by_contra hlt
      have := above_of_not_at ha hout (Nat.lt_of_not_le hlt)
      exact absurd (hnone a ha).2 (Nat.not_le_of_lt this)
    refine .inr ⟨hstop, fun a ha => Nat.le_antisymm (hstop a (List.mem_of_mem_dropLast ha)) (hwalk a ha)⟩
  · rintro (⟨a, b, hab, ha, hb⟩ | ⟨hstop, -⟩) c hc
    · have hmem : a ∈ (w.mem p).dropLast := by
        obtain ⟨pre, post, hl⟩ := hab
        simp [← hl]
      exact absurd (hwalk a hmem) (Nat.not_le_of_lt ha)
    · exact ⟨hout c, (hle c hc).trans (hstop c hc)⟩

theorem Ordered.around (hord : Ordered w p) {pre post : List Nat} (hl : w.mem p = pre ++ a :: post) :
    (∀ c ∈ pre ++ [a], (w.area c).stop ≤ (w.area a).stop) ∧
      ∀ c ∈ a :: post, (w.area a).start ≤ (w.area c).start := by
  have hbounds := hle a (by simp [hl])
  unfold Ordered at hord
  rw [hl, List.pairwise_append, List.pairwise_cons] at hord
  obtain ⟨-, ⟨hafter, -⟩, hbefore⟩ := hord
  constructor
  · intro c hc
    rcases List.mem_append.mp hc with hc | hc
    · exact (hbefore c hc a List.mem_cons_self).trans hbounds
    · rw [List.mem_singleton.mp hc]
  · intro c hc
    rcases List.mem_cons.mp hc with rfl | hc
    · exact Nat.le_refl _
    · exact hbounds.trans (hafter c hc)

theorem nearestAbove_some (hord : Ordered w p) (hout : ∀ b, ¬At w p x b) {pre post : List Nat}
    (hl : w.mem p = pre ++ a :: b :: post) (ha : (w.area a).stop < x)
    (hpost : ∀ c ∈ (b :: post).dropLast, x ≤ (w.area c).stop) :
    NearestAbove w p x (some b) ↔ Bracketed w p x := by
  have hlb : w.mem p = (pre ++ [a]) ++ b :: post := by simp [hl]
  have hfrom : ∀ c ∈ w.mem p, x < (w.area c).start → c ∈ b :: post := by
    intro c hc hlt
    rw [hlb] at hc
    rcases List.mem_append.mp hc with hc | hc
    · have h1 := (hord.around hle hl).1 c hc
      have h2 := hle c (by rw [hlb]; exact List.mem_append_left _ hc)
      omega
    · exact hc
  have hmem : b ∈ w.mem p := by simp [hl]
  constructor
  · rintro (hat | ⟨-, -, hb, -⟩)
    · exact absurd hat (hout b)
    · exact .inl ⟨a, b, ⟨pre, post, by simp [hl]⟩, ha, hb⟩
  · rintro (⟨c, d, ⟨pre', post', hcd⟩, hc, hd⟩ | ⟨-, hall⟩)
    · refine .inr ⟨hout, hmem, ?_, fun e he hlt => (hord.around hle hlb).2 e (hfrom e he hlt)⟩
      have hlc : w.mem p = pre' ++ c :: (d :: post') := by simp [← hcd]
      have hld : w.mem p = (pre' ++ [c]) ++ d :: post' := by simp [← hcd]
      rw [hld] at hmem
      rcases List.mem_append.mp hmem with hb | hb
      · -- `b` ends below the address, so it is the last area; and `d` is none before it
        have hstop := (hord.around hle hlc).1 b hb
        have hnil : post = [] := by
          by_contra hne
          have := hpost b (by rw [List.dropLast_cons_of_ne_nil hne]; exact List.mem_cons_self)
          omega
        have hdb := hfrom d (by simp [hld]) hd
        rw [hnil, List.mem_singleton] at hdb
        exact hdb ▸ hd
      · exact Nat.lt_of_lt_of_le hd ((hord.around hle hld).2 b hb)
    · have := hall a (by simp [hl])
      omega

/-- For sorted and disjoint areas: `find_above` finds the area that contains the address, or else the
nearest one above it, if and only if there is one that contains it or the address is `Bracketed`. -/
theorem findAbove_iff (hord : Ordered w p) :
    NearestAbove w p x (findAbove w p x) ↔ (∃ a, At w p x a) ∨ Bracketed w p x := by
  unfold findAbove
  cases hin : findIncluding w p x with
  | some a =>
    have hat := at_of_findIncluding hin
    exact ⟨fun _ => .inl ⟨a, hat⟩, fun _ => .inl hat⟩
  | none =>
    have hout := findIncluding_eq_none.mp hin
    rw [or_iff_right (not_exists.mpr hout)]
    cases hwalk : findAboveWalk w x (w.mem p).reverse with
    | none =>
      refine nearestAbove_none hle hout fun c hc => findAboveWalk_eq_none.mp hwalk c ?_
      rwa [List.tail_reverse, List.mem_reverse]
    | some b =>
      obtain ⟨post, a, pre, hl, ha, hpost⟩ := findAboveWalk_eq_some hwalk
      have hl' : w.mem p = pre.reverse ++ a :: b :: post.reverse := by
        simpa using congrArg List.reverse hl
      refine nearestAbove_some hle hord hout hl' ha fun c hc => hpost c ?_
      have hrev : post ++ [b] = (b :: post.reverse).reverse := by simp
      rwa [hrev, List.tail_reverse, List.mem_reverse]

end

theorem codeAndStack_bounds : ∀ a ∈ codeAndStack.mem 1, (codeAndStack.area a).start ≤ (codeAndStack.area a).stop := by
  decide

theorem codeAndStack_ordered : Ordered codeAndStack 1 := by
  unfold Ordered
  decide

theorem findAbove_iff_codeAndStack : NearestAbove codeAndStack 1 0x2800 (findAbove codeAndStack 1 0x2800) ↔
    (∃ a, At codeAndStack 1 0x2800 a) ∨ Bracketed codeAndStack 1 0x2800 :=
  findAbove_iff codeAndStack_bounds codeAndStack_ordered

/-- Nothing is found below the first area nor at the end of an area with a gap behind it, and above all
areas the last one is. -/
theorem findAbove_misses : (∀ a ∈ codeAndStack.mem 1, (codeAndStack.area a).start ≤ (codeAndStack.area a).stop) ∧
    Ordered codeAndStack 1 ∧
    findAbove codeAndStack 1 0x500 = none ∧ ¬NearestAbove codeAndStack 1 0x500 (findAbove codeAndStack 1 0x500) ∧
    findAbove codeAndStack 1 0x2000 = none ∧ ¬NearestAbove codeAndStack 1 0x2000 (findAbove codeAndStack 1 0x2000) ∧
    findAbove codeAndStack 1 0xBFFFF800 = some 2 ∧
      ¬NearestAbove codeAndStack 1 0xBFFFF800 (findAbove codeAndStack 1 0xBFFFF800) := by
  have h1 : findAbove codeAndStack 1 0x500 = none := by decide
  have h2 : findAbove codeAndStack 1 0x2000 = none := by decide
  have h3 : findAbove codeAndStack 1 0xBFFFF800 = some 2 := by decide
  refine ⟨codeAndStack_bounds, codeAndStack_ordered, h1, ?_, h2, ?_, h3, ?_⟩
  · rw [h1]
    exact fun h => absurd (h 0 (by decide)).2 (by decide)
  · rw [h2]
    exact fun h => absurd (h 1 (by decide)).2 (by decide)
  · rw [h3]
    rintro (hat | ⟨-, -, hlt, -⟩)
    · exact absurd hat.2 (by decide)
    · exact absurd hlt (by decide)

end Os5
