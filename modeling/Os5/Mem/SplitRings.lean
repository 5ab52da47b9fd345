import Os5.Mem.Collision

/-!
# The rings of a split

What `split_area` leaves of a ring of copies: the maps and lists of the owners, and up to
three rings of pieces.
-/

namespace Os5

open Machine Circular

/-- The pieces of the members of the ring of `ma`, after a split of `lo` to `hi`. -/
structure SplitRings (w : Mem) (ma lo hi : Nat) (pc : Parts) (w' : Mem) : Prop where
  map : ∀ {b}, SameRing w.copies ma b → ∀ x, mapping w' (w.area b).owner x = mapping w (w.area b).owner x
  ordered : ∀ {b}, SameRing w.copies ma b → Ordered w' (w.area b).owner
  left : ∀ {b}, SameRing w.copies ma b → ((pc .left b).isSome = true ↔ (w.area ma).start < lo)
  mid : ∀ {b}, SameRing w.copies ma b → pc .mid b = some b
  right : ∀ {b}, SameRing w.copies ma b → ((pc .right b).isSome = true ↔ hi < (w.area ma).stop)
  piece : ∀ {k b a}, SameRing w.copies ma b → pc k b = some a →
    a ∈ w'.mem (w.area b).owner ∧ w'.area a = k.shape lo hi true (w.area b)
  once : ∀ {k k' b b' a}, SameRing w.copies ma b → SameRing w.copies ma b' →
    pc k b = some a → pc k' b' = some a → k = k' ∧ b = b'
  ring : ∀ {k b a c}, SameRing w.copies ma b → pc k b = some a →
    (SameRing w'.copies a c ↔ ∃ b', SameRing w.copies ma b' ∧ pc k b' = some c)
  range : ∀ {k b b' a a'}, SameRing w.copies ma b → SameRing w.copies ma b' →
    pc k b = some a → pc k b' = some a' →
    (w'.area a).start = (w'.area a').start ∧ (w'.area a).stop = (w'.area a').stop

section
variable {w w' : Mem} {ma lo hi p b x : Nat} {pc : Parts} {done : List Nat}

theorem Cut.mapping (hc : Cut w ma lo hi pc done w') (hl : Listed w) (hr : SameRanges w ma)
    (ho : Ordered w p) : mapping w' p x = mapping w p x := by
  have ho' := hc.ordered hl hr ho
  by_cases hat : ∃ b, At w p x b
  · obtain ⟨b, hb⟩ := hat
    obtain ⟨k, a, ha, hk⟩ := hc.exists_part hr hb.2
    have harea := hc.area (hl.live hb.1) ha
    rw [mapping_at ho' ((hc.at_iff hl hr).mpr ⟨b, hb, k, ha, hk⟩), mapping_at ho hb, harea,
      Part.shape_flags, Part.shape_type]
  · rw [mapping_none.mpr fun b hb => hat ⟨b, hb⟩, mapping_none]
    intro a ha
    obtain ⟨b, hb, -⟩ := (hc.at_iff hl hr).mp ha
    exact hat ⟨b, hb⟩

theorem Cut.splitRings (hc : Cut w ma lo hi pc done w') (hl : Listed w) (hma : Live w ma)
    (hr : SameRanges w ma) (ho : ∀ b, SameRing w.copies ma b → Ordered w (w.area b).owner) :
    SplitRings w ma lo hi pc w' := by
  have hlive : ∀ {b}, SameRing w.copies ma b → Live w b := hl.rings.closed hma
  have hdone : ∀ {b}, SameRing w.copies ma b → b ∈ done := (hc.ring _).mpr
  refine { map := fun hb x => hc.mapping hl hr (ho _ hb), ordered := fun hb => hc.ordered hl hr (ho _ hb)
           left := fun hb => hc.hasLeft _ (hdone hb), mid := fun _ => hc.mid _
           right := fun hb => hc.hasRight _ (hdone hb), piece := ?_
           once := fun hb hb' => hc.inj (hlive hb) (hlive hb'), ring := ?_, range := ?_ }
  · intro k b a hb ha
    refine ⟨hc.mem_iff.mpr ⟨b, hlive hb, k, ha⟩, ?_⟩
    rw [hc.area (hlive hb) ha, decide_eq_true (hdone hb)]
  · intro k b a c hb ha
    constructor
    · intro hs
      have hcl := hc.rings.closed ((hc.live_iff hl).mpr ⟨b, hlive hb, k, ha⟩) hs
      obtain ⟨b', hb', k', hk'⟩ := (hc.live_iff hl).mp hcl
      obtain ⟨hs0, rfl⟩ := (hc.same (hlive hb) hb' ha hk').mp hs
      exact ⟨b', hb.trans hs0, hk'⟩
    · rintro ⟨b', hb', hk'⟩
      exact (hc.same (hlive hb) (hlive hb') ha hk').mpr ⟨hb.symm.trans hb', rfl⟩
  · intro k b b' a a' hb hb' ha ha'
    have h1 := hr _ hb
    have h2 := hr _ hb'
    exact hc.part_ranges (hlive hb) (hlive hb') ha ha' (hb.symm.trans hb')
      ⟨h1.1.symm.trans h2.1, h1.2.symm.trans h2.2⟩

theorem uncut_splitRings (hl : Listed w) (hma : Live w ma) (hr : SameRanges w ma)
    (ho : ∀ b, SameRing w.copies ma b → Ordered w (w.area b).owner)
    (hrange : (w.area ma).start = lo ∧ (w.area ma).stop = hi) :
    SplitRings w ma lo hi (fun k b => if k = .mid then some b else none) w := by
  have hpiece : ∀ {k : Part} {b a : Nat}, (if k = .mid then some b else none) = some a → k = .mid ∧ a = b := by
    intro k b a h
    rw [Option.ite_none_right_eq_some, Option.some.injEq] at h
    exact ⟨h.1, h.2.symm⟩
  refine { map := fun _ _ => rfl, ordered := fun hb => ho _ hb, left := fun _ => ?_, mid := fun _ => if_pos rfl
           right := fun _ => ?_, piece := ?_, once := ?_, ring := ?_, range := ?_ }
  · exact iff_of_false (by simp) (by omega)
  · exact iff_of_false (by simp) (by omega)
  · intro k b a hb ha
    obtain ⟨rfl, rfl⟩ := hpiece ha
    refine ⟨hl.rings.closed hma hb, ?_⟩
    obtain ⟨h1, h2⟩ := hr _ hb
    rw [Part.shape, if_pos rfl, ← hrange.1, ← hrange.2, h1, h2]
  · intro k k' b b' a hb hb' ha ha'
    obtain ⟨rfl, rfl⟩ := hpiece ha
    obtain ⟨rfl, rfl⟩ := hpiece ha'
    exact ⟨rfl, rfl⟩
  · intro k b a c hb ha
    obtain ⟨rfl, rfl⟩ := hpiece ha
    refine ⟨fun hs => ⟨c, hb.trans hs, if_pos rfl⟩, ?_⟩
    rintro ⟨b', hb', hk⟩
    obtain ⟨-, rfl⟩ := hpiece hk
    exact hb.symm.trans hb'
  · intro k b b' a a' hb hb' ha ha'
    obtain ⟨rfl, rfl⟩ := hpiece ha
    obtain ⟨-, rfl⟩ := hpiece ha'
    have h1 := hr _ hb
    have h2 := hr _ hb'
    exact ⟨h1.1.symm.trans h2.1, h1.2.symm.trans h2.2⟩

/-- `split_area` cuts all copies of an area in the same way. -/
theorem splitArea_rings (hl : Listed w) (hma : Live w ma) (hr : SameRanges w ma)
    (ho : ∀ b, SameRing w.copies ma b → Ordered w (w.area b).owner)
    (hlo : pageMask lo = lo) (hhi : pageMask hi = hi) (hlt : lo < hi)
    (h1 : (w.area ma).start ≤ lo) (h2 : hi ≤ (w.area ma).stop) :
    ∃ w' pc, splitArea w ma lo hi = .ok w' ∧ SplitRings w ma lo hi pc w' := by
  obtain ⟨w', hok, ⟨rfl, hrange⟩ | ⟨pc, done, hc⟩⟩ := splitArea_cut hl hma hlo hhi hlt.le h1 h2
  · exact ⟨w', _, hok, uncut_splitRings hl hma hr ho hrange⟩
  · exact ⟨w', pc, hok, hc.splitRings hl hma hr ho⟩

end

def twoCopies : Mem where
  machine := onePageMachine
  proc p := if p = 1 then ⟨1, 0, [0]⟩ else if p = 2 then ⟨2, 0, [1]⟩ else ⟨0, 0, []⟩
  nextPid := 3
  current := 1
  area a := ⟨0x1000, 0x4000, { dataFlags with write := false, cow := true }, 1, a + 1⟩
  nextArea := 2
  copies := ⟨fun a => if a = 0 then 1 else if a = 1 then 0 else a,
    fun a => if a = 0 then 1 else if a = 1 then 0 else a⟩

theorem twoCopies_mem {p a : Nat} (h : a ∈ twoCopies.mem p) : a < 2 ∧ p = a + 1 := by
  by_cases h1 : p = 1
  · subst h1
    obtain rfl : a = 0 := by simpa [Mem.mem, twoCopies] using h
    exact ⟨by decide, rfl⟩
  · by_cases h2 : p = 2
    · subst h2
      obtain rfl : a = 1 := by simpa [Mem.mem, twoCopies] using h
      exact ⟨by decide, rfl⟩
    · simp [Mem.mem, twoCopies, h1, h2] at h

theorem twoCopies_listed : Listed twoCopies where
  owner h := (twoCopies_mem h).2.symm
  nodup p := by
    by_cases h1 : p = 1
    · subst h1
      decide
    · by_cases h2 : p = 2
      · subst h2
        decide
      · simp [Mem.mem, twoCopies, h1, h2]
  fresh h := (twoCopies_mem h).1
  rings a ha := by
    obtain h0 | h1 : a = 0 ∨ a = 1 := by
      have := (twoCopies_mem ha).1
      omega
    · subst h0
      exact ⟨[1], ⟨by simp [twoCopies, Circular.Linked], by decide⟩, by simp [Live, Mem.mem, twoCopies]⟩
    · subst h1
      exact ⟨[0], ⟨by simp [twoCopies, Circular.Linked], by decide⟩, by simp [Live, Mem.mem, twoCopies]⟩

theorem splitArea_rings_twoCopies : ∃ w' pc, splitArea twoCopies 0 0x2000 0x3000 = .ok w' ∧
    SplitRings twoCopies 0 0x2000 0x3000 pc w' := by
  have hfirst : Live twoCopies 0 := by simp [Live, Mem.mem, twoCopies]
  have ho : ∀ b, SameRing twoCopies.copies 0 b → Ordered twoCopies (twoCopies.area b).owner := by
    intro b hb
    have hlive : Live twoCopies b := twoCopies_listed.rings.closed hfirst hb
    obtain rfl | rfl : b = 0 ∨ b = 1 := by
      have := (twoCopies_mem hlive).1
      omega
    · unfold Ordered
      decide
    · unfold Ordered
      decide
  exact splitArea_rings twoCopies_listed hfirst (fun _ _ => ⟨rfl, rfl⟩) ho (by decide) (by decide)
    (by decide) (by decide) (by decide)

end Os5
