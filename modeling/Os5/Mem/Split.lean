import Os5.Mem.Layout

/-!
# Splitting areas

`split_area` cuts up to three parts out of an area and of all its copies. While
its loop runs, the parts that exist are described by a partial map from parts of
old areas to areas; once the loop is through, every address is in an area with
the same flags as before, in the company of the same processes.
-/

namespace Os5

open Machine Circular

/-- What a split may leave of an area. -/
inductive Part
  | left
  | mid
  | right
  deriving DecidableEq

/-- The parts of old areas that exist so far, the middle one being the area itself. -/
abbrev Parts := Part → Nat → Option Nat

def Parts.list (pc : Parts) (b : Nat) : List Nat :=
  (pc .left b).toList ++ (pc .mid b).toList ++ (pc .right b).toList

def Parts.add (pc : Parts) (k : Part) (b a : Nat) : Parts :=
  Function.update pc k (Function.update (pc k) b (some a))

def Part.shape (lo hi : Nat) (done : Bool) (v : MemArea) : Part → MemArea
  | .left => { v with stop := lo }
  | .mid => if done then { v with start := lo, stop := hi } else v
  | .right => { v with start := hi }

/-- A split of the ring of `ma` under way, `done` being the areas already reshaped. -/
structure Splitting (w₀ : Mem) (ma lo hi : Nat) (pc : Parts) (done : List Nat) (w : Mem) : Prop where
  machine : w.machine = w₀.machine
  nextPid : w.nextPid = w₀.nextPid
  current : w.current = w₀.current
  pd : ∀ p, w.pd p = w₀.pd p
  stackLimit : ∀ p, (w.proc p).stackLimit = (w₀.proc p).stackLimit
  nextArea : w₀.nextArea ≤ w.nextArea
  mid : ∀ b, pc .mid b = some b
  mem : ∀ p, w.mem p = (w₀.mem p).flatMap pc.list
  side : ∀ {k b a}, k ≠ .mid → pc k b = some a → w₀.nextArea ≤ a ∧ SameRing w₀.copies ma b
  fresh : ∀ {k b a}, Live w₀ b → pc k b = some a → a < w.nextArea
  inj : ∀ {k k' b b' a}, Live w₀ b → Live w₀ b' → pc k b = some a → pc k' b' = some a →
    k = k' ∧ b = b'
  area : ∀ {k b a}, Live w₀ b → pc k b = some a →
    w.area a = k.shape lo hi (b ∈ done) (w₀.area b)
  rings : Rings w.copies (Live w)
  same : ∀ {k k' b b' a a'}, Live w₀ b → Live w₀ b' → pc k b = some a → pc k' b' = some a' →
    (SameRing w.copies a a' ↔ SameRing w₀.copies b b' ∧ k = k')

section
variable {w₀ w w' : Mem} {ma lo hi p b l h : Nat} {pc : Parts} {done : List Nat} {k : Part}

@[simp] theorem Part.shape_owner {d : Bool} {v : MemArea} : (k.shape lo hi d v).owner = v.owner := by
  cases k <;> simp only [Part.shape]
  split <;> rfl

@[simp] theorem Part.shape_flags {d : Bool} {v : MemArea} : (k.shape lo hi d v).flags = v.flags := by
  cases k <;> simp only [Part.shape]
  split <;> rfl

@[simp] theorem Part.shape_type {d : Bool} {v : MemArea} : (k.shape lo hi d v).type = v.type := by
  cases k <;> simp only [Part.shape]
  split <;> rfl

theorem Parts.mem_list {a : Nat} : a ∈ pc.list b ↔ ∃ k, pc k b = some a := by
  simp only [Parts.list, List.mem_append, Option.mem_toList]
  constructor
  · rintro ((h | h) | h)
    · exact ⟨.left, h⟩
    · exact ⟨.mid, h⟩
    · exact ⟨.right, h⟩
  · rintro ⟨k, h⟩
    cases k <;> simp [h]

theorem Parts.add_eq {k' : Part} {c a n : Nat} (hn : pc k b = none) :
    pc.add k b n k' c = some a ↔ pc k' c = some a ∨ k' = k ∧ c = b ∧ a = n := by
  by_cases hk : k' = k
  · subst hk
    by_cases hc : c = b
    · subst hc
      simp [Parts.add, hn, eq_comm]
    · simp [Parts.add, hc]
  · simp [Parts.add, hk]

theorem Splitting.mem_iff (hs : Splitting w₀ ma lo hi pc done w) {a : Nat} :
    a ∈ w.mem p ↔ ∃ b ∈ w₀.mem p, ∃ k, pc k b = some a := by
  rw [hs.mem, List.mem_flatMap]
  simp [Parts.mem_list]

theorem Splitting.owner (hs : Splitting w₀ ma lo hi pc done w) (hb : Live w₀ b) {a : Nat}
    (ha : pc k b = some a) : (w.area a).owner = (w₀.area b).owner := by
  rw [hs.area hb ha, Part.shape_owner]

theorem Splitting.live_iff (hl : Listed w₀) (hs : Splitting w₀ ma lo hi pc done w) {a : Nat} :
    Live w a ↔ ∃ b, Live w₀ b ∧ ∃ k, pc k b = some a := by
  unfold Live
  rw [hs.mem_iff]
  constructor
  · rintro ⟨b, hb, k, ha⟩
    exact ⟨b, hl.live hb, k, ha⟩
  · rintro ⟨b, hb, k, ha⟩
    exact ⟨b, by rwa [hs.owner hb ha], k, ha⟩

theorem Splitting.start (hl : Listed w₀) : Splitting w₀ ma lo hi (fun k b => if k = .mid then some b else none) [] w₀ where
  machine := rfl
  nextPid := rfl
  current := rfl
  pd _ := rfl
  stackLimit _ := rfl
  nextArea := le_rfl
  mid _ := rfl
  mem p := by
    have h : ∀ b, Parts.list (fun k b => if k = .mid then some b else none) b = [b] := fun b => by
      simp [Parts.list]
    rw [List.flatMap_congr fun b _ => h b, List.flatMap_singleton']
  side hk h := by simp [hk] at h
  fresh := by
    intro k b a hb h
    simp only [Option.ite_none_right_eq_some, Option.some.injEq] at h
    exact h.2 ▸ hl.fresh hb
  inj := by
    intro k k' b b' a _ _ h h'
    simp only [Option.ite_none_right_eq_some, Option.some.injEq] at h h'
    exact ⟨h.1.trans h'.1.symm, h.2.trans h'.2.symm⟩
  area := by
    intro k b a _ h
    simp only [Option.ite_none_right_eq_some, Option.some.injEq] at h
    obtain ⟨rfl, rfl⟩ := h
    simp [Part.shape]
  rings := hl.rings
  same := by
    intro k k' b b' a a' _ _ h h'
    simp only [Option.ite_none_right_eq_some, Option.some.injEq] at h h'
    obtain ⟨rfl, rfl⟩ := h
    obtain ⟨rfl, rfl⟩ := h'
    simp

-- ---------------------------------------------------------------------------
-- Adding a part
-- ---------------------------------------------------------------------------

theorem Splitting.insert_mem (hl : Listed w₀) (hs : Splitting w₀ ma lo hi pc done w) (hb : Live w₀ b)
    {ins : Nat → List Nat} {pc' : Parts} (hins : ∀ a, a ≠ b → ins a = [a])
    (hold : ∀ c, c ≠ b → pc'.list c = pc.list c) (hnew : (pc.list b).flatMap ins = pc'.list b) :
    (w.mem p).flatMap ins = (w₀.mem p).flatMap pc'.list := by
  rw [hs.mem, List.flatMap_assoc]
  apply List.flatMap_congr
  intro c hc
  by_cases hcb : c = b
  · rw [hcb, hnew]
  · have : ∀ a ∈ pc.list c, ins a = [a] := by
      intro a ha
      obtain ⟨k, ha⟩ := Parts.mem_list.mp ha
      apply hins
      rintro rfl
      exact hcb (hs.inj (hl.live hc) hb ha (hs.mid a)).2
    rw [hold c hcb, List.flatMap_congr this, List.flatMap_singleton']

/-- From `w` to `w'` the part `k` of `b` has been taken off into a new area. -/
structure AddsPart (w₀ : Mem) (lo hi : Nat) (pc : Parts) (k : Part) (b : Nat) (w w' : Mem) : Prop where
  machine : w'.machine = w.machine
  nextPid : w'.nextPid = w.nextPid
  current : w'.current = w.current
  pd : ∀ p, w'.pd p = w.pd p
  stackLimit : ∀ p, (w'.proc p).stackLimit = (w.proc p).stackLimit
  mem : ∀ p, w'.mem p = (w₀.mem p).flatMap (pc.add k b w.nextArea).list
  nextArea : w'.nextArea = w.nextArea + 1
  area : w'.area = Function.update w.area w.nextArea (k.shape lo hi true (w₀.area b))

theorem AddsPart.withCopies (h : AddsPart w₀ lo hi pc k b w w') (c : Heap Nat) :
    AddsPart w₀ lo hi pc k b w { w' with copies := c } :=
  ⟨h.machine, h.nextPid, h.current, h.pd, h.stackLimit, h.mem, h.nextArea, h.area⟩

theorem Splitting.fresh_ne (hs : Splitting w₀ ma lo hi pc done w) {c a : Nat} (hc : Live w₀ c)
    (ha : pc k c = some a) : a ≠ w.nextArea :=
  Nat.ne_of_lt (hs.fresh hc ha)

theorem setMem_mem (w : Mem) (p q : Nat) (l : List Nat) :
    (w.setMem p l).mem q = if q = p then l else w.mem q := by
  unfold Mem.setMem Mem.setProc Mem.mem
  by_cases h : q = p
  · subst h
    simp
  · simp [h]

theorem setMem_pd (w : Mem) (p q : Nat) (l : List Nat) : (w.setMem p l).pd q = w.pd q := by
  unfold Mem.setMem Mem.setProc Mem.pd
  by_cases h : q = p
  · subst h
    simp
  · simp [h]

theorem setMem_stackLimit (w : Mem) (p q : Nat) (l : List Nat) :
    ((w.setMem p l).proc q).stackLimit = (w.proc q).stackLimit := by
  unfold Mem.setMem Mem.setProc
  by_cases h : q = p
  · subst h
    simp
  · simp [h]

theorem Splitting.mem_update (hs : Splitting w₀ ma lo hi pc done w) (pc' : Parts) (hl : Listed w₀)
    (hb : Live w₀ b) {ins : Nat → List Nat} (hins : ∀ a, a ≠ b → ins a = [a])
    (hold : ∀ c, c ≠ b → pc'.list c = pc.list c) (hnew : (pc.list b).flatMap ins = pc'.list b) (q : Nat) :
    (if q = (w₀.area b).owner then (w.mem (w₀.area b).owner).flatMap ins else w.mem q) =
      (w₀.mem q).flatMap pc'.list := by
  split
  · next h => rw [h, hs.insert_mem hl hb hins hold hnew]
  · next h =>
    rw [hs.mem]
    apply List.flatMap_congr
    intro c hc
    rw [hold]
    rintro rfl
    exact h (hl.owner hc).symm

theorem splitLeft_adds (hl : Listed w₀) (hs : Splitting w₀ ma lo hi pc done w) (hb : Live w₀ b)
    (hd : b ∉ done) (hn : pc .left b = none) :
    AddsPart w₀ lo hi pc .left b w (splitLeft w b lo).2 := by
  have ha : w.area b = w₀.area b := by
    rw [hs.area hb (hs.mid b)]
    simp [Part.shape, hd]
  refine ⟨rfl, rfl, rfl, fun p => setMem_pd _ _ _ _, fun p => setMem_stackLimit _ _ _ _, fun p => ?_,
    rfl, ?_⟩
  · simp only [splitLeft, setMem_mem, ha, allocArea]
    refine hs.mem_update (pc.add .left b w.nextArea) hl hb (fun a h => by simp [h])
      (fun c h => ?_) ?_ p
    · simp [Parts.list, Parts.add, h]
    · have hr : ∀ r, pc .right b = some r → r ≠ b := by
        rintro r hr rfl
        cases (hs.inj hb hb hr (hs.mid r)).1
      cases hpr : pc .right b with
      | none => simp [Parts.list, Parts.add, hs.mid, hn, hpr]
      | some r => simp [Parts.list, Parts.add, hs.mid, hn, hpr, hr r hpr]
  · simp [splitLeft, allocArea, ha, Part.shape, Mem.setMem, Mem.setProc]

theorem splitRight_adds (hl : Listed w₀) (hs : Splitting w₀ ma lo hi pc done w) (hb : Live w₀ b)
    (hd : b ∉ done) (hn : pc .right b = none) :
    AddsPart w₀ lo hi pc .right b w (splitRight w b hi).2 := by
  have ha : w.area b = w₀.area b := by
    rw [hs.area hb (hs.mid b)]
    simp [Part.shape, hd]
  refine ⟨rfl, rfl, rfl, fun p => setMem_pd _ _ _ _, fun p => setMem_stackLimit _ _ _ _, fun p => ?_,
    rfl, ?_⟩
  · simp only [splitRight, setMem_mem, ha, allocArea]
    refine hs.mem_update (pc.add .right b w.nextArea) hl hb (fun a h => by simp [h])
      (fun c h => ?_) ?_ p
    · simp [Parts.list, Parts.add, h]
    · have hr : ∀ r, pc .left b = some r → r ≠ b := by
        rintro r hr rfl
        cases (hs.inj hb hb hr (hs.mid r)).1
      cases hpr : pc .left b with
      | none => simp [Parts.list, Parts.add, hs.mid, hn, hpr]
      | some r => simp [Parts.list, Parts.add, hs.mid, hn, hpr, hr r hpr]
  · simp [splitRight, allocArea, ha, Part.shape, Mem.setMem, Mem.setProc]

theorem Splitting.add (hs : Splitting w₀ ma lo hi pc done w) (hl : Listed w₀) (hb : Live w₀ b)
    (hk : k ≠ .mid) (hr : SameRing w₀.copies ma b) (hn : pc k b = none)
    (hw : AddsPart w₀ lo hi pc k b w w')
    (hR : Rings w'.copies fun n => Live w n ∨ n = w.nextArea)
    (hold : ∀ a a', Live w a → Live w a' → (SameRing w'.copies a a' ↔ SameRing w.copies a a'))
    (hnew : ∀ k' c a', Live w₀ c → pc k' c = some a' →
      (SameRing w'.copies w.nextArea a' ↔ SameRing w₀.copies b c ∧ k = k')) :
    Splitting w₀ ma lo hi (pc.add k b w.nextArea) done w' := by
  have hadd : ∀ {k' c a}, pc.add k b w.nextArea k' c = some a ↔
      pc k' c = some a ∨ k' = k ∧ c = b ∧ a = w.nextArea := Parts.add_eq hn
  have hlive : ∀ {a}, Live w' a ↔ Live w a ∨ a = w.nextArea := by
    intro a
    have hmem' : ∀ {p}, a ∈ w'.mem p ↔ ∃ c ∈ w₀.mem p, ∃ k', pc.add k b w.nextArea k' c = some a := by
      intro p
      rw [hw.mem, List.mem_flatMap]
      simp [Parts.mem_list]
    have hown : ∀ {c k'}, Live w₀ c → pc.add k b w.nextArea k' c = some a →
        (w'.area a).owner = (w₀.area c).owner := by
      intro c k' hc ha
      rcases hadd.mp ha with ha | ⟨rfl, rfl, rfl⟩
      · rw [hw.area, Function.update_of_ne (hs.fresh_ne hc ha), hs.owner hc ha]
      · rw [hw.area, Function.update_self, Part.shape_owner]
    rw [hs.live_iff hl]
    unfold Live
    rw [hmem']
    constructor
    · rintro ⟨c, hc, k', ha⟩
      rcases hadd.mp ha with ha | ⟨-, -, rfl⟩
      · exact .inl ⟨c, hl.live hc, k', ha⟩
      · exact .inr rfl
    · rintro (⟨c, hc, k', ha⟩ | rfl)
      · have ha' := hadd.mpr (.inl ha)
        exact ⟨c, by rwa [hown hc ha'], k', ha'⟩
      · have ha' : pc.add k b w.nextArea k b = some w.nextArea := hadd.mpr (.inr ⟨rfl, rfl, rfl⟩)
        exact ⟨b, by rwa [hown hb ha'], k, ha'⟩
  have hlv : ∀ {k' c a}, Live w₀ c → pc k' c = some a → Live w a := fun hc ha =>
    (hs.live_iff hl).mpr ⟨_, hc, _, ha⟩
  refine ⟨hw.machine.trans hs.machine, hw.nextPid.trans hs.nextPid, hw.current.trans hs.current,
    fun p => (hw.pd p).trans (hs.pd p), fun p => (hw.stackLimit p).trans (hs.stackLimit p),
    hw.nextArea ▸ Nat.le_succ_of_le hs.nextArea, ?_, hw.mem, ?_, ?_, ?_, ?_, ?_, ?_⟩
  · intro c
    exact hadd.mpr (.inl (hs.mid c))
  · intro k' c a hk' ha
    rcases hadd.mp ha with ha | ⟨-, rfl, rfl⟩
    · exact hs.side hk' ha
    · exact ⟨hs.nextArea, hr⟩
  · intro k' c a hc ha
    rw [hw.nextArea]
    rcases hadd.mp ha with ha | ⟨-, -, rfl⟩
    · exact Nat.lt_succ_of_lt (hs.fresh hc ha)
    · exact Nat.lt_succ_self _
  · intro k₁ k₂ c₁ c₂ a h₁ h₂ e₁ e₂
    rcases hadd.mp e₁ with e₁ | ⟨rfl, rfl, rfl⟩
    · rcases hadd.mp e₂ with e₂ | ⟨-, -, rfl⟩
      · exact hs.inj h₁ h₂ e₁ e₂
      · exact absurd rfl (hs.fresh_ne h₁ e₁)
    · rcases hadd.mp e₂ with e₂ | ⟨rfl, rfl, -⟩
      · exact absurd rfl (hs.fresh_ne h₂ e₂)
      · exact ⟨rfl, rfl⟩
  · intro k' c a hc ha
    rw [hw.area]
    rcases hadd.mp ha with ha | ⟨rfl, rfl, rfl⟩
    · rw [Function.update_of_ne (hs.fresh_ne hc ha), hs.area hc ha]
    · rw [Function.update_self]
      cases k' with
      | mid => exact absurd rfl hk
      | left => rfl
      | right => rfl
  · intro a ha
    obtain ⟨xs, hx, hall⟩ := hR a (hlive.mp ha)
    exact ⟨xs, hx, fun n hn => hlive.mpr (hall n hn)⟩
  · intro k₁ k₂ c₁ c₂ a₁ a₂ h₁ h₂ e₁ e₂
    rcases hadd.mp e₁ with f₁ | ⟨hk₁, hc₁, ha₁⟩
    · rcases hadd.mp e₂ with f₂ | ⟨hk₂, hc₂, ha₂⟩
      · rw [hold _ _ (hlv h₁ f₁) (hlv h₂ f₂)]
        exact hs.same h₁ h₂ f₁ f₂
      · rw [hk₂, hc₂, ha₂]
        constructor
        · intro h
          obtain ⟨h1, h2⟩ := (hnew _ _ _ h₁ f₁).mp h.symm
          exact ⟨h1.symm, h2.symm⟩
        · rintro ⟨h1, h2⟩
          exact ((hnew _ _ _ h₁ f₁).mpr ⟨h1.symm, h2.symm⟩).symm
    · rw [hk₁, hc₁, ha₁]
      rcases hadd.mp e₂ with f₂ | ⟨hk₂, hc₂, ha₂⟩
      · exact hnew _ _ _ h₂ f₂
      · rw [hk₂, hc₂, ha₂]
        exact ⟨fun _ => ⟨hl.rings.self hb, rfl⟩, fun _ => hR.self (.inr rfl)⟩

theorem Splitting.not_live_next (hl : Listed w₀) (hs : Splitting w₀ ma lo hi pc done w) :
    ¬ Live w w.nextArea := by
  intro h
  obtain ⟨c, hc, k, ha⟩ := (hs.live_iff hl).mp h
  exact hs.fresh_ne hc ha rfl

theorem Splitting.addFirst (hs : Splitting w₀ ma lo hi pc done w) (hl : Listed w₀) (hb : Live w₀ b)
    (hk : k ≠ .mid) (hr : SameRing w₀.copies ma b) (hfirst : ∀ c, Live w₀ c → pc k c = none)
    (hw : AddsPart w₀ lo hi pc k b w w') (hc : w'.copies = Circular.init w.copies w.nextArea) :
    Splitting w₀ ma lo hi (pc.add k b w.nextArea) done w' := by
  obtain ⟨hR, hself, hold⟩ := hs.rings.init (hs.not_live_next hl)
  rw [← hc] at hR hself hold
  refine hs.add hl hb hk hr (hfirst b hb) hw hR (fun a a' ha _ => hold a a' ha) ?_
  intro k' c a' hcl ha'
  rw [hself.sameRing, List.mem_singleton]
  constructor
  · intro h
    exact absurd h (hs.fresh_ne hcl ha')
  · rintro ⟨-, rfl⟩
    rw [hfirst c hcl] at ha'
    cases ha'

theorem Splitting.addCopy (hs : Splitting w₀ ma lo hi pc done w) (hl : Listed w₀) (hb : Live w₀ b)
    (hma : Live w₀ ma) (hk : k ≠ .mid) (hr : SameRing w₀.copies ma b) (hn : pc k b = none)
    (hh : pc k ma = some h) (hw : AddsPart w₀ lo hi pc k b w w')
    (hc : w'.copies = append (Circular.init w.copies w.nextArea) h w.nextArea) :
    Splitting w₀ ma lo hi (pc.add k b w.nextArea) done w' := by
  have hlh : Live w h := (hs.live_iff hl).mpr ⟨ma, hma, k, hh⟩
  obtain ⟨hR, hsame⟩ := hs.rings.appendNew hlh (hs.not_live_next hl)
  rw [← hc] at hR hsame
  have hne : ∀ {a}, Live w a → a ≠ w.nextArea := by
    rintro a ha rfl
    exact hs.not_live_next hl ha
  refine hs.add hl hb hk hr hn hw hR ?_ ?_
  · intro a a' ha ha'
    rw [hsame a a' (.inl ha) (.inl ha'), if_neg (hne ha), if_neg (hne ha')]
  · intro k' c a' hcl ha'
    have hla' : Live w a' := (hs.live_iff hl).mpr ⟨c, hcl, k', ha'⟩
    rw [hsame w.nextArea a' (.inr rfl) (.inl hla'), if_pos rfl, if_neg (hne hla'),
      hs.same hma hcl hh ha']
    exact and_congr_left fun _ => ⟨fun h1 => hr.symm.trans h1, fun h1 => hr.trans h1⟩

theorem Splitting.reshape (hs : Splitting w₀ ma lo hi pc done w) (hb : Live w₀ b) :
    Splitting w₀ ma lo hi pc (b :: done) (reshape w b lo hi) := by
  have hwb := hs.area hb (hs.mid b)
  have harea : ∀ {k c a}, Live w₀ c → pc k c = some a →
      (Os5.reshape w b lo hi).area a = k.shape lo hi (c ∈ b :: done) (w₀.area c) := by
    intro k c a hc ha
    unfold Os5.reshape Mem.setArea
    by_cases hab : a = b
    · subst hab
      obtain ⟨rfl, rfl⟩ := hs.inj hc hb ha (hs.mid a)
      simp only [Function.update_self, hwb]
      by_cases hd : c ∈ done <;> simp [Part.shape, hd]
    · show Function.update w.area b _ a = _
      rw [Function.update_of_ne hab, hs.area hc ha]
      cases k with
      | left => rfl
      | right => rfl
      | mid =>
        have hcb : c ≠ b := by
          rintro rfl
          exact hab (Option.some.inj (ha.symm.trans (hs.mid c)))
        simp [Part.shape, hcb]
  have howner : ∀ a, ((Os5.reshape w b lo hi).area a).owner = (w.area a).owner := by
    intro a
    unfold Os5.reshape Mem.setArea
    by_cases hab : a = b
    · subst hab
      simp
    · simp [hab]
  have hlive : ∀ a, Live (Os5.reshape w b lo hi) a ↔ Live w a := by
    intro a
    unfold Live
    rw [howner]
    rfl
  refine { hs with area := harea, rings := ?_ }
  intro a ha
  obtain ⟨xs, hx, hall⟩ := hs.rings a ((hlive a).mp ha)
  exact ⟨xs, hx, fun n hn => (hlive n).mpr (hall n hn)⟩

-- ---------------------------------------------------------------------------
-- The loop over the copies
-- ---------------------------------------------------------------------------

/-- Between two turns of the loop: exactly the reshaped areas have lost the side parts. -/
structure Carved (w₀ : Mem) (ma lo hi : Nat) (left right : Option Nat) (pc : Parts) (done : List Nat)
    (w : Mem) : Prop extends Splitting w₀ ma lo hi pc done w where
  headLeft : pc .left ma = left
  headRight : pc .right ma = right
  lefts : ∀ c, (pc .left c).isSome = true ↔ left.isSome = true ∧ c ∈ done
  rights : ∀ c, (pc .right c).isSome = true ↔ right.isSome = true ∧ c ∈ done

theorem Parts.isSome_add {k' : Part} {c n : Nat} :
    (pc.add k b n k' c).isSome = true ↔ (pc k' c).isSome = true ∨ k' = k ∧ c = b := by
  by_cases hk : k' = k
  · subst hk
    by_cases hc : c = b
    · subst hc
      simp [Parts.add]
    · simp [Parts.add, hc]
  · simp [Parts.add, hk]

theorem Parts.add_of_ne {k' : Part} {c n : Nat} (h : k' ≠ k ∨ c ≠ b) : pc.add k b n k' c = pc k' c := by
  by_cases hk : k' = k
  · subst hk
    simp [Parts.add, h.resolve_left (fun h => h rfl)]
  · simp [Parts.add, hk]

theorem copyLeft_spec {left : Option Nat} (h : Splitting w₀ ma lo hi pc done w) (hl : Listed w₀)
    (hma : Live w₀ ma) (hb : Live w₀ b) (hr : SameRing w₀.copies ma b) (hd : b ∉ done)
    (hmb : ma ≠ b) (hn : pc .left b = none) (hh : pc .left ma = left) :
    ∃ pc', Splitting w₀ ma lo hi pc' done (copyLeft left lo w b) ∧ pc' .right = pc .right ∧
      (∀ c, (pc' .left c).isSome = true ↔
        (pc .left c).isSome = true ∨ left.isSome = true ∧ c = b) ∧ pc' .left ma = pc .left ma := by
  cases left with
  | none => exact ⟨pc, h, rfl, by simp, rfl⟩
  | some left =>
    refine ⟨_, h.addCopy hl hb hma (by simp) hr hn hh
      ((splitLeft_adds hl h hb hd hn).withCopies _) rfl, ?_, ?_, ?_⟩
    · exact funext fun c => Parts.add_of_ne (.inl (by simp))
    · intro c
      rw [Parts.isSome_add]
      simp
    · exact Parts.add_of_ne (.inr hmb)

theorem copyRight_spec {right : Option Nat} (h : Splitting w₀ ma lo hi pc done w) (hl : Listed w₀)
    (hma : Live w₀ ma) (hb : Live w₀ b) (hr : SameRing w₀.copies ma b) (hd : b ∉ done)
    (hmb : ma ≠ b) (hn : pc .right b = none) (hh : pc .right ma = right) :
    ∃ pc', Splitting w₀ ma lo hi pc' done (copyRight right hi w b) ∧ pc' .left = pc .left ∧
      (∀ c, (pc' .right c).isSome = true ↔
        (pc .right c).isSome = true ∨ right.isSome = true ∧ c = b) ∧
      pc' .right ma = pc .right ma := by
  cases right with
  | none => exact ⟨pc, h, rfl, by simp, rfl⟩
  | some right =>
    refine ⟨_, h.addCopy hl hb hma (by simp) hr hn hh
      ((splitRight_adds hl h hb hd hn).withCopies _) rfl, ?_, ?_, ?_⟩
    · exact funext fun c => Parts.add_of_ne (.inl (by simp))
    · intro c
      rw [Parts.isSome_add]
      simp
    · exact Parts.add_of_ne (.inr hmb)

theorem splitCopy_spec {left right : Option Nat} (h : Carved w₀ ma lo hi left right pc done w)
    (hl : Listed w₀) (hma : Live w₀ ma) (hb : Live w₀ b) (hr : SameRing w₀.copies ma b)
    (hd : b ∉ done) (hmad : ma ∈ done) :
    ∃ pc', Carved w₀ ma lo hi left right pc' (b :: done) (splitCopy left right lo hi w b) := by
  have hmb : ma ≠ b := fun e => hd (e ▸ hmad)
  have hnl : pc .left b = none := by
    rw [← Option.not_isSome_iff_eq_none, h.lefts]
    exact fun hh => hd hh.2
  have hnr : pc .right b = none := by
    rw [← Option.not_isSome_iff_eq_none, h.rights]
    exact fun hh => hd hh.2
  obtain ⟨pc1, h1, hr1, hl1, hm1⟩ := copyLeft_spec h.toSplitting hl hma hb hr hd hmb hnl h.headLeft
  obtain ⟨pc2, h2, hl2, hr2, hm2⟩ := copyRight_spec h1 hl hma hb hr hd hmb (by rw [hr1, hnr])
    (by rw [hr1, h.headRight])
  refine ⟨pc2, { h2.reshape hb with headLeft := ?_, headRight := ?_, lefts := ?_, rights := ?_ }⟩
  · rw [hl2, hm1, h.headLeft]
  · rw [hm2, hr1, h.headRight]
  · intro c
    rw [hl2, hl1, h.lefts, List.mem_cons]
    tauto
  · intro c
    rw [hr2, hr1, h.rights, List.mem_cons]
    tauto

theorem splitCopies_spec {left right : Option Nat} {mids : List Nat}
    (h : Carved w₀ ma lo hi left right pc done w) (hl : Listed w₀) (hma : Live w₀ ma)
    (hmids : ∀ b ∈ mids, Live w₀ b ∧ SameRing w₀.copies ma b ∧ b ∉ done) (hnd : mids.Nodup)
    (hmad : ma ∈ done) :
    ∃ pc' done', Carved w₀ ma lo hi left right pc' done' (mids.foldl (splitCopy left right lo hi) w) ∧
      ∀ b, b ∈ done' ↔ b ∈ mids ∨ b ∈ done := by
  induction mids generalizing w pc done with
  | nil => exact ⟨pc, done, h, by simp⟩
  | cons b mids ih =>
    obtain ⟨hb, hr, hd⟩ := hmids b (by simp)
    obtain ⟨hbn, hnd⟩ := List.nodup_cons.mp hnd
    obtain ⟨pc1, h1⟩ := splitCopy_spec h hl hma hb hr hd hmad
    obtain ⟨pc2, done2, h2, hmem⟩ := ih h1 (fun c hc => by
      obtain ⟨h1, h2, h3⟩ := hmids c (by simp [hc])
      refine ⟨h1, h2, ?_⟩
      simp only [List.mem_cons, not_or]
      exact ⟨fun e => hbn (e ▸ hc), h3⟩) hnd (by simp [hmad])
    refine ⟨pc2, done2, h2, fun c => ?_⟩
    rw [hmem, List.mem_cons, List.mem_cons]
    tauto

theorem splitHead_spec (lo hi : Nat) (hl : Listed w₀) (hma : Live w₀ ma) :
    ∃ pc, Carved w₀ ma lo hi (headLeft w₀ ma lo).1 (headRight (headLeft w₀ ma lo).2 ma hi).1 pc [ma]
        (reshape (headRight (headLeft w₀ ma lo).2 ma hi).2 ma lo hi) ∧
      ((headLeft w₀ ma lo).1.isSome = true ↔ (w₀.area ma).start < lo) ∧
      ((headRight (headLeft w₀ ma lo).2 ma hi).1.isSome = true ↔ hi < (w₀.area ma).stop) := by
  have hself : SameRing w₀.copies ma ma := hl.rings.self hma
  obtain ⟨pc1, h1, hleft, hlefts, hr1, hsome1⟩ : ∃ pc, Splitting w₀ ma lo hi pc [] (headLeft w₀ ma lo).2 ∧
      pc .left ma = (headLeft w₀ ma lo).1 ∧ (∀ c, c ≠ ma → pc .left c = none) ∧
      (∀ c, pc .right c = none) ∧ ((headLeft w₀ ma lo).1.isSome = true ↔ (w₀.area ma).start < lo) := by
    unfold headLeft
    split
    · next h =>
      have h0 : Splitting w₀ ma lo hi _ [] w₀ := Splitting.start hl
      refine ⟨_, h0.addFirst hl hma (k := .left) (by simp) hself (by simp)
        (splitLeft_adds hl h0 hma (by simp) (by simp)) rfl, ?_, ?_, ?_, by simpa using h⟩
      · simp [Parts.add, splitLeft, allocArea]
      · intro c hc
        rw [Parts.add_of_ne (.inr hc)]
        simp
      · intro c
        rw [Parts.add_of_ne (.inl (by simp))]
        simp
    · next h => exact ⟨_, Splitting.start hl, by simp, by simp, by simp, by simpa using h⟩
  have harea : (headLeft w₀ ma lo).2.area ma = w₀.area ma := by
    rw [h1.area hma (h1.mid ma)]
    simp [Part.shape]
  generalize (headLeft w₀ ma lo).1 = left at *
  generalize (headLeft w₀ ma lo).2 = w1 at *
  obtain ⟨pc2, h2, hright, hrights, hl2, hsome2⟩ : ∃ pc, Splitting w₀ ma lo hi pc [] (headRight w1 ma hi).2 ∧
      pc .right ma = (headRight w1 ma hi).1 ∧ (∀ c, c ≠ ma → pc .right c = none) ∧
      pc .left = pc1 .left ∧ ((headRight w1 ma hi).1.isSome = true ↔ hi < (w₀.area ma).stop) := by
    unfold headRight
    rw [harea]
    split
    · next h =>
      refine ⟨_, h1.addFirst hl hma (k := .right) (by simp) hself (fun c _ => hr1 c)
        (splitRight_adds hl h1 hma (by simp) (hr1 ma)) rfl, ?_, ?_, ?_, by simpa using h⟩
      · simp [Parts.add, splitRight, allocArea]
      · intro c hc
        rw [Parts.add_of_ne (.inr hc), hr1]
      · exact funext fun c => Parts.add_of_ne (.inl (by simp))
    · next h => exact ⟨pc1, h1, hr1 ma, fun c _ => hr1 c, rfl, by simpa using h⟩
  refine ⟨pc2, { h2.reshape hma with headLeft := ?_, headRight := hright, lefts := ?_, rights := ?_ },
    hsome1, hsome2⟩
  · rw [hl2, hleft]
  · intro c
    rw [hl2, List.mem_singleton]
    by_cases hc : c = ma
    · simp [hc, hleft]
    · simp [hc, hlefts c hc]
  · intro c
    rw [List.mem_singleton]
    by_cases hc : c = ma
    · simp [hc, hright]
    · simp [hc, hrights c hc]

-- ---------------------------------------------------------------------------
-- The whole split
-- ---------------------------------------------------------------------------

/-- The addresses of all processes are grouped into areas in another way: with the
same flags, and with the same others in the ring at every address. -/
structure Regroups (w w' : Mem) : Prop where
  machine : w'.machine = w.machine
  nextPid : w'.nextPid = w.nextPid
  current : w'.current = w.current
  pd : ∀ p, w'.pd p = w.pd p
  stackLimit : ∀ p, (w'.proc p).stackLimit = (w.proc p).stackLimit
  down : ∀ {p x a'}, At w' p x a' → ∃ a, At w p x a ∧ (w'.area a').flags = (w.area a).flags ∧
    (w'.area a').type = (w.area a).type
  up : ∀ {p x a}, At w p x a → ∃ a', At w' p x a'
  ring : ∀ {p q x a b a' b'}, At w p x a → At w q x b → At w' p x a' → At w' q x b' →
    (SameRing w'.copies a' b' ↔ SameRing w.copies a b)

theorem Regroups.refl (hl : Layout w) : Regroups w w where
  machine := rfl
  nextPid := rfl
  current := rfl
  pd _ := rfl
  stackLimit _ := rfl
  down h := ⟨_, h, rfl, rfl⟩
  up h := ⟨_, h⟩
  ring h1 h2 h3 h4 := by rw [hl.apart h1 h3, hl.apart h2 h4]

/-- The part of an area the address `x` falls into. -/
def Part.at (lo hi x : Nat) : Part := if x < lo then .left else if x < hi then .mid else .right

theorem Part.shape_covers {v : MemArea} {x : Nat} (h1 : v.start ≤ lo) (h2 : lo ≤ hi) (h3 : hi ≤ v.stop) :
    (k.shape lo hi true v).covers x = true ↔ v.covers x = true ∧ k = Part.at lo hi x := by
  unfold Part.at
  cases k <;> simp only [Part.shape, MemArea.covers_iff, if_true] <;> split_ifs <;>
    simp only [and_false, and_true, iff_false] <;> omega

/-- The split of a whole ring: `done` are the members of the ring of `ma`. -/
structure Cut (w₀ : Mem) (ma lo hi : Nat) (pc : Parts) (done : List Nat) (w : Mem) : Prop
    extends Splitting w₀ ma lo hi pc done w where
  ring : ∀ b, b ∈ done ↔ SameRing w₀.copies ma b
  lo_page : pageMask lo = lo
  hi_page : pageMask hi = hi
  le : lo ≤ hi
  within : (w₀.area ma).start ≤ lo ∧ hi ≤ (w₀.area ma).stop
  hasLeft : ∀ b ∈ done, (pc .left b).isSome = true ↔ (w₀.area ma).start < lo
  hasRight : ∀ b ∈ done, (pc .right b).isSome = true ↔ hi < (w₀.area ma).stop

def SameRanges (w : Mem) (ma : Nat) : Prop :=
  ∀ b, SameRing w.copies ma b → (w.area ma).start = (w.area b).start ∧ (w.area ma).stop = (w.area b).stop

theorem Cut.inside (hc : Cut w₀ ma lo hi pc done w) (hr : SameRanges w₀ ma) (hb : b ∈ done) :
    (w₀.area b).start ≤ lo ∧ hi ≤ (w₀.area b).stop := by
  obtain ⟨h1, h2⟩ := hr b ((hc.ring b).mp hb)
  rw [← h1, ← h2]
  exact hc.within

theorem Cut.mid_of_not_done (hc : Cut w₀ ma lo hi pc done w) (hb : b ∉ done) {a : Nat}
    (ha : pc k b = some a) : k = .mid := by
  by_contra hk
  exact hb ((hc.ring b).mpr (hc.side hk ha).2)

theorem Cut.at_iff (hc : Cut w₀ ma lo hi pc done w) (hl : Listed w₀) (hr : SameRanges w₀ ma) {x a : Nat} :
    At w p x a ↔ ∃ b, At w₀ p x b ∧ ∃ k, pc k b = some a ∧ (b ∈ done → k = Part.at lo hi x) := by
  have hcov : ∀ {b k}, Live w₀ b → pc k b = some a → ((w.area a).covers x = true ↔
      (w₀.area b).covers x = true ∧ (b ∈ done → k = Part.at lo hi x)) := by
    intro b k hb ha
    rw [hc.area hb ha]
    by_cases hd : b ∈ done
    · have := hc.inside hr hd
      simp only [hd, decide_true]
      rw [Part.shape_covers this.1 hc.le this.2]
      simp
    · rw [hc.mid_of_not_done hd ha]
      simp [Part.shape, hd]
  unfold At
  rw [hc.mem_iff]
  constructor
  · rintro ⟨⟨b, hb, k, ha⟩, hx⟩
    obtain ⟨h1, h2⟩ := (hcov (hl.live hb) ha).mp hx
    exact ⟨b, ⟨hb, h1⟩, k, ha, h2⟩
  · rintro ⟨b, ⟨hb, h1⟩, k, ha, h2⟩
    exact ⟨⟨b, hb, k, ha⟩, (hcov (hl.live hb) ha).mpr ⟨h1, h2⟩⟩

theorem Cut.exists_part (hc : Cut w₀ ma lo hi pc done w) (hr : SameRanges w₀ ma) {x : Nat}
    (hx : (w₀.area b).covers x = true) :
    ∃ k a, pc k b = some a ∧ (b ∈ done → k = Part.at lo hi x) := by
  by_cases hd : b ∈ done
  swap
  · exact ⟨.mid, b, hc.mid b, fun h => absurd h hd⟩
  obtain ⟨h1, h2⟩ := hr b ((hc.ring b).mp hd)
  rw [MemArea.covers_iff, ← h1, ← h2] at hx
  suffices h : (pc (Part.at lo hi x) b).isSome = true by
    obtain ⟨a, ha⟩ := Option.isSome_iff_exists.mp h
    exact ⟨_, a, ha, fun _ => rfl⟩
  unfold Part.at
  split_ifs with hlo hhi
  · exact (hc.hasLeft b hd).mpr (by omega)
  · rw [hc.mid]
    rfl
  · exact (hc.hasRight b hd).mpr (by omega)

theorem Cut.part_unique (hc : Cut w₀ ma lo hi pc done w) {k' : Part} {a a' x : Nat} (ha : pc k b = some a)
    (ha' : pc k' b = some a') (h : b ∈ done → k = Part.at lo hi x) (h' : b ∈ done → k' = Part.at lo hi x) :
    a = a' := by
  have : k = k' := by
    by_cases hd : b ∈ done
    · rw [h hd, h' hd]
    · rw [hc.mid_of_not_done hd ha, hc.mid_of_not_done hd ha']
  subst this
  exact Option.some.inj (ha.symm.trans ha')

theorem Cut.part_range (hc : Cut w₀ ma lo hi pc done w) (hr : SameRanges w₀ ma) (hb : Live w₀ b)
    {a : Nat} (ha : pc k b = some a) :
    (w₀.area b).start ≤ (w.area a).start ∧ (w.area a).stop ≤ (w₀.area b).stop := by
  rw [hc.area hb ha]
  by_cases hd : b ∈ done
  · have := hc.inside hr hd
    have := hc.le
    cases k <;> simp only [Part.shape, hd, decide_true, if_true] <;> omega
  · rw [hc.mid_of_not_done hd ha]
    simp [Part.shape, hd]

theorem Cut.aligned (hc : Cut w₀ ma lo hi pc done w) (hl : Lists w₀) (hr : SameRanges w₀ ma) (hb : Live w₀ b)
    {a : Nat} (ha : pc k b = some a) : (w.area a).Aligned := by
  have h := hl.wf hb
  have hlt := Nat.lt_of_le_of_lt (hc.part_range hr hb ha).2 h.lt
  rw [hc.area hb ha] at hlt ⊢
  by_cases hd : b ∈ done
  · obtain ⟨h1, h2⟩ := hc.inside hr hd
    cases k with
    | left => exact ⟨h.start, hc.lo_page, h1, hlt⟩
    | mid =>
      simp only [Part.shape, hd, decide_true, if_true] at hlt ⊢
      exact ⟨hc.lo_page, hc.hi_page, hc.le, hlt⟩
    | right => exact ⟨hc.hi_page, h.stop, h2, hlt⟩
  · rw [hc.mid_of_not_done hd ha] at hlt ⊢
    simpa [Part.shape, hd] using h

theorem Cut.ring_parts (hc : Cut w₀ ma lo hi pc done w) (hl : Listed w₀) {a a' : Nat} (h : Live w a)
    (hs : SameRing w.copies a a') : ∃ b b' k, Live w₀ b ∧ Live w₀ b' ∧ pc k b = some a ∧ pc k b' = some a' ∧
      SameRing w₀.copies b b' := by
  obtain ⟨b, hb, k, ha⟩ := (hc.live_iff hl).mp h
  obtain ⟨b', hb', k', ha'⟩ := (hc.live_iff hl).mp (hc.rings.closed h hs)
  obtain ⟨hs0, rfl⟩ := (hc.same hb hb' ha ha').mp hs
  exact ⟨b, b', k, hb, hb', ha, ha', hs0⟩

theorem Cut.part_ranges (hc : Cut w₀ ma lo hi pc done w) {b' a a' : Nat} (hb : Live w₀ b) (hb' : Live w₀ b')
    (ha : pc k b = some a) (ha' : pc k b' = some a') (hs : SameRing w₀.copies b b')
    (hr : (w₀.area b).start = (w₀.area b').start ∧ (w₀.area b).stop = (w₀.area b').stop) :
    (w.area a).start = (w.area a').start ∧ (w.area a).stop = (w.area a').stop := by
  have hd : b ∈ done ↔ b' ∈ done := by
    rw [hc.ring, hc.ring]
    exact ⟨fun h => h.trans hs, fun h => h.trans hs.symm⟩
  rw [hc.area hb ha, hc.area hb' ha']
  cases k with
  | left => exact ⟨hr.1, rfl⟩
  | right => exact ⟨rfl, hr.2⟩
  | mid =>
    simp only [Part.shape]
    by_cases h1 : b ∈ done
    · simp [h1, hd.mp h1]
    · simpa [h1, mt hd.mpr h1] using hr

theorem Cut.lists (hc : Cut w₀ ma lo hi pc done w) (hl : Lists w₀) (hr : SameRanges w₀ ma) : Lists w where
  owner h := by
    obtain ⟨b, hb, k, ha⟩ := hc.mem_iff.mp h
    rw [hc.owner (hl.live hb) ha, hl.owner hb]
  living h := by
    obtain ⟨b, hb, -⟩ := hc.mem_iff.mp h
    have := hl.living hb
    unfold Mem.living at this ⊢
    rwa [hc.nextPid]
  nodup q := by
    rw [hc.mem, List.nodup_flatMap]
    refine ⟨fun b hb => ?_, ?_⟩
    · have hb := hl.live hb
      have hne : ∀ {k k' a a'}, pc k b = some a → pc k' b = some a' → k ≠ k' → a ≠ a' := by
        rintro k k' a a' h h' hk rfl
        exact hk (hc.inj hb hb h h').1
      unfold Parts.list
      rw [hc.mid]
      cases hL : pc .left b with
      | none =>
        cases hR : pc .right b with
        | none => simp
        | some r => simpa using hne (hc.mid b) hR (by simp)
      | some l =>
        have h1 := hne hL (hc.mid b) (by simp)
        cases hR : pc .right b with
        | none => simpa using h1
        | some r =>
          have h2 := hne (hc.mid b) hR (by simp)
          have h3 := hne hL hR (by simp)
          simp [h1, h2, h3]
    · refine (hl.nodup q).pairwise_of_forall_ne fun b hb c hcm hbc a h1 h2 => ?_
      obtain ⟨k, h1⟩ := Parts.mem_list.mp h1
      obtain ⟨k', h2⟩ := Parts.mem_list.mp h2
      exact hbc (hc.inj (hl.live hb) (hl.live hcm) h1 h2).2
  fresh h := by
    obtain ⟨b, hb, k, ha⟩ := hc.mem_iff.mp h
    exact hc.fresh (hl.live hb) ha
  wf h := by
    obtain ⟨b, hb, k, ha⟩ := hc.mem_iff.mp h
    exact hc.aligned hl hr (hl.live hb) ha
  rings := hc.rings
  copies h hs hcow := by
    obtain ⟨b, b', k, hb, hb', ha, ha', hs0⟩ := hc.ring_parts hl.listed h hs
    rw [hc.area hb ha, Part.shape_flags] at hcow
    obtain ⟨h1, h2⟩ := hl.copies hb hs0 hcow
    refine ⟨?_, hc.part_ranges hb hb' ha ha' hs0 h2⟩
    rw [hc.area hb' ha', Part.shape_flags]
    exact h1
  lone h hs hw hcow := by
    obtain ⟨b, b', k, hb, hb', ha, ha', hs0⟩ := hc.ring_parts hl.listed h hs
    rw [hc.area hb ha, Part.shape_flags] at hw hcow
    obtain rfl := hl.lone hb hs0 hw hcow
    exact Option.some.inj (ha'.symm.trans ha)

theorem Layout.sameRanges (hl : Layout w₀) (hma : Live w₀ ma) : SameRanges w₀ ma := fun _ hb => hl.range hma hb

theorem Cut.layout (hc : Cut w₀ ma lo hi pc done w) (hl : Layout w₀) (hma : Live w₀ ma) : Layout w := by
  have hr := hl.sameRanges hma
  have hlists := hc.lists hl.lists hr
  refine ⟨hlists.owner, hlists.living, hlists.nodup, hlists.fresh, fun h => ?_, fun h h' => ?_, hc.rings,
    fun h hs => ?_, fun h hs hne => ?_, fun h => ?_⟩
  · obtain ⟨b, hb, k, ha⟩ := hc.mem_iff.mp h
    have hal := hlists.wf h
    have hbelow := (hl.wf hb).below
    exact ⟨hal.start, hal.stop, hal.le, (hc.part_range hr (hl.live hb) ha).2.trans hbelow⟩
  · obtain ⟨b, hb, k, ha, hk⟩ := (hc.at_iff hl.lists.listed hr).mp h
    obtain ⟨b', hb', k', ha', hk'⟩ := (hc.at_iff hl.lists.listed hr).mp h'
    obtain rfl := hl.apart hb hb'
    exact hc.part_unique ha ha' hk hk'
  · obtain ⟨b, b', k, hb, hb', ha, ha', hs0⟩ := hc.ring_parts hl.lists.listed h hs
    exact hc.part_ranges hb hb' ha ha' hs0 (hl.range hb hs0)
  · obtain ⟨b, b', k, hb, hb', ha, ha', hs0⟩ := hc.ring_parts hl.lists.listed h hs
    rw [hc.area hb ha, Part.shape_flags]
    refine hl.cow hb hs0 ?_
    rintro rfl
    exact hne (Option.some.inj (ha.symm.trans ha'))
  · obtain ⟨b, hb, k, ha⟩ := hc.mem_iff.mp h
    rw [hc.area (hl.live hb) ha, Part.shape_flags]
    exact hl.flags hb

theorem Cut.regroups (hc : Cut w₀ ma lo hi pc done w) (hl : Layout w₀) (hma : Live w₀ ma) :
    Regroups w₀ w where
  machine := hc.machine
  nextPid := hc.nextPid
  current := hc.current
  pd := hc.pd
  stackLimit := hc.stackLimit
  down h := by
    obtain ⟨b, hb, k, ha, -⟩ := (hc.at_iff hl.lists.listed (hl.sameRanges hma)).mp h
    exact ⟨b, hb, by rw [hc.area (hl.live hb.1) ha, Part.shape_flags],
      by rw [hc.area (hl.live hb.1) ha, Part.shape_type]⟩
  up h := by
    obtain ⟨k, a', ha', hk⟩ := hc.exists_part (hl.sameRanges hma) h.2
    exact ⟨a', (hc.at_iff hl.lists.listed (hl.sameRanges hma)).mpr ⟨_, h, k, ha', hk⟩⟩
  ring := by
    intro p q x a b a' b' h1 h2 h1' h2'
    obtain ⟨b, hb, k, ha, hk⟩ := (hc.at_iff hl.lists.listed (hl.sameRanges hma)).mp h1'
    obtain ⟨b', hb', k', ha', hk'⟩ := (hc.at_iff hl.lists.listed (hl.sameRanges hma)).mp h2'
    obtain rfl := hl.apart h1 hb
    obtain rfl := hl.apart h2 hb'
    rw [hc.same (hl.live hb.1) (hl.live hb'.1) ha ha', and_iff_left_iff_imp]
    intro hs
    -- both addresses are the same, so both areas lost the same part or none
    by_cases hd : a ∈ done
    · have hd' := (hc.ring _).mpr (((hc.ring _).mp hd).trans hs)
      rw [hk hd, hk' hd']
    · have hd' := fun h => hd ((hc.ring _).mpr (((hc.ring _).mp h).trans hs.symm))
      rw [hc.mid_of_not_done hd ha, hc.mid_of_not_done hd' ha']

theorem Cut.ordered (hc : Cut w₀ ma lo hi pc done w) (hl : Listed w₀) (hr : SameRanges w₀ ma)
    (ho : Ordered w₀ p) : Ordered w p := by
  unfold Ordered
  rw [hc.mem, List.pairwise_flatMap]
  refine ⟨fun b hb => ?_, ?_⟩
  · have hb := hl.live hb
    by_cases hd : b ∈ done
    · have h1 := hc.area hb (hc.mid b)
      have hle := hc.le
      unfold Parts.list
      rw [hc.mid]
      cases hL : pc .left b <;> cases hR : pc .right b
      · simp
      · have h3 := hc.area hb hR
        simp [h1, h3, Part.shape, hd]
      · have h2 := hc.area hb hL
        simp [h1, h2, Part.shape, hd]
      · have h2 := hc.area hb hL
        have h3 := hc.area hb hR
        simp [h1, h2, h3, Part.shape, hd, hle]
    · have hL : pc .left b = none := by
        rw [Option.eq_none_iff_forall_ne_some]
        intro a ha
        cases hc.mid_of_not_done hd ha
      have hR : pc .right b = none := by
        rw [Option.eq_none_iff_forall_ne_some]
        intro a ha
        cases hc.mid_of_not_done hd ha
      simp [Parts.list, hc.mid, hL, hR]
  · refine ho.imp_of_mem fun {b c} hb hcm h a ha a' ha' => ?_
    obtain ⟨k, ha⟩ := Parts.mem_list.mp ha
    obtain ⟨k', ha'⟩ := Parts.mem_list.mp ha'
    have h1 := hc.part_range hr (hl.live hb) ha
    have h2 := hc.part_range hr (hl.live hcm) ha'
    omega

theorem Splitting.ring_length (hs : Splitting w₀ ma lo hi pc done w) (hl : Listed w₀) {a : Nat}
    {xs : List Nat} (hx : Ring w.copies a xs) (ha : Live w a) : xs.length ≤ w.nextArea := by
  have hsub : xs ⊆ List.range w.nextArea := by
    intro n hn
    obtain ⟨b, hb, k, hk⟩ := (hs.live_iff hl).mp
      (hs.rings.closed ha (hx.sameRing.mpr (List.mem_cons_of_mem _ hn)))
    exact List.mem_range.mpr (hs.fresh hb hk)
  simpa using (hx.nodup.of_cons.subperm hsub).length_le

theorem splitArea_cut (hl : Listed w₀) (hma : Live w₀ ma) (hlo : pageMask lo = lo)
    (hhi : pageMask hi = hi) (hle : lo ≤ hi) (h1 : (w₀.area ma).start ≤ lo)
    (h2 : hi ≤ (w₀.area ma).stop) : ∃ w, splitArea w₀ ma lo hi = .ok w ∧
      (w = w₀ ∧ ((w₀.area ma).start = lo ∧ (w₀.area ma).stop = hi) ∨ ∃ pc done, Cut w₀ ma lo hi pc done w) := by
  unfold splitArea
  simp only [hlo, hhi]
  split
  · next h =>
    exact ⟨w₀, rfl, .inl ⟨rfl, h⟩⟩
  obtain ⟨pc, hcarved, hleft, hright⟩ := splitHead_spec lo hi hl hma
  generalize (headLeft w₀ ma lo).1 = left at *
  generalize (headLeft w₀ ma lo).2 = w1 at *
  generalize (headRight w1 ma hi).1 = right at *
  generalize reshape (headRight w1 ma hi).2 ma lo hi = w2 at *
  have hs := hcarved.toSplitting
  have hlive : ∀ {b}, Live w₀ b → Live w2 b := fun hb =>
    (hs.live_iff hl).mpr ⟨_, hb, .mid, hs.mid _⟩
  obtain ⟨mids, hring, hmids⟩ := hs.rings ma (hlive hma)
  -- the ring of `ma` holds the old copies only
  have hmem : ∀ b, b ∈ mids ↔ SameRing w₀.copies ma b ∧ b ≠ ma := by
    intro b
    constructor
    · intro hb
      have hsame := hring.sameRing.mpr (List.mem_cons_of_mem _ hb)
      obtain ⟨c, hc, k, hk⟩ := (hs.live_iff hl).mp (hmids b hb)
      obtain ⟨hr, rfl⟩ := (hs.same hma hc (hs.mid ma) hk).mp hsame
      obtain rfl := Option.some.inj ((hs.mid c).symm.trans hk)
      refine ⟨hr, ?_⟩
      rintro rfl
      exact hring.not_mem hb
    · rintro ⟨hr, hne⟩
      have hc := hl.rings.closed hma hr
      have := hring.sameRing.mp ((hs.same hma hc (hs.mid ma) (hs.mid b)).mpr ⟨hr, rfl⟩)
      exact (List.mem_cons.mp this).resolve_left hne
  rw [hring.members (hs.ring_length hl hring (hlive hma))]
  obtain ⟨pc', done, hfin, hdone⟩ := splitCopies_spec hcarved hl hma (fun b hb => by
    obtain ⟨hr, hne⟩ := (hmem b).mp hb
    exact ⟨hl.rings.closed hma hr, hr, by simpa using hne⟩) hring.nodup.of_cons (by simp)
  have hcut : Cut w₀ ma lo hi pc' done (mids.foldl (splitCopy left right lo hi) w2) := by
    refine { hfin.toSplitting with
             ring := ?_, lo_page := hlo, hi_page := hhi, le := hle, within := ⟨h1, h2⟩
             hasLeft := ?_, hasRight := ?_ }
    · intro b
      rw [hdone, hmem, List.mem_singleton]
      by_cases hb : b = ma
      · subst hb
        simp [hl.rings.self hma]
      · simp [hb]
    · intro b hb
      rw [hfin.lefts, hleft]
      simp [hb]
    · intro b hb
      rw [hfin.rights, hright]
      simp [hb]
  exact ⟨_, rfl, .inr ⟨pc', done, hcut⟩⟩

theorem Cut.area_self (hc : Cut w₀ ma lo hi pc done w) (hl : Listed w₀) (hma : Live w₀ ma) :
    Live w ma ∧ w.area ma = { w₀.area ma with start := lo, stop := hi } := by
  refine ⟨(hc.live_iff hl).mpr ⟨ma, hma, .mid, hc.mid ma⟩, ?_⟩
  rw [hc.area hma (hc.mid ma)]
  simp [Part.shape, (hc.ring ma).mpr (hl.rings.self hma)]

/-- A split of a part out of an area: it is carried through, the layout is kept, and
each address is in an area with the same flags and company as before. -/
theorem splitArea_spec (hl : Layout w₀) (hma : Live w₀ ma) (hlo : pageMask lo = lo)
    (hhi : pageMask hi = hi) (hle : lo ≤ hi) (h1 : (w₀.area ma).start ≤ lo)
    (h2 : hi ≤ (w₀.area ma).stop) :
    ∃ w, splitArea w₀ ma lo hi = .ok w ∧ Layout w ∧ Regroups w₀ w ∧
      (∀ p, Ordered w₀ p → Ordered w p) ∧ Live w ma ∧
      w.area ma = { w₀.area ma with start := lo, stop := hi } := by
  obtain ⟨w, hw, ⟨rfl, h⟩ | ⟨pc, done, hcut⟩⟩ := splitArea_cut hl.lists.listed hma hlo hhi hle h1 h2
  · refine ⟨w, hw, hl, .refl hl, fun _ h => h, hma, ?_⟩
    rw [← h.1, ← h.2]
  · obtain ⟨hlive, harea⟩ := hcut.area_self hl.lists.listed hma
    exact ⟨w, hw, hcut.layout hl hma, hcut.regroups hl hma,
      fun p ho => hcut.ordered hl.lists.listed (hl.sameRanges hma) ho, hlive, harea⟩

end

end Os5
