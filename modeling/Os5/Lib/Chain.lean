import Mathlib.Tactic

/-!
# Chains that end in a null pointer

Nodes carry a `next` and a `prev` link that may be null; a chain is entered by a pointer to
its first node. `Chain h b c l` says what a well-formed chain is: from `c` on the nodes of
`l` in order and then a null pointer, each with the node before it as its `prev`, the first
one with `b`.
-/

namespace Linear

structure Links (ν : Type*) where
  next : ν → Option ν
  prev : ν → Option ν

section
variable {ν : Type*} {h h' : Links ν} {b b' c : Option ν} {l l' pre post : List ν} {x y p : ν}

def Chain (h : Links ν) : Option ν → Option ν → List ν → Prop
  | _, c, [] => c = none
  | b, c, x :: l => c = some x ∧ h.prev x = b ∧ Chain h (some x) (h.next x) l

@[simp] theorem chain_nil : Chain h b c [] ↔ c = none := Iff.rfl

@[simp] theorem chain_cons :
    Chain h b c (x :: l) ↔ c = some x ∧ h.prev x = b ∧ Chain h (some x) (h.next x) l := Iff.rfl

theorem Chain.congr (hc : Chain h b c l) (hsame : ∀ x ∈ l, h'.next x = h.next x ∧ h'.prev x = h.prev x) :
    Chain h' b c l := by
  induction l generalizing b c with
  | nil => exact hc
  | cons x l ih =>
    obtain ⟨hx, hprev, hrest⟩ := hc
    obtain ⟨h1, h2⟩ := hsame x List.mem_cons_self
    refine ⟨hx, h2.trans hprev, ?_⟩
    rw [h1]
    exact ih hrest fun y hy => hsame y (List.mem_cons_of_mem _ hy)

/-- A pointer is the start of one chain at most. -/
theorem Chain.unique (hc : Chain h b c l) (hc' : Chain h b' c l') : l = l' := by
  induction l generalizing b b' c l' with
  | nil =>
    obtain rfl : c = none := hc
    cases l' with
    | nil => rfl
    | cons y l' => cases hc'.1
  | cons x l ih =>
    obtain ⟨rfl, -, hrest⟩ := hc
    cases l' with
    | nil => cases hc'
    | cons y l' =>
      obtain ⟨hy, -, hrest'⟩ := hc'
      obtain rfl := Option.some.inj hy
      rw [ih hrest hrest']

theorem Chain.split (hc : Chain h b c (pre ++ x :: post)) :
    Chain h (h.prev x) (some x) (x :: post) := by
  induction pre generalizing b c with
  | nil => exact ⟨rfl, rfl, hc.2.2⟩
  | cons y pre ih => exact ih hc.2.2

theorem Chain.nodup (hc : Chain h b c l) : l.Nodup := by
  induction l generalizing b c with
  | nil => exact List.nodup_nil
  | cons x l ih =>
    refine List.nodup_cons.mpr ⟨fun hx => ?_, ih hc.2.2⟩
    obtain ⟨pre, post, rfl⟩ := List.append_of_mem hx
    -- the same chain would start at both places
    have hlater : Chain h _ (some x) (x :: post) := hc.2.2.split
    have hwhole : Chain h b (some x) (x :: (pre ++ x :: post)) := ⟨rfl, hc.2⟩
    have hlen := congrArg List.length (hwhole.unique hlater)
    simp only [List.length_cons, List.length_append] at hlen
    omega

theorem Chain.next_mem (hc : Chain h b c l) (hx : x ∈ l) (hy : h.next x = some y) : y ∈ l := by
  induction l generalizing b c with
  | nil => cases hx
  | cons z l ih =>
    obtain ⟨rfl, -, hrest⟩ := hc
    rcases List.mem_cons.mp hx with rfl | hx
    · cases l with
      | nil =>
        rw [chain_nil, hy] at hrest
        cases hrest
      | cons u l =>
        obtain ⟨hu, -⟩ := hrest
        obtain rfl := Option.some.inj (hy.symm.trans hu)
        exact List.mem_cons_of_mem _ List.mem_cons_self
    · exact List.mem_cons_of_mem _ (ih hrest hx)

theorem Chain.prev_next (hc : Chain h b c l) (hx : x ∈ l) (hy : h.next x = some y) : h.prev y = some x := by
  induction l generalizing b c with
  | nil => cases hx
  | cons z l ih =>
    obtain ⟨rfl, -, hrest⟩ := hc
    rcases List.mem_cons.mp hx with rfl | hx
    · cases l with
      | nil =>
        rw [chain_nil, hy] at hrest
        cases hrest
      | cons u l =>
        obtain ⟨hu, hprev, -⟩ := hrest
        obtain rfl := Option.some.inj (hy.symm.trans hu)
        exact hprev
    · exact ih hrest hx

theorem Chain.next_prev (hc : Chain h b c l) (hx : x ∈ l) (hy : h.prev x = some y) :
    (b = some y ∧ c = some x) ∨ (y ∈ l ∧ h.next y = some x) := by
  induction l generalizing b c with
  | nil => cases hx
  | cons z l ih =>
    obtain ⟨rfl, hprev, hrest⟩ := hc
    rcases List.mem_cons.mp hx with rfl | hx
    · exact .inl ⟨hprev.symm.trans hy, rfl⟩
    · rcases ih hrest hx with ⟨hz, hnext⟩ | ⟨hmem, hnext⟩
      · obtain rfl := Option.some.inj hz
        exact .inr ⟨List.mem_cons_self, hnext⟩
      · exact .inr ⟨List.mem_cons_of_mem _ hmem, hnext⟩

theorem Chain.push (hc : Chain h none c l) (hx : x ∉ l) (hnext : h'.next x = c) (hprev : h'.prev x = none)
    (hfirst : ∀ y, c = some y → h'.prev y = some x)
    (hsame : ∀ y ∈ l, h'.next y = h.next y ∧ (c ≠ some y → h'.prev y = h.prev y)) :
    Chain h' none (some x) (x :: l) := by
  refine ⟨rfl, hprev, ?_⟩
  rw [hnext]
  cases l with
  | nil => exact hc
  | cons y l =>
    obtain ⟨rfl, -, hrest⟩ := id hc
    refine ⟨rfl, hfirst y rfl, ?_⟩
    rw [(hsame y List.mem_cons_self).1]
    refine hrest.congr fun z hz => ?_
    obtain ⟨h1, h2⟩ := hsame z (List.mem_cons_of_mem _ hz)
    refine ⟨h1, h2 ?_⟩
    intro hyz
    obtain rfl := Option.some.inj hyz
    exact (List.nodup_cons.mp hc.nodup).1 hz

/-- A node is taken out of the chain, and its neighbours are linked to each other. -/
theorem Chain.unlink [DecidableEq ν] (hc : Chain h b c (pre ++ p :: post)) (hb : ∀ y, b = some y → y ∉ pre ++ p :: post)
    (hnext : ∀ y ∈ pre ++ post, h'.next y = if h.prev p = some y then h.next p else h.next y)
    (hprev : ∀ y ∈ pre ++ post, h'.prev y = if h.next p = some y then h.prev p else h.prev y) :
    Chain h' b (if c = some p then h.next p else c) (pre ++ post) := by
  have hnodup := hc.nodup
  induction pre generalizing b c with
  | nil =>
    obtain ⟨rfl, rfl, hrest⟩ := hc
    rw [if_pos rfl]
    cases post with
    | nil => exact hrest
    | cons x post =>
      obtain ⟨hx, -, hpost⟩ := id hrest
      have hnotin : ∀ y, h.prev p = some y → y ∉ x :: post := fun y hy hmem =>
        hb y hy (List.mem_cons_of_mem _ hmem)
      refine ⟨hx, ?_, ?_⟩
      · rw [hprev x List.mem_cons_self, if_pos hx]
      · rw [hnext x List.mem_cons_self, if_neg fun hy => hnotin x hy List.mem_cons_self]
        refine hpost.congr fun z hz => ?_
        have hzx : h.next p ≠ some z := by
          rw [hx]
          intro hxz
          obtain rfl := Option.some.inj hxz
          exact (List.nodup_cons.mp hrest.nodup).1 hz
        rw [hnext z (List.mem_cons_of_mem _ hz), if_neg fun hy => hnotin z hy (List.mem_cons_of_mem _ hz),
          hprev z (List.mem_cons_of_mem _ hz), if_neg hzx]
        exact ⟨rfl, rfl⟩
  | cons a pre ih =>
    have hwhole := hc
    obtain ⟨rfl, rfl, hrest⟩ := hc
    obtain ⟨hnot, hnodup⟩ := List.nodup_cons.mp hnodup
    have hap : a ≠ p := by
      rintro rfl
      exact hnot (List.mem_append_right _ List.mem_cons_self)
    rw [if_neg fun hp => hap (Option.some.inj hp)]
    have hrest' := ih hrest (by rintro y ⟨⟩; exact hnot)
      (fun y hy => hnext y (List.mem_cons_of_mem _ hy)) (fun y hy => hprev y (List.mem_cons_of_mem _ hy)) hnodup
    refine ⟨rfl, ?_, ?_⟩
    · rw [hprev a List.mem_cons_self, if_neg]
      intro ha
      exact hnot (hrest.next_mem (List.mem_append_right _ List.mem_cons_self) ha)
    · rw [hnext a List.mem_cons_self]
      by_cases ha : h.next a = some p
      · rw [if_pos ha] at hrest'
        rwa [if_pos (hwhole.prev_next List.mem_cons_self ha)]
      · rw [if_neg ha] at hrest'
        rwa [if_neg]
        intro hpa
        rcases hrest.next_prev (List.mem_append_right _ List.mem_cons_self) hpa with ⟨-, hnext⟩ | ⟨hmem, -⟩
        · exact ha hnext
        · exact hnot hmem

-- ---------------------------------------------------------------------------
-- Chains read in one direction
-- ---------------------------------------------------------------------------

/-- From `c` on the nodes of `l` in order and then a null pointer, whatever the
links the other way. -/
def Forward (next : ν → Option ν) : Option ν → List ν → Prop
  | c, [] => c = none
  | c, x :: l => c = some x ∧ Forward next (next x) l

variable {next next' : ν → Option ν}

theorem Chain.forward (hc : Chain h b c l) : Forward h.next c l := by
  induction l generalizing b c with
  | nil => exact hc
  | cons x l ih => exact ⟨hc.1, ih hc.2.2⟩

theorem Forward.congr (hf : Forward next c l) (hsame : ∀ x ∈ l, next' x = next x) :
    Forward next' c l := by
  induction l generalizing c with
  | nil => exact hf
  | cons x l ih =>
    refine ⟨hf.1, ?_⟩
    rw [hsame x List.mem_cons_self]
    exact ih hf.2 fun y hy => hsame y (List.mem_cons_of_mem _ hy)

theorem Forward.eq_nil (hf : Forward next none l) : l = [] := by
  cases l with
  | nil => rfl
  | cons x l => cases hf.1

theorem Forward.unique (hf : Forward next c l) (hf' : Forward next c l') : l = l' := by
  induction l generalizing c l' with
  | nil =>
    obtain rfl : c = none := hf
    cases l' with
    | nil => rfl
    | cons y l' => cases hf'.1
  | cons x l ih =>
    obtain ⟨rfl, hrest⟩ := hf
    cases l' with
    | nil => cases hf'
    | cons y l' =>
      obtain ⟨hy, hrest'⟩ := hf'
      obtain rfl := Option.some.inj hy
      rw [ih hrest hrest']

theorem Forward.split (hf : Forward next c (pre ++ x :: post)) : Forward next (some x) (x :: post) := by
  induction pre generalizing c with
  | nil => exact ⟨rfl, hf.2⟩
  | cons y pre ih => exact ih hf.2

theorem Forward.nodup (hf : Forward next c l) : l.Nodup := by
  induction l generalizing c with
  | nil => exact List.nodup_nil
  | cons x l ih =>
    refine List.nodup_cons.mpr ⟨fun hx => ?_, ih hf.2⟩
    obtain ⟨pre, post, rfl⟩ := List.append_of_mem hx
    have hlater : Forward next (some x) (x :: post) := hf.2.split
    have hwhole : Forward next (some x) (x :: (pre ++ x :: post)) := ⟨rfl, hf.2⟩
    have hlen := congrArg List.length (hwhole.unique hlater)
    simp only [List.length_cons, List.length_append] at hlen
    omega

end

end Linear
