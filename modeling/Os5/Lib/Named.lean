import Mathlib.Tactic

/-!
# Trees of named nodes

Every node has a name and a list of children; a path is a list of names and is
walked from a node by looking for each name among the children. A tree grows by
one node at a time, put at the end of the children of another.
-/

namespace Named

structure Tree (κ ν : Type*) where
  name : ν → κ
  children : ν → List ν

section
variable {κ ν : Type*} [DecidableEq κ]

def Tree.child (t : Tree κ ν) (n : ν) (k : κ) : Option ν :=
  (t.children n).find? fun c => t.name c = k

def Tree.walk (t : Tree κ ν) : ν → List κ → Option ν
  | n, [] => some n
  | n, k :: ks => (t.child n k).bind fun c => t.walk c ks

variable {t t' : Tree κ ν} {n p r x m : ν} {k : κ} {ks ks' : List κ}

@[simp] theorem walk_nil : t.walk n [] = some n := rfl

theorem walk_cons : t.walk n (k :: ks) = (t.child n k).bind fun c => t.walk c ks := rfl

theorem walk_append : t.walk n (ks ++ ks') = (t.walk n ks).bind fun c => t.walk c ks' := by
  induction ks generalizing n with
  | nil => rfl
  | cons k ks ih =>
    rw [List.cons_append, walk_cons, walk_cons, Option.bind_assoc]
    exact Option.bind_congr fun c _ => ih

theorem child_mem (h : t.child n k = some x) : x ∈ t.children n ∧ t.name x = k := by
  refine ⟨List.mem_of_find?_eq_some h, ?_⟩
  simpa using List.find?_some h

theorem walk_prefix (h : t.walk n (ks ++ ks') = some m) :
    ∃ c, t.walk n ks = some c ∧ t.walk c ks' = some m := by
  rw [walk_append] at h
  exact Option.bind_eq_some_iff.mp h

theorem walk_concat (h : t.walk n (ks ++ [k]) = some m) :
    ∃ c, t.walk n ks = some c ∧ t.child c k = some m := by
  obtain ⟨c, hc, hm⟩ := walk_prefix h
  refine ⟨c, hc, ?_⟩
  cases hk : t.child c k with
  | none => simp [walk_cons, hk] at hm
  | some d =>
    rw [walk_cons, hk] at hm
    exact hm

/-- Where every child knows its parent and the root has none, a node is reached
by one path only. -/
theorem walk_inj {u : ν → Option ν} (hparent : ∀ n, ∀ c ∈ t.children n, u c = some n)
    (hroot : u r = none) (h : t.walk r ks = some m) (h' : t.walk r ks' = some m) :
    ks = ks' := by
  induction ks using List.reverseRecOn generalizing ks' m with
  | nil =>
    cases h
    cases ks' using List.reverseRecOn with
    | nil => rfl
    | append_singleton ks' k' =>
      obtain ⟨c, -, hc⟩ := walk_concat h'
      rw [hparent c r (child_mem hc).1] at hroot
      cases hroot
  | append_singleton ks k ih =>
    obtain ⟨c, hc, hm⟩ := walk_concat h
    cases ks' using List.reverseRecOn with
    | nil =>
      cases h'
      rw [hparent c r (child_mem hm).1] at hroot
      cases hroot
    | append_singleton ks' k' =>
      obtain ⟨c', hc', hm'⟩ := walk_concat h'
      have hcc : c = c' :=
        Option.some.inj ((hparent c m (child_mem hm).1).symm.trans (hparent c' m (child_mem hm').1))
      subst hcc
      rw [ih hc hc', ← (child_mem hm).2, (child_mem hm').2]

-- ---------------------------------------------------------------------------
-- The longest walk
-- ---------------------------------------------------------------------------

/-- Walk as far as there are children of the names; the node and the names left. -/
def Tree.descend (t : Tree κ ν) : ν → List κ → ν × List κ
  | n, [] => (n, [])
  | n, k :: ks =>
    match t.child n k with
    | some c => t.descend c ks
    | none => (n, k :: ks)

theorem descend_spec (t : Tree κ ν) (n : ν) (ks : List κ) : ∃ pre,
    ks = pre ++ (t.descend n ks).2 ∧ t.walk n pre = some (t.descend n ks).1 ∧
      ∀ k r, (t.descend n ks).2 = k :: r → t.child (t.descend n ks).1 k = none := by
  induction ks generalizing n with
  | nil => exact ⟨[], rfl, rfl, fun k r h => nomatch h⟩
  | cons k ks ih =>
    cases hc : t.child n k with
    | none =>
      have hd : t.descend n (k :: ks) = (n, k :: ks) := by rw [Tree.descend, hc]
      rw [hd]
      refine ⟨[], rfl, rfl, fun j r h => ?_⟩
      cases h
      exact hc
    | some c =>
      have hd : t.descend n (k :: ks) = t.descend c ks := by rw [Tree.descend, hc]
      obtain ⟨pre, hks, hwalk, hstop⟩ := ih c
      rw [hd]
      refine ⟨k :: pre, by rw [List.cons_append, ← hks], ?_, hstop⟩
      rw [walk_cons, hc]
      exact hwalk

-- ---------------------------------------------------------------------------
-- A new child
-- ---------------------------------------------------------------------------

/-- `t'` is `t` with the new node `x`, of a new name `k`, among the children of `p`. -/
structure Grown (t t' : Tree κ ν) (p x : ν) (k : κ) : Prop where
  fresh : ∀ n, x ∉ t.children n
  empty : t'.children x = []
  name : t'.name x = k
  names : ∀ n, n ≠ x → t'.name n = t.name n
  absent : t.child p k = none
  place : ∃ l l', t.children p = l ++ l' ∧ t'.children p = l ++ x :: l'
  others : ∀ n, n ≠ x → n ≠ p → t'.children n = t.children n

theorem Grown.find (h : Grown t t' p x k) {l : List ν} (hl : x ∉ l) (j : κ) :
    l.find? (fun c => t'.name c = j) = l.find? fun c => t.name c = j := by
  refine List.find?_congr fun c hc => ?_
  rw [h.names c (ne_of_mem_of_not_mem hc hl)]

theorem Grown.child_place (h : Grown t t' p x k) (j : κ) :
    t'.child p j = if j = k then some x else t.child p j := by
  obtain ⟨l, l', hold, hnew⟩ := h.place
  have hfresh := h.fresh p
  have habsent := h.absent
  rw [hold] at hfresh
  have hl : x ∉ l := fun hx => hfresh (List.mem_append_left _ hx)
  have hl' : x ∉ l' := fun hx => hfresh (List.mem_append_right _ hx)
  rw [Tree.child, hold, List.find?_append, Option.or_eq_none_iff] at habsent
  rw [Tree.child, Tree.child, hnew, hold, List.find?_append, List.find?_append, h.find hl]
  by_cases hj : j = k
  · subst hj
    rw [habsent.1, if_pos rfl, Option.none_or, List.find?_cons_of_pos (by simp [h.name])]
  · rw [if_neg hj, List.find?_cons_of_neg (by simp [h.name, Ne.symm hj]), h.find hl']

theorem Grown.child_other (h : Grown t t' p x k) (hx : n ≠ x) (hp : n ≠ p) (j : κ) :
    t'.child n j = t.child n j := by
  rw [Tree.child, h.others n hx hp, h.find (h.fresh n)]
  rfl

theorem Grown.child (h : Grown t t' p x k) (hn : n ≠ x) {j : κ} (hc : t.child n j = some m) :
    t'.child n j = some m := by
  by_cases hp : n = p
  · subst hp
    have hj : j ≠ k := by
      rintro rfl
      rw [h.absent] at hc
      cases hc
    rw [h.child_place, if_neg hj]
    exact hc
  · rw [h.child_other hn hp]
    exact hc

theorem Grown.child_new (h : Grown t t' p x k) : t'.child p k = some x := by
  rw [h.child_place, if_pos rfl]

theorem Grown.child_cases (h : Grown t t' p x k) {j : κ} (hc : t'.child n j = some m) :
    t.child n j = some m ∧ n ≠ x ∨ n = p ∧ j = k ∧ m = x := by
  by_cases hx : n = x
  · subst hx
    rw [Tree.child, h.empty] at hc
    cases hc
  by_cases hp : n = p
  · subst hp
    rw [h.child_place] at hc
    split at hc
    · next hj => exact Or.inr ⟨rfl, hj, (Option.some.inj hc).symm⟩
    · exact Or.inl ⟨hc, hx⟩
  · rw [h.child_other hx hp] at hc
    exact Or.inl ⟨hc, hx⟩

theorem child_ne (hfresh : ∀ n, x ∉ t.children n) (hc : t.child n k = some m) : m ≠ x := by
  rintro rfl
  exact hfresh n (child_mem hc).1

theorem Grown.walk (h : Grown t t' p x k) (hn : n ≠ x) (hw : t.walk n ks = some m) :
    t'.walk n ks = some m := by
  induction ks generalizing n with
  | nil => exact hw
  | cons j ks ih =>
    obtain ⟨c, hc, hrest⟩ := Option.bind_eq_some_iff.mp hw
    rw [walk_cons, h.child hn hc]
    exact ih (child_ne h.fresh hc) hrest

theorem Grown.walk_cases (h : Grown t t' p x k) (hn : n ≠ x) (hw : t'.walk n ks = some m) :
    t.walk n ks = some m ∨ ∃ pre, t.walk n pre = some p ∧ ks = pre ++ [k] ∧ m = x := by
  induction ks generalizing n with
  | nil => exact Or.inl hw
  | cons j ks ih =>
    obtain ⟨c, hc, hrest⟩ := Option.bind_eq_some_iff.mp hw
    obtain ⟨hold, -⟩ | ⟨rfl, rfl, rfl⟩ := h.child_cases hc
    · obtain hold' | ⟨pre, hpre, rfl, rfl⟩ := ih (child_ne h.fresh hold) hrest
      · left
        rw [walk_cons, hold]
        exact hold'
      · right
        refine ⟨j :: pre, ?_, rfl, rfl⟩
        rw [walk_cons, hold]
        exact hpre
    · -- the new node has no children
      cases ks with
      | nil =>
        cases hrest
        exact Or.inr ⟨[], rfl, rfl, rfl⟩
      | cons i ks =>
        rw [walk_cons, Tree.child, h.empty] at hrest
        cases hrest

/-- A descent goes on in the new node where it stopped for want of it, and only there. -/
theorem Grown.descend (h : Grown t t' p x k) (hn : n ≠ x) (ks : List κ) :
    (∃ ks', t.descend n ks = (p, k :: ks') ∧ t'.descend n ks = (x, ks')) ∨
      (∀ ks', t.descend n ks ≠ (p, k :: ks')) ∧ t'.descend n ks = t.descend n ks := by
  induction ks generalizing n with
  | nil => exact Or.inr ⟨fun ks' he => (nomatch (Prod.mk.inj he).2), rfl⟩
  | cons j ks ih =>
    cases hc : t.child n j with
    | some c =>
      rw [Tree.descend, Tree.descend, hc, h.child hn hc]
      exact ih (child_ne h.fresh hc)
    | none =>
      rw [Tree.descend, Tree.descend, hc]
      by_cases hnew : n = p ∧ j = k
      · obtain ⟨rfl, rfl⟩ := hnew
        left
        refine ⟨ks, rfl, ?_⟩
        rw [h.child_new]
        cases ks with
        | nil => rfl
        | cons i ks =>
          simp only [Tree.descend, Tree.child, h.empty, List.find?_nil]
      · right
        have hnone : t'.child n j = none := by
          cases hc' : t'.child n j with
          | none => rfl
          | some m =>
            obtain ⟨hold, -⟩ | ⟨hnp, hjk, -⟩ := h.child_cases hc'
            · rw [hc] at hold
              cases hold
            · exact absurd ⟨hnp, hjk⟩ hnew
        refine ⟨fun ks' he => ?_, by rw [hnone]⟩
        obtain ⟨hnp, hrest⟩ := Prod.mk.inj he
        exact hnew ⟨hnp, (List.cons.inj hrest).1⟩

-- ---------------------------------------------------------------------------
-- A node takes the place of another
-- ---------------------------------------------------------------------------

/-- `t'` is `t` with `y`, which has no children, in the place of `x`. -/
structure Swapped (t t' : Tree κ ν) (x y : ν) : Prop where
  child : ∀ n, n ≠ x → n ≠ y → ∀ k,
    (t.child n k = some x → t'.child n k = some y) ∧ (t.child n k ≠ some x → t'.child n k = t.child n k)
  leaf : ∀ k, t'.child y k = none
  fresh : ∀ n, y ∉ t.children n

section
variable {y : ν}

theorem Swapped.descend_leaf (h : Swapped t t' x y) (ks : List κ) : t'.descend y ks = (y, ks) := by
  cases ks with
  | nil => rfl
  | cons k ks => rw [Tree.descend, h.leaf]

/-- A path through the old node goes on from the new one. -/
theorem Swapped.descend_through (h : Swapped t t' x y) (hnx : n ≠ x) (hny : n ≠ y)
    (hloop : ∀ ks, t.walk x ks = some x → ks = []) (hw : t.walk n ks = some x) :
    t'.descend n (ks ++ ks') = (y, ks') := by
  induction ks generalizing n with
  | nil => exact absurd (Option.some.inj hw) hnx
  | cons k ks ih =>
    obtain ⟨c, hc, hrest⟩ := Option.bind_eq_some_iff.mp hw
    rw [List.cons_append, Tree.descend]
    by_cases hcx : c = x
    · subst hcx
      rw [(h.child n hnx hny k).1 hc, hloop ks hrest]
      exact h.descend_leaf ks'
    · rw [(h.child n hnx hny k).2 fun he => hcx (Option.some.inj (hc.symm.trans he)), hc]
      exact ih hcx (child_ne h.fresh hc) hrest

/-- A path that does not go through the old node is as before. -/
theorem Swapped.descend_past (h : Swapped t t' x y) (hny : n ≠ y)
    (hpast : ∀ pre post, ks = pre ++ post → t.walk n pre ≠ some x) : t'.descend n ks = t.descend n ks := by
  induction ks generalizing n with
  | nil => rfl
  | cons k ks ih =>
    have hnx : n ≠ x := fun he => hpast [] _ rfl (by rw [he]; rfl)
    have hcx : t.child n k ≠ some x := fun he =>
      hpast [k] ks rfl (by rw [walk_cons, he]; rfl)
    rw [Tree.descend, Tree.descend, (h.child n hnx hny k).2 hcx]
    cases hc : t.child n k with
    | none => rfl
    | some c =>
      refine ih (child_ne h.fresh hc) fun pre post hks hw => hpast (k :: pre) post (by rw [hks]; rfl) ?_
      rw [walk_cons, hc]
      exact hw

end

end

-- ---------------------------------------------------------------------------
-- Overlays
-- ---------------------------------------------------------------------------

section
variable {κ α : Type*} [DecidableEq κ] {t u : List κ → Option α} {p ks : List κ}

/-- What is at each path when `u` covers what `t` has from `p` on. -/
def graft (t : List κ → Option α) (p : List κ) (u : List κ → Option α) : List κ → Option α :=
  fun ks => if p <+: ks then u (ks.drop p.length) else t ks

theorem graft_below : graft t p u (p ++ ks) = u ks := by
  rw [graft, if_pos (List.prefix_append p ks), List.drop_left]

theorem graft_other (h : ¬p <+: ks) : graft t p u ks = t ks := if_neg h

end

end Named
