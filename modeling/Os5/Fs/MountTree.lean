import Os5.Fs.Placing
import Os5.Lib.Transition

/-!
# Mounting and unmounting keep the tree

`vfs_mount` never sets the `younger` link of the node that a new node is pushed in front
of, points the siblings of a replaced node back to the replaced node, and lets the root
that is mounted on `/` keep the old root as its parent; a path can also walk into `.` and
`..`. Where none of this happens the links stay those of a tree.
-/

namespace Os5.Vfs

open Tarfs (dot dotdot)
open Linear (Chain Links)

variable {s s' : State} {kids kids' : Nat → List Nat}

def State.siblings (s : State) : Links Nat := ⟨s.older, s.younger⟩

-- ---------------------------------------------------------------------------
-- The law
-- ---------------------------------------------------------------------------

/-- The nodes of the mount tree as a program finds them: down a `child` link, along an
`older` link. -/
inductive Reached (s : State) : Nat → Prop
  | root : Reached s s.vfsRoot
  | child {n c} : Reached s n → s.child n = some c → Reached s c
  | older {n o} : Reached s n → s.older n = some o → Reached s o

inductive Linked (s : State) : Nat → Prop
  | root : Linked s s.vfsRoot
  | parent {n p} : Linked s n → s.parent n = some p → Linked s p
  | child {n c} : Linked s n → s.child n = some c → Linked s c
  | older {n o} : Linked s n → s.older n = some o → Linked s o
  | younger {n y} : Linked s n → s.younger n = some y → Linked s y

structure MountTree (s : State) : Prop where
  root : s.Alloc s.vfsRoot ∧ s.parent s.vfsRoot = some s.vfsRoot
  /-- The chain of children ends, goes through no node twice and back the same way. -/
  chain : ∀ n, Reached s n → ∃ l, Chain s.siblings none (s.child n) l ∧ s.vfsRoot ∉ l
  below : ∀ n, Reached s n → n ≠ s.vfsRoot → ∃ p l, s.parent n = some p ∧ Reached s p ∧
    s.Alloc p ∧ Chain s.siblings none (s.child p) l ∧ l.count n = 1

-- ---------------------------------------------------------------------------
-- The invariant
-- ---------------------------------------------------------------------------

structure Woven (s : State) (kids : Nat → List Nat) : Prop where
  chain : ∀ n, s.Alloc n → Chain s.siblings none (s.child n) (kids n)
  rooted : s.parent s.vfsRoot = some s.vfsRoot
  alone : s.older s.vfsRoot = none ∧ s.younger s.vfsRoot = none

structure Standing (s : State) (kids : Nat → List Nat) : Prop where
  shape : Shape s kids
  placed : Placed s kids
  woven : Woven s kids

def Sound (s : State) : Prop := ∃ kids, Standing s kids

theorem Reached.chain {c : Option Nat} {l : List Nat} (hf : Linear.Forward s.older c l)
    (hc : ∀ x, c = some x → Reached s x) : ∀ x ∈ l, Reached s x := by
  induction l generalizing c with
  | nil => exact fun x hx => nomatch hx
  | cons y l ih =>
    obtain ⟨rfl, hrest⟩ := hf
    have hy := hc y rfl
    intro x hx
    obtain rfl | hx := List.mem_cons.mp hx
    · exact hy
    · exact ih hrest (fun z hz => hy.older hz) x hx

theorem Inside.reached (hs : Shape s kids) {n : Nat} (hn : Inside s kids n) : Reached s n := by
  induction hn with
  | root => exact .root
  | kid hp hc ih => exact Reached.chain (hs.chain _ (hp.alloc hs)) (fun x hx => ih.child hx) _ hc

section
variable {n m : Nat}

theorem Standing.child_mem (h : Standing s kids) (hn : s.Alloc n) (hc : s.child n = some m) :
    m ∈ kids n := by
  have hchain := h.shape.chain n hn
  rw [hc] at hchain
  cases hk : kids n with
  | nil =>
    rw [hk] at hchain
    cases hchain
  | cons x l =>
    rw [hk] at hchain
    rw [Option.some.inj hchain.1]
    exact List.mem_cons_self

theorem Standing.linked (h : Standing s kids) (hn : Linked s n) : Inside s kids n := by
  have kidOf {n : Nat} (hn : Inside s kids n) (hne : n ≠ s.vfsRoot) :
      ∃ p, Inside s kids p ∧ n ∈ kids p := by
    obtain ⟨p, hp, hnp, -⟩ := hn.above h.shape hne
    exact ⟨p, hp, hnp⟩
  induction hn with
  | root => exact .root
  | @parent n p _ hp ih =>
    by_cases hne : n = s.vfsRoot
    · subst hne
      rw [h.woven.rooted] at hp
      exact Option.some.inj hp ▸ ih
    · obtain ⟨q, hq, hnq⟩ := kidOf ih hne
      rw [(h.shape.kid q (hq.alloc h.shape) n hnq).2] at hp
      exact Option.some.inj hp ▸ hq
  | child _ hc ih => exact ih.kid (h.child_mem (ih.alloc h.shape) hc)
  | @older n o _ ho ih =>
    by_cases hne : n = s.vfsRoot
    · subst hne
      rw [h.woven.alone.1] at ho
      cases ho
    · obtain ⟨q, hq, hnq⟩ := kidOf ih hne
      exact hq.kid ((h.woven.chain q (hq.alloc h.shape)).next_mem hnq ho)
  | @younger n y _ hy ih =>
    by_cases hne : n = s.vfsRoot
    · subst hne
      rw [h.woven.alone.2] at hy
      cases hy
    · obtain ⟨q, hq, hnq⟩ := kidOf ih hne
      obtain ⟨hb, -⟩ | ⟨hmem, -⟩ := (h.woven.chain q (hq.alloc h.shape)).next_prev hnq hy
      · cases hb
      · exact hq.kid hmem

theorem Reached.linked (hn : Reached s n) : Linked s n := by
  induction hn with
  | root => exact .root
  | child _ hc ih => exact ih.child hc
  | older _ ho ih => exact ih.older ho

theorem Standing.mountTree (h : Standing s kids) : MountTree s where
  root := ⟨h.shape.root, h.woven.rooted⟩
  chain n hn := by
    have ha := (h.linked hn.linked).alloc h.shape
    exact ⟨kids n, h.woven.chain n ha, h.shape.rootless n ha⟩
  below n hn hne := by
    obtain ⟨p, hp, hnp, -⟩ := (h.linked hn.linked).above h.shape hne
    have ha := hp.alloc h.shape
    have hchain := h.woven.chain p ha
    exact ⟨p, kids p, (h.shape.kid p ha n hnp).2, hp.reached h.shape, ha, hchain,
      List.count_eq_one_of_mem hchain.nodup hnp⟩

theorem Standing.not_linked (h : Standing s kids) (hn : Apart s kids n) : ¬Linked s n := fun hl =>
  (h.linked hl).ne_apart h.shape hn rfl

end

-- ---------------------------------------------------------------------------
-- What keeps the links
-- ---------------------------------------------------------------------------

theorem Standing.added {v : Inode} (h : Standing s kids) (hv : Fresh s v) :
    Standing (newRoot s v) (Function.update kids s.next []) := by
  have ha := newRoot_added hv
  obtain ⟨hparent, hchild, holder, hyounger⟩ := ha.bare
  have hlinks : (newRoot s v).siblings = s.siblings := by
    rw [State.siblings, State.older, State.younger, ha.link h.shape holder, ha.link h.shape hyounger]
    rfl
  refine ⟨h.shape.added ha, h.placed.added h.shape ha fun k cn hd hcn => absurd hcn (hv.top k cn hd), ?_⟩
  constructor
  · intro n hn
    rw [hlinks, State.child, ha.link h.shape hchild]
    obtain hold | rfl := ha.alloc.mp hn
    · rw [Function.update_of_ne (h.shape.bound n hold).ne]
      exact h.woven.chain n hold
    · rw [Function.update_self]
      exact link_none h.shape.next_free
  · rw [ha.vfsRoot, State.parent, ha.link h.shape hparent]
    exact h.woven.rooted
  · rw [ha.vfsRoot, State.older, State.younger, ha.link h.shape holder, ha.link h.shape hyounger]
    exact h.woven.alone

theorem Woven.pushed {cur b cn : Nat} (h : Woven s kids) (hs : Shape s kids)
    (hp : Pushed s s' kids kids' cur b cn) (hcur : Inside s kids cur) (hnone : s.child cur = none)
    (hyounger : s.younger b = none) : Woven s' kids' := by
  have hca := hcur.alloc hs
  have hempty : kids cur = [] := by
    have hchain := hs.chain cur hca
    rw [hnone] at hchain
    exact hchain.eq_nil
  constructor
  · intro n hn
    rw [hp.child]
    by_cases hnc : n = cur
    · subst hnc
      rw [Function.update_self, hp.kidsCur, hempty]
      refine ⟨rfl, (congrFun hp.younger b).trans hyounger, (congrFun hp.older b).trans ?_⟩
      rw [Function.update_self]
      exact hnone
    · rw [Function.update_of_ne hnc]
      have hsame : ∀ x ∈ kids n, s.Alloc n → s'.siblings.next x = s.siblings.next x ∧
          s'.siblings.prev x = s.siblings.prev x := by
        intro x hx ha
        refine ⟨(congrFun hp.older x).trans ?_, congrFun hp.younger x⟩
        rw [Function.update_of_ne (ne_of_mem_of_not_mem hx (hp.apart.2 n ha))]
        rfl
      by_cases hna : s.Alloc n
      · rw [hp.kidsOther n hna hnc]
        exact (h.chain n hna).congr fun x hx => hsame x hx hna
      · have hnil : kids' n = [] := by
          have hchain := hp.shape.chain n hn
          rw [hp.child, Function.update_of_ne hnc, State.child, link_none hna] at hchain
          exact hchain.eq_nil
        rw [hnil, State.child, link_none hna]
        rfl
  · rw [hp.vfsRoot, hp.parent, Function.update_of_ne hp.apart.1.symm]
    exact h.rooted
  · rw [hp.vfsRoot, hp.older, hp.younger, Function.update_of_ne hp.apart.1.symm]
    exact h.alone

theorem Woven.freed {n : Nat} (h : Woven s kids) (hf : Freed s s' n)
    (hn : Apart s kids n) : Woven s' kids := by
  have hinode : ∀ m, s'.Alloc m → s.Alloc m ∧ s'.inode m = s.inode m := by
    intro m hm
    by_cases hmn : m = n
    · subst hmn
      obtain hself | hnone := hf.self
      · rw [State.Alloc, hself] at hm
        exact ⟨hm, hself⟩
      · rw [State.Alloc, hnone] at hm
        cases hm
    · have hself := hf.others m hmn
      rw [State.Alloc, hself] at hm
      exact ⟨hm, hself⟩
  have hlink (g) {m : Nat} (hm : m ≠ n) : s'.link g m = s.link g m := by
    rw [State.link, hf.others m hm, State.link]
  constructor
  · intro m hm
    obtain ⟨ha, hself⟩ := hinode m hm
    rw [State.child, State.link, hself]
    refine (h.chain m ha).congr fun x hx => ?_
    have hxn := ne_of_mem_of_not_mem hx (hn.2 m ha)
    exact ⟨hlink _ hxn, hlink _ hxn⟩
  · rw [hf.vfsRoot, State.parent, hlink _ hn.1.symm]
    exact h.rooted
  · rw [hf.vfsRoot, State.older, State.younger, hlink _ hn.1.symm, hlink _ hn.1.symm]
    exact h.alone

theorem Woven.swapped {t r p : Nat} (h : Woven s kids) (hs : Shape s kids) (ht : s.Alloc t)
    (hr : s.Alloc r) (hp : s.Alloc p) (hkids : kids p = [t]) (hapart : Apart s kids r) :
    Woven (swapped s t r p) (Function.update kids p [r]) := by
  have htp : t ∈ kids p := by rw [hkids]; exact List.mem_cons_self
  have hroot : t ≠ s.vfsRoot := fun he => hs.rootless p hp (he ▸ htp)
  have hchain := h.chain p hp
  rw [hkids] at hchain
  obtain ⟨hchild, -, hnone⟩ := hchain
  have holder : s.older t = none := hnone
  have hroot' : (Vfs.swapped s t r p).vfsRoot = s.vfsRoot := by
    rw [swapped_vfsRoot, if_neg hroot]
  have hyounger {x : Nat} (hx : x ≠ r) : (Vfs.swapped s t r p).younger x = s.younger x :=
    swapped_younger hx (by rw [holder]; exact fun he => nomatch he)
  have hother {x : Nat} (hx : x ≠ r) : (Vfs.swapped s t r p).older x = s.older x := by
    rw [swapped_older hr, Function.update_of_ne hx]
  constructor
  · intro n hn
    rw [swapped_alloc] at hn
    rw [swapped_child hp, if_pos hchild]
    by_cases hnp : n = p
    · subst hnp
      rw [Function.update_self, Function.update_self]
      refine ⟨rfl, swapped_younger_self hr, (congrFun (swapped_older hr) r).trans ?_⟩
      rw [Function.update_self]
      exact holder
    · rw [Function.update_of_ne hnp, Function.update_of_ne hnp]
      refine (h.chain n hn).congr fun x hx => ?_
      have hxr := ne_of_mem_of_not_mem hx (hapart.2 n hn)
      exact ⟨hother hxr, hyounger hxr⟩
  · rw [hroot', swapped_parent ht hr, Function.update_of_ne hroot.symm,
      Function.update_of_ne hapart.1.symm]
    exact h.rooted
  · rw [hroot', hother hapart.1.symm, hyounger hapart.1.symm]
    exact h.alone

-- ---------------------------------------------------------------------------
-- Unmounting
-- ---------------------------------------------------------------------------

section
variable {t p : Nat}

def childTaken (s : State) (t p : Nat) : State :=
  if s.child p = some t then s.withChild p (s.older t) else s

def youngerJoined (s : State) (y o : Option Nat) : State :=
  match y with
  | some y => s.withOlder y o
  | none => s

def olderJoined (s : State) (y o : Option Nat) : State :=
  match o with
  | some o => s.withYounger o y
  | none => s

def unlinked (s : State) (t p : Nat) : State :=
  olderJoined (youngerJoined (childTaken s t p) (s.younger t) (s.older t)) (s.younger t) (s.older t)

theorem childTaken_relinked : Relinked s (childTaken s t p) := by
  unfold childTaken
  split
  · exact relinked_child
  · exact relinked_refl

theorem youngerJoined_relinked (y o : Option Nat) : Relinked s (youngerJoined s y o) := by
  cases y with
  | none => exact relinked_refl
  | some y => exact relinked_older

theorem olderJoined_relinked (y o : Option Nat) : Relinked s (olderJoined s y o) := by
  cases o with
  | none => exact relinked_refl
  | some o => exact relinked_younger

theorem unlinked_relinked : Relinked s (unlinked s t p) :=
  (childTaken_relinked.trans (youngerJoined_relinked _ _)).trans (olderJoined_relinked _ _)

theorem joinYounger_eq {y o : Option Nat} (hy : ∀ z, y = some z → s.Alloc z) :
    joinYounger s y o = .ok (youngerJoined s y o) := by
  cases y with
  | none => rfl
  | some y => exact setOlder_eq (hy y rfl)

theorem joinOlder_eq {y o : Option Nat} (ho : ∀ z, o = some z → s.Alloc z) :
    joinOlder s y o = .ok (olderJoined s y o) := by
  cases o with
  | none => rfl
  | some o => exact setYounger_eq (ho o rfl)

theorem removeNode_eq (ht : s.Alloc t) (hp : s.Alloc p) (hparent : s.parent t = some p)
    (hyounger : ∀ y, s.younger t = some y → s.Alloc y) (holder : ∀ o, s.older t = some o → s.Alloc o) :
    removeNode s t = .ok (unlinked s t p) := by
  obtain ⟨v, hv, hvp, -, hvo, hvy⟩ := get_link ht
  obtain ⟨w, hw, -, hwc, -⟩ := get_link hp
  have hjoin {u : State} (hu : Relinked s u) : (do
      let u ← joinYounger u (s.younger t) (s.older t)
      joinOlder u (s.younger t) (s.older t)) =
        .ok (olderJoined (youngerJoined u (s.younger t) (s.older t)) (s.younger t) (s.older t)) := by
    have hu' := hu.trans (youngerJoined_relinked (s.younger t) (s.older t))
    rw [joinYounger_eq fun z hz => (hu.alloc z).mpr (hyounger z hz)]
    exact joinOlder_eq fun z hz => (hu'.alloc z).mpr (holder z hz)
  rw [hparent] at hvp
  simp only [removeNode, hv, ← hvp, deref, hw, Bind.bind, Except.bind, ← hwc, ← hvo, ← hvy] at hjoin ⊢
  rw [unlinked, childTaken]
  split
  · rw [setChild_eq hp]
    exact hjoin relinked_child
  · exact hjoin relinked_refl

theorem youngerJoined_child (y o : Option Nat) : (youngerJoined s y o).child = s.child := by
  cases y with
  | none => rfl
  | some y => exact withOlder_child s y o

theorem olderJoined_child (y o : Option Nat) : (olderJoined s y o).child = s.child := by
  cases o with
  | none => rfl
  | some o => exact withYounger_child s o y

theorem youngerJoined_parent (y o : Option Nat) : (youngerJoined s y o).parent = s.parent := by
  cases y with
  | none => rfl
  | some y => exact withOlder_parent s y o

theorem olderJoined_parent (y o : Option Nat) : (olderJoined s y o).parent = s.parent := by
  cases o with
  | none => rfl
  | some o => exact withYounger_parent s o y

theorem youngerJoined_younger (y o : Option Nat) : (youngerJoined s y o).younger = s.younger := by
  cases y with
  | none => rfl
  | some y => exact withOlder_younger s y o

theorem olderJoined_older (y o : Option Nat) : (olderJoined s y o).older = s.older := by
  cases o with
  | none => rfl
  | some o => exact withYounger_older s o y

theorem youngerJoined_older {y o : Option Nat} (hy : ∀ z, y = some z → s.Alloc z) (x : Nat) :
    (youngerJoined s y o).older x = if y = some x then o else s.older x := by
  cases y with
  | none => rfl
  | some y =>
    have h := withOlder_older (x := o) (hy y rfl)
    rw [youngerJoined, h, Function.update_apply]
    simp only [Option.some.injEq, eq_comm]

theorem olderJoined_younger {y o : Option Nat} (ho : ∀ z, o = some z → s.Alloc z) (x : Nat) :
    (olderJoined s y o).younger x = if o = some x then y else s.younger x := by
  cases o with
  | none => rfl
  | some o =>
    have h := withYounger_younger (x := y) (ho o rfl)
    rw [olderJoined, h, Function.update_apply]
    simp only [Option.some.injEq, eq_comm]

theorem childTaken_older : (childTaken s t p).older = s.older := by
  unfold childTaken
  split <;> simp only [withChild_older]

theorem childTaken_younger : (childTaken s t p).younger = s.younger := by
  unfold childTaken
  split <;> simp only [withChild_younger]

theorem childTaken_parent : (childTaken s t p).parent = s.parent := by
  unfold childTaken
  split <;> simp only [withChild_parent]

theorem unlinked_parent : (unlinked s t p).parent = s.parent := by
  rw [unlinked, olderJoined_parent, youngerJoined_parent, childTaken_parent]

theorem unlinked_child (hp : s.Alloc p) : (unlinked s t p).child =
    if s.child p = some t then Function.update s.child p (s.older t) else s.child := by
  rw [unlinked, olderJoined_child, youngerJoined_child, childTaken]
  split
  · exact withChild_child hp
  · rfl

theorem unlinked_older (hy : ∀ y, s.younger t = some y → s.Alloc y) (x : Nat) :
    (unlinked s t p).older x = if s.younger t = some x then s.older t else s.older x := by
  have h₁ : Relinked s (childTaken s t p) := childTaken_relinked
  rw [unlinked, olderJoined_older, youngerJoined_older fun z hz => (h₁.alloc z).mpr (hy z hz),
    childTaken_older]

theorem unlinked_younger (ho : ∀ o, s.older t = some o → s.Alloc o) (x : Nat) :
    (unlinked s t p).younger x = if s.older t = some x then s.younger t else s.younger x := by
  have h₂ : Relinked s (youngerJoined (childTaken s t p) (s.younger t) (s.older t)) :=
    childTaken_relinked.trans (youngerJoined_relinked _ _)
  rw [unlinked, olderJoined_younger fun z hz => (h₂.alloc z).mpr (ho z hz), youngerJoined_younger,
    childTaken_younger]

theorem Standing.older_alloc (h : Standing s kids) (hp : s.Alloc p) (ht : t ∈ kids p) :
    ∀ o, s.older t = some o → o ∈ kids p ∧ s.Alloc o := fun o ho => by
  have hmem := (h.woven.chain p hp).next_mem ht ho
  exact ⟨hmem, (h.shape.kid p hp o hmem).1⟩

theorem Standing.younger_alloc (h : Standing s kids) (hp : s.Alloc p) (ht : t ∈ kids p) :
    ∀ y, s.younger t = some y → y ∈ kids p ∧ s.Alloc y := fun y hy => by
  obtain ⟨hb, -⟩ | ⟨hmem, -⟩ := (h.woven.chain p hp).next_prev ht hy
  · cases hb
  · exact ⟨hmem, (h.shape.kid p hp y hmem).1⟩

theorem Standing.removed (h : Standing s kids) (hp : s.Alloc p) (ht : t ∈ kids p) :
    removeNode s t = .ok (unlinked s t p) ∧ ∃ kids', Standing (unlinked s t p) kids' ∧
      Apart (unlinked s t p) kids' t := by
  obtain ⟨pre, post, hkids⟩ := List.append_of_mem ht
  obtain ⟨hta, htp⟩ := h.shape.kid p hp t ht
  have holder := h.older_alloc hp ht
  have hyounger := h.younger_alloc hp ht
  have hrel : Relinked s (unlinked s t p) := unlinked_relinked
  have hroot : t ≠ s.vfsRoot := fun he => h.shape.rootless p hp (he ▸ ht)
  have hnodup := (h.woven.chain p hp).nodup
  have hother : ∀ n, s.Alloc n → n ≠ p → ∀ x ∈ kids p, x ∉ kids n := by
    intro n hn hnp x hx hxn
    have h₁ := (h.shape.kid n hn x hxn).2
    exact hnp (Option.some.inj (h₁.symm.trans (h.shape.kid p hp x hx).2))
  have hnext (x : Nat) : (unlinked s t p).siblings.next x =
      if s.siblings.prev t = some x then s.siblings.next t else s.siblings.next x :=
    unlinked_older (fun y hy => (hyounger y hy).2) x
  have hprev (x : Nat) : (unlinked s t p).siblings.prev x =
      if s.siblings.next t = some x then s.siblings.prev t else s.siblings.prev x :=
    unlinked_younger (fun o ho => (holder o ho).2) x
  -- nodes of other chains keep their links
  have hsame (x : Nat) (hx : x ∉ kids p) : (unlinked s t p).siblings.next x = s.siblings.next x ∧
      (unlinked s t p).siblings.prev x = s.siblings.prev x := by
    rw [hnext, hprev]
    exact ⟨if_neg fun hy => hx (hyounger x hy).1, if_neg fun ho => hx (holder x ho).1⟩
  have hwoven : Woven (unlinked s t p) (Function.update kids p (pre ++ post)) := by
    constructor
    · intro n hn
      rw [hrel.alloc] at hn
      rw [unlinked_child hp]
      by_cases hnp : n = p
      · subst hnp
        have hchain := h.woven.chain n hn
        rw [hkids] at hchain
        have hun := hchain.unlink (fun y hy => nomatch hy) (fun y _ => hnext y) (fun y _ => hprev y)
        rw [Function.update_self]
        by_cases hc : s.child n = some t
        · rw [if_pos hc] at hun ⊢
          rw [Function.update_self]
          exact hun
        · rw [if_neg hc] at hun ⊢
          exact hun
      · have hc : (if s.child p = some t then Function.update s.child p (s.older t) else s.child) n =
            s.child n := by
          split
          · rw [Function.update_of_ne hnp]
          · rfl
        rw [Function.update_of_ne hnp, hc]
        exact (h.woven.chain n hn).congr fun x hx => hsame x fun hxp => hother n hn hnp x hxp hx
    · rw [hrel.vfsRoot, unlinked_parent]
      exact h.woven.rooted
    · have hroot' : s.vfsRoot ∉ kids p := h.shape.rootless p hp
      obtain ⟨hn, hpv⟩ := hsame s.vfsRoot hroot'
      rw [hrel.vfsRoot]
      exact ⟨hn.trans h.woven.alone.1, hpv.trans h.woven.alone.2⟩
  have hsub : ∀ n, Function.update kids p (pre ++ post) n ⊆ kids n := by
    intro n
    by_cases hnp : n = p
    · subst hnp
      rw [Function.update_self, hkids]
      exact fun x hx => by
        rcases List.mem_append.mp hx with hx | hx
        · exact List.mem_append_left _ hx
        · exact List.mem_append_right _ (List.mem_cons_of_mem _ hx)
    · rw [Function.update_of_ne hnp]
      exact List.Subset.refl _
  refine ⟨removeNode_eq hta hp htp (fun y hy => (hyounger y hy).2) fun o ho => (holder o ho).2,
    _, ⟨?_, ?_, hwoven⟩, ?_, ?_⟩
  · exact {
      chain := fun n hn => (hwoven.chain n hn).forward
      kid := fun n hn c hc => by
        rw [hrel.alloc] at hn ⊢
        rw [unlinked_parent]
        exact h.shape.kid n hn c (hsub n hc)
      root := by
        rw [hrel.alloc, hrel.vfsRoot]
        exact h.shape.root
      rooted := by
        rw [hrel.vfsRoot, unlinked_parent]
        exact h.shape.rooted
      rootless := fun n hn => by
        rw [hrel.vfsRoot]
        exact fun hmem => h.shape.rootless n ((hrel.alloc n).mp hn) (hsub n hmem)
      bound := fun n hn => by
        rw [hrel.next]
        exact h.shape.bound n ((hrel.alloc n).mp hn)
      buffer := fun tn b => by
        rw [hrel.tar, hrel.driver]
        exact h.shape.buffer tn b }
  · refine h.placed.same (sameTar_of_eq hrel.tar) hrel.vfsRoot (fun n k cn hd _ => ?_)
      fun n c k cn hn hc hd hcn => ?_
    · rw [hrel.driver] at hd
      exact ⟨hd, by rw [hrel.name], by rw [hrel.kind]⟩
    · rw [hrel.alloc] at hn
      rw [hrel.driver]
      exact h.placed.kid n c k cn hn (hsub n hc) hd hcn
  · rw [hrel.vfsRoot]
    exact hroot
  · intro n hn hmem
    rw [hrel.alloc] at hn
    by_cases hnp : n = p
    · subst hnp
      rw [Function.update_self] at hmem
      rw [hkids] at hnodup
      exact (List.nodup_middle.mp hnodup |> List.nodup_cons.mp).1 hmem
    · exact hother n hn hnp t ht (hsub n hmem)

end

-- ---------------------------------------------------------------------------
-- The walk to a mount point
-- ---------------------------------------------------------------------------

/-- A walk through a directory with the driver `d`, and the inode `i` if it has one: no
name is `.` or `..`, a directory in which the driver finds a name has no mounted child,
and an inode that is kept from before has no `younger` link left. -/
def WalkFits (s : State) : Driver → Option Nat → List Name → Prop
  | _, _, [] => True
  | d, i, name :: names =>
    name ≠ dot ∧ name ≠ dotdot ∧ (∀ b ∈ i, findChild s b name = .ok none) ∧
      ∀ cn ∈ s.driverChild d name,
        (∀ b ∈ i, s.child b = none) ∧ (∀ b ∈ (s.tar cn).buffer, s.younger b = none) ∧
          ((s.tar cn).directory = true → WalkFits s (.tarfs cn) (s.tar cn).buffer names)

instance WalkFits.decidable (s : State) :
    ∀ (d : Driver) (i : Option Nat) (names : List Name), Decidable (WalkFits s d i names)
  | _, _, [] => .isTrue trivial
  | d, i, name :: names =>
    have := fun cn => WalkFits.decidable s (.tarfs cn) (s.tar cn).buffer names
    inferInstanceAs (Decidable (name ≠ dot ∧ name ≠ dotdot ∧ (∀ b ∈ i, findChild s b name = .ok none) ∧
      ∀ cn ∈ s.driverChild d name,
        (∀ b ∈ i, s.child b = none) ∧ (∀ b ∈ (s.tar cn).buffer, s.younger b = none) ∧
          ((s.tar cn).directory = true → WalkFits s (.tarfs cn) (s.tar cn).buffer names)))

/-- The root that is to be mounted, while the walk goes on. -/
structure Aside (s : State) (kids : Nat → List Nat) (r : Nat) : Prop where
  alloc : s.Alloc r
  apart : Apart s kids r
  top : ∀ k cn, s.driver r = .tarfs cn → cn ∉ (s.tar k).children

section
variable {cur b tn cn : Nat}

theorem Aside.pushed {r : Nat} (h : Aside s kids r) (hs : Shape s kids)
    (hp : Pushed s s' kids kids' cur b cn) (hcn : cn ∈ (s.tar tn).children) : Aside s' kids' r := by
  have hrb : r ≠ b := by
    rintro rfl
    obtain hb | ⟨-, hfree⟩ := hp.cached
    · exact h.top tn cn ((hs.buffer cn r).mp hb) hcn
    · exact hfree h.alloc
  refine ⟨(hp.alloc r).mpr (Or.inl h.alloc), ⟨?_, fun m hm hrm => ?_⟩, fun k c hd => ?_⟩
  · rw [hp.vfsRoot]
    exact h.apart.1
  · have hmem := (hp.shape.kid m hm r hrm).2
    by_cases hmc : m = cur
    · subst hmc
      rw [hp.kidsCur, List.mem_cons] at hrm
      by_cases hma : s.Alloc m
      · exact h.apart.2 m hma (hrm.resolve_left hrb)
      · exact hp.ne (((hp.alloc m).mp hm).resolve_left hma).symm
    · by_cases hma : s.Alloc m
      · rw [hp.kidsOther m hma hmc] at hrm
        exact h.apart.2 m hma hrm
      · -- the node that was made has no children
        have hnil := hp.shape.chain m hm
        rw [hp.child, Function.update_of_ne hmc, State.child, link_none hma] at hnil
        rw [hnil.eq_nil] at hrm
        cases hrm
  · rw [hp.driver, Function.update_of_ne hrb] at hd
    rw [hp.same.children]
    exact h.top k c hd

theorem Pushed.findChild (hp : Pushed s s' kids kids' cur b cn) (hs : Shape s kids) {m : Nat}
    (hm : s.Alloc m) (hmc : m ≠ cur) (name : Name) : findChild s' m name = findChild s m name := by
  have hm' := (hp.alloc m).mpr (Or.inl hm)
  rw [findChild_eq hp.shape hm', findChild_eq hs hm, tree_child hm', tree_child hm,
    hp.kidsOther m hm hmc]
  refine congrArg Except.ok ?_
  refine List.find?_congr fun c hc => ?_
  have hca := (hs.kid m hm c hc).1
  have hname : s'.name c = s.name c := by
    rw [hp.name]
    by_cases hcb : c = b
    · subst hcb
      exact absurd hc (hp.apart.2 m hm)
    · rw [Function.update_of_ne hcb]
  exact decide_eq_decide.mpr (Iff.of_eq (congrArg (· = name) hname))

theorem WalkFits.pushed {depth : Nat → Nat} {names : List Name} (hp : Pushed s s' kids kids' cur b cn)
    (hs : Shape s kids) (hcur : s.driver cur = .tarfs tn) (hcn : cn ∈ (s.tar tn).children)
    (hdepth : ∀ k c, c ∈ (s.tar k).children → depth k < depth c) {k : Nat} (hk : depth cn ≤ depth k)
    (hw : WalkFits s (.tarfs k) (s.tar k).buffer names) :
    WalkFits s' (.tarfs k) (s'.tar k).buffer names := by
  induction names generalizing k with
  | nil => trivial
  | cons name names ih =>
    obtain ⟨hdot, hdotdot, hfind, hrest⟩ := hw
    -- the inode of `k` is the same, or the new one
    have hinode : ∀ x ∈ (s'.tar k).buffer, (s.tar k).buffer = some x ∧ x ≠ cur ∨ x = b ∧ ¬s.Alloc b := by
      intro x hx
      have hkcur : ∀ x, (s.tar k).buffer = some x → x ≠ cur := by
        rintro x hx rfl
        have hd := (hs.buffer k x).mp hx
        obtain rfl := Driver.tarfs.inj (hcur.symm.trans hd)
        exact absurd (hdepth tn cn hcn) (not_lt.mpr hk)
      rw [Option.mem_def, hp.buffer] at hx
      split at hx
      · next he =>
        cases hx
        obtain hb | ⟨-, hfree⟩ := hp.cached
        · exact Or.inl ⟨he ▸ hb, hp.ne⟩
        · exact Or.inr ⟨rfl, hfree⟩
      · exact Or.inl ⟨hx, hkcur x hx⟩
    have hnew : ¬s.Alloc b → s'.child b = none := by
      intro hfree
      rw [hp.child, Function.update_of_ne hp.ne, State.child, link_none hfree]
    have hbare {x : Nat} (hx : x = b ∧ ¬s.Alloc b) : kids' x = [] := by
      obtain ⟨rfl, hfree⟩ := hx
      have hchain := hp.shape.chain x ((hp.alloc x).mpr (Or.inr rfl))
      rw [hnew hfree] at hchain
      exact hchain.eq_nil
    refine ⟨hdot, hdotdot, fun x hx => ?_, fun c hc => ?_⟩
    · obtain ⟨hold, hxc⟩ | hx' := hinode x hx
      · rw [hp.findChild hs (hs.buffered hold) hxc]
        exact hfind x hold
      · have ha := (hp.alloc x).mpr (Or.inr hx'.1)
        rw [findChild_eq hp.shape ha, tree_child ha, hbare hx']
        rfl
    · have hc' : s.tarChild k name = some c := (hp.same.tarChild k name).symm.trans hc
      have hck := (tarChild_mem hc').1
      have hdeep := hdepth k c hck
      obtain ⟨hchild, hyounger, hdir⟩ := hrest c hc'
      refine ⟨fun x hx => ?_, fun x hx => ?_, fun hd => ?_⟩
      · obtain ⟨hold, hxc⟩ | ⟨rfl, hfree⟩ := hinode x hx
        · rw [hp.child, Function.update_of_ne hxc]
          exact hchild x hold
        · exact hnew hfree
      · rw [Option.mem_def, hp.buffer, if_neg (fun he => by rw [he] at hdeep; omega)] at hx
        rw [hp.younger]
        exact hyounger x hx
      · rw [hp.same.directory] at hd
        exact ih (hk.trans hdeep.le) (hdir hd)

def Lone (s : State) (kids : Nat → List Nat) (t : Nat) : Prop := ∃ p, Inside s kids p ∧ kids p = [t]

/-- The walk keeps the links, and leaves the node it comes to without siblings if it went
anywhere. -/
theorem walk_standing {names : List Name} {res : Option Nat} (h : Standing s kids)
    (hcur : Inside s kids cur)
    (hfit : s.kind cur &&& fsTypeMask = fsDirectory → WalkFits s (s.driver cur) (some cur) names)
    (hw : walkTokens true s cur names = .ok (res, s')) :
    ∃ kids', Standing s' kids' ∧ s'.vfsRoot = s.vfsRoot ∧ (∀ r, Aside s kids r → Aside s' kids' r) ∧
      ∀ t, res = some t → names = [] ∧ t = cur ∧ s' = s ∧ kids' = kids ∨ Lone s' kids' t := by
  induction names generalizing s kids cur with
  | nil =>
    cases hw
    exact ⟨kids, h, rfl, fun _ hr => hr, fun t ht => Or.inl ⟨rfl, (Option.some.inj ht).symm, rfl, rfl⟩⟩
  | cons name names ih =>
    have hs := h.shape
    have hca := hcur.alloc hs
    have hparent := hcur.parent hs
    have hstop (hn : vfsFinddir s cur name = .ok (none, s)) :
        ∃ kids', Standing s' kids' ∧ s'.vfsRoot = s.vfsRoot ∧
          (∀ r, Aside s kids r → Aside s' kids' r) ∧ ∀ t, res = some t →
            name :: names = [] ∧ t = cur ∧ s' = s ∧ kids' = kids ∨ Lone s' kids' t := by
      simp only [walkTokens, hn, vfsFree_inside hca hparent, Bind.bind, Except.bind] at hw
      cases hw
      exact ⟨kids, h, rfl, fun _ hr => hr, fun t ht => by cases ht⟩
    by_cases hkind : s.kind cur &&& fsTypeMask = fsDirectory
    · obtain ⟨hdot, hdotdot, hfind, hrest⟩ := hfit hkind
      have hchild : (tree s kids).child cur name = none := by
        have hnone := hfind cur rfl
        rw [findChild_eq hs hca] at hnone
        exact Except.ok.inj hnone
      have hdrv := vfsFinddir_driver hs hca hparent hkind hdot hdotdot hchild
      cases hd : s.driver cur with
      | none =>
        rw [hd] at hdrv
        simp only [walkTokens, hdrv, driverFinddir, Bind.bind, Except.bind] at hw
        cases hw
      | device =>
        rw [hd] at hdrv
        exact hstop hdrv
      | tarfs tn =>
        cases hcn : s.tarChild tn name with
        | none =>
          refine hstop (hdrv.trans ?_)
          rw [hd]
          simp only [driverFinddir, tarFinddir_child hdot hdotdot, hcn]
        | some cn =>
          have hmem := (tarChild_mem hcn).1
          rw [hd] at hrest
          obtain ⟨hnone, hyounger, hdir⟩ := hrest cn hcn
          obtain ⟨b, s₂, kids₂, hp, hstep⟩ := walk_push hs h.placed hcur hkind hdot hdotdot hchild hd hcn
          obtain ⟨depth, hdepth⟩ := h.placed.deep
          have hby : s.younger b = none := by
            obtain hb | ⟨-, hfree⟩ := hp.cached
            · exact hyounger b hb
            · exact link_none hfree
          have h₂ : Standing s₂ kids₂ :=
            ⟨hp.shape, hp.placed, h.woven.pushed hs hp hcur (hnone cur rfl) hby⟩
          have hcur₂ : Inside s₂ kids₂ cur := by
            refine hcur.mono hs hp.vfsRoot fun m hm => ?_
            by_cases hmc : m = cur
            · rw [hmc, hp.kidsCur]
              exact List.subset_cons_self _ _
            · rw [hp.kidsOther m hm hmc]
              exact List.Subset.refl _
          have hb₂ : Inside s₂ kids₂ b := hcur₂.kid (by rw [hp.kidsCur]; exact List.mem_cons_self)
          have hbuf : (s₂.tar cn).buffer = some b := by rw [hp.buffer, if_pos rfl]
          have hfit₂ : s₂.kind b &&& fsTypeMask = fsDirectory →
              WalkFits s₂ (s₂.driver b) (some b) names := by
            rw [hp.kind, hp.driver, Function.update_self, Function.update_self, newInode_directory, ← hbuf]
            exact fun hd' => (hdir hd').pushed hp hs hd hmem hdepth le_rfl
          rw [hstep] at hw
          obtain ⟨kids', hkeep, hroot, haside, hres⟩ := ih h₂ hb₂ hfit₂ hw
          refine ⟨kids', hkeep, hroot.trans hp.vfsRoot,
            fun r hr => haside r (hr.pushed hs hp hmem), fun t ht => Or.inr ?_⟩
          obtain ⟨-, rfl, rfl, rfl⟩ | hlone := hres t ht
          · refine ⟨cur, hcur₂, ?_⟩
            have hchain := hs.chain cur hca
            rw [hnone cur rfl] at hchain
            rw [hp.kidsCur, hchain.eq_nil]
          · exact hlone
    · exact hstop (vfsFinddir_file hca hkind name)

end

-- ---------------------------------------------------------------------------
-- Where runs start
-- ---------------------------------------------------------------------------

def rootOnly (v : Inode) (tar : Nat → TarNode) : State where
  vfsRoot := 0
  inode := Function.update (fun _ => none) 0 (some v)
  next := 1
  tar := tar

section
variable {v : Inode} {tar : Nat → TarNode}

theorem rootOnly_alloc {n : Nat} : (rootOnly v tar).Alloc n ↔ n = 0 := by
  by_cases hn : n = 0
  · subst hn
    simp [State.Alloc, rootOnly]
  · simp [State.Alloc, rootOnly, hn]

theorem rootOnly_sound (hparent : v.parent = some 0) (hchild : v.child = none) (holder : v.older = none)
    (hyounger : v.younger = none) (hup : ∀ k c, c ∈ (tar k).children → (tar c).parent = some k)
    (hdeep : ∃ depth : Nat → Nat, ∀ k c, c ∈ (tar k).children → depth k < depth c)
    (hbuffer : ∀ tn b, (tar tn).buffer = some b ↔ b = 0 ∧ v.d = .tarfs tn)
    (htop : ∀ k tn, v.d = .tarfs tn → tn ∉ (tar k).children) : Sound (rootOnly v tar) := by
  have hdriver {n tn : Nat} (hd : (rootOnly v tar).driver n = .tarfs tn) : n = 0 ∧ v.d = .tarfs tn := by
    obtain rfl := rootOnly_alloc.mp (driver_alloc hd)
    exact ⟨rfl, hd⟩
  have hnil (n : Nat) (hn : (rootOnly v tar).Alloc n) : (rootOnly v tar).child n = none := by
    obtain rfl := rootOnly_alloc.mp hn
    exact hchild
  refine ⟨fun _ => [], ⟨hnil, fun n _ c hc => (nomatch hc), rootOnly_alloc.mpr rfl, ?_,
    fun n _ hc => (nomatch hc), fun n hn => ?_, fun tn b => ?_⟩,
    ⟨hup, hdeep, fun n c k cn _ hc => (nomatch hc), fun k cn hd => htop k cn (hdriver hd).2,
      fun n k cn hd hcn => absurd hcn (htop k cn (hdriver hd).2)⟩,
    ⟨hnil, hparent, holder, hyounger⟩⟩
  · exact fun hnone => nomatch hparent.symm.trans hnone
  · obtain rfl := rootOnly_alloc.mp hn
    exact Nat.one_pos
  · refine (hbuffer tn b).trans ⟨?_, hdriver⟩
    rintro ⟨rfl, hd⟩
    exact hd

/-- The kernel starts with such a tree, before any inode was made for its archives. -/
theorem vfsInit_sound (hup : ∀ k c, c ∈ (tar k).children → (tar c).parent = some k)
    (hdeep : ∃ depth : Nat → Nat, ∀ k c, c ∈ (tar k).children → depth k < depth c)
    (hbuffer : ∀ tn, (tar tn).buffer = none) : Sound (vfsInit tar) := by
  refine rootOnly_sound rfl rfl rfl rfl hup hdeep (fun tn b => ?_) fun k tn hd => nomatch hd
  rw [hbuffer]
  exact ⟨fun h => (nomatch h), fun h => nomatch h.2⟩

end

-- ---------------------------------------------------------------------------
-- Runs
-- ---------------------------------------------------------------------------

inductive Act
  | mount (path : Name) (root : Inode)
  | umount (path : Name)

def step (s : State) : Act → Option State
  | .mount path v => (vfsMount (newRoot s v) path s.next).toOption.map Prod.snd
  | .umount path => (vfsUmount s path).toOption.map Prod.snd

def removed (s : State) : Act → Option Nat
  | .mount path v => (walkPath true (newRoot s v) path).toOption.bind Prod.fst
  | .umount path => (vfsUmount s path).toOption.bind Prod.fst

/-- The node of the mount tree that is mounted over is not `vfs_root` and has no siblings;
otherwise the walk goes where it may. -/
def MountFits (s : State) (path : Name) : Prop :=
  match vfsFindRoot s s.vfsRoot (strsepTokens (path.drop 1)) with
  | .ok (t, []) => t ≠ s.vfsRoot ∧ s.older t = none ∧ s.younger t = none
  | .ok (u, name :: names) =>
    s.kind u &&& fsTypeMask = fsDirectory → WalkFits s (s.driver u) (some u) (name :: names)
  | .error _ => True

instance (s : State) (path : Name) : Decidable (MountFits s path) :=
  match h : vfsFindRoot s s.vfsRoot (strsepTokens (path.drop 1)) with
  | .ok (t, []) =>
    decidable_of_iff (t ≠ s.vfsRoot ∧ s.older t = none ∧ s.younger t = none) (by rw [MountFits, h])
  | .ok (u, name :: names) =>
    decidable_of_iff (s.kind u &&& fsTypeMask = fsDirectory →
      WalkFits s (s.driver u) (some u) (name :: names)) (by rw [MountFits, h])
  | .error _ => .isTrue (by rw [MountFits, h]; trivial)

def Fits (s : State) : Act → Prop
  | .mount path v => Fresh s v ∧ MountFits (newRoot s v) path
  | .umount path => vfsFindRoot s s.vfsRoot (strsepTokens (path.drop 1)) = .ok (s.vfsRoot, []) →
      s.child s.vfsRoot ≠ none

theorem newRoot_aside {v : Inode} (h : Standing s kids) (hv : Fresh s v) :
    Aside (newRoot s v) (Function.update kids s.next []) s.next := by
  have ha := newRoot_added hv
  refine ⟨ha.alloc.mpr (Or.inr rfl), ⟨?_, fun m hm hmem => ?_⟩, fun k cn hd => ?_⟩
  · rw [ha.vfsRoot]
    exact fun he => h.shape.next_free (he ▸ h.shape.root)
  · obtain hold | rfl := ha.alloc.mp hm
    · rw [Function.update_of_ne (h.shape.bound m hold).ne] at hmem
      exact h.shape.next_free (h.shape.kid m hold _ hmem).1
    · rw [Function.update_self] at hmem
      cases hmem
  · rw [ha.driver, Function.update_self] at hd
    rw [ha.same.children]
    exact hv.top k cn hd

theorem replace_standing {t r : Nat} (h : Standing s kids) (ht : Lone s kids t) (hr : Aside s kids r)
    (hrep : replaceNode s t r = .ok s') : ∃ kids', Standing s' kids' ∧ Apart s' kids' t := by
  obtain ⟨p, hp, hkids⟩ := ht
  have hs := h.shape
  have hpa := hp.alloc hs
  have htp : t ∈ kids p := by rw [hkids]; exact List.mem_cons_self
  obtain ⟨hta, hparent⟩ := hs.kid p hpa t htp
  have hrt : r ≠ t := fun he => hr.apart.2 p hpa (he ▸ htp)
  have hchain := h.woven.chain p hpa
  rw [hkids] at hchain
  obtain ⟨-, hyounger, hnone⟩ := hchain
  have holder : s.older t = none := hnone
  obtain ⟨hs₁, hapart⟩ := hs.swapped hta hr.alloc hpa hkids hrt hr.apart
  have hw₁ := h.woven.swapped hs hta hr.alloc hpa hkids hr.apart
  have hp₁ : Placed (swapped s t r p) (Function.update kids p [r]) := by
    refine h.placed.swapped hr.top fun n c hn hc => ?_
    by_cases hnp : n = p
    · subst hnp
      rw [Function.update_self] at hc
      exact Or.inl (List.mem_singleton.mp hc)
    · rw [Function.update_of_ne hnp] at hc
      exact Or.inr hc
  obtain ⟨s₂, hrep', hf⟩ := replaceNode_freed hta hr.alloc hpa hrt hparent hyounger
    (fun o ho => by rw [holder] at ho; cases ho) hs₁
  rw [hrep'] at hrep
  cases hrep
  refine ⟨_, ⟨hs₁.freed hf hapart, hp₁.freed hf, hw₁.freed hf hapart⟩, ?_, fun m hm => ?_⟩
  · rw [hf.vfsRoot]
    exact hapart.1
  · refine hapart.2 m ?_
    by_cases hmt : m = t
    · subst hmt
      exact swapped_alloc.mpr hta
    · rwa [State.Alloc, hf.others m hmt] at hm

theorem Standing.lone {t : Nat} (h : Standing s kids) (ht : Inside s kids t) (hne : t ≠ s.vfsRoot)
    (holder : s.older t = none) (hyounger : s.younger t = none) : Lone s kids t := by
  obtain ⟨p, hp, htp, -⟩ := ht.above h.shape hne
  refine ⟨p, hp, ?_⟩
  have hchain := h.woven.chain p (hp.alloc h.shape)
  obtain ⟨pre, post, hkids⟩ := List.append_of_mem htp
  rw [hkids] at hchain ⊢
  have hsplit := hchain.split
  have hpost : post = [] := by
    have hrest : Chain s.siblings (some t) (s.older t) post := hsplit.2.2
    rw [holder] at hrest
    exact hrest.forward.eq_nil
  have hpre : pre = [] := by
    cases pre using List.reverseRecOn with
    | nil => rfl
    | append_singleton pre x =>
      rw [List.append_assoc] at hchain
      have hx : Chain s.siblings (s.younger x) (some x) (x :: t :: post) := hchain.split
      have hprev : s.younger t = some x := hx.2.2.2.1
      rw [hyounger] at hprev
      cases hprev
  rw [hpre, hpost]
  rfl

theorem mount_standing {v : Inode} {path : Name} {res : Option Nat} (h : Standing s kids)
    (hv : Fresh s v) (hfit : MountFits (newRoot s v) path)
    (hm : vfsMount (newRoot s v) path s.next = .ok (res, s')) :
    ∃ kids', Standing s' kids' ∧ ∀ t ∈ removed s (.mount path v), Apart s' kids' t := by
  have h₁ := h.added hv
  have hr₁ := newRoot_aside h hv
  have hroot := h₁.shape.root
  have hfind := vfsFindRoot_eq h₁.shape hroot (strsepTokens (path.drop 1))
  obtain ⟨pre, -, hwalk, -⟩ := Named.descend_spec (tree (newRoot s v) (Function.update kids s.next []))
    (newRoot s v).vfsRoot (strsepTokens (path.drop 1))
  have hcur := Inside.walk Inside.root hwalk
  rw [MountFits, hfind] at hfit
  generalize (tree (newRoot s v) (Function.update kids s.next [])).descend (newRoot s v).vfsRoot
    (strsepTokens (path.drop 1)) = d at hfind hfit hcur
  obtain ⟨u, names⟩ := d
  have hpath : walkPath true (newRoot s v) path = walkTokens true (newRoot s v) u names := by
    simp only [walkPath, hfind, Bind.bind, Except.bind]
  have hwf : (newRoot s v).kind u &&& fsTypeMask = fsDirectory →
      WalkFits (newRoot s v) ((newRoot s v).driver u) (some u) names := by
    cases names with
    | nil => exact fun _ => trivial
    | cons name names => exact hfit
  rw [vfsMount, hpath] at hm
  cases hw : walkTokens true (newRoot s v) u names with
  | error e =>
    rw [hw] at hm
    cases hm
  | ok x =>
    obtain ⟨found, s₂⟩ := x
    obtain ⟨kids₂, h₂, -, haside, hres⟩ := walk_standing h₁ hcur hwf hw
    have hremoved : removed s (.mount path v) = found := by
      rw [removed, hpath, hw]
      rfl
    rw [hw] at hm
    rw [hremoved]
    cases found with
    | none =>
      cases hm
      exact ⟨kids₂, h₂, fun t ht => nomatch ht⟩
    | some t =>
      simp only [Bind.bind, Except.bind] at hm
      cases hrep : replaceNode s₂ t s.next with
      | error e =>
        rw [hrep] at hm
        cases hm
      | ok s₃ => ?_
      rw [hrep] at hm
      cases hm
      have hlone : Lone s₂ kids₂ t := by
        obtain ⟨rfl, rfl, rfl, rfl⟩ | hlone := hres t rfl
        · exact h₁.lone hcur hfit.1 hfit.2.1 hfit.2.2
        · exact hlone
      obtain ⟨kids₃, h₃, hapart⟩ := replace_standing h₂ hlone (haside _ hr₁) hrep
      refine ⟨kids₃, h₃, fun x hx => ?_⟩
      cases hx
      exact hapart

theorem umount_standing {path : Name} {res : Option Nat} (h : Standing s kids)
    (hfit : Fits s (.umount path)) (hm : vfsUmount s path = .ok (res, s')) :
    ∃ kids', Standing s' kids' ∧ ∀ t ∈ res, Apart s' kids' t := by
  have hroot := h.shape.root
  have hfind := vfsFindRoot_eq h.shape hroot (strsepTokens (path.drop 1))
  obtain ⟨pre, -, hwalk, -⟩ := Named.descend_spec (tree s kids) s.vfsRoot (strsepTokens (path.drop 1))
  have hcur := Inside.walk Inside.root hwalk
  rw [Fits, hfind] at hfit
  generalize (tree s kids).descend s.vfsRoot (strsepTokens (path.drop 1)) = d at hfind hfit hcur
  obtain ⟨t, names⟩ := d
  obtain ⟨v, hv, -, hvc, -⟩ := get_link (hcur.alloc h.shape)
  have hkeep (hc : (none, s) = (res, s')) : ∃ kids', Standing s' kids' ∧ ∀ t ∈ res, Apart s' kids' t := by
    cases hc
    exact ⟨kids, h, fun t ht => nomatch ht⟩
  simp only [vfsUmount, hfind, hv, Bind.bind, Except.bind] at hm
  by_cases hnames : names = []
  · rw [if_neg (not_not.mpr hnames)] at hm
    by_cases hchild : v.child = none
    · rw [if_neg (not_not.mpr hchild)] at hm
      have hne : t ≠ s.vfsRoot := by
        rintro rfl
        rw [hnames] at hfit
        exact hfit rfl (hvc.trans hchild)
      obtain ⟨p, hp, htp, -⟩ := hcur.above h.shape hne
      obtain ⟨hrem, kids', h', hapart⟩ := h.removed (hp.alloc h.shape) htp
      rw [hrem] at hm
      cases hm
      refine ⟨kids', h', fun x hx => ?_⟩
      cases hx
      exact hapart
    · rw [if_pos hchild] at hm
      exact hkeep (Except.ok.inj hm)
  · rw [if_pos hnames] at hm
    exact hkeep (Except.ok.inj hm)

theorem toOption_some {α : Type} {x : Run α} {a : α} : x.toOption = some a ↔ x = .ok a := by
  cases x <;> simp [Except.toOption]

theorem step_standing {a : Act} (h : Standing s kids) (hfit : Fits s a) (hstep : step s a = some s') :
    ∃ kids', Standing s' kids' ∧ ∀ t ∈ removed s a, Apart s' kids' t := by
  cases a with
  | mount path v =>
    obtain ⟨⟨res, s₁⟩, hm, rfl⟩ := Option.map_eq_some_iff.mp hstep
    exact mount_standing h hfit.1 hfit.2 (toOption_some.mp hm)
  | umount path =>
    obtain ⟨⟨res, s₁⟩, hm, rfl⟩ := Option.map_eq_some_iff.mp hstep
    have hok := toOption_some.mp hm
    obtain ⟨kids', h', hapart⟩ := umount_standing h hfit hok
    refine ⟨kids', h', fun t ht => hapart t ?_⟩
    rw [removed, hok] at ht
    exact ht

theorem sound_reach (h : Transition.Reach step Fits Sound s) : Sound s :=
  h.invariant (fun _ h => h) fun s a s' hs hfit hstep => by
    obtain ⟨kids, hk⟩ := hs
    obtain ⟨kids', h', -⟩ := step_standing hk hfit hstep
    exact ⟨kids', h'⟩

/-- Mounts and unmounts that meet the condition keep the mount tree a tree, and what they
take out of it is not reachable through any link. -/
theorem mountTree_kept (h : Transition.Reach step Fits Sound s) : MountTree s ∧
    ∀ a s' t, Fits s a → step s a = some s' → removed s a = some t → ¬Linked s' t := by
  obtain ⟨kids, hk⟩ := sound_reach h
  refine ⟨hk.mountTree, fun a s' t hfit hstep ht => ?_⟩
  obtain ⟨kids', h', hapart⟩ := step_standing hk hfit hstep
  exact h'.not_linked (hapart t ht)

def devArchive : Nat → TarNode
  | 0 => ⟨[], none, [1], true, some 0, 1⟩
  | 1 => ⟨[100, 101, 118], some 0, [2], true, none, 0⟩
  | 2 => ⟨[100], some 1, [], false, none, 0⟩
  | _ => ⟨[], none, [], false, none, 0⟩

def devRoot : State := rootOnly ⟨[slash], some 0, none, none, none, .tarfs 0, fsDirectory, 0⟩ devArchive

theorem devArchive_child {k c : Nat} (h : c ∈ (devArchive k).children) :
    k = 0 ∧ c = 1 ∨ k = 1 ∧ c = 2 := by
  match k with
  | 0 => exact Or.inl ⟨rfl, List.mem_singleton.mp h⟩
  | 1 => exact Or.inr ⟨rfl, List.mem_singleton.mp h⟩
  | 2 => cases h
  | _ + 3 => cases h

theorem devRoot_sound : Sound devRoot := by
  refine rootOnly_sound rfl rfl rfl rfl (fun k c hc => ?_) ⟨id, fun k c hc => ?_⟩ (fun tn b => ?_)
    fun k tn hd hc => ?_
  · obtain ⟨rfl, rfl⟩ | ⟨rfl, rfl⟩ := devArchive_child hc <;> rfl
  · obtain ⟨rfl, rfl⟩ | ⟨rfl, rfl⟩ := devArchive_child hc <;> exact Nat.lt_succ_self _
  · match tn with
    | 0 => exact ⟨fun hb => ⟨(Option.some.inj hb).symm, rfl⟩, fun hb => by rw [hb.1]; rfl⟩
    | 1 => exact ⟨fun hb => (nomatch hb), fun hb => nomatch hb.2⟩
    | 2 => exact ⟨fun hb => (nomatch hb), fun hb => nomatch hb.2⟩
    | _ + 3 => exact ⟨fun hb => (nomatch hb), fun hb => nomatch hb.2⟩
  · cases hd
    obtain ⟨-, h⟩ | ⟨-, h⟩ := devArchive_child hc <;> cases h

def devPath : Name := [slash, 100, 101, 118, slash, 100]

def device : Inode := ⟨[100], none, none, none, none, .device, 3, 0⟩

theorem mountTree_kept_dev : ∃ s s', step devRoot (.mount devPath device) = some s ∧
    step s (.umount devPath) = some s' ∧ MountTree s ∧ ¬Linked s' 1 := by
  have hfits : Fits devRoot (.mount devPath device) :=
    ⟨⟨⟨rfl, rfl, rfl, rfl⟩, fun _ hd => (nomatch hd), fun _ _ hd => nomatch hd⟩, by decide⟩
  have hkept := mountTree_kept (.next (.start devRoot_sound) hfits rfl)
  exact ⟨_, _, rfl, rfl, hkept.1, hkept.2 (.umount devPath) _ 1 (fun hc => by revert hc; decide) rfl rfl⟩

def NewRoots (s : State) : Act → Prop
  | .mount _ v => Fresh s v
  | .umount _ => True

def emptyArchives : Nat → TarNode := fun _ => ⟨[], none, [], true, none, 0⟩

def tarRoot (tn : Nat) : Inode :=
  ⟨[116, 97, 114, 102, 115], none, none, none, none, .tarfs tn, fsDirectory, 0⟩

/-- The first mount of the kernel leaves `vfs_root` with the old root as its parent. -/
theorem boot_breaks_tree :
    ¬∀ tar s, Transition.Reach step NewRoots (· = vfsInit tar) s → MountTree s := by
  intro hall
  have hfresh : NewRoots (vfsInit emptyArchives) (.mount [slash] (tarRoot 0)) :=
    ⟨⟨rfl, rfl, rfl, rfl⟩, fun _ _ => rfl, fun _ _ _ hc => nomatch hc⟩
  have hstep : ((step (vfsInit emptyArchives) (.mount [slash] (tarRoot 0))).map fun s =>
      (s.parent s.vfsRoot, s.vfsRoot)) = some (some 0, 1) := by decide
  obtain ⟨s, hs, hroot⟩ := Option.map_eq_some_iff.mp hstep
  have htree := hall emptyArchives s (.next (.start rfl) hfresh hs)
  have hparent := htree.root.2
  obtain ⟨hold, hnew⟩ := Prod.mk.inj hroot
  rw [hold, hnew] at hparent
  cases hparent

end Os5.Vfs
