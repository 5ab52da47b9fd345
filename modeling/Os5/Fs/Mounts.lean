import Os5.Fs.Vfs
import Os5.Lib.Chain

/-!
# The shape of the mount tree

`Shape` says what the pointers of the inodes have to do with the tree they stand
for: the children of an inode are the inodes of its chain, and every child knows
its parent. Whether the chains can be walked both ways is left open here.
-/

namespace Os5.Vfs

open Tarfs (dot dotdot)
open Linear (Forward)

namespace State

def Alloc (s : State) (n : Nat) : Prop := (s.inode n).isSome

/-- A pointer field of an inode; null for an address that is not allocated. -/
def link (s : State) (g : Inode → Option Nat) (n : Nat) : Option Nat := (s.inode n).bind g

abbrev parent (s : State) : Nat → Option Nat := s.link Inode.parent
abbrev child (s : State) : Nat → Option Nat := s.link Inode.child
abbrev older (s : State) : Nat → Option Nat := s.link Inode.older
abbrev younger (s : State) : Nat → Option Nat := s.link Inode.younger

def name (s : State) (n : Nat) : Name := ((s.inode n).map Inode.name).getD []
def driver (s : State) (n : Nat) : Driver := ((s.inode n).map Inode.d).getD .none
def kind (s : State) (n : Nat) : Nat := ((s.inode n).map Inode.type).getD 0

/-- An assignment to an inode that is there. -/
def alter (s : State) (ino : Nat) (f : Inode → Inode) : State :=
  { s with inode := fun m => if m = ino then (s.inode m).map f else s.inode m }

def withParent (s : State) (ino : Nat) (p : Option Nat) : State :=
  s.alter ino fun n => { n with parent := p }
def withChild (s : State) (ino : Nat) (p : Option Nat) : State :=
  s.alter ino fun n => { n with child := p }
def withOlder (s : State) (ino : Nat) (p : Option Nat) : State :=
  s.alter ino fun n => { n with older := p }
def withYounger (s : State) (ino : Nat) (p : Option Nat) : State :=
  s.alter ino fun n => { n with younger := p }

end State

variable {s s' : State} {kids : Nat → List Nat}

theorem get_eq {n : Nat} {v : Inode} (h : s.inode n = some v) : s.get n = .ok v := by
  rw [State.get, h]
  rfl

theorem assign_eq {n : Nat} (h : s.Alloc n) (f : Inode → Inode) : s.assign n f = .ok (s.alter n f) := by
  obtain ⟨v, hv⟩ := Option.isSome_iff_exists.mp h
  have hsame : (s.put n (f v)).inode = (s.alter n f).inode := by
    funext m
    by_cases hm : m = n
    · subst hm
      simp [State.put, State.alter, hv]
    · simp [State.put, State.alter, hm]
  rw [State.assign, get_eq hv]
  exact congrArg (fun x => Except.ok { s with inode := x }) hsame

section
variable {n m : Nat} {f : Inode → Inode} {g : Inode → Option Nat} {x : Option Nat}

@[simp] theorem alter_alloc : (s.alter n f).Alloc m ↔ s.Alloc m := by
  unfold State.Alloc State.alter
  by_cases hm : m = n
  · subst hm
    simp
  · simp [hm]

@[simp] theorem alter_vfsRoot : (s.alter n f).vfsRoot = s.vfsRoot := rfl
@[simp] theorem alter_next : (s.alter n f).next = s.next := rfl
@[simp] theorem alter_tar : (s.alter n f).tar = s.tar := rfl

theorem alter_inode_ne (hm : m ≠ n) : (s.alter n f).inode m = s.inode m := if_neg hm

theorem alter_inode_self : (s.alter n f).inode n = (s.inode n).map f := if_pos rfl

theorem setParent_eq (hn : s.Alloc n) : s.setParent n x = .ok (s.withParent n x) := assign_eq hn _
theorem setChild_eq (hn : s.Alloc n) : s.setChild n x = .ok (s.withChild n x) := assign_eq hn _
theorem setOlder_eq (hn : s.Alloc n) : s.setOlder n x = .ok (s.withOlder n x) := assign_eq hn _
theorem setYounger_eq (hn : s.Alloc n) : s.setYounger n x = .ok (s.withYounger n x) :=
  assign_eq hn _

theorem link_alter (hg : ∀ v, g (f v) = g v) : (s.alter n f).link g = s.link g := by
  funext m
  by_cases hm : m = n
  · subst hm
    rw [State.link, alter_inode_self, State.link]
    cases s.inode m with
    | none => rfl
    | some v => exact hg v
  · rw [State.link, alter_inode_ne hm, State.link]

theorem link_alter_set (hn : s.Alloc n) (hg : ∀ v, g (f v) = x) :
    (s.alter n f).link g = Function.update (s.link g) n x := by
  obtain ⟨v, hv⟩ := Option.isSome_iff_exists.mp hn
  funext m
  by_cases hm : m = n
  · subst hm
    rw [State.link, alter_inode_self, hv, Function.update_self]
    exact hg v
  · rw [State.link, alter_inode_ne hm, Function.update_of_ne hm, State.link]

/-- What an assignment to a link keeps of an inode. -/
def SameData (v w : Inode) : Prop :=
  v.name = w.name ∧ v.d = w.d ∧ v.type = w.type ∧ v.users = w.users

theorem alter_data {v : Inode} (hf : ∀ v, SameData (f v) v) (hv : (s.alter n f).inode m = some v) :
    ∃ w, s.inode m = some w ∧ SameData v w := by
  by_cases hm : m = n
  · subst hm
    rw [alter_inode_self] at hv
    obtain ⟨w, hw, rfl⟩ := Option.map_eq_some_iff.mp hv
    exact ⟨w, hw, hf w⟩
  · rw [alter_inode_ne hm] at hv
    exact ⟨v, hv, rfl, rfl, rfl, rfl⟩

theorem SameData.trans {u v w : Inode} (h : SameData u v) (h' : SameData v w) : SameData u w :=
  ⟨h.1.trans h'.1, h.2.1.trans h'.2.1, h.2.2.1.trans h'.2.2.1, h.2.2.2.trans h'.2.2.2⟩

/-- The assignments to one link, and what they leave of the others. -/
structure Relinked (s s' : State) : Prop where
  alloc : ∀ m, s'.Alloc m ↔ s.Alloc m
  vfsRoot : s'.vfsRoot = s.vfsRoot
  next : s'.next = s.next
  tar : s'.tar = s.tar
  data : ∀ m v, s'.inode m = some v → ∃ w, s.inode m = some w ∧ SameData v w

theorem Relinked.trans {s'' : State} (h : Relinked s s') (h' : Relinked s' s'') : Relinked s s'' where
  alloc m := (h'.alloc m).trans (h.alloc m)
  vfsRoot := h'.vfsRoot.trans h.vfsRoot
  next := h'.next.trans h.next
  tar := h'.tar.trans h.tar
  data m v hv := by
    obtain ⟨w, hw, hs⟩ := h'.data m v hv
    obtain ⟨u, hu, hs'⟩ := h.data m w hw
    exact ⟨u, hu, hs.trans hs'⟩

theorem Relinked.map {α : Type} {g : Inode → α} (h : Relinked s s')
    (hg : ∀ v w, SameData v w → g v = g w) (m : Nat) : (s'.inode m).map g = (s.inode m).map g := by
  cases hv : s'.inode m with
  | some v =>
    obtain ⟨w, hw, hs⟩ := h.data m v hv
    rw [hw, Option.map_some, Option.map_some, hg v w hs]
  | none =>
    have hnone : ¬s.Alloc m := fun ha => by simpa [State.Alloc, hv] using (h.alloc m).mpr ha
    have hw : s.inode m = none := Option.not_isSome_iff_eq_none.mp hnone
    rw [hw]

theorem Relinked.name (h : Relinked s s') : s'.name = s.name := by
  funext m
  rw [State.name, h.map (fun _ _ hs => hs.1), State.name]

theorem Relinked.driver (h : Relinked s s') : s'.driver = s.driver := by
  funext m
  rw [State.driver, h.map (fun _ _ hs => hs.2.1), State.driver]

theorem Relinked.kind (h : Relinked s s') : s'.kind = s.kind := by
  funext m
  rw [State.kind, h.map (fun _ _ hs => hs.2.2.1), State.kind]

theorem relinked_refl : Relinked s s :=
  ⟨fun _ => Iff.rfl, rfl, rfl, rfl, fun _ v hv => ⟨v, hv, rfl, rfl, rfl, rfl⟩⟩

theorem relinked_alter (hf : ∀ v, SameData (f v) v) : Relinked s (s.alter n f) :=
  ⟨fun _ => alter_alloc, rfl, rfl, rfl, fun _ _ hv => alter_data hf hv⟩

theorem relinked_parent : Relinked s (s.withParent n x) := relinked_alter fun _ => ⟨rfl, rfl, rfl, rfl⟩
theorem relinked_child : Relinked s (s.withChild n x) := relinked_alter fun _ => ⟨rfl, rfl, rfl, rfl⟩
theorem relinked_older : Relinked s (s.withOlder n x) := relinked_alter fun _ => ⟨rfl, rfl, rfl, rfl⟩
theorem relinked_younger : Relinked s (s.withYounger n x) :=
  relinked_alter fun _ => ⟨rfl, rfl, rfl, rfl⟩

section
variable (s : State) (n : Nat) (x : Option Nat)

@[simp] theorem withParent_child : (s.withParent n x).child = s.child :=
  link_alter (f := fun v => { v with parent := x }) fun _ => rfl
@[simp] theorem withParent_older : (s.withParent n x).older = s.older :=
  link_alter (f := fun v => { v with parent := x }) fun _ => rfl
@[simp] theorem withParent_younger : (s.withParent n x).younger = s.younger :=
  link_alter (f := fun v => { v with parent := x }) fun _ => rfl
@[simp] theorem withChild_parent : (s.withChild n x).parent = s.parent :=
  link_alter (f := fun v => { v with child := x }) fun _ => rfl
@[simp] theorem withChild_older : (s.withChild n x).older = s.older :=
  link_alter (f := fun v => { v with child := x }) fun _ => rfl
@[simp] theorem withChild_younger : (s.withChild n x).younger = s.younger :=
  link_alter (f := fun v => { v with child := x }) fun _ => rfl
@[simp] theorem withOlder_parent : (s.withOlder n x).parent = s.parent :=
  link_alter (f := fun v => { v with older := x }) fun _ => rfl
@[simp] theorem withOlder_child : (s.withOlder n x).child = s.child :=
  link_alter (f := fun v => { v with older := x }) fun _ => rfl
@[simp] theorem withOlder_younger : (s.withOlder n x).younger = s.younger :=
  link_alter (f := fun v => { v with older := x }) fun _ => rfl
@[simp] theorem withYounger_parent : (s.withYounger n x).parent = s.parent :=
  link_alter (f := fun v => { v with younger := x }) fun _ => rfl
@[simp] theorem withYounger_child : (s.withYounger n x).child = s.child :=
  link_alter (f := fun v => { v with younger := x }) fun _ => rfl
@[simp] theorem withYounger_older : (s.withYounger n x).older = s.older :=
  link_alter (f := fun v => { v with younger := x }) fun _ => rfl

end

theorem withParent_parent (hn : s.Alloc n) :
    (s.withParent n x).parent = Function.update s.parent n x := link_alter_set hn fun _ => rfl
theorem withChild_child (hn : s.Alloc n) :
    (s.withChild n x).child = Function.update s.child n x := link_alter_set hn fun _ => rfl
theorem withOlder_older (hn : s.Alloc n) :
    (s.withOlder n x).older = Function.update s.older n x := link_alter_set hn fun _ => rfl
theorem withYounger_younger (hn : s.Alloc n) :
    (s.withYounger n x).younger = Function.update s.younger n x := link_alter_set hn fun _ => rfl

end

-- ---------------------------------------------------------------------------
-- The shape
-- ---------------------------------------------------------------------------

structure Shape (s : State) (kids : Nat → List Nat) : Prop where
  chain : ∀ n, s.Alloc n → Forward s.older (s.child n) (kids n)
  kid : ∀ n, s.Alloc n → ∀ c ∈ kids n, s.Alloc c ∧ s.parent c = some n
  root : s.Alloc s.vfsRoot
  rooted : s.parent s.vfsRoot ≠ none
  rootless : ∀ n, s.Alloc n → s.vfsRoot ∉ kids n
  bound : ∀ n, s.Alloc n → n < s.next
  /-- A tar node and its inode know each other. -/
  buffer : ∀ tn b, (s.tar tn).buffer = some b ↔ s.driver b = .tarfs tn

/-- The mount tree with its names. -/
def tree (s : State) (kids : Nat → List Nat) : Named.Tree Name Nat :=
  ⟨s.name, fun n => if (s.inode n).isSome then kids n else []⟩

theorem tree_child {n : Nat} (hn : s.Alloc n) (name : Name) :
    (tree s kids).child n name = (kids n).find? fun c => s.name c = name := by
  have hkids : (tree s kids).children n = kids n := if_pos hn
  rw [Named.Tree.child, hkids]
  rfl

theorem tree_mem {n c : Nat} (hc : c ∈ (tree s kids).children n) : s.Alloc n ∧ c ∈ kids n := by
  by_cases hn : s.Alloc n
  · have hkids : (tree s kids).children n = kids n := if_pos hn
    exact ⟨hn, hkids ▸ hc⟩
  · have hkids : (tree s kids).children n = [] := if_neg hn
    rw [hkids] at hc
    cases hc

inductive Inside (s : State) (kids : Nat → List Nat) : Nat → Prop
  | root : Inside s kids s.vfsRoot
  | kid {n c} : Inside s kids n → c ∈ kids n → Inside s kids c

theorem Inside.alloc (h : Shape s kids) {n : Nat} (hn : Inside s kids n) : s.Alloc n := by
  induction hn with
  | root => exact h.root
  | kid _ hc ih => exact (h.kid _ ih _ hc).1

theorem Inside.mono {kids' : Nat → List Nat} {n : Nat} (hn : Inside s kids n) (h : Shape s kids)
    (hroot : s'.vfsRoot = s.vfsRoot) (hkids : ∀ m, s.Alloc m → kids m ⊆ kids' m) : Inside s' kids' n := by
  induction hn with
  | root => exact hroot ▸ Inside.root
  | kid hn hc ih => exact ih.kid (hkids _ (hn.alloc h) hc)

theorem Inside.parent (h : Shape s kids) {n : Nat} (hn : Inside s kids n) : s.parent n ≠ none := by
  cases hn with
  | root => exact h.rooted
  | kid hp hc =>
    rw [(h.kid _ (hp.alloc h) _ hc).2]
    exact Option.some_ne_none _

theorem Inside.walk {n m : Nat} {ks : List Name} (hn : Inside s kids n)
    (hw : (tree s kids).walk n ks = some m) : Inside s kids m := by
  induction ks generalizing n with
  | nil =>
    cases hw
    exact hn
  | cons k ks ih =>
    obtain ⟨c, hc, hrest⟩ := Option.bind_eq_some_iff.mp hw
    exact ih (hn.kid (tree_mem (Named.child_mem hc).1).2) hrest

/-- A node of the tree other than the root is a child of another node of the tree. -/
theorem Inside.above (h : Shape s kids) {n : Nat} (hn : Inside s kids n) (hne : n ≠ s.vfsRoot) :
    ∃ p, Inside s kids p ∧ n ∈ kids p ∧ p ≠ n := by
  induction hn with
  | root => exact absurd rfl hne
  | @kid p c hp hc ih =>
    refine ⟨p, hp, hc, ?_⟩
    rintro rfl
    have hroot : p ≠ s.vfsRoot := by
      rintro rfl
      exact h.rootless _ h.root hc
    obtain ⟨q, hq, hpq, hqp⟩ := ih hroot
    have h1 := (h.kid p (hp.alloc h) p hc).2
    have h2 := (h.kid q (hq.alloc h) p hpq).2
    exact hqp (Option.some.inj (h2.symm.trans h1))

/-- The children of a node are fewer than the inodes. -/
theorem Shape.length_le (h : Shape s kids) {n : Nat} (hn : s.Alloc n) : (kids n).length ≤ s.next := by
  have hsub : kids n ⊆ List.range s.next := fun c hc =>
    List.mem_range.mpr (h.bound c (h.kid n hn c hc).1)
  have hle := (List.subperm_of_subset (h.chain n hn).nodup hsub).length_le
  rwa [List.length_range] at hle

theorem get_link {n : Nat} (hn : s.Alloc n) : ∃ v, s.get n = .ok v ∧ s.parent n = v.parent ∧
    s.child n = v.child ∧ s.older n = v.older ∧ s.younger n = v.younger := by
  obtain ⟨v, hv⟩ := Option.isSome_iff_exists.mp hn
  exact ⟨v, get_eq hv, by simp [State.link, hv], by simp [State.link, hv], by simp [State.link, hv],
    by simp [State.link, hv]⟩

theorem link_none {g : Inode → Option Nat} {n : Nat} (hn : ¬s.Alloc n) : s.link g n = none := by
  rw [State.link, Option.not_isSome_iff_eq_none.mp hn]
  rfl

theorem driver_alloc {n tn : Nat} (h : s.driver n = .tarfs tn) : s.Alloc n := by
  rw [State.driver] at h
  cases hv : s.inode n with
  | some v => rw [State.Alloc, hv]; rfl
  | none =>
    rw [hv] at h
    cases h

theorem findSibling_eq {name : Name} {c : Option Nat} {l : List Nat} {fuel : Nat}
    (hf : Forward s.older c l) (halloc : ∀ x ∈ l, s.Alloc x) (hfuel : l.length ≤ fuel) :
    findSibling s name fuel c = .ok (l.find? fun x => s.name x = name) := by
  induction l generalizing c fuel with
  | nil =>
    obtain rfl : c = none := hf
    cases fuel <;> rfl
  | cons x l ih =>
    obtain ⟨rfl, hrest⟩ := hf
    obtain ⟨v, hv⟩ := Option.isSome_iff_exists.mp (halloc x List.mem_cons_self)
    have hname : s.name x = v.name := by simp [State.name, hv]
    have holder : s.older x = v.older := by simp [State.link, hv]
    cases fuel with
    | zero => cases hfuel
    | succ fuel =>
      simp only [findSibling, get_eq hv, Bind.bind, Except.bind]
      by_cases hn : v.name = name
      · rw [if_pos hn, List.find?_cons_of_pos (by simpa [hname] using hn)]
        rfl
      · rw [if_neg hn, List.find?_cons_of_neg (by simpa [hname] using hn)]
        rw [holder] at hrest
        exact ih hrest (fun y hy => halloc y (List.mem_cons_of_mem _ hy)) (Nat.le_of_succ_le_succ hfuel)

theorem findChild_eq (h : Shape s kids) {n : Nat} (hn : s.Alloc n) (name : Name) :
    findChild s n name = .ok ((tree s kids).child n name) := by
  obtain ⟨v, hv⟩ := Option.isSome_iff_exists.mp hn
  have hchild : s.child n = v.child := by simp [State.link, hv]
  have hchain := h.chain n hn
  rw [hchild] at hchain
  simp only [findChild, get_eq hv, Bind.bind, Except.bind, tree_child hn]
  exact findSibling_eq hchain (fun c hc => (h.kid n hn c hc).1)
    ((h.length_le hn).trans (Nat.le_succ _))

/-- The walk through the mount tree goes as far as it has the names. -/
theorem vfsFindRoot_eq (h : Shape s kids) {n : Nat} (hn : s.Alloc n) (names : List Name) :
    vfsFindRoot s n names = .ok ((tree s kids).descend n names) := by
  induction names generalizing n with
  | nil => rfl
  | cons name names ih =>
    simp only [vfsFindRoot, findChild_eq h hn, Bind.bind, Except.bind, Named.Tree.descend]
    cases hc : (tree s kids).child n name with
    | none => rfl
    | some c => exact ih (h.kid n hn c (tree_mem (Named.child_mem hc).1).2).1

end Os5.Vfs
