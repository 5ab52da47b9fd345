import Os5.Fs.Mounts

/-!
# Changes of the mount tree

Inodes are made and freed, an inode is put in front of the children of another, and an
inode takes the place of another. Each change is described by its effect on the links,
and keeps the shape of the tree.
-/

namespace Os5.Vfs

open Linear (Forward)

variable {s s' : State} {kids : Nat → List Nat}

-- ---------------------------------------------------------------------------
-- A node is put in front of the children of another
-- ---------------------------------------------------------------------------

def pushed (s : State) (cur n : Nat) : State :=
  ((s.withParent n (some cur)).withOlder n (s.child cur)).withChild cur (some n)

/-- In no chain and not the root. -/
def Apart (s : State) (kids : Nat → List Nat) (n : Nat) : Prop :=
  n ≠ s.vfsRoot ∧ ∀ m, s.Alloc m → n ∉ kids m

theorem Inside.ne_apart {cur n : Nat} (h : Shape s kids) (hcur : Inside s kids cur)
    (hn : Apart s kids n) : n ≠ cur := by
  rintro rfl
  cases hcur with
  | root => exact hn.1 rfl
  | kid hp hc => exact hn.2 _ (hp.alloc h) hc

section
variable {cur n : Nat}

theorem pushed_relinked : Relinked s (pushed s cur n) :=
  (relinked_parent.trans relinked_older).trans relinked_child

theorem pushNode_eq (hcur : s.Alloc cur) (hn : s.Alloc n) :
    pushNode s cur n = .ok (pushed s cur n) := by
  have h₁ : Relinked s (s.withParent n (some cur)) := relinked_parent
  have h₂ := h₁.trans (relinked_older (n := n) (x := s.child cur))
  obtain ⟨v, hget, -, hchild, -⟩ := get_link ((h₁.alloc cur).mpr hcur)
  rw [withParent_child] at hchild
  rw [pushNode, setParent_eq hn]
  simp only [Bind.bind, Except.bind, hget, ← hchild]
  rw [setOlder_eq ((h₁.alloc n).mpr hn)]
  exact setChild_eq ((h₂.alloc cur).mpr hcur)

theorem pushed_parent (hn : s.Alloc n) :
    (pushed s cur n).parent = Function.update s.parent n (some cur) := by
  rw [pushed, withChild_parent, withOlder_parent, withParent_parent hn]

theorem pushed_older (hn : s.Alloc n) :
    (pushed s cur n).older = Function.update s.older n (s.child cur) := by
  rw [pushed, withChild_older, withOlder_older ((relinked_parent.alloc n).mpr hn),
    withParent_older]

theorem pushed_child (hcur : s.Alloc cur) :
    (pushed s cur n).child = Function.update s.child cur (some n) := by
  rw [pushed, withChild_child (((relinked_parent.trans relinked_older).alloc cur).mpr hcur),
    withOlder_child, withParent_child]

theorem pushed_younger : (pushed s cur n).younger = s.younger := by
  rw [pushed, withChild_younger, withOlder_younger, withParent_younger]

theorem Shape.pushed (h : Shape s kids) (hcur : Inside s kids cur) (hn : s.Alloc n)
    (hapart : Apart s kids n) :
    Shape (pushed s cur n) (Function.update kids cur (n :: kids cur)) := by
  have hca := hcur.alloc h
  have hrel : Relinked s (Vfs.pushed s cur n) := pushed_relinked
  constructor
  · intro m hm
    rw [hrel.alloc] at hm
    rw [pushed_child hca, pushed_older hn]
    have hsame : ∀ x ∈ kids m, Function.update s.older n (s.child cur) x = s.older x := by
      intro x hx
      have hxn : x ≠ n := by
        rintro rfl
        exact hapart.2 m hm hx
      rw [Function.update_of_ne hxn]
    by_cases hmc : m = cur
    · subst hmc
      rw [Function.update_self, Function.update_self]
      refine ⟨rfl, ?_⟩
      rw [Function.update_self]
      exact (h.chain m hm).congr hsame
    · rw [Function.update_of_ne hmc, Function.update_of_ne hmc]
      exact (h.chain m hm).congr hsame
  · intro m hm c hc
    rw [hrel.alloc] at hm ⊢
    rw [pushed_parent hn]
    by_cases hcn : c = n
    · subst hcn
      rw [Function.update_self]
      by_cases hmc : m = cur
      · exact ⟨hn, by rw [hmc]⟩
      · rw [Function.update_of_ne hmc] at hc
        exact absurd hc (hapart.2 m hm)
    · rw [Function.update_of_ne hcn]
      by_cases hmc : m = cur
      · subst hmc
        rw [Function.update_self, List.mem_cons] at hc
        exact h.kid m hm c (hc.resolve_left hcn)
      · rw [Function.update_of_ne hmc] at hc
        exact h.kid m hm c hc
  · rw [hrel.alloc]
    exact h.root
  · rw [pushed_parent hn, hrel.vfsRoot, Function.update_of_ne hapart.1.symm]
    exact h.rooted
  · intro m hm hroot
    rw [hrel.alloc] at hm
    rw [hrel.vfsRoot] at hroot
    by_cases hmc : m = cur
    · subst hmc
      rw [Function.update_self, List.mem_cons] at hroot
      obtain hr | hr := hroot
      · exact hapart.1 hr.symm
      · exact h.rootless m hm hr
    · rw [Function.update_of_ne hmc] at hroot
      exact h.rootless m hm hroot
  · intro m hm
    exact h.bound m ((hrel.alloc m).mp hm)
  · intro tn b
    rw [hrel.tar, hrel.driver]
    exact h.buffer tn b

end

-- ---------------------------------------------------------------------------
-- Inodes are made and freed
-- ---------------------------------------------------------------------------

/-- What the archive says of the tar nodes. -/
structure SameTar (s s' : State) : Prop where
  name : ∀ tn, (s'.tar tn).name = (s.tar tn).name
  parent : ∀ tn, (s'.tar tn).parent = (s.tar tn).parent
  children : ∀ tn, (s'.tar tn).children = (s.tar tn).children
  directory : ∀ tn, (s'.tar tn).directory = (s.tar tn).directory

theorem SameTar.refl (s : State) : SameTar s s :=
  ⟨fun _ => rfl, fun _ => rfl, fun _ => rfl, fun _ => rfl⟩

theorem SameTar.trans {s'' : State} (h : SameTar s s') (h' : SameTar s' s'') : SameTar s s'' :=
  ⟨fun n => (h'.name n).trans (h.name n), fun n => (h'.parent n).trans (h.parent n),
    fun n => (h'.children n).trans (h.children n), fun n => (h'.directory n).trans (h.directory n)⟩

theorem SameTar.tarChild (h : SameTar s s') (tn : Nat) (name : Name) :
    s'.tarChild tn name = s.tarChild tn name := by
  simp only [State.tarChild, h.children, h.name]

theorem sameTar_of_eq (h : s'.tar = s.tar) : SameTar s s' := by
  rw [show s' = { s' with tar := s.tar } by rw [← h]]
  exact ⟨fun _ => rfl, fun _ => rfl, fun _ => rfl, fun _ => rfl⟩

theorem putTar_same {t : TarNode} {tn : Nat} (h : t.name = (s.tar tn).name)
    (h₁ : t.parent = (s.tar tn).parent) (h₂ : t.children = (s.tar tn).children)
    (h₃ : t.directory = (s.tar tn).directory) : SameTar s (s.putTar tn t) := by
  have htar (k : Nat) : (s.putTar tn t).tar k = if k = tn then t else s.tar k :=
    Function.update_apply _ _ _ _
  refine ⟨fun k => ?_, fun k => ?_, fun k => ?_, fun k => ?_⟩ <;> rw [htar] <;> split
  all_goals first | rfl | (next he => subst he; assumption)

/-- A new inode without links, which stands for a tar node of its own if it has one. -/
structure Added (s s' : State) (v : Inode) : Prop where
  vfsRoot : s'.vfsRoot = s.vfsRoot
  next : s'.next = s.next + 1
  same : SameTar s s'
  inode : s'.inode = Function.update s.inode s.next (some v)
  bare : v.parent = none ∧ v.child = none ∧ v.older = none ∧ v.younger = none
  unused : ∀ tn, v.d = .tarfs tn → (s.tar tn).buffer = none
  buffer : ∀ tn, (s'.tar tn).buffer = if v.d = .tarfs tn then some s.next else (s.tar tn).buffer

section
variable {v : Inode}

theorem Added.alloc (h : Added s s' v) {m : Nat} : s'.Alloc m ↔ s.Alloc m ∨ m = s.next := by
  rw [State.Alloc, h.inode]
  by_cases hm : m = s.next
  · subst hm
    simp
  · rw [Function.update_of_ne hm]
    exact ⟨Or.inl, fun ha => ha.resolve_right hm⟩

theorem Shape.next_free (h : Shape s kids) : ¬s.Alloc s.next := fun ha => lt_irrefl _ (h.bound _ ha)

theorem Added.link (h : Added s s' v) (hs : Shape s kids) {g : Inode → Option Nat} (hg : g v = none) :
    s'.link g = s.link g := by
  funext m
  by_cases hm : m = s.next
  · subst hm
    rw [link_none hs.next_free, State.link, h.inode, Function.update_self]
    exact hg
  · rw [State.link, h.inode, Function.update_of_ne hm, State.link]

theorem Added.driver (h : Added s s' v) : s'.driver = Function.update s.driver s.next v.d := by
  funext m
  by_cases hm : m = s.next
  · subst hm
    simp [State.driver, h.inode]
  · simp [State.driver, h.inode, hm]

theorem Added.name (h : Added s s' v) : s'.name = Function.update s.name s.next v.name := by
  funext m
  by_cases hm : m = s.next
  · subst hm
    simp [State.name, h.inode]
  · simp [State.name, h.inode, hm]

theorem Added.kind (h : Added s s' v) : s'.kind = Function.update s.kind s.next v.type := by
  funext m
  by_cases hm : m = s.next
  · subst hm
    simp [State.kind, h.inode]
  · simp [State.kind, h.inode, hm]

/-- The node of the new root has it for its inode, and the others have theirs. -/
theorem Added.buffer_iff (ha : Added s s' v) (hnext : ¬s.Alloc s.next)
    (hbuffer : ∀ tn b, (s.tar tn).buffer = some b ↔ s.driver b = .tarfs tn) (tn b : Nat) :
    (s'.tar tn).buffer = some b ↔ s'.driver b = .tarfs tn := by
  rw [ha.buffer, ha.driver]
  have hfree : s.driver s.next ≠ .tarfs tn := fun hd => hnext (driver_alloc hd)
  by_cases hb : b = s.next
  · subst hb
    rw [Function.update_self]
    split
    · next hd => exact ⟨fun _ => hd, fun _ => rfl⟩
    · next hd => exact ⟨fun hbuf => absurd ((hbuffer tn _).mp hbuf) hfree, fun hd' => absurd hd' hd⟩
  · rw [Function.update_of_ne hb]
    split
    · next hd =>
      refine ⟨fun he => absurd (Option.some.inj he).symm hb, fun hd' => ?_⟩
      rw [← hbuffer, ha.unused tn hd] at hd'
      cases hd'
    · exact hbuffer tn b

theorem Shape.added (h : Shape s kids) (ha : Added s s' v) :
    Shape s' (Function.update kids s.next []) := by
  obtain ⟨hparent, hchild, holder, -⟩ := ha.bare
  have hkids : ∀ n, s.Alloc n → Function.update kids s.next [] n = kids n := fun n hn => by
    rw [Function.update_of_ne (h.bound n hn).ne]
  constructor
  · intro n hn
    rw [State.child, State.older, ha.link h hchild, ha.link h holder]
    obtain hold | rfl := ha.alloc.mp hn
    · rw [hkids n hold]
      exact h.chain n hold
    · rw [Function.update_self]
      exact link_none h.next_free
  · intro n hn c hc
    rw [State.parent, ha.link h hparent, ha.alloc]
    obtain hold | rfl := ha.alloc.mp hn
    · rw [hkids n hold] at hc
      exact ⟨Or.inl (h.kid n hold c hc).1, (h.kid n hold c hc).2⟩
    · rw [Function.update_self] at hc
      cases hc
  · rw [ha.vfsRoot, ha.alloc]
    exact Or.inl h.root
  · rw [ha.vfsRoot, State.parent, ha.link h hparent]
    exact h.rooted
  · intro n hn
    rw [ha.vfsRoot]
    obtain hold | rfl := ha.alloc.mp hn
    · rw [hkids n hold]
      exact h.rootless n hold
    · rw [Function.update_self]
      exact List.not_mem_nil
  · intro n hn
    rw [ha.next]
    obtain hold | rfl := ha.alloc.mp hn
    · exact Nat.lt_succ_of_lt (h.bound n hold)
    · exact Nat.lt_succ_self _
  · exact ha.buffer_iff h.next_free h.buffer

end

/-- The root of a new file system has no links, and its archive is of its own. -/
structure Fresh (s : State) (v : Inode) : Prop where
  bare : v.parent = none ∧ v.child = none ∧ v.older = none ∧ v.younger = none
  unused : ∀ tn, v.d = .tarfs tn → (s.tar tn).buffer = none
  top : ∀ k tn, v.d = .tarfs tn → tn ∉ (s.tar k).children

theorem newRoot_added {v : Inode} (h : Fresh s v) : Added s (newRoot s v) v := by
  have hput {tn : Nat} (k : Nat) (t : TarNode) : (s.putTar tn t).tar k = if k = tn then t else s.tar k :=
    Function.update_apply _ _ _ _
  cases hd : v.d with
  | tarfs tn =>
    have hroot : newRoot s v = { (s.putTar tn { s.tar tn with buffer := some s.next, users := 1 }).put
        s.next v with next := s.next + 1 } := by simp only [newRoot, hd]; rfl
    rw [hroot]
    have hsame : SameTar s (s.putTar tn { s.tar tn with buffer := some s.next, users := 1 }) :=
      putTar_same rfl rfl rfl rfl
    refine ⟨rfl, rfl, ⟨hsame.name, hsame.parent, hsame.children, hsame.directory⟩, rfl, h.bare,
      h.unused, fun k => ?_⟩
    refine (congrArg TarNode.buffer (hput k _)).trans ?_
    rw [hd]
    by_cases hk : k = tn
    · subst hk
      rw [if_pos rfl, if_pos rfl]
    · rw [if_neg hk, if_neg fun he => hk (Driver.tarfs.inj he).symm]
  | none =>
    have hroot : newRoot s v = { s.put s.next v with next := s.next + 1 } := by simp only [newRoot, hd]
    rw [hroot]
    exact ⟨rfl, rfl, sameTar_of_eq rfl, rfl, h.bare, h.unused, fun k => by rw [hd]; rfl⟩
  | device =>
    have hroot : newRoot s v = { s.put s.next v with next := s.next + 1 } := by simp only [newRoot, hd]
    rw [hroot]
    exact ⟨rfl, rfl, sameTar_of_eq rfl, rfl, h.bare, h.unused, fun k => by rw [hd]; rfl⟩

/-- Only the uses of a tar node are counted anew. -/
structure Counted (s s' : State) : Prop where
  vfsRoot : s'.vfsRoot = s.vfsRoot
  next : s'.next = s.next
  same : SameTar s s'
  inode : s'.inode = s.inode
  buffer : ∀ tn, (s'.tar tn).buffer = (s.tar tn).buffer

theorem Counted.link (h : Counted s s') (g : Inode → Option Nat) : s'.link g = s.link g := by
  funext m
  rw [State.link, h.inode, State.link]

theorem Counted.name (h : Counted s s') : s'.name = s.name := by
  funext m
  rw [State.name, h.inode, State.name]

theorem Counted.driver (h : Counted s s') : s'.driver = s.driver := by
  funext m
  rw [State.driver, h.inode, State.driver]

theorem Counted.kind (h : Counted s s') : s'.kind = s.kind := by
  funext m
  rw [State.kind, h.inode, State.kind]

theorem Shape.counted (h : Shape s kids) (hc : Counted s s') : Shape s' kids where
  chain n hn := by
    rw [State.child, State.older, hc.link, hc.link]
    rw [State.Alloc, hc.inode] at hn
    exact h.chain n hn
  kid n hn c hm := by
    rw [State.Alloc, hc.inode] at hn ⊢
    rw [State.parent, hc.link]
    exact h.kid n hn c hm
  root := by
    rw [State.Alloc, hc.inode, hc.vfsRoot]
    exact h.root
  rooted := by
    rw [State.parent, hc.link, hc.vfsRoot]
    exact h.rooted
  rootless n hn := by
    rw [State.Alloc, hc.inode] at hn
    rw [hc.vfsRoot]
    exact h.rootless n hn
  bound n hn := by
    rw [State.Alloc, hc.inode] at hn
    rw [hc.next]
    exact h.bound n hn
  buffer tn b := by
    rw [hc.buffer, hc.driver]
    exact h.buffer tn b

theorem tarGetInode_some {tn b : Nat} (hb : (s.tar tn).buffer = some b) :
    ∃ s', tarGetInode s tn = (b, s') ∧ Counted s s' := by
  refine ⟨s.putTar tn { s.tar tn with users := (s.tar tn).users + 1 }, by simp only [tarGetInode, hb],
    rfl, rfl, putTar_same rfl rfl rfl rfl, rfl, fun k => ?_⟩
  by_cases hk : k = tn
  · subst hk
    simp [State.putTar]
  · simp [State.putTar, hk]

theorem tarGetInode_none {tn : Nat} (hb : (s.tar tn).buffer = none) :
    ∃ s', tarGetInode s tn = (s.next, s') ∧ Added s s' (newInode (s.tar tn) tn) := by
  refine ⟨{ (s.put s.next (newInode (s.tar tn) tn)).putTar tn
    { s.tar tn with buffer := some s.next, users := 1 } with next := s.next + 1 },
    by simp only [tarGetInode, hb], rfl, rfl, ?_, rfl, ⟨rfl, rfl, rfl, rfl⟩, ?_, fun k => ?_⟩
  · have hput : (s.put s.next (newInode (s.tar tn) tn)).tar = s.tar := rfl
    have hsame : SameTar s ((s.put s.next (newInode (s.tar tn) tn)).putTar tn
        { s.tar tn with buffer := some s.next, users := 1 }) :=
      (sameTar_of_eq hput).trans (putTar_same rfl rfl rfl rfl)
    exact ⟨hsame.name, hsame.parent, hsame.children, hsame.directory⟩
  · intro k hk
    cases hk
    exact hb
  · by_cases hk : k = tn
    · subst hk
      simp [State.putTar, newInode]
    · simp [State.put, State.putTar, newInode, hk, Ne.symm hk]

/-- `n` was freed, or is still there because it is in use. -/
structure Freed (s s' : State) (n : Nat) : Prop where
  vfsRoot : s'.vfsRoot = s.vfsRoot
  next : s'.next = s.next
  same : SameTar s s'
  others : ∀ m, m ≠ n → s'.inode m = s.inode m
  self : s'.inode n = s.inode n ∨ s'.inode n = none
  buffer : ∀ tn b, (s'.tar tn).buffer = some b ↔ (s.tar tn).buffer = some b ∧ s'.Alloc b

theorem vfsFree_inside {n : Nat} (hn : s.Alloc n) (hp : s.parent n ≠ none) : vfsFree s n = .ok s := by
  obtain ⟨v, hget, hparent, -⟩ := get_link hn
  rw [hparent] at hp
  simp only [vfsFree, hget, Bind.bind, Except.bind]
  rw [if_pos hp]
  rfl

theorem Shape.buffered (h : Shape s kids) {tn b : Nat} (hb : (s.tar tn).buffer = some b) : s.Alloc b :=
  driver_alloc ((h.buffer tn b).mp hb)

theorem Counted.freed (h : Shape s kids) (hc : Counted s s') (n : Nat) : Freed s s' n where
  vfsRoot := hc.vfsRoot
  next := hc.next
  same := hc.same
  others m _ := by rw [hc.inode]
  self := Or.inl (by rw [hc.inode])
  buffer tn b := by
    rw [hc.buffer, State.Alloc, hc.inode]
    exact ⟨fun hb => ⟨hb, h.buffered hb⟩, fun hb => hb.1⟩

theorem release_freed {n : Nat} (t : State) (h : Shape s kids) (hbuf : ∀ k, (t.tar k).buffer ≠ some n)
    (hsame : SameTar s t)
    (hother : ∀ k b, b ≠ n → ((t.tar k).buffer = some b ↔ (s.tar k).buffer = some b)) :
    Freed s { s.release n with tar := t.tar } n where
  vfsRoot := rfl
  next := rfl
  same := ⟨hsame.name, hsame.parent, hsame.children, hsame.directory⟩
  others m hm := Function.update_of_ne hm _ _
  self := Or.inr (Function.update_self _ _ _)
  buffer k b := by
    by_cases hb : b = n
    · subst hb
      refine ⟨fun hk => absurd hk (hbuf k), fun hk => ?_⟩
      simp [State.Alloc, State.release] at hk
    · have ha : State.Alloc { s.release n with tar := t.tar } b ↔ s.Alloc b := by
        simp [State.Alloc, State.release, hb]
      rw [ha]
      refine (hother k b hb).trans ⟨fun hk => ⟨hk, h.buffered hk⟩, fun hk => hk.1⟩

theorem vfsFree_freed (h : Shape s kids) {n : Nat} (hn : s.Alloc n) (hp : s.parent n = none) :
    ∃ s', vfsFree s n = .ok s' ∧ Freed s s' n := by
  obtain ⟨v, hv⟩ := Option.isSome_iff_exists.mp hn
  have hparent : v.parent = none := by simpa [State.link, hv] using hp
  have hdriver : s.driver n = v.d := by simp [State.driver, hv]
  have hsame : Counted s s := ⟨rfl, rfl, SameTar.refl s, rfl, fun _ => rfl⟩
  simp only [vfsFree, get_eq hv, Bind.bind, Except.bind, hparent]
  rw [if_neg (by simp)]
  by_cases hu : 0 < v.users
  · rw [if_pos hu]
    exact ⟨s, rfl, hsame.freed h n⟩
  rw [if_neg hu]
  have hrelease (hd : ∀ tn, v.d ≠ .tarfs tn) : Freed s (s.release n) n := by
    refine release_freed s h (fun k hk => ?_) (SameTar.refl s) fun _ _ _ => Iff.rfl
    rw [h.buffer, hdriver] at hk
    exact hd k hk
  cases hd : v.d with
  | none => exact ⟨_, rfl, hrelease fun tn => by simp [hd]⟩
  | device => exact ⟨_, rfl, hrelease fun tn => by simp [hd]⟩
  | tarfs tn =>
    have hb : (s.tar tn).buffer = some n := (h.buffer tn n).mpr (hdriver.trans hd)
    have hput (k : Nat) (t : TarNode) : (s.putTar tn t).tar k = if k = tn then t else s.tar k :=
      Function.update_apply _ _ _ _
    simp only [flushTar]
    by_cases hone : (s.tar tn).users - 1 = 0
    · rw [if_pos hone, hb]
      refine ⟨_, rfl, release_freed (s.putTar tn _) h (fun k hk => ?_)
        (putTar_same rfl rfl rfl rfl) fun k b hbn => ?_⟩
      · rw [hput] at hk
        split at hk
        · cases hk
        · next hkt =>
          rw [h.buffer, hdriver, hd] at hk
          exact hkt (Driver.tarfs.inj hk).symm
      · rw [hput]
        split
        · next hkt =>
          subst hkt
          rw [hb]
          exact ⟨fun hk => (by cases hk), fun hk => absurd (Option.some.inj hk).symm hbn⟩
        · exact Iff.rfl
    · rw [if_neg hone]
      have hc : Counted s (s.putTar tn { s.tar tn with users := (s.tar tn).users - 1 }) := by
        refine ⟨rfl, rfl, putTar_same rfl rfl rfl rfl, rfl, fun k => ?_⟩
        rw [hput]
        split
        · next hk => rw [hk]
        · rfl
      exact ⟨_, rfl, hc.freed h n⟩

theorem Shape.freed {n : Nat} (h : Shape s kids) (hf : Freed s s' n) (hn : Apart s kids n) :
    Shape s' kids := by
  have halloc : ∀ m, s'.Alloc m → s.Alloc m := by
    intro m hm
    by_cases hmn : m = n
    · subst hmn
      obtain hsame | hnone := hf.self
      · rwa [State.Alloc, hsame] at hm
      · rw [State.Alloc, hnone] at hm
        cases hm
    · rwa [State.Alloc, hf.others m hmn] at hm
  have hinode : ∀ m, s'.Alloc m → s'.inode m = s.inode m := by
    intro m hm
    by_cases hmn : m = n
    · subst hmn
      obtain hsame | hnone := hf.self
      · exact hsame
      · rw [State.Alloc, hnone] at hm
        cases hm
    · exact hf.others m hmn
  have hlink (g) : ∀ m, s'.Alloc m → s'.link g m = s.link g m := fun m hm => by
    rw [State.link, hinode m hm, State.link]
  have hkid : ∀ m, s.Alloc m → ∀ c ∈ kids m, s'.Alloc c := fun m hm c hc => by
    rw [State.Alloc, hf.others c (ne_of_mem_of_not_mem hc (hn.2 m hm))]
    exact (h.kid m hm c hc).1
  have hroot : s'.Alloc s'.vfsRoot := by
    rw [State.Alloc, hf.vfsRoot, hf.others _ hn.1.symm]
    exact h.root
  constructor
  · intro m hm
    have hold := halloc m hm
    rw [State.child, hlink _ m hm]
    exact (h.chain m hold).congr fun c hc => hlink _ c (hkid m hold c hc)
  · intro m hm c hc
    have hold := halloc m hm
    have hca := hkid m hold c hc
    exact ⟨hca, (hlink _ c hca).trans (h.kid m hold c hc).2⟩
  · exact hroot
  · rw [State.parent, hlink _ _ hroot, hf.vfsRoot]
    exact h.rooted
  · intro m hm
    rw [hf.vfsRoot]
    exact h.rootless m (halloc m hm)
  · intro m hm
    rw [hf.next]
    exact h.bound m (halloc m hm)
  · intro tn b
    rw [hf.buffer, h.buffer]
    constructor
    · rintro ⟨hd, hb⟩
      rwa [State.driver, hinode b hb]
    · intro hd
      have hb := driver_alloc hd
      rw [State.driver, hinode b hb] at hd
      exact ⟨hd, hb⟩

-- ---------------------------------------------------------------------------
-- A node takes the place of another
-- ---------------------------------------------------------------------------

section
variable {t r p : Nat}

/-- `r` under the parent of `t`, for which it is the first child if `t` was. -/
def reparented (s : State) (t r p : Nat) : State :=
  let s' := (s.withParent r (some p)).withParent t none
  if s.child p = some t then s'.withChild p (some r) else s'

theorem reparented_relinked : Relinked s (reparented s t r p) := by
  unfold reparented
  have h : Relinked s ((s.withParent r (some p)).withParent t none) :=
    relinked_parent.trans relinked_parent
  simp only
  split
  · exact h.trans relinked_child
  · exact h

theorem replaceParent_eq (ht : s.Alloc t) (hr : s.Alloc r) (hp : s.Alloc p) (hrt : r ≠ t)
    (hparent : s.parent t = some p) : replaceParent s t r = .ok (reparented s t r p) := by
  have h₁ : Relinked s (s.withParent r (some p)) := relinked_parent
  have h₂ : Relinked s ((s.withParent r (some p)).withParent t none) := h₁.trans relinked_parent
  have hparent₂ : ((s.withParent r (some p)).withParent t none).parent r = some p := by
    rw [withParent_parent ((h₁.alloc t).mpr ht), Function.update_of_ne hrt, withParent_parent hr,
      Function.update_self]
  obtain ⟨c, hc, hcp, -⟩ := get_link ht
  obtain ⟨v, hv, hvp, -⟩ := get_link ((h₂.alloc r).mpr hr)
  obtain ⟨w, hw, -, hwc, -⟩ := get_link ((h₂.alloc p).mpr hp)
  rw [withParent_child, withParent_child] at hwc
  rw [hparent] at hcp
  rw [hparent₂] at hvp
  simp only [replaceParent, hc, ← hcp, setParent_eq hr, setParent_eq ((h₁.alloc t).mpr ht), hv,
    ← hvp, deref, hw, ← hwc, Bind.bind, Except.bind, reparented]
  split
  · exact setChild_eq ((h₂.alloc p).mpr hp)
  · rfl

theorem reparented_parent (ht : s.Alloc t) (hr : s.Alloc r) :
    (reparented s t r p).parent = Function.update (Function.update s.parent r (some p)) t none := by
  have h₁ : Relinked s (s.withParent r (some p)) := relinked_parent
  have hp : ((s.withParent r (some p)).withParent t none).parent =
      Function.update (Function.update s.parent r (some p)) t none := by
    rw [withParent_parent ((h₁.alloc t).mpr ht), withParent_parent hr]
  simp only [reparented]
  split
  · rw [withChild_parent, hp]
  · exact hp

theorem reparented_child (hp : s.Alloc p) : (reparented s t r p).child =
    if s.child p = some t then Function.update s.child p (some r) else s.child := by
  have h₂ : Relinked s ((s.withParent r (some p)).withParent t none) :=
    relinked_parent.trans relinked_parent
  simp only [reparented]
  split
  · rw [withChild_child ((h₂.alloc p).mpr hp), withParent_child, withParent_child]
  · rw [withParent_child, withParent_child]

theorem reparented_older : (reparented s t r p).older = s.older := by
  simp only [reparented]
  split <;> simp only [withChild_older, withParent_older]

theorem reparented_younger : (reparented s t r p).younger = s.younger := by
  simp only [reparented]
  split <;> simp only [withChild_younger, withParent_younger]

/-- The chain goes on behind `r` as it did behind `t`, but its next node points
back to `t`. -/
def olderTaken (s : State) (t r : Nat) : State :=
  let s' := s.withOlder r (s.older t)
  match s.older t with
  | some o => s'.withYounger o (some t)
  | none => s'

theorem olderTaken_relinked : Relinked s (olderTaken s t r) := by
  unfold olderTaken
  simp only
  split
  · exact relinked_older.trans relinked_younger
  · exact relinked_older

theorem replaceOlder_eq (ht : s.Alloc t) (hr : s.Alloc r)
    (holder : ∀ o, s.older t = some o → s.Alloc o) :
    replaceOlder s t r = .ok (olderTaken s t r) := by
  obtain ⟨c, hc, -, -, hco, -⟩ := get_link ht
  simp only [replaceOlder, hc, setOlder_eq hr, Bind.bind, Except.bind, olderTaken, ← hco]
  cases ho : s.older t with
  | none => rfl
  | some o => exact setYounger_eq ((relinked_older.alloc o).mpr (holder o ho))

theorem olderTaken_parent : (olderTaken s t r).parent = s.parent := by
  simp only [olderTaken]
  split <;> simp only [withYounger_parent, withOlder_parent]

theorem olderTaken_child : (olderTaken s t r).child = s.child := by
  simp only [olderTaken]
  split <;> simp only [withYounger_child, withOlder_child]

theorem olderTaken_older (hr : s.Alloc r) :
    (olderTaken s t r).older = Function.update s.older r (s.older t) := by
  simp only [olderTaken]
  split <;> simp only [withYounger_older, withOlder_older hr]

theorem olderTaken_younger {m : Nat} (hm : s.older t ≠ some m) :
    (olderTaken s t r).younger m = s.younger m := by
  simp only [olderTaken]
  cases ho : s.older t with
  | none => simp only [withOlder_younger]
  | some o =>
    have hmo : m ≠ o := fun he => hm (he ▸ ho)
    have hinode : ((s.withOlder r (some o)).withYounger o (some t)).inode m =
        (s.withOlder r (some o)).inode m := alter_inode_ne hmo
    exact (congrArg (fun v => v.bind Inode.younger) hinode).trans
      (congrFun (withOlder_younger s r (some o)) m)

def renamed (s : State) (t r : Nat) : State :=
  let s' := s.alter r fun n => { n with name := s.name t, type := n.type ||| fsMount }
  if t = s.vfsRoot then { s' with vfsRoot := r } else s'

theorem replaceName_eq (ht : s.Alloc t) (hr : s.Alloc r) :
    replaceName s t r = .ok (renamed s t r) := by
  obtain ⟨c, hc⟩ := Option.isSome_iff_exists.mp ht
  have hname : s.name t = c.name := by simp [State.name, hc]
  simp only [replaceName, get_eq hc, assign_eq hr, Bind.bind, Except.bind, renamed, hname]
  rfl

theorem replaceYounger_eq (ht : s.Alloc t) (hr : s.Alloc r) (hyounger : s.younger t = none) :
    replaceYounger s t r = .ok (s.withYounger r none) := by
  obtain ⟨c, hc, -, -, -, hcy⟩ := get_link ht
  rw [hyounger] at hcy
  simp only [replaceYounger, hc, ← hcy, setYounger_eq hr, Bind.bind, Except.bind]
  rfl

/-- `r` in the place of `t`. -/
def swapped (s : State) (t r p : Nat) : State :=
  renamed ((olderTaken (reparented s t r p) t r).withYounger r none) t r

theorem beforeName_relinked :
    Relinked s ((olderTaken (reparented s t r p) t r).withYounger r none) :=
  (reparented_relinked.trans olderTaken_relinked).trans relinked_younger

theorem renamed_link (g : Inode → Option Nat)
    (hg : ∀ v : Inode, ∀ name type, g { v with name := name, type := type } = g v) :
    (renamed s t r).link g = s.link g := by
  have h : (s.alter r fun n => { n with name := s.name t, type := n.type ||| fsMount }).link g =
      s.link g := link_alter fun v => hg v _ _
  simp only [renamed]
  split
  · exact h
  · exact h

theorem renamed_alloc {m : Nat} : (renamed s t r).Alloc m ↔ s.Alloc m := by
  simp only [renamed]
  split
  · exact alter_alloc
  · exact alter_alloc

theorem renamed_vfsRoot : (renamed s t r).vfsRoot = if t = s.vfsRoot then r else s.vfsRoot := by
  simp only [renamed]
  split <;> rfl

theorem renamed_next : (renamed s t r).next = s.next := by
  simp only [renamed]
  split <;> rfl

theorem renamed_tar : (renamed s t r).tar = s.tar := by
  simp only [renamed]
  split <;> rfl

theorem renamed_inode (m : Nat) : (renamed s t r).inode m = if m = r then
    (s.inode m).map fun n => { n with name := s.name t, type := n.type ||| fsMount }
    else s.inode m := by
  simp only [renamed]
  split <;> rfl

theorem replaceNode_eq (ht : s.Alloc t) (hr : s.Alloc r) (hp : s.Alloc p) (hrt : r ≠ t) (hparent : s.parent t = some p) (hyounger : s.younger t = none)
    (holder : ∀ o, s.older t = some o → s.Alloc o ∧ o ≠ t) :
    replaceNode s t r = (do
      let s ← vfsFree (swapped s t r p) t
      vfsFree s r) := by
  have h₁ : Relinked s (reparented s t r p) := reparented_relinked
  have h₂ : Relinked s (olderTaken (reparented s t r p) t r) := h₁.trans olderTaken_relinked
  have h₃ : Relinked s ((olderTaken (reparented s t r p) t r).withYounger r none) :=
    beforeName_relinked
  have ho : ∀ o, (reparented s t r p).older t = some o → (reparented s t r p).Alloc o := by
    intro o he
    rw [reparented_older] at he
    exact (h₁.alloc o).mpr (holder o he).1
  have hy : (olderTaken (reparented s t r p) t r).younger t = none := by
    rw [olderTaken_younger, reparented_younger, hyounger]
    rw [reparented_older]
    exact fun he => (holder t he).2 rfl
  simp only [replaceNode, replaceParent_eq ht hr hp hrt hparent,
    replaceOlder_eq ((h₁.alloc t).mpr ht) ((h₁.alloc r).mpr hr) ho,
    replaceYounger_eq ((h₂.alloc t).mpr ht) ((h₂.alloc r).mpr hr) hy,
    replaceName_eq ((h₃.alloc t).mpr ht) ((h₃.alloc r).mpr hr), Bind.bind, Except.bind, swapped]

theorem swapped_parent (ht : s.Alloc t) (hr : s.Alloc r) :
    (swapped s t r p).parent = Function.update (Function.update s.parent r (some p)) t none := by
  rw [State.parent, swapped, renamed_link _ fun _ _ _ => rfl]
  exact (withYounger_parent _ _ _).trans (olderTaken_parent.trans (reparented_parent ht hr))

theorem swapped_child (hp : s.Alloc p) : (swapped s t r p).child =
    if s.child p = some t then Function.update s.child p (some r) else s.child := by
  rw [State.child, swapped, renamed_link _ fun _ _ _ => rfl]
  exact (withYounger_child _ _ _).trans (olderTaken_child.trans (reparented_child hp))

theorem swapped_older (hr : s.Alloc r) :
    (swapped s t r p).older = Function.update s.older r (s.older t) := by
  have h₁ : Relinked s (reparented s t r p) := reparented_relinked
  rw [State.older, swapped, renamed_link _ fun _ _ _ => rfl]
  have ho := olderTaken_older (s := reparented s t r p) (t := t) ((h₁.alloc r).mpr hr)
  rw [reparented_older] at ho
  exact (withYounger_older _ _ _).trans ho

theorem swapped_younger {m : Nat} (hm : m ≠ r) (ho : s.older t ≠ some m) :
    (swapped s t r p).younger m = s.younger m := by
  rw [State.younger, swapped, renamed_link _ fun _ _ _ => rfl]
  have hinode : ((olderTaken (reparented s t r p) t r).withYounger r none).inode m =
      (olderTaken (reparented s t r p) t r).inode m := alter_inode_ne hm
  have hy := olderTaken_younger (s := reparented s t r p) (t := t) (r := r) (m := m)
    (by rwa [reparented_older])
  rw [reparented_younger] at hy
  exact (congrArg (fun v => v.bind Inode.younger) hinode).trans hy

theorem swapped_younger_self (hr : s.Alloc r) : (swapped s t r p).younger r = none := by
  have h₂ : Relinked s (olderTaken (reparented s t r p) t r) :=
    reparented_relinked.trans olderTaken_relinked
  rw [State.younger, swapped, renamed_link _ fun _ _ _ => rfl]
  have hy := withYounger_younger (x := none) ((h₂.alloc r).mpr hr)
  exact (congrFun hy r).trans (Function.update_self _ _ _)

theorem swapped_alloc {m : Nat} : (swapped s t r p).Alloc m ↔ s.Alloc m :=
  renamed_alloc.trans (beforeName_relinked.alloc m)

theorem swapped_vfsRoot : (swapped s t r p).vfsRoot = if t = s.vfsRoot then r else s.vfsRoot := by
  have h : ((olderTaken (reparented s t r p) t r).withYounger r none).vfsRoot = s.vfsRoot :=
    beforeName_relinked.vfsRoot
  rw [swapped, renamed_vfsRoot, h]

theorem swapped_next : (swapped s t r p).next = s.next := by
  rw [swapped, renamed_next]
  exact beforeName_relinked.next

theorem swapped_tar : (swapped s t r p).tar = s.tar := by
  rw [swapped, renamed_tar]
  exact beforeName_relinked.tar

theorem swapped_driver : (swapped s t r p).driver = s.driver := by
  have hrel : Relinked s ((olderTaken (reparented s t r p) t r).withYounger r none) :=
    beforeName_relinked
  rw [← hrel.driver]
  funext m
  rw [State.driver, swapped, renamed_inode, State.driver]
  split
  · rw [Option.map_map]
    rfl
  · rfl

theorem swapped_name {m : Nat} (hm : m ≠ r) : (swapped s t r p).name m = s.name m := by
  have hrel : Relinked s ((olderTaken (reparented s t r p) t r).withYounger r none) :=
    beforeName_relinked
  rw [← hrel.name, State.name, swapped, renamed_inode, if_neg hm, State.name]

theorem swapped_name_self (hr : s.Alloc r) : (swapped s t r p).name r = s.name t := by
  have hrel : Relinked s ((olderTaken (reparented s t r p) t r).withYounger r none) :=
    beforeName_relinked
  obtain ⟨v, hv⟩ := Option.isSome_iff_exists.mp ((hrel.alloc r).mpr hr)
  rw [State.name, swapped, renamed_inode, if_pos rfl, hv, hrel.name]
  rfl

theorem swapped_kind {m : Nat} (hm : m ≠ r) : (swapped s t r p).kind m = s.kind m := by
  have hrel : Relinked s ((olderTaken (reparented s t r p) t r).withYounger r none) :=
    beforeName_relinked
  rw [← hrel.kind, State.kind, swapped, renamed_inode, if_neg hm, State.kind]

theorem swapped_kind_self (hr : s.Alloc r) : (swapped s t r p).kind r = s.kind r ||| fsMount := by
  have hrel : Relinked s ((olderTaken (reparented s t r p) t r).withYounger r none) :=
    beforeName_relinked
  obtain ⟨v, hv⟩ := Option.isSome_iff_exists.mp ((hrel.alloc r).mpr hr)
  rw [← hrel.kind, State.kind, swapped, renamed_inode, if_pos rfl, State.kind, hv]
  rfl

theorem swapped_buffer (h : Shape s kids) (tn b : Nat) :
    ((swapped s t r p).tar tn).buffer = some b ↔ (swapped s t r p).driver b = .tarfs tn := by
  rw [swapped_tar, swapped_driver]
  exact h.buffer tn b

theorem Shape.swapped {rest : List Nat} (h : Shape s kids) (ht : s.Alloc t) (hr : s.Alloc r)
    (hp : s.Alloc p) (hkids : kids p = t :: rest) (hrt : r ≠ t) (hapart : Apart s kids r) :
    Shape (swapped s t r p) (Function.update kids p (r :: rest)) ∧
      Apart (swapped s t r p) (Function.update kids p (r :: rest)) t := by
  have htp : t ∈ kids p := by rw [hkids]; exact List.mem_cons_self
  have hroot : t ≠ s.vfsRoot := fun he => h.rootless p hp (he ▸ htp)
  have hparent : s.parent t = some p := (h.kid p hp t htp).2
  have hchain := h.chain p hp
  have hnodup := hchain.nodup
  rw [hkids] at hchain hnodup
  obtain ⟨hchild, hrest⟩ := hchain
  have hroot' : (Vfs.swapped s t r p).vfsRoot = s.vfsRoot := by
    rw [swapped_vfsRoot, if_neg hroot]
  have holder : ∀ x, x ≠ r → Function.update s.older r (s.older t) x = s.older x := fun x hx => by
    rw [Function.update_of_ne hx]
  have hother : ∀ m, s.Alloc m → m ≠ p → t ∉ kids m := by
    intro m hm hmp htm
    exact hmp (Option.some.inj ((h.kid m hm t htm).2.symm.trans hparent))
  have hsame : ∀ c, c ≠ r → c ≠ t → (Vfs.swapped s t r p).parent c = s.parent c := by
    intro c hcr hct
    rw [swapped_parent ht hr, Function.update_of_ne hct, Function.update_of_ne hcr]
  have hrestr : ∀ c ∈ rest, c ∈ kids p := fun c hc => hkids ▸ List.mem_cons_of_mem _ hc
  refine ⟨⟨?_, ?_, ?_, ?_, ?_, ?_, swapped_buffer h⟩, ?_, ?_⟩
  · intro m hm
    rw [swapped_alloc] at hm
    rw [swapped_child hp, if_pos hchild, swapped_older hr]
    by_cases hmp : m = p
    · subst hmp
      rw [Function.update_self, Function.update_self]
      refine ⟨rfl, ?_⟩
      rw [Function.update_self]
      exact hrest.congr fun x hx =>
        holder x (ne_of_mem_of_not_mem (hrestr x hx) (hapart.2 m hm))
    · rw [Function.update_of_ne hmp, Function.update_of_ne hmp]
      exact (h.chain m hm).congr fun x hx => holder x (ne_of_mem_of_not_mem hx (hapart.2 m hm))
  · intro m hm c hc
    rw [swapped_alloc] at hm ⊢
    by_cases hmp : m = p
    · subst hmp
      rw [Function.update_self, List.mem_cons] at hc
      obtain rfl | hc := hc
      · refine ⟨hr, ?_⟩
        rw [swapped_parent ht hr, Function.update_of_ne hrt, Function.update_self]
      · have hct : c ≠ t := ne_of_mem_of_not_mem hc (List.nodup_cons.mp hnodup).1
        have hcr : c ≠ r := ne_of_mem_of_not_mem (hrestr c hc) (hapart.2 m hm)
        rw [hsame c hcr hct]
        exact h.kid m hm c (hrestr c hc)
    · rw [Function.update_of_ne hmp] at hc
      rw [hsame c (ne_of_mem_of_not_mem hc (hapart.2 m hm))
        (ne_of_mem_of_not_mem hc (hother m hm hmp))]
      exact h.kid m hm c hc
  · rw [hroot', swapped_alloc]
    exact h.root
  · rw [hroot', hsame _ hapart.1.symm hroot.symm]
    exact h.rooted
  · intro m hm hmem
    rw [swapped_alloc] at hm
    rw [hroot'] at hmem
    by_cases hmp : m = p
    · subst hmp
      rw [Function.update_self, List.mem_cons] at hmem
      obtain he | hmem := hmem
      · exact hapart.1 he.symm
      · exact h.rootless m hm (hrestr _ hmem)
    · rw [Function.update_of_ne hmp] at hmem
      exact h.rootless m hm hmem
  · intro m hm
    rw [swapped_next]
    exact h.bound m (swapped_alloc.mp hm)
  · rw [hroot']
    exact hroot
  · intro m hm hmem
    rw [swapped_alloc] at hm
    by_cases hmp : m = p
    · subst hmp
      rw [Function.update_self, List.mem_cons] at hmem
      obtain he | hmem := hmem
      · exact hrt he.symm
      · exact (List.nodup_cons.mp hnodup).1 hmem
    · rw [Function.update_of_ne hmp] at hmem
      exact hother m hm hmp hmem

theorem Shape.swappedRoot (h : Shape s kids) (hr : s.Alloc r) (hp : s.Alloc p)
    (hrt : r ≠ s.vfsRoot) (hapart : Apart s kids r) :
    Shape (Vfs.swapped s s.vfsRoot r p) kids ∧ Apart (Vfs.swapped s s.vfsRoot r p) kids s.vfsRoot := by
  have ht := h.root
  have hroot' : (Vfs.swapped s s.vfsRoot r p).vfsRoot = r := by
    rw [swapped_vfsRoot, if_pos rfl]
  have hchild : s.child p ≠ some s.vfsRoot := by
    intro hc
    have hchain := h.chain p hp
    have hless := h.rootless p hp
    cases hk : kids p with
    | nil =>
      rw [hk] at hchain
      rw [hc] at hchain
      cases hchain
    | cons x l =>
      rw [hk] at hchain hless
      obtain ⟨hx, -⟩ := hchain
      rw [hc] at hx
      cases hx
      exact hless List.mem_cons_self
  refine ⟨⟨?_, ?_, ?_, ?_, ?_, ?_, swapped_buffer h⟩, ?_, ?_⟩
  · intro m hm
    rw [swapped_alloc] at hm
    rw [swapped_child hp, if_neg hchild, swapped_older hr]
    exact (h.chain m hm).congr fun x hx => by
      rw [Function.update_of_ne (ne_of_mem_of_not_mem hx (hapart.2 m hm))]
  · intro m hm c hc
    rw [swapped_alloc] at hm ⊢
    rw [swapped_parent ht hr, Function.update_of_ne (ne_of_mem_of_not_mem hc (h.rootless m hm)),
      Function.update_of_ne (ne_of_mem_of_not_mem hc (hapart.2 m hm))]
    exact h.kid m hm c hc
  · rw [hroot', swapped_alloc]
    exact hr
  · rw [hroot', swapped_parent ht hr, Function.update_of_ne hrt, Function.update_self]
    exact Option.some_ne_none _
  · intro m hm
    rw [swapped_alloc] at hm
    rw [hroot']
    exact hapart.2 m hm
  · intro m hm
    rw [swapped_next]
    exact h.bound m (swapped_alloc.mp hm)
  · rw [hroot']
    exact hrt.symm
  · intro m hm
    rw [swapped_alloc] at hm
    exact h.rootless m hm

/-- The node that was replaced is freed if nobody uses it. -/
theorem replaceNode_freed {kids' : Nat → List Nat} (ht : s.Alloc t) (hr : s.Alloc r) (hp : s.Alloc p)
    (hrt : r ≠ t) (hparent : s.parent t = some p) (hyounger : s.younger t = none)
    (holder : ∀ o, s.older t = some o → s.Alloc o ∧ o ≠ t) (hs : Shape (swapped s t r p) kids') :
    ∃ s', replaceNode s t r = .ok s' ∧ Freed (swapped s t r p) s' t := by
  have hnone : (swapped s t r p).parent t = none := by
    rw [swapped_parent ht hr, Function.update_self]
  obtain ⟨s', hfree, hf⟩ := vfsFree_freed hs (swapped_alloc.mpr ht) hnone
  refine ⟨s', ?_, hf⟩
  have hinode : s'.inode r = (swapped s t r p).inode r := hf.others r hrt
  have hra : s'.Alloc r := by
    rw [State.Alloc, hinode]
    exact swapped_alloc.mpr hr
  have hrp : s'.parent r = some p := by
    rw [State.parent, State.link, hinode]
    have hsp := swapped_parent (p := p) ht hr
    exact (congrFun hsp r).trans (by rw [Function.update_of_ne hrt, Function.update_self])
  rw [replaceNode_eq ht hr hp hrt hparent hyounger holder, hfree]
  exact vfsFree_inside hra (by rw [hrp]; exact Option.some_ne_none _)

end

end Os5.Vfs
