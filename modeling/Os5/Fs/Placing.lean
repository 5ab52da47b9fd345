import Os5.Fs.Grafts

/-!
# Archives in the mount tree

The tar nodes form trees of their own. An inode of the mount tree that stands for a
node of an archive below its root is a child of the inode of the node above it, and
has the name and the kind that `tar_get_inode` gave it. So a lookup by the driver
finds an inode that is in no chain yet, and the step of a mount that puts it into the
tree can be described once.
-/

namespace Os5.Vfs

open Tarfs (dot dotdot)

structure Placed (s : State) (kids : Nat → List Nat) : Prop where
  up : ∀ k c, c ∈ (s.tar k).children → (s.tar c).parent = some k
  deep : ∃ depth : Nat → Nat, ∀ k c, c ∈ (s.tar k).children → depth k < depth c
  kid : ∀ n c k cn, s.Alloc n → c ∈ kids n → s.driver c = .tarfs cn → cn ∈ (s.tar k).children →
    s.driver n = .tarfs k
  top : ∀ k cn, s.driver s.vfsRoot = .tarfs cn → cn ∉ (s.tar k).children
  made : ∀ n k cn, s.driver n = .tarfs cn → cn ∈ (s.tar k).children →
    s.name n = (s.tar cn).name ∧ s.kind n = (newInode (s.tar cn) cn).type

variable {s s' : State} {kids kids' : Nat → List Nat}

theorem tarChild_mem {k c : Nat} {name : Name} (h : s.tarChild k name = some c) :
    c ∈ (s.tar k).children ∧ (s.tar c).name = name := by
  refine ⟨List.mem_of_find?_eq_some h, ?_⟩
  simpa using List.find?_some h

def State.driverChild (s : State) (d : Driver) (name : Name) : Option Nat :=
  match d with
  | .tarfs tn => s.tarChild tn name
  | _ => none

theorem newInode_directory {t : TarNode} {tn : Nat} :
    (newInode t tn).type &&& fsTypeMask = fsDirectory ↔ t.directory = true := by
  have h : ∀ d : Bool, (if d then fsDirectory else fsFile) &&& fsTypeMask = fsDirectory ↔ d = true := by
    decide
  exact h t.directory

theorem Placed.same (h : Placed s kids) (hs : SameTar s s') (hroot : s'.vfsRoot = s.vfsRoot)
    (hdriver : ∀ n k cn, s'.driver n = .tarfs cn → cn ∈ (s.tar k).children →
      s.driver n = .tarfs cn ∧ s'.name n = s.name n ∧ s'.kind n = s.kind n)
    (hkids : ∀ n c k cn, s'.Alloc n → c ∈ kids' n → s.driver c = .tarfs cn →
      cn ∈ (s.tar k).children → s'.driver n = .tarfs k) : Placed s' kids' where
  up k c hc := by
    rw [hs.children] at hc
    rw [hs.parent]
    exact h.up k c hc
  deep := by
    obtain ⟨depth, hdepth⟩ := h.deep
    refine ⟨depth, fun k c hc => ?_⟩
    rw [hs.children] at hc
    exact hdepth k c hc
  kid n c k cn hn hc hd hcn := by
    rw [hs.children] at hcn
    exact hkids n c k cn hn hc (hdriver c k cn hd hcn).1 hcn
  top k cn hd hcn := by
    rw [hs.children] at hcn
    rw [hroot] at hd
    exact h.top k cn (hdriver _ k cn hd hcn).1 hcn
  made n k cn hd hcn := by
    rw [hs.children] at hcn
    obtain ⟨hold, hname, hkind⟩ := hdriver n k cn hd hcn
    rw [hname, hkind, hs.name, newInode, hs.directory]
    exact h.made n k cn hold hcn

theorem Placed.counted (h : Placed s kids) (hc : Counted s s') : Placed s' kids := by
  refine h.same hc.same hc.vfsRoot (fun n k cn hd _ => ?_) fun n c k cn hn hm hd hcn => ?_
  · rw [hc.driver] at hd
    exact ⟨hd, by rw [hc.name], by rw [hc.kind]⟩
  · rw [State.Alloc, hc.inode] at hn
    rw [hc.driver]
    exact h.kid n c k cn hn hm hd hcn

theorem Placed.freed {n : Nat} (h : Placed s kids) (hf : Freed s s' n) : Placed s' kids := by
  have hinode : ∀ m, s'.Alloc m → s'.inode m = s.inode m := by
    intro m hm
    by_cases hmn : m = n
    · subst hmn
      refine hf.self.resolve_right fun hnone => ?_
      rw [State.Alloc, hnone] at hm
      cases hm
    · exact hf.others m hmn
  refine h.same hf.same hf.vfsRoot (fun m k cn hd _ => ?_) fun m c k cn hm hc hd hcn => ?_
  · have hm := hinode m (driver_alloc hd)
    refine ⟨?_, by rw [State.name, hm, State.name], by rw [State.kind, hm, State.kind]⟩
    rwa [State.driver, hm] at hd
  · have halloc : s.Alloc m := by rwa [State.Alloc, hinode m hm] at hm
    rw [State.driver, hinode m hm]
    exact h.kid m c k cn halloc hc hd hcn

/-- The new inode is a root of an archive or no archive's, or one that `tar_get_inode` made. -/
theorem Placed.added {v : Inode} (h : Placed s kids) (hs : Shape s kids) (ha : Added s s' v)
    (hv : ∀ k cn, v.d = .tarfs cn → cn ∈ (s.tar k).children →
      v.name = (s.tar cn).name ∧ v.type = (newInode (s.tar cn) cn).type) :
    Placed s' (Function.update kids s.next []) where
  up k c hc := by
    rw [ha.same.children] at hc
    rw [ha.same.parent]
    exact h.up k c hc
  deep := by
    obtain ⟨depth, hdepth⟩ := h.deep
    refine ⟨depth, fun k c hc => ?_⟩
    rw [ha.same.children] at hc
    exact hdepth k c hc
  kid n c k cn hn hc hd hcn := by
    rw [ha.same.children] at hcn
    obtain hold | rfl := ha.alloc.mp hn
    · have hne := (hs.bound n hold).ne
      rw [Function.update_of_ne hne] at hc
      have hcne := (hs.bound c (hs.kid n hold c hc).1).ne
      rw [ha.driver, Function.update_of_ne hcne] at hd
      rw [ha.driver, Function.update_of_ne hne]
      exact h.kid n c k cn hold hc hd hcn
    · rw [Function.update_self] at hc
      cases hc
  top k cn hd := by
    rw [ha.same.children]
    rw [ha.vfsRoot, ha.driver, Function.update_of_ne (hs.bound _ hs.root).ne] at hd
    exact h.top k cn hd
  made n k cn hd hcn := by
    rw [ha.same.children] at hcn
    rw [ha.driver] at hd
    rw [ha.name, ha.kind, ha.same.name, newInode, ha.same.directory]
    by_cases hn : n = s.next
    · subst hn
      rw [Function.update_self] at hd ⊢
      rw [Function.update_self]
      exact hv k cn hd hcn
    · rw [Function.update_of_ne hn] at hd ⊢
      rw [Function.update_of_ne hn]
      exact h.made n k cn hd hcn

theorem Placed.pushed {cur b tn cn : Nat} (h : Placed s kids) (hcur : s.driver cur = .tarfs tn)
    (hb : s.driver b = .tarfs cn) (hcn : cn ∈ (s.tar tn).children) :
    Placed (pushed s cur b) (Function.update kids cur (b :: kids cur)) := by
  have hrel : Relinked s (Vfs.pushed s cur b) := pushed_relinked
  refine h.same (sameTar_of_eq hrel.tar) hrel.vfsRoot (fun n k c hd _ => ?_)
    fun n c k c' hn hc hd hc' => ?_
  · rw [hrel.driver] at hd
    exact ⟨hd, by rw [hrel.name], by rw [hrel.kind]⟩
  · rw [hrel.alloc] at hn
    rw [hrel.driver]
    by_cases hncur : n = cur
    · subst hncur
      rw [Function.update_self, List.mem_cons] at hc
      obtain rfl | hc := hc
      · obtain rfl := Driver.tarfs.inj (hb.symm.trans hd)
        rw [Option.some.inj ((h.up k cn hc').symm.trans (h.up tn cn hcn))]
        exact hcur
      · exact h.kid n c k c' hn hc hd hc'
    · rw [Function.update_of_ne hncur] at hc
      exact h.kid n c k c' hn hc hd hc'

theorem Placed.swapped {t r p : Nat} (h : Placed s kids)
    (htop : ∀ k cn, s.driver r = .tarfs cn → cn ∉ (s.tar k).children)
    (hkids : ∀ n c, s.Alloc n → c ∈ kids' n → c = r ∨ c ∈ kids n) :
    Placed (swapped s t r p) kids' where
  up k c := by
    rw [swapped_tar]
    exact h.up k c
  deep := by
    rw [swapped_tar]
    exact h.deep
  kid n c k cn hn hc hd hcn := by
    rw [swapped_alloc] at hn
    rw [swapped_driver] at hd ⊢
    rw [swapped_tar] at hcn
    obtain rfl | hc := hkids n c hn hc
    · exact absurd hcn (htop k cn hd)
    · exact h.kid n c k cn hn hc hd hcn
  top k cn hd := by
    rw [swapped_driver, swapped_vfsRoot] at hd
    rw [swapped_tar]
    split at hd
    · exact htop k cn hd
    · exact h.top k cn hd
  made n k cn hd hcn := by
    rw [swapped_driver] at hd
    rw [swapped_tar] at hcn ⊢
    have hn : n ≠ r := by
      rintro rfl
      exact htop k cn hd hcn
    rw [swapped_name hn, swapped_kind hn]
    exact h.made n k cn hd hcn

-- ---------------------------------------------------------------------------
-- One step of the walk to a mount point
-- ---------------------------------------------------------------------------

/-- A name the driver finds is that of an inode in no chain. -/
theorem Placed.apart (h : Placed s kids) (hs : Shape s kids) {cur tn cn b : Nat} {name : Name}
    (hcur : s.driver cur = .tarfs tn) (hchild : (tree s kids).child cur name = none)
    (hcn : s.tarChild tn name = some cn) (hb : (s.tar cn).buffer = some b) : Apart s kids b := by
  obtain ⟨hmem, hname⟩ := tarChild_mem hcn
  have hdb := (hs.buffer cn b).mp hb
  refine ⟨?_, fun m hm hbm => ?_⟩
  · rintro rfl
    exact h.top tn cn hdb hmem
  · have hdm := h.kid m b tn cn hm hbm hdb hmem
    rw [← hs.buffer] at hdm hcur
    obtain rfl := Option.some.inj (hdm.symm.trans hcur)
    rw [tree_child hm, List.find?_eq_none] at hchild
    refine hchild b hbm (decide_eq_true ?_)
    exact (h.made b tn cn hdb hmem).1.trans hname

theorem findChild_none (hs : Shape s kids) {cur : Nat} {name : Name} (hcur : s.Alloc cur)
    (hchild : (tree s kids).child cur name = none) : findChild s cur name = .ok none := by
  rw [findChild_eq hs hcur, hchild]

theorem vfsFinddir_file {cur : Nat} (hcur : s.Alloc cur) (hkind : s.kind cur &&& fsTypeMask ≠ fsDirectory)
    (name : Name) : vfsFinddir s cur name = .ok (none, s) := by
  obtain ⟨v, hv⟩ := Option.isSome_iff_exists.mp hcur
  have htype : s.kind cur = v.type := by simp [State.kind, hv]
  rw [htype] at hkind
  simp only [vfsFinddir, get_eq hv, Bind.bind, Except.bind]
  rw [if_pos hkind]
  rfl

theorem vfsFinddir_driver (hs : Shape s kids) {cur : Nat} {name : Name} (hcur : s.Alloc cur)
    (hparent : s.parent cur ≠ none) (hkind : s.kind cur &&& fsTypeMask = fsDirectory)
    (hdot : name ≠ dot) (hdotdot : name ≠ dotdot) (hchild : (tree s kids).child cur name = none) :
    vfsFinddir s cur name = driverFinddir s (s.driver cur) name := by
  obtain ⟨v, hv⟩ := Option.isSome_iff_exists.mp hcur
  have htype : s.kind cur = v.type := by simp [State.kind, hv]
  have hdriver : s.driver cur = v.d := by simp [State.driver, hv]
  have hp : s.parent cur = v.parent := by simp [State.link, hv]
  rw [hp] at hparent
  obtain ⟨p, hp⟩ := Option.ne_none_iff_exists'.mp hparent
  rw [htype] at hkind
  simp only [vfsFinddir, get_eq hv, Bind.bind, Except.bind, hp, findChild_none hs hcur hchild]
  rw [if_neg (not_not.mpr hkind), if_neg hdot, if_neg hdotdot, hdriver]

theorem tarFinddir_child {tn : Nat} {name : Name} (hdot : name ≠ dot) (hdotdot : name ≠ dotdot) :
    tarFinddir s tn name = match s.tarChild tn name with
      | some cn => .ok (some (tarGetInode s cn).1, (tarGetInode s cn).2)
      | none => .ok (none, s) := by
  refine (if_neg hdot).trans ((if_neg hdotdot).trans ?_)
  cases s.tarChild tn name <;> rfl

structure Fetched (s s' : State) (kids kids' : Nat → List Nat) (b cn : Nat) : Prop where
  shape : Shape s' kids'
  placed : Placed s' kids'
  vfsRoot : s'.vfsRoot = s.vfsRoot
  same : SameTar s s'
  alloc : ∀ m, s'.Alloc m ↔ s.Alloc m ∨ m = b
  link : ∀ g ∈ [Inode.parent, Inode.child, Inode.older, Inode.younger], s'.link g = s.link g
  name : s'.name = Function.update s.name b (s.tar cn).name
  driver : s'.driver = Function.update s.driver b (.tarfs cn)
  kind : s'.kind = Function.update s.kind b (newInode (s.tar cn) cn).type
  buffer : ∀ k, (s'.tar k).buffer = if k = cn then some b else (s.tar k).buffer
  kids : ∀ n, s.Alloc n → kids' n = kids n
  cached : (s.tar cn).buffer = some b ∨ (s.tar cn).buffer = none ∧ ¬s.Alloc b ∧ kids' b = []

theorem tarGetInode_fetched (hs : Shape s kids) (h : Placed s kids) {tn cn : Nat}
    (hcn : cn ∈ (s.tar tn).children) :
    ∃ b s' kids', tarGetInode s cn = (b, s') ∧ Fetched s s' kids kids' b cn := by
  cases hb : (s.tar cn).buffer with
  | some b =>
    obtain ⟨s', hget, hc⟩ := tarGetInode_some hb
    have hd := (hs.buffer cn b).mp hb
    obtain ⟨hname, hkind⟩ := h.made b tn cn hd hcn
    refine ⟨b, s', kids, hget, hs.counted hc, h.counted hc, hc.vfsRoot, hc.same, fun m => ?_,
      fun g _ => hc.link g, ?_, ?_, ?_, fun k => ?_, fun _ _ => rfl, Or.inl hb⟩
    · rw [State.Alloc, hc.inode]
      exact ⟨Or.inl, fun hm => hm.elim id fun he => he ▸ hs.buffered hb⟩
    · rw [hc.name, ← hname, Function.update_eq_self]
    · rw [hc.driver, ← hd, Function.update_eq_self]
    · rw [hc.kind, ← hkind, Function.update_eq_self]
    · rw [hc.buffer]
      split
      · next hk => rw [hk, hb]
      · rfl
  | none =>
    obtain ⟨s', hget, ha⟩ := tarGetInode_none hb
    obtain ⟨hparent, hchild, holder, hyounger⟩ := ha.bare
    refine ⟨s.next, s', _, hget, hs.added ha, h.added hs ha fun k c hd _ => ?_, ha.vfsRoot, ha.same,
      fun m => ha.alloc, fun g hg => ha.link hs ?_, ha.name, ha.driver, ha.kind, fun k => ?_,
      fun n hn => ?_, Or.inr ⟨hb, hs.next_free, ?_⟩⟩
    · cases hd
      exact ⟨rfl, rfl⟩
    · simp only [List.mem_cons, List.not_mem_nil, or_false] at hg
      obtain rfl | rfl | rfl | rfl := hg
      · exact hparent
      · exact hchild
      · exact holder
      · exact hyounger
    · rw [ha.buffer]
      simp only [newInode, Driver.tarfs.injEq, eq_comm]
    · rw [Function.update_of_ne (hs.bound n hn).ne]
    · rw [Function.update_self]

theorem Fetched.apart {b cn : Nat} (h : Fetched s s' kids kids' b cn) (hs : Shape s kids)
    (hb : (s.tar cn).buffer = some b → Apart s kids b) :
    Apart s kids b ∧ Apart s' kids' b := by
  have hold : Apart s kids b := by
    obtain hbuf | ⟨-, hfree, -⟩ := h.cached
    · exact hb hbuf
    · exact ⟨fun he => hfree (he ▸ hs.root), fun m hm hbm => hfree (hs.kid m hm b hbm).1⟩
  refine ⟨hold, ?_, fun m hm => ?_⟩
  · rw [h.vfsRoot]
    exact hold.1
  · by_cases hma : s.Alloc m
    · rw [h.kids m hma]
      exact hold.2 m hma
    · obtain rfl := ((h.alloc m).mp hm).resolve_left hma
      obtain hbuf | ⟨-, -, hnil⟩ := h.cached
      · exact absurd (hs.buffered hbuf) hma
      · rw [hnil]
        exact List.not_mem_nil

structure Pushed (s s' : State) (kids kids' : Nat → List Nat) (cur b cn : Nat) : Prop where
  shape : Shape s' kids'
  placed : Placed s' kids'
  vfsRoot : s'.vfsRoot = s.vfsRoot
  same : SameTar s s'
  apart : Apart s kids b
  ne : b ≠ cur
  kidsCur : kids' cur = b :: kids cur
  kidsOther : ∀ n, s.Alloc n → n ≠ cur → kids' n = kids n
  alloc : ∀ m, s'.Alloc m ↔ s.Alloc m ∨ m = b
  parent : s'.parent = Function.update s.parent b (some cur)
  child : s'.child = Function.update s.child cur (some b)
  older : s'.older = Function.update s.older b (s.child cur)
  younger : s'.younger = s.younger
  name : s'.name = Function.update s.name b (s.tar cn).name
  driver : s'.driver = Function.update s.driver b (.tarfs cn)
  kind : s'.kind = Function.update s.kind b (newInode (s.tar cn) cn).type
  buffer : ∀ k, (s'.tar k).buffer = if k = cn then some b else (s.tar k).buffer
  cached : (s.tar cn).buffer = some b ∨ (s.tar cn).buffer = none ∧ ¬s.Alloc b

section
variable {cur tn cn b : Nat} {name : Name}

theorem Fetched.pushed (h : Fetched s s' kids kids' b cn) (hs : Shape s kids) (hcur : Inside s kids cur)
    (hd : s.driver cur = .tarfs tn) (hcn : cn ∈ (s.tar tn).children) (hb : Apart s kids b)
    (hb' : Apart s' kids' b) :
    Pushed s (pushed s' cur b) kids (Function.update kids' cur (b :: kids' cur)) cur b cn := by
  have hca := hcur.alloc hs
  have hne : b ≠ cur := hcur.ne_apart hs hb
  have hca' : s'.Alloc cur := (h.alloc cur).mpr (Or.inl hca)
  have hba' : s'.Alloc b := (h.alloc b).mpr (Or.inr rfl)
  have hrel : Relinked s' (Vfs.pushed s' cur b) := pushed_relinked
  have hcur' : Inside s' kids' cur := hcur.mono hs h.vfsRoot fun m hm => (h.kids m hm).symm ▸ List.Subset.refl _
  have hchild' : s'.child = s.child := h.link _ (by simp)
  have hd' : s'.driver cur = .tarfs tn := by
    rw [h.driver, Function.update_of_ne hne.symm]
    exact hd
  have hdb : s'.driver b = .tarfs cn := by rw [h.driver, Function.update_self]
  have hcn' : cn ∈ (s'.tar tn).children := by
    rw [h.same.children]
    exact hcn
  refine ⟨h.shape.pushed hcur' hba' hb', h.placed.pushed hd' hdb hcn', hrel.vfsRoot.trans h.vfsRoot,
    h.same.trans (sameTar_of_eq hrel.tar), hb, hne, ?_, fun n hn hnc => ?_,
    fun m => (hrel.alloc m).trans (h.alloc m), ?_, ?_, ?_, ?_, hrel.name.trans h.name,
    hrel.driver.trans h.driver, hrel.kind.trans h.kind, fun k => ?_, ?_⟩
  · rw [Function.update_self, h.kids cur hca]
  · rw [Function.update_of_ne hnc, h.kids n hn]
  · rw [pushed_parent hba', State.parent, h.link _ (by simp)]
  · rw [pushed_child hca', hchild']
  · rw [pushed_older hba', hchild', State.older, h.link _ (by simp)]
  · rw [pushed_younger, State.younger, h.link _ (by simp)]
  · rw [hrel.tar]
    exact h.buffer k
  · exact h.cached.imp_right fun hc => ⟨hc.1, hc.2.1⟩

theorem walk_push (hs : Shape s kids) (h : Placed s kids) (hcur : Inside s kids cur)
    (hkind : s.kind cur &&& fsTypeMask = fsDirectory) (hdot : name ≠ dot) (hdotdot : name ≠ dotdot)
    (hchild : (tree s kids).child cur name = none) (hd : s.driver cur = .tarfs tn)
    (hcn : s.tarChild tn name = some cn) :
    ∃ b s' kids', Pushed s s' kids kids' cur b cn ∧
      ∀ names, walkTokens true s cur (name :: names) = walkTokens true s' b names := by
  have hca := hcur.alloc hs
  have hmem := (tarChild_mem hcn).1
  obtain ⟨b, s₁, kids₁, hget, hf⟩ := tarGetInode_fetched hs h hmem
  obtain ⟨hb, hb'⟩ := hf.apart hs (h.apart hs hd hchild hcn)
  have hp := hf.pushed hs hcur hd hmem hb hb'
  refine ⟨b, _, _, hp, fun names => ?_⟩
  have hfind : vfsFinddir s cur name = .ok (some b, s₁) := by
    rw [vfsFinddir_driver hs hca (hcur.parent hs) hkind hdot hdotdot hchild, hd]
    simp only [driverFinddir, tarFinddir_child hdot hdotdot, hcn, hget]
  have hpush : pushNode s₁ cur b = .ok (Vfs.pushed s₁ cur b) :=
    pushNode_eq ((hf.alloc cur).mpr (Or.inl hca)) ((hf.alloc b).mpr (Or.inr rfl))
  have hfree : vfsFree (Vfs.pushed s₁ cur b) cur = .ok (Vfs.pushed s₁ cur b) := by
    refine vfsFree_inside ((hp.alloc cur).mpr (Or.inl hca)) ?_
    rw [hp.parent, Function.update_of_ne hp.ne.symm]
    exact hcur.parent hs
  simp only [walkTokens, hfind, hpush, hfree, Bind.bind, Except.bind, if_true]

end

end Os5.Vfs
