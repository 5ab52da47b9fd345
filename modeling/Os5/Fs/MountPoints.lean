import Os5.Fs.Canonical
import Os5.Fs.Resolve

/-!
# Mounts and lookups

After a successful mount its path names the new root, longer paths go on from there, and
all others resolve as before. This needs the node that is mounted over to be the first
child of its parent: `vfs_mount` links the siblings of an inner child to the node that is
replaced. On `/` it needs the parent of `vfs_root` to be there still, which the first mount
on `/` frees.
-/

namespace Os5.Vfs

open Tarfs (dot dotdot)

variable {s s' : State} {kids kids' : Nat → List Nat}

theorem Canonical.plain {names : List Name} (h : Canonical names) : Plain names :=
  ⟨fun hd => (h _ hd).2.2.1 rfl, fun hd => (h _ hd).2.2.2 rfl⟩

-- ---------------------------------------------------------------------------
-- A new root
-- ---------------------------------------------------------------------------

/-- A root as the file systems of the kernel make them: a directory has a driver, and for
the files of an archive there are no inodes yet. -/
structure NewRoot (s : State) (v : Inode) : Prop where
  fresh : Fresh s v
  driven : v.type &&& fsTypeMask = fsDirectory → v.d ≠ .none
  unused : ∀ tn c, v.d = .tarfs tn → c ∈ (s.tar tn).children →
    ∀ names m, (archive s).walk c names = some m → (s.tar m).buffer = none

theorem archive_below {k c m : Nat} {names : List Name} (hc : c ∈ (s.tar k).children)
    (hw : (archive s).walk c names = some m) : ∃ p, m ∈ (s.tar p).children := by
  cases names using List.reverseRecOn with
  | nil =>
    cases hw
    exact ⟨k, hc⟩
  | append_singleton init name =>
    obtain ⟨p, -, hlast⟩ := Named.walk_concat hw
    exact ⟨p, archive_mem (Named.child_mem hlast).1⟩

theorem Ready.newRoot {v : Inode} (h : Ready s kids) (hv : NewRoot s v) :
    Ready (newRoot s v) (Function.update kids s.next []) ∧
      Waiting (newRoot s v) (Function.update kids s.next []) s.next := by
  have hs := h.shape
  have ha := newRoot_added hv.fresh
  obtain ⟨hparent, hchild, holder, hyounger⟩ := ha.bare
  have hlink {g : Inode → Option Nat} (hg : g v = none) : (Vfs.newRoot s v).link g = s.link g :=
    ha.link hs hg
  have hp' : Placed (Vfs.newRoot s v) (Function.update kids s.next []) :=
    h.placed.added hs ha fun k cn hd hcn => absurd hcn (hv.fresh.top k cn hd)
  have hs' := hs.added ha
  have hne : ∀ n, s.Alloc n → n ≠ s.next := fun n hn => (hs.bound n hn).ne
  have hbuffer : ∀ k c names m, c ∈ (s.tar k).children → (archive s).walk c names = some m →
      (s.tar m).buffer = none → ((Vfs.newRoot s v).tar m).buffer = none := by
    intro k c names m hc hw hm
    rw [ha.buffer, if_neg fun hd => ?_]
    · exact hm
    · obtain ⟨p, hp⟩ := archive_below hc hw
      exact hv.fresh.top p m hd hp
  have hinside : ∀ n, Inside (Vfs.newRoot s v) (Function.update kids s.next []) n → Inside s kids n := by
    intro n hn
    induction hn with
    | root => exact ha.vfsRoot ▸ Inside.root
    | @kid n c _ hc ih =>
      rw [Function.update_of_ne (hne n (ih.alloc hs))] at hc
      exact ih.kid hc
  have hdriver : ∀ n, n ≠ s.next → (Vfs.newRoot s v).driver n = s.driver n := fun n hn => by
    rw [ha.driver, Function.update_of_ne hn]
  have hkind : ∀ n, n ≠ s.next → (Vfs.newRoot s v).kind n = s.kind n := fun n hn => by
    rw [ha.kind, Function.update_of_ne hn]
  have hname : ∀ n, n ≠ s.next → (Vfs.newRoot s v).name n = s.name n := fun n hn => by
    rw [ha.name, Function.update_of_ne hn]
  have haside : Aside (Vfs.newRoot s v) (Function.update kids s.next []) s.next := by
    refine ⟨ha.alloc.mpr (Or.inr rfl), hs'.apart_of_parent ?_, fun k cn hd => ?_⟩
    · rw [State.parent, hlink hparent]
      exact link_none hs.next_free
    · rw [ha.driver, Function.update_self] at hd
      rw [ha.same.children]
      exact hv.fresh.top k cn hd
  refine ⟨⟨hs', hp', fun n hn hdir j cn hnone hcn names m hw => ?_, fun n c hn hc => ?_,
    fun n hn hdir => ?_, ?_, fun n hn hnil => ?_, fun n c hn hc => ?_, fun k c hc => ?_⟩, haside, ?_,
    fun hdir j cn _ hcn names m hw => ?_, fun hdir => ?_⟩
  · have hin := hinside n hn
    have hna := hin.alloc hs
    rw [hkind n (hne n hna)] at hdir
    rw [hdriver n (hne n hna), ha.same.driverChild] at hcn
    rw [ha.same.archive] at hw
    have hold : (tree s kids).child n j = none := by
      rw [tree_child (ha.alloc.mpr (Or.inl hna)), Function.update_of_ne (hne n hna)] at hnone
      rw [tree_child hna, ← hnone]
      refine List.find?_congr fun c hc => ?_
      have hc' := hname c (hne c (hs.kid n hna c hc).1)
      exact decide_eq_decide.mpr (Iff.of_eq (congrArg (· = j) hc'.symm))
    cases hd : s.driver n with
    | none =>
      rw [hd] at hcn
      cases hcn
    | device =>
      rw [hd] at hcn
      cases hcn
    | tarfs k =>
      rw [hd] at hcn
      exact hbuffer k cn names m (tarChild_mem hcn).1 hw
        (h.clean n hin hdir j cn hold (by rw [hd]; exact hcn) names m hw)
  · rw [State.child, hlink hchild] at hc
    rw [State.younger, hlink hyounger]
    exact h.head n c (hinside n hn) hc
  · have hin := hinside n hn
    have hna := hne n (hin.alloc hs)
    rw [hkind n hna] at hdir
    rw [hdriver n hna]
    exact h.driven n hin hdir
  · rw [ha.vfsRoot, State.older, State.younger, hlink holder, hlink hyounger]
    exact h.alone
  · have hin := hinside n hn
    have hna := hne n (hin.alloc hs)
    rw [Function.update_of_ne hna] at hnil
    rw [hkind n hna]
    exact h.stem n hin hnil
  · have hin := hinside n hn
    have hna := hin.alloc hs
    rw [Function.update_of_ne (hne n hna)] at hc
    rw [hname c (hne c (hs.kid n hna c hc).1)]
    exact h.titled n c hin hc
  · rw [ha.same.children] at hc
    rw [ha.same.name]
    exact h.named k c hc
  · rw [State.child, hlink hchild]
    exact link_none hs.next_free
  · rw [ha.driver, Function.update_self, ha.same.driverChild] at hcn
    rw [ha.same.archive] at hw
    cases hd : v.d with
    | none =>
      rw [hd] at hcn
      cases hcn
    | device =>
      rw [hd] at hcn
      cases hcn
    | tarfs tn =>
      rw [hd] at hcn
      have hc := (tarChild_mem hcn).1
      exact hbuffer tn cn names m hc hw (hv.unused tn cn hd hc names m hw)
  · rw [ha.kind, Function.update_self] at hdir
    rw [ha.driver, Function.update_self]
    exact hv.driven hdir

-- ---------------------------------------------------------------------------
-- A mount
-- ---------------------------------------------------------------------------

/-- A node of the mount tree that the path names is the first child of its parent, or
`vfs_root` while its parent is not freed. -/
def TargetFits (s : State) (names : List Name) : Prop :=
  match vfsFindRoot s s.vfsRoot names with
  | .ok (t, []) => ∃ p ∈ s.parent t, s.Alloc p ∧ (t = s.vfsRoot ∨ s.child p = some t)
  | _ => True

instance (s : State) (n : Nat) : Decidable (s.Alloc n) :=
  inferInstanceAs (Decidable ((s.inode n).isSome = true))

instance (s : State) (names : List Name) : Decidable (TargetFits s names) :=
  match h : vfsFindRoot s s.vfsRoot names with
  | .ok (t, []) =>
    decidable_of_iff (∃ p ∈ s.parent t, s.Alloc p ∧ (t = s.vfsRoot ∨ s.child p = some t))
      (by rw [TargetFits, h])
  | .ok (_, _ :: _) => .isTrue (by rw [TargetFits, h]; trivial)
  | .error _ => .isTrue (by rw [TargetFits, h]; trivial)

theorem Shape.walk_inj (h : Shape s kids) {ks ks' : List Name} {t : Nat}
    (hw : (tree s kids).walk s.vfsRoot ks = some t) (hw' : (tree s kids).walk s.vfsRoot ks' = some t) :
    ks = ks' := by
  refine Named.walk_inj (u := fun c => if c = s.vfsRoot then none else s.parent c) (fun n c hc => ?_)
    (if_pos rfl) hw hw'
  obtain ⟨hn, hc⟩ := tree_mem hc
  have hne : c ≠ s.vfsRoot := fun he => h.rootless n hn (he ▸ hc)
  exact (if_neg hne).trans (h.kid n hn c hc).2

/-- What a mount of `r` on the path of `names` leaves. -/
structure Mounts (s s' : State) (kids kids' : Nat → List Nat) (names : List Name) (r : Nat) : Prop where
  ready : Ready s' kids'
  below : ∀ rest, (tree s' kids').descend s'.vfsRoot (names ++ rest) = (r, rest)
  others : ∀ ks, ¬names <+: ks → resolve s' kids' s'.vfsRoot ks = resolve s kids s.vfsRoot ks

theorem Ready.replace {t r : Nat} {names : List Name} (h : Ready s kids) (hr : Waiting s kids r)
    (hw : (tree s kids).walk s.vfsRoot names = some t)
    (ht : t = s.vfsRoot ∧ (∃ p, s.parent t = some p ∧ s.Alloc p) ∨
      ∃ p, Inside s kids p ∧ s.child p = some t ∧ t ∈ kids p) :
    ∃ s' kids', replaceNode s t r = .ok s' ∧ Mounts s s' kids kids' names r := by
  have hs := h.shape
  have hroot := hs.root
  obtain ⟨rfl, p, hparent, hpa⟩ | ⟨p, hp, hc, htp⟩ := ht
  · obtain rfl : names = [] := hs.walk_inj hw rfl
    obtain ⟨s', hrep, hready, -, hroot', hleaf⟩ := h.replaceRoot hparent hpa hr
    refine ⟨s', kids, hrep, hready, fun rest => ?_, fun ks hks => absurd List.nil_prefix hks⟩
    rw [hroot', List.nil_append]
    cases rest with
    | nil => rfl
    | cons j rest => rw [Named.Tree.descend, hleaf]
  · obtain ⟨s', kids', hrep, hready, hrepl, hroot', hswap⟩ := h.replaceChild hp hc htp hr
    have htr : s.vfsRoot ≠ t := fun he => hs.rootless p (hp.alloc hs) (he ▸ htp)
    have hrr : s.vfsRoot ≠ r := hr.aside.apart.1.symm
    have hloop : ∀ ks, (tree s kids).walk t ks = some t → ks = [] := by
      intro ks hks
      have happ : (tree s kids).walk s.vfsRoot (names ++ ks) = some t := by
        rw [Named.walk_append, hw]
        exact hks
      have heq := hs.walk_inj happ hw
      exact List.append_right_eq_self.mp heq
    refine ⟨s', kids', hrep, hready, fun rest => ?_, fun ks hks => ?_⟩
    · rw [hroot']
      exact hswap.descend_through htr hrr hloop hw
    · have hpast : ∀ pre post, ks = pre ++ post → (tree s kids).walk s.vfsRoot pre ≠ some t := by
        rintro pre post rfl hpre
        obtain rfl := hs.walk_inj hpre hw
        exact hks (List.prefix_append _ _)
      rw [hroot', Vfs.resolve, Vfs.resolve, hswap.descend_past hrr hpast]
      obtain ⟨pre, hpre, hwalk, -⟩ := Named.descend_spec (tree s kids) s.vfsRoot ks
      refine hrepl.lookAt (fun he => ?_) _
      rw [he] at hwalk
      exact hpast pre _ hpre hwalk

section
variable {r : Nat} {path : Name}

theorem Ready.walkPath (h : Ready s kids) (hplain : Plain (strsepTokens (path.drop 1))) :
    (resolve s kids s.vfsRoot (strsepTokens (path.drop 1)) = none →
      ∃ s', walkPath true s path = .ok (none, s')) ∧
    (resolve s kids s.vfsRoot (strsepTokens (path.drop 1)) ≠ none →
      ∃ t s' kids', walkPath true s path = .ok (some t, s') ∧
        Walked s s' kids kids' ((tree s kids).descend s.vfsRoot (strsepTokens (path.drop 1))).1 t
          ((tree s kids).descend s.vfsRoot (strsepTokens (path.drop 1))).2) := by
  obtain ⟨pre, hpre, hwalk, hstop⟩ :=
    Named.descend_spec (tree s kids) s.vfsRoot (strsepTokens (path.drop 1))
  have hrest : Plain ((tree s kids).descend s.vfsRoot (strsepTokens (path.drop 1))).2 := by
    rw [hpre] at hplain
    exact ⟨fun hd => hplain.1 (List.mem_append_right _ hd), fun hd => hplain.2 (List.mem_append_right _ hd)⟩
  have hw := walk_ready h (Inside.walk .root hwalk) hstop hrest
  rw [Vfs.walkPath, vfsFindRoot_eq h.shape h.shape.root]
  exact hw

theorem Ready.mount (h : Ready s kids) (hr : Waiting s kids r)
    (hplain : Plain (strsepTokens (path.drop 1))) (hfit : TargetFits s (strsepTokens (path.drop 1)))
    (hres : resolve s kids s.vfsRoot (strsepTokens (path.drop 1)) ≠ none) :
    ∃ s' kids', vfsMount s path r = .ok (some r, s') ∧
      Mounts s s' kids kids' (strsepTokens (path.drop 1)) r := by
  obtain ⟨t, s₂, kids₂, hwalk, hw⟩ := (h.walkPath hplain).2 hres
  obtain ⟨pre, hpre, hdown, -⟩ := Named.descend_spec (tree s kids) s.vfsRoot (strsepTokens (path.drop 1))
  rw [TargetFits, vfsFindRoot_eq h.shape h.shape.root] at hfit
  generalize hd : (tree s kids).descend s.vfsRoot (strsepTokens (path.drop 1)) = d at hw hpre hdown hfit
  obtain ⟨u, rest⟩ := d
  have hu : Inside s kids u := Inside.walk .root hdown
  have hpath : (tree s₂ kids₂).walk s₂.vfsRoot (strsepTokens (path.drop 1)) = some t := by
    rw [hpre, Named.walk_append, hw.vfsRoot, hw.walk _ _ _ .root hdown]
    exact hw.path
  have htarget : t = s₂.vfsRoot ∧ (∃ p, s₂.parent t = some p ∧ s₂.Alloc p) ∨
      ∃ p, Inside s₂ kids₂ p ∧ s₂.child p = some t ∧ t ∈ kids₂ p := by
    obtain ⟨rfl, rfl, rfl, rfl⟩ | hp := hw.target
    · obtain ⟨p, hparent, hpa, hor⟩ := hfit
      by_cases ht : t = s₂.vfsRoot
      · exact Or.inl ⟨ht, p, hparent, hpa⟩
      · obtain ⟨q, hq, htq, -⟩ := hu.above h.shape ht
        have hpq : p = q := Option.some.inj
          (hparent.symm.trans (h.shape.kid q (hq.alloc h.shape) t htq).2)
        exact Or.inr ⟨q, hq, hpq ▸ hor.resolve_left ht, htq⟩
    · exact Or.inr hp
  obtain ⟨s', kids', hrep, hm⟩ := hw.ready.replace (hw.waiting r hr) hpath htarget
  refine ⟨s', kids', ?_, hm.ready, hm.below, fun ks hks => ?_⟩
  · rw [vfsMount, hwalk]
    simp only [Bind.bind, Except.bind, hrep]
    rfl
  · rw [hm.others ks hks, hw.vfsRoot]
    exact hw.resolve _ .root ks

end

-- ---------------------------------------------------------------------------
-- Runs
-- ---------------------------------------------------------------------------

def mountStep (s : State) (m : Name × Inode) : Option State :=
  match vfsMount (newRoot s m.2) m.1 s.next with
  | .ok (some _, s') => some s'
  | _ => none

/-- Archives as they are built: trees with names, and no inodes yet. -/
structure Archives (tar : Nat → TarNode) : Prop where
  up : ∀ k c, c ∈ (tar k).children → (tar c).parent = some k
  deep : ∃ depth : Nat → Nat, ∀ k c, c ∈ (tar k).children → depth k < depth c
  named : ∀ k c, c ∈ (tar k).children → (tar c).name ≠ []
  buffer : ∀ k, (tar k).buffer = none

def Booted (s : State) : Prop := ∃ tar, Archives tar ∧ s = vfsInit tar

/-- The mount point is not behind a sibling, and the path does not go through `.` or
`..`. -/
def GoesWell (s : State) (m : Name × Inode) : Prop :=
  Plain (strsepTokens (m.1.drop 1)) ∧ TargetFits (newRoot s m.2) (strsepTokens (m.1.drop 1))

instance (s : State) (m : Name × Inode) : Decidable (GoesWell s m) :=
  inferInstanceAs (Decidable ((dot ∉ strsepTokens (m.1.drop 1) ∧ dotdot ∉ strsepTokens (m.1.drop 1)) ∧ _))

def MountsWell (s : State) (m : Name × Inode) : Prop := NewRoot s m.2 ∧ GoesWell s m

def SameObject (s s' : State) (path : Name) : Prop :=
  ∃ x s₁ x' s₁', vfsNamei s path = .ok (x, s₁) ∧ vfsNamei s' path = .ok (x', s₁') ∧
    x.map (object s₁) = x'.map (object s₁')

/-- Between `s` and `s'` the root `r` was mounted on the path of `names`. -/
structure Mounted (s s' : State) (names : List Name) (r : Nat) : Prop where
  itself : vfsNamei s' (render names) = .ok (some r, s')
  below : ∀ rest, Canonical rest →
    vfsNamei s' (render (names ++ rest)) = walkTokens false s' r rest
  others : ∀ ks, Canonical ks → ¬names <+: ks → SameObject s s' (render ks)

theorem booted_ready (h : Booted s) : ∃ kids, Ready s kids := by
  obtain ⟨tar, htar, rfl⟩ := h
  obtain ⟨kids, hk⟩ := vfsInit_sound htar.up htar.deep htar.buffer
  have hchild : (vfsInit tar).child 0 = none := rfl
  have hinside : ∀ n, Inside (vfsInit tar) kids n → n = 0 := fun n hn =>
    rootOnly_alloc.mp (hn.alloc hk.shape)
  have hkind : (vfsInit tar).kind 0 = 0 := rfl
  have hfile : (vfsInit tar).kind 0 &&& fsTypeMask ≠ fsDirectory := by
    rw [hkind]
    decide
  have hkids : ∀ n, Inside (vfsInit tar) kids n → kids n = [] := by
    intro n hn
    have hchain := hk.shape.chain n (hn.alloc hk.shape)
    rw [hinside n hn, hchild] at hchain
    rw [hinside n hn, hchain.eq_nil]
  refine ⟨kids, hk.shape, hk.placed, fun n hn hdir => ?_, fun n c hn hc => ?_, fun n hn hdir => ?_,
    hk.woven.alone, fun n hn hne => absurd (hkids n hn) hne, fun n c hn hc => ?_, htar.named⟩
  · rw [hinside n hn] at hdir
    exact absurd hdir hfile
  · rw [hinside n hn, hchild] at hc
    cases hc
  · rw [hinside n hn] at hdir
    exact absurd hdir hfile
  · rw [hkids n hn] at hc
    cases hc

theorem mountStep_ready {m : Name × Inode} (h : ∃ kids, Ready s kids) (hm : MountsWell s m)
    (hstep : mountStep s m = some s') : ∃ kids, Ready s' kids := by
  obtain ⟨kids, h⟩ := h
  obtain ⟨hv, hplain, hfit⟩ := hm
  obtain ⟨hready, hr⟩ := h.newRoot hv
  rw [mountStep] at hstep
  by_cases hres : resolve (newRoot s m.2) (Function.update kids s.next []) (newRoot s m.2).vfsRoot
      (strsepTokens (m.1.drop 1)) = none
  · obtain ⟨s₂, hwalk⟩ := (hready.walkPath hplain).1 hres
    rw [vfsMount, hwalk] at hstep
    cases hstep
  · obtain ⟨s₂, kids₂, hmount, hk⟩ := hready.mount hr hplain hfit hres
    rw [hmount] at hstep
    cases hstep
    exact ⟨kids₂, hk.ready⟩

theorem mounts_ready (h : Transition.Reach mountStep MountsWell Booted s) : ∃ kids, Ready s kids :=
  h.invariant (fun _ hb => booted_ready hb) fun _ _ _ hs hm hstep => mountStep_ready hs hm hstep

/-- A mount on a path that resolves changes what that path and the longer ones lead to,
and nothing else. -/
theorem mount_resolves (h : Transition.Reach mountStep MountsWell Booted s) {v : Inode}
    {names : List Name} (hv : NewRoot s v) (hnames : Canonical names)
    (hfit : TargetFits (newRoot s v) names)
    (hres : ∃ x s₁, vfsNamei (newRoot s v) (render names) = .ok (some x, s₁)) :
    ∃ s', vfsMount (newRoot s v) (render names) s.next = .ok (some s.next, s') ∧
      Mounted (newRoot s v) s' names s.next := by
  obtain ⟨kids, hk⟩ := mounts_ready h
  obtain ⟨hready, hr⟩ := hk.newRoot hv
  have htokens {ks : List Name} (hks : Canonical ks) : strsepTokens ((render ks).drop 1) = ks :=
    strsepTokens_render hks
  have hplain : Plain (strsepTokens ((render names).drop 1)) := by
    rw [htokens hnames]
    exact hnames.plain
  have hresolve : resolve (newRoot s v) (Function.update kids s.next []) (newRoot s v).vfsRoot
      (strsepTokens ((render names).drop 1)) ≠ none := by
    obtain ⟨x, s₁, hx⟩ := hres
    obtain ⟨res, s₂, hnamei, hobj⟩ := hready.namei hplain
    rw [hx] at hnamei
    cases hnamei
    rw [← hobj]
    exact fun he => by cases he
  obtain ⟨s', kids', hmount, hm⟩ := hready.mount hr hplain (by rwa [htokens hnames]) hresolve
  rw [htokens hnames] at hm
  have hbelow {rest : List Name} (hrest : Canonical rest) :
      vfsNamei s' (render (names ++ rest)) = walkTokens false s' s.next rest := by
    have happ : Canonical (names ++ rest) := fun n hn =>
      (List.mem_append.mp hn).elim (hnames n) (hrest n)
    rw [vfsNamei, walkPath, htokens happ, vfsFindRoot_eq hm.ready.shape hm.ready.shape.root, hm.below]
    rfl
  refine ⟨s', hmount, ?_, fun rest hrest => hbelow hrest, fun ks hks hne => ?_⟩
  · have hself : vfsNamei s' (render (names ++ [])) = walkTokens false s' s.next [] :=
      hbelow fun n hn => by cases hn
    rw [List.append_nil] at hself
    exact hself
  · have hks' : Plain (strsepTokens ((render ks).drop 1)) := by
      rw [htokens hks]
      exact hks.plain
    obtain ⟨x, s₁, hx, hobj⟩ := hready.namei hks'
    obtain ⟨x', s₁', hx', hobj'⟩ := hm.ready.namei hks'
    refine ⟨x, s₁, x', s₁', hx, hx', ?_⟩
    rw [hobj, hobj', htokens hks, hm.others ks hne]

def bootArchive : Nat → TarNode
  | 0 => ⟨[116], none, [1], true, none, 0⟩
  | 1 => ⟨[100, 101, 118], some 0, [2, 3], true, none, 0⟩
  | 2 => ⟨[100], some 1, [], false, none, 0⟩
  | 3 => ⟨[107], some 1, [], false, none, 0⟩
  | _ => ⟨[], none, [], false, none, 0⟩

theorem bootArchive_child {k c : Nat} (h : c ∈ (bootArchive k).children) :
    k = 0 ∧ c = 1 ∨ k = 1 ∧ c = 2 ∨ k = 1 ∧ c = 3 := by
  match k with
  | 0 => exact Or.inl ⟨rfl, List.mem_singleton.mp h⟩
  | 1 =>
    obtain rfl | h := List.mem_cons.mp h
    · exact Or.inr (Or.inl ⟨rfl, rfl⟩)
    · exact Or.inr (Or.inr ⟨rfl, List.mem_singleton.mp h⟩)
  | 2 => cases h
  | 3 => cases h
  | _ + 4 => cases h

theorem bootArchive_buffer : ∀ k, (bootArchive k).buffer = none
  | 0 => rfl
  | 1 => rfl
  | 2 => rfl
  | 3 => rfl
  | _ + 4 => rfl

theorem boot_booted : Booted (vfsInit bootArchive) := by
  refine ⟨bootArchive, ⟨fun k c hc => ?_, ⟨id, fun k c hc => ?_⟩, fun k c hc => ?_, bootArchive_buffer⟩,
    rfl⟩
  · obtain ⟨rfl, rfl⟩ | ⟨rfl, rfl⟩ | ⟨rfl, rfl⟩ := bootArchive_child hc <;> rfl
  · obtain ⟨rfl, rfl⟩ | ⟨rfl, rfl⟩ | ⟨rfl, rfl⟩ := bootArchive_child hc <;> decide
  · obtain ⟨rfl, rfl⟩ | ⟨rfl, rfl⟩ | ⟨rfl, rfl⟩ := bootArchive_child hc <;> decide

theorem device_newRoot (s : State) : NewRoot s device :=
  ⟨⟨⟨rfl, rfl, rfl, rfl⟩, fun _ hd => (nomatch hd), fun _ _ hd => nomatch hd⟩,
    fun hdir => absurd hdir (by decide), fun _ _ hd => nomatch hd⟩

theorem boot_newRoot : NewRoot (vfsInit bootArchive) (tarRoot 0) := by
  refine ⟨⟨⟨rfl, rfl, rfl, rfl⟩, fun tn _ => bootArchive_buffer tn, fun k tn hd hc => ?_⟩,
    fun _ hd => (nomatch hd), fun _ _ _ _ _ m _ => bootArchive_buffer m⟩
  cases hd
  obtain ⟨-, h⟩ | ⟨-, h⟩ | ⟨-, h⟩ := bootArchive_child hc <;> cases h

def debugNames : List Name := [[100, 101, 118], [100]]

def kbdNames : List Name := [[100, 101, 118], [107]]

def devMounts : List (Name × Inode) := [(render debugNames, device), (render kbdNames, device)]

theorem devices_along {ms : List (Name × Inode)} (hdev : ∀ m ∈ ms, m.2 = device)
    (h : Transition.Along mountStep GoesWell s ms) : Transition.Along mountStep MountsWell s ms := by
  induction ms generalizing s with
  | nil => trivial
  | cons m ms ih =>
    refine ⟨⟨?_, h.1⟩, fun s' hs' => ih (fun x hx => hdev x (List.mem_cons_of_mem _ hx)) (h.2 s' hs')⟩
    rw [hdev m List.mem_cons_self]
    exact device_newRoot s

def booting : List (Name × Inode) := ([slash], tarRoot 0) :: devMounts

theorem boot_reach : ∃ s, Transition.Reach mountStep MountsWell Booted s ∧
    Transition.exec mountStep (vfsInit bootArchive) booting = some s := by
  have halong : Transition.Along mountStep GoesWell (vfsInit bootArchive) booting := by decide
  have hexec : (Transition.exec mountStep (vfsInit bootArchive) booting).isSome = true := by decide
  obtain ⟨s, hs⟩ := Option.isSome_iff_exists.mp hexec
  have hwell : Transition.Along mountStep MountsWell (vfsInit bootArchive) booting := by
    refine ⟨⟨boot_newRoot, halong.1⟩, fun s' hs' => devices_along (fun m hm => ?_) (halong.2 s' hs')⟩
    simp only [devMounts, List.mem_cons, List.not_mem_nil, or_false] at hm
    obtain rfl | rfl := hm <;> rfl
  exact ⟨s, Transition.Reach.along (.start boot_booted) hwell hs, hs⟩

/-- The keyboard is mounted once more, over the first of two siblings. -/
theorem mount_resolves_kbd : ∃ s s', Transition.exec mountStep (vfsInit bootArchive) booting = some s ∧
    vfsMount (newRoot s device) (render kbdNames) s.next = .ok (some s.next, s') ∧
    Mounted (newRoot s device) s' kbdNames s.next := by
  obtain ⟨s, hreach, hexec⟩ := boot_reach
  have hfacts : (Transition.exec mountStep (vfsInit bootArchive) booting).map (fun s =>
      (decide (TargetFits (newRoot s device) kbdNames),
        ((vfsNamei (newRoot s device) (render kbdNames)).toOption.bind Prod.fst).isSome)) =
      some (true, true) := by decide
  rw [hexec, Option.map_some] at hfacts
  obtain ⟨hfit, hres⟩ := Prod.mk.inj (Option.some.inj hfacts)
  obtain ⟨x, hx⟩ := Option.isSome_iff_exists.mp hres
  obtain ⟨⟨res, s₁⟩, hnamei, rfl⟩ := Option.bind_eq_some_iff.mp hx
  obtain ⟨s', hmount, hmounted⟩ := mount_resolves hreach (device_newRoot s)
    (by decide) (of_decide_eq_true hfit)
    ⟨x, s₁, toOption_some.mp hnamei⟩
  exact ⟨s, s', hexec, hmount, hmounted⟩

/-- A mount over the second of the siblings follows the link to the node that the first
one replaced, and that was freed then. -/
theorem debug_faults : ¬∀ s, Transition.Reach mountStep (fun s m => NewRoot s m.2) Booted s →
    ∀ v names, NewRoot s v → Canonical names →
      (∃ x s₁, vfsNamei (newRoot s v) (render names) = .ok (some x, s₁)) →
      ∃ s', vfsMount (newRoot s v) (render names) s.next = .ok (some s.next, s') ∧
        Mounted (newRoot s v) s' names s.next := by
  intro hall
  obtain ⟨s, hreach, hexec⟩ := boot_reach
  have hfacts : (Transition.exec mountStep (vfsInit bootArchive) booting).map (fun s =>
      (((vfsNamei (newRoot s device) (render debugNames)).toOption.bind Prod.fst).isSome,
        (vfsMount (newRoot s device) (render debugNames) s.next).toOption.isSome)) =
      some (true, false) := by decide
  rw [hexec, Option.map_some] at hfacts
  obtain ⟨hres, hfault⟩ := Prod.mk.inj (Option.some.inj hfacts)
  obtain ⟨x, hx⟩ := Option.isSome_iff_exists.mp hres
  obtain ⟨⟨res, s₁⟩, hnamei, rfl⟩ := Option.bind_eq_some_iff.mp hx
  obtain ⟨s', hmount, -⟩ := hall s (hreach.weaken fun _ _ h => h.1) device debugNames
    (device_newRoot s) (by decide) ⟨x, s₁, toOption_some.mp hnamei⟩
  rw [hmount] at hfault
  cases hfault

end Os5.Vfs
