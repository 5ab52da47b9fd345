import Os5.Fs.MountPoints
import Os5.Fs.Readdir

/-!
# The name space

Each root that is mounted brings a tree of files of its own. What a path leads to after any mounts is what an overlay
of these trees has there: the last mount on the path, or on a directory above it, decides.
-/

namespace Os5.Vfs

open Transition Outcome Named

variable {s₀ s s' : State} {n : Nat}

-- ---------------------------------------------------------------------------
-- Inodes that stay
-- ---------------------------------------------------------------------------

def SameNode (v w : Inode) : Prop := v.d = w.d ∧ v.type &&& fsTypeMask = w.type &&& fsTypeMask

theorem SameNode.refl (v : Inode) : SameNode v v := ⟨rfl, rfl⟩

theorem SameNode.trans {u v w : Inode} (h : SameNode u v) (h' : SameNode v w) : SameNode u w :=
  ⟨h.1.trans h'.1, h.2.trans h'.2⟩

/-- The inodes of `s₀` that are left stand for what they stood for. -/
structure Since (s₀ s : State) : Prop where
  next : s₀.next ≤ s.next
  same : SameTar s₀ s
  node : ∀ m v, m < s₀.next → s.inode m = some v → ∃ w, s₀.inode m = some w ∧ SameNode v w

theorem Since.refl (s : State) : Since s s :=
  ⟨le_rfl, SameTar.refl s, fun _ v _ hv => ⟨v, hv, SameNode.refl v⟩⟩

theorem Since.trans (h : Since s₀ s) (h' : Since s s') : Since s₀ s' := by
  refine ⟨h.next.trans h'.next, h.same.trans h'.same, fun m v hm hv => ?_⟩
  obtain ⟨w, hw, hvw⟩ := h'.node m v (hm.trans_le h.next) hv
  obtain ⟨u, hu, hwu⟩ := h.node m w hm hw
  exact ⟨u, hu, hvw.trans hwu⟩

theorem Since.of_inode (hnext : s'.next = s.next) (hsame : SameTar s s')
    (hinode : ∀ m v, s'.inode m = some v → s.inode m = some v) : Since s s' :=
  ⟨hnext.ge, hsame, fun m v _ hv => ⟨v, hinode m v hv, SameNode.refl v⟩⟩

theorem Since.fetch (s : State) (tn : Nat) : Since s (tarGetInode s tn).2 := by
  cases hb : (s.tar tn).buffer with
  | some b =>
    obtain ⟨s', hget, hc⟩ := tarGetInode_some hb
    rw [hget]
    exact .of_inode hc.next hc.same fun m v hv => hc.inode ▸ hv
  | none =>
    obtain ⟨s', hget, ha⟩ := tarGetInode_none hb
    rw [hget]
    refine ⟨ha.next ▸ Nat.le_succ _, ha.same, fun m v hm hv => ⟨v, ?_, SameNode.refl v⟩⟩
    rw [ha.inode, Function.update_of_ne hm.ne] at hv
    exact hv

theorem Since.release (s : State) (n : Nat) : Since s (s.release n) := by
  refine .of_inode rfl (sameTar_of_eq rfl) fun m v hv => ?_
  have hupdate : Function.update s.inode n none m = some v := hv
  by_cases hm : m = n
  · rw [hm, Function.update_self] at hupdate
    cases hupdate
  · rw [Function.update_of_ne hm] at hupdate
    exact hupdate

theorem Since.count {t : TarNode} {tn : Nat} (hname : t.name = (s.tar tn).name) (hparent : t.parent = (s.tar tn).parent)
    (hkids : t.children = (s.tar tn).children) (hdir : t.directory = (s.tar tn).directory) : Since s (s.putTar tn t) :=
  .of_inode rfl (putTar_same hname hparent hkids hdir) fun _ _ hv => hv

abbrev Lasts (s₀ : State) (x : Run State) : Prop := Yields x (fun _ => True) (Since s₀)

abbrev Leaves {α : Type} (s₀ : State) (x : Run (α × State)) : Prop := Yields x (fun _ => True) fun r => Since s₀ r.2

theorem Since.assign {f : Inode → Inode} (h : Since s₀ s) (hf : ∀ v, SameNode (f v) v) : Lasts s₀ (s.assign n f) := by
  by_cases hn : s.Alloc n
  · rw [assign_eq hn]
    refine h.trans ⟨le_rfl, sameTar_of_eq rfl, fun m v _ hv => ?_⟩
    by_cases hm : m = n
    · subst hm
      rw [alter_inode_self] at hv
      obtain ⟨w, hw, rfl⟩ := Option.map_eq_some_iff.mp hv
      exact ⟨w, hw, hf w⟩
    · rw [alter_inode_ne hm] at hv
      exact ⟨v, hv, SameNode.refl v⟩
  · rw [State.assign, State.get, Option.not_isSome_iff_eq_none.mp hn]
    exact trivial

theorem Since.setParent (h : Since s₀ s) (x : Option Nat) : Lasts s₀ (s.setParent n x) := h.assign fun _ => ⟨rfl, rfl⟩
theorem Since.setChild (h : Since s₀ s) (x : Option Nat) : Lasts s₀ (s.setChild n x) := h.assign fun _ => ⟨rfl, rfl⟩
theorem Since.setOlder (h : Since s₀ s) (x : Option Nat) : Lasts s₀ (s.setOlder n x) := h.assign fun _ => ⟨rfl, rfl⟩
theorem Since.setYounger (h : Since s₀ s) (x : Option Nat) : Lasts s₀ (s.setYounger n x) := h.assign fun _ => ⟨rfl, rfl⟩

theorem Since.vfsFree (h : Since s₀ s) (n : Nat) : Lasts s₀ (vfsFree s n) := by
  refine yields_any fun v => ?_
  split
  · exact h
  split
  · exact h
  split
  · next tn hd =>
    rw [flushTar]
    split
    · split
      · exact h.trans ((Since.release s _).trans (.count rfl rfl rfl rfl))
      · exact h.trans (.count rfl rfl rfl rfl)
    · exact h.trans (.count rfl rfl rfl rfl)
  · exact h.trans (Since.release s n)

theorem Since.driverFinddir (h : Since s₀ s) (d : Driver) (name : Name) : Leaves s₀ (driverFinddir s d name) := by
  cases d with
  | none => exact trivial
  | device => exact h
  | tarfs tn =>
    rw [Vfs.driverFinddir, tarFinddir]
    split
    · exact h.trans (Since.fetch s tn)
    split
    · exact yields_any fun parent => h.trans (Since.fetch s parent)
    split
    · next c hc => exact h.trans (Since.fetch s c)
    · exact h

theorem Since.vfsFinddir (h : Since s₀ s) (ino : Nat) (name : Name) : Leaves s₀ (vfsFinddir s ino name) := by
  refine yields_any fun v => ?_
  split
  · exact h
  split
  · split
    · exact h
    split
    · exact h
    · refine yields_any fun c => ?_
      split
      · exact h
      · exact h.driverFinddir _ _
  · exact h.driverFinddir _ _

theorem Since.pushNode (h : Since s₀ s) (current next : Nat) : Lasts s₀ (pushNode s current next) :=
  (h.setParent _).bind fun _ h₁ => yields_any fun _ => (h₁.setOlder _).bind fun _ h₂ => h₂.setChild _

theorem Since.walkTokens (h : Since s₀ s) (current : Nat) (names : List Name) :
    Leaves s₀ (walkTokens true s current names) := by
  induction names generalizing s current with
  | nil => exact h
  | cons name names ih =>
    refine (h.vfsFinddir current name).bind fun r hr => ?_
    obtain ⟨next, s₁⟩ := r
    cases next with
    | none => exact (Since.vfsFree hr current).bind fun s hs => hs
    | some next =>
      exact (Since.pushNode hr current next).bind fun s₂ h₂ => (h₂.vfsFree current).bind fun s₃ h₃ => ih h₃ next

theorem Since.replaceName (h : Since s₀ s) (current root : Nat) : Lasts s₀ (replaceName s current root) := by
  refine yields_any fun c => ?_
  have hname : Lasts s₀ (s.assign root fun n => { n with name := c.name, type := n.type ||| fsMount }) :=
    h.assign fun v => ⟨rfl, mount_kind v.type⟩
  refine hname.bind fun s₁ h₁ => ?_
  rw [yields_pure]
  split
  · exact h₁.trans (.of_inode rfl (sameTar_of_eq rfl) fun _ _ hv => hv)
  · exact h₁

theorem Since.replaceNode (h : Since s₀ s) (current root : Nat) : Lasts s₀ (replaceNode s current root) := by
  have hparent : Lasts s₀ (replaceParent s current root) := by
    refine yields_any fun c => (h.setParent _).bind fun _ h₁ => (h₁.setParent _).bind fun s₂ h₂ =>
      yields_any fun r => yields_any fun p => yields_any fun pn => ?_
    split
    · exact h₂.setChild _
    · exact h₂
  have holder {s : State} (h : Since s₀ s) : Lasts s₀ (replaceOlder s current root) := by
    refine yields_any fun c => (h.setOlder _).bind fun s₁ h₁ => ?_
    split
    · exact h₁.setYounger _
    · exact h₁
  have hyounger {s : State} (h : Since s₀ s) : Lasts s₀ (replaceYounger s current root) := by
    refine yields_any fun c => (h.setYounger _).bind fun s₁ h₁ => ?_
    split
    · exact h₁.setOlder _
    · exact h₁
  exact hparent.bind fun _ h₁ => (holder h₁).bind fun _ h₂ => (hyounger h₂).bind fun _ h₃ =>
    (h₃.replaceName current root).bind fun _ h₄ => (h₄.vfsFree _).bind fun _ h₅ => h₅.vfsFree _

theorem Since.vfsMount (s : State) (path : Name) (root : Nat) : Leaves s (vfsMount s path root) := by
  have hwalk : Leaves s (walkPath true s path) := yields_any fun r => (Since.refl s).walkTokens r.1 r.2
  refine hwalk.bind fun r hr => ?_
  obtain ⟨found, s₁⟩ := r
  cases found with
  | none => exact hr
  | some current => exact (Since.replaceNode hr current root).bind fun s₂ h₂ => h₂

-- ---------------------------------------------------------------------------
-- The overlay
-- ---------------------------------------------------------------------------

def standsFor (ino : Nat) : Driver → Object
  | .tarfs tn => .node tn
  | .none => .inode ino
  | .device => .inode ino

theorem object_eq : object s n = standsFor n (s.driver n) := by
  rw [object]
  cases s.driver n <;> rfl

/-- What is at each path. -/
abbrev NameSpace := List Name → Option Object

/-- The files that the root `v` brings, from the archives that are in memory. -/
def fileTree (tar : Nat → TarNode) (ino : Nat) (v : Inode) : NameSpace
  | [] => some (standsFor ino v.d)
  | name :: names =>
    if v.type &&& fsTypeMask = fsDirectory then
      (((vfsInit tar).driverChild v.d name).bind fun cn => (archive (vfsInit tar)).walk cn names).map .node
    else none

/-- `vfs_root` before anything is mounted. -/
def bareRoot : NameSpace
  | [] => some (.inode 0)
  | _ :: _ => none

/-- A mount, and what it makes of the name space. -/
def overlayStep (tar : Nat → TarNode) (x : State × NameSpace) (m : Name × Inode) : Option (State × NameSpace) :=
  (mountStep x.1 m).map fun s' => (s', graft x.2 (strsepTokens (m.1.drop 1)) (fileTree tar x.1.next m.2))

/-- Paths lead where the name space says. -/
structure Shows (tar : Nat → TarNode) (s : State) (t : NameSpace) : Prop where
  ready : ∃ kids, Ready s kids ∧ ∀ ks, resolve s kids s.vfsRoot ks = t ks
  same : SameTar (vfsInit tar) s

section
variable {kids kids' : Nat → List Nat} {tar : Nat → TarNode} {t : NameSpace} {v w : Inode}

theorem lookAt_root (hsame : SameTar (vfsInit tar) s) (hw : s.inode n = some w) (hnode : SameNode w v) (ks : List Name) :
    lookAt s n ks = fileTree tar n v ks := by
  have hdriver : s.driver n = v.d := by
    rw [← hnode.1, State.driver, hw]
    rfl
  have hkind : s.kind n &&& fsTypeMask = v.type &&& fsTypeMask := by
    rw [← hnode.2, State.kind, hw]
    rfl
  cases ks with
  | nil => rw [lookAt, fileTree, object_eq, hdriver]
  | cons name names => rw [lookAt, fileTree, hkind, hdriver, hsame.driverChild, hsame.archive]

theorem Ready.resolve_newRoot (h : Ready s kids) (hv : NewRoot s v) (ks : List Name) :
    resolve (Vfs.newRoot s v) (Function.update kids s.next []) (Vfs.newRoot s v).vfsRoot ks = resolve s kids s.vfsRoot ks := by
  have hs := h.shape
  have ha := newRoot_added hv.fresh
  have hne : ∀ m, s.Alloc m → m ≠ s.next := fun m hm => (hs.bound m hm).ne
  have hchild : ∀ m, s.Alloc m → ∀ j,
      (tree (Vfs.newRoot s v) (Function.update kids s.next [])).child m j = (tree s kids).child m j := by
    intro m hm j
    rw [tree_child (ha.alloc.mpr (Or.inl hm)), tree_child hm, Function.update_of_ne (hne m hm), ha.name]
    refine List.find?_congr fun c hc => ?_
    rw [Function.update_of_ne (hne c (hs.kid m hm c hc).1)]
  have hdescend : ∀ ks m, s.Alloc m →
      (tree (Vfs.newRoot s v) (Function.update kids s.next [])).descend m ks = (tree s kids).descend m ks := by
    intro ks
    induction ks with
    | nil => exact fun _ _ => rfl
    | cons j ks ih =>
      intro m hm
      rw [Tree.descend, Tree.descend, hchild m hm]
      cases hc : (tree s kids).child m j with
      | none => rfl
      | some c =>
        obtain ⟨hn, hmem⟩ := tree_mem (child_mem hc).1
        exact ih c (hs.kid m hn c hmem).1
  obtain ⟨pre, -, hwalk, -⟩ := descend_spec (tree s kids) s.vfsRoot ks
  have hend := hne _ ((Inside.walk .root hwalk).alloc hs)
  rw [resolve, resolve, ha.vfsRoot, hdescend ks _ hs.root]
  refine lookAt_congr ha.same ?_ ?_ _
  · rw [ha.driver, Function.update_of_ne hend]
  · rw [ha.kind, Function.update_of_ne hend]

theorem Mounts.alloc {names : List Name} {r : Nat} (h : Mounts s s' kids kids' names r) : s'.Alloc r := by
  obtain ⟨pre, -, hwalk, -⟩ := descend_spec (tree s' kids') s'.vfsRoot (names ++ [])
  rw [h.below] at hwalk
  exact (Inside.walk .root hwalk).alloc h.ready.shape

theorem shows_boot (htar : Archives tar) : Shows tar (vfsInit tar) bareRoot := by
  obtain ⟨kids, hk⟩ := booted_ready ⟨tar, htar, rfl⟩
  have hchain := hk.shape.chain 0 hk.shape.root
  have hkids : kids 0 = [] := hchain.eq_nil
  have hleaf (j : Name) : (tree (vfsInit tar) kids).child 0 j = none := by
    have hfind : (tree (vfsInit tar) kids).child 0 j = (kids 0).find? fun c => (vfsInit tar).name c = j :=
      tree_child hk.shape.root j
    rw [hfind, hkids]
    rfl
  have hfile : ¬(vfsInit tar).kind 0 &&& fsTypeMask = fsDirectory := by
    rw [show (vfsInit tar).kind 0 = 0 from rfl]
    decide
  refine ⟨⟨kids, hk, fun ks => ?_⟩, SameTar.refl _⟩
  cases ks with
  | nil => rfl
  | cons j ks =>
    have hdescend : (tree (vfsInit tar) kids).descend 0 (j :: ks) = (0, j :: ks) := by
      rw [Tree.descend, hleaf]
    show lookAt (vfsInit tar) ((tree (vfsInit tar) kids).descend 0 (j :: ks)).1
      ((tree (vfsInit tar) kids).descend 0 (j :: ks)).2 = none
    rw [hdescend]
    exact if_neg hfile

/-- A mount where there is nothing fails, any other adds the files of the root to what there was. -/
theorem Shows.mount {m : Name × Inode} (h : Shows tar s t) (hm : MountsWell s m) :
    (t (strsepTokens (m.1.drop 1)) = none → mountStep s m = none) ∧
    (t (strsepTokens (m.1.drop 1)) ≠ none → ∃ s', mountStep s m = some s' ∧
      Shows tar s' (graft t (strsepTokens (m.1.drop 1)) (fileTree tar s.next m.2))) := by
  obtain ⟨⟨kids, hk, hres⟩, hsame⟩ := h
  obtain ⟨hv, hplain, hfit⟩ := hm
  obtain ⟨hready, hr⟩ := hk.newRoot hv
  have hthere := fun ks => (hk.resolve_newRoot hv ks).trans (hres ks)
  have ha := newRoot_added hv.fresh
  constructor
  · intro hnone
    obtain ⟨s₂, hwalk⟩ := (hready.walkPath hplain).1 ((hthere _).trans hnone)
    rw [mountStep, vfsMount, hwalk]
    rfl
  · intro hsome
    obtain ⟨s', kids', hmount, hmounts⟩ := hready.mount hr hplain hfit (by rwa [hthere])
    have hsince : Since (newRoot s m.2) s' := (Since.vfsMount (newRoot s m.2) m.1 s.next).of_eq_ok hmount
    have hsame' := (hsame.trans ha.same).trans hsince.same
    refine ⟨s', by rw [mountStep, hmount], ⟨kids', hmounts.ready, fun ks => ?_⟩, hsame'⟩
    by_cases hks : strsepTokens (m.1.drop 1) <+: ks
    · obtain ⟨rest, rfl⟩ := hks
      obtain ⟨w, hw⟩ := Option.isSome_iff_exists.mp hmounts.alloc
      obtain ⟨u, hu, hnode⟩ := hsince.node s.next w (ha.next ▸ Nat.lt_succ_self _) hw
      rw [ha.inode, Function.update_self] at hu
      obtain rfl := Option.some.inj hu
      rw [graft_below, resolve, hmounts.below]
      exact lookAt_root hsame' hw hnode rest
    · rw [graft_other hks, hmounts.others ks hks, hthere]

theorem Shows.step {x' : State × NameSpace} {m : Name × Inode} (h : Shows tar s t) (hm : MountsWell s m)
    (hstep : overlayStep tar (s, t) m = some x') : Shows tar x'.1 x'.2 := by
  obtain ⟨s', hs', rfl⟩ := Option.map_eq_some_iff.mp hstep
  obtain ⟨hnone, hsome⟩ := h.mount hm
  obtain ⟨s₂, hs₂, hshows⟩ := hsome fun he => by
    rw [hnone he] at hs'
    cases hs'
  rw [hs₂] at hs'
  obtain rfl := Option.some.inj hs'
  exact hshows

/-- After any mounts a path leads to what the overlay of the mounted trees has there, and a mount succeeds where there
is something. -/
theorem mounts_overlay {x : State × NameSpace} (htar : Archives tar)
    (h : Reach (overlayStep tar) (fun x => MountsWell x.1) (· = (vfsInit tar, bareRoot)) x) :
    (∀ ks, Canonical ks → ∃ y s₁, vfsNamei x.1 (render ks) = .ok (y, s₁) ∧ y.map (object s₁) = x.2 ks) ∧
    ∀ m, MountsWell x.1 m → ((mountStep x.1 m).isSome ↔ x.2 (strsepTokens (m.1.drop 1)) ≠ none) := by
  have hshows : Shows tar x.1 x.2 :=
    @Reach.invariant _ _ _ _ _ (fun x => Shows tar x.1 x.2) x h (fun _ hx => hx ▸ shows_boot htar)
      fun _ _ _ hx hm hstep => hx.step hm hstep
  refine ⟨fun ks hks => ?_, fun m hm => ⟨fun hsome hnone => ?_, fun hsome => ?_⟩⟩
  · obtain ⟨⟨kids, hk, hres⟩, -⟩ := hshows
    have htokens := strsepTokens_render hks
    obtain ⟨y, s₁, hnamei, hobject⟩ := @Ready.namei x.1 kids (render ks) hk (by rw [htokens]; exact hks.plain)
    exact ⟨y, s₁, hnamei, by rw [hobject, htokens, hres]⟩
  · rw [(hshows.mount hm).1 hnone] at hsome
    cases hsome
  · obtain ⟨s', hs', -⟩ := (hshows.mount hm).2 hsome
    rw [hs']
    rfl

theorem overlay_run {ms : List (Name × Inode)} (hok : Along mountStep MountsWell s ms) (hs : exec mountStep s ms = some s') :
    (∃ t', exec (overlayStep tar) (s, t) ms = some (s', t')) ∧
      Along (overlayStep tar) (fun x => MountsWell x.1) (s, t) ms := by
  induction ms generalizing s t with
  | nil =>
    obtain rfl := Option.some.inj hs
    exact ⟨⟨t, rfl⟩, trivial⟩
  | cons m ms ih =>
    obtain ⟨s₁, hstep, hrest⟩ := Option.bind_eq_some_iff.mp hs
    have hover : overlayStep tar (s, t) m =
        some (s₁, graft t (strsepTokens (m.1.drop 1)) (fileTree tar s.next m.2)) := by
      rw [overlayStep, hstep]
      rfl
    obtain ⟨⟨t', hexec⟩, halong⟩ := ih (hok.2 s₁ hstep) hrest
    refine ⟨⟨t', ?_⟩, hok.1, fun x hx => ?_⟩
    · rw [exec_cons, hover]
      exact hexec
    · rw [hover] at hx
      obtain rfl := Option.some.inj hx
      exact halong

end

def devNames : List Name := [[100, 101, 118]]

theorem boot_along : Along mountStep MountsWell (vfsInit bootArchive) booting := by
  have hgoes : Along mountStep GoesWell (vfsInit bootArchive) booting := by decide
  refine ⟨⟨boot_newRoot, hgoes.1⟩, fun s' hs' => devices_along (fun m hm => ?_) (hgoes.2 s' hs')⟩
  simp only [devMounts, List.mem_cons, List.not_mem_nil, or_false] at hm
  obtain rfl | rfl := hm <;> rfl

/-- After the mounts `/dev/k` is the device, and `/dev` is still what the archive has there. -/
theorem mounts_overlay_boot : ∃ x, exec (overlayStep bootArchive) (vfsInit bootArchive, bareRoot) booting = some x ∧
    (∃ y s₁, vfsNamei x.1 (render kbdNames) = .ok (y, s₁) ∧ y.map (object s₁) = some (.inode 5)) ∧
    ∃ y s₁, vfsNamei x.1 (render devNames) = .ok (y, s₁) ∧ y.map (object s₁) = some (.node 1) := by
  obtain ⟨tar, htar, heq⟩ := boot_booted
  obtain rfl : bootArchive = tar := congrArg State.tar heq
  have hsome : (exec mountStep (vfsInit bootArchive) booting).isSome = true := by decide
  obtain ⟨s, hs⟩ := Option.isSome_iff_exists.mp hsome
  obtain ⟨⟨t, hx⟩, halong⟩ := @overlay_run (vfsInit bootArchive) s bootArchive bareRoot booting boot_along hs
  have hspace : (exec (overlayStep bootArchive) (vfsInit bootArchive, bareRoot) booting).map
      (fun x => (x.2 kbdNames, x.2 devNames)) = some (some (.inode 5), some (.node 1)) := by decide
  rw [hx, Option.map_some] at hspace
  obtain ⟨hkbd, hdev⟩ := Prod.mk.inj (Option.some.inj hspace)
  obtain ⟨hlook, -⟩ := mounts_overlay htar (.along (.start rfl) halong hx)
  obtain ⟨y, s₁, hnamei, hobject⟩ := hlook kbdNames (by decide)
  obtain ⟨z, s₂, hnamei', hobject'⟩ := hlook devNames (by decide)
  exact ⟨(s, t), hx, ⟨y, s₁, hnamei, hobject.trans hkbd⟩, z, s₂, hnamei', hobject'.trans hdev⟩

end Os5.Vfs
