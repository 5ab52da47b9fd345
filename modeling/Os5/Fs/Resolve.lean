import Os5.Fs.MountTree

/-!
# What a path resolves to

A path goes down the mount tree as far as there are mounted children of its names, and
on from there through the archive of the inode it came to. `resolve` says so without
making inodes; a lookup of `vfs_namei` returns an inode that stands for the same object.
A mount changes what `resolve` says below its path and nowhere else.
-/

namespace Os5.Vfs

open Tarfs (dot dotdot)

variable {s s' : State} {kids kids' : Nat → List Nat}

/-- What an inode stands for: a node of an archive, or itself. -/
inductive Object
  | node (tn : Nat)
  | inode (ino : Nat)
  deriving DecidableEq, Repr

def object (s : State) (ino : Nat) : Object :=
  match s.driver ino with
  | .tarfs tn => .node tn
  | _ => .inode ino

def archive (s : State) : Named.Tree Name Nat :=
  ⟨fun k => (s.tar k).name, fun k => if (s.tar k).directory then (s.tar k).children else []⟩

def lookAt (s : State) (ino : Nat) : List Name → Option Object
  | [] => some (object s ino)
  | name :: names =>
    if s.kind ino &&& fsTypeMask = fsDirectory then
      ((s.driverChild (s.driver ino) name).bind fun cn => (archive s).walk cn names).map .node
    else none

def resolve (s : State) (kids : Nat → List Nat) (ino : Nat) (names : List Name) : Option Object :=
  lookAt s ((tree s kids).descend ino names).1 ((tree s kids).descend ino names).2

def Plain (names : List Name) : Prop := dot ∉ names ∧ dotdot ∉ names

theorem Plain.head {name : Name} {names : List Name} (h : Plain (name :: names)) :
    name ≠ dot ∧ name ≠ dotdot ∧ Plain names :=
  ⟨fun he => h.1 (he ▸ List.mem_cons_self), fun he => h.2 (he ▸ List.mem_cons_self),
    fun hd => h.1 (List.mem_cons_of_mem _ hd), fun hd => h.2 (List.mem_cons_of_mem _ hd)⟩

theorem SameTar.archive (h : SameTar s s') : archive s' = archive s := by
  have hname : (fun k => (s'.tar k).name) = fun k => (s.tar k).name := funext h.name
  have hkids : (fun k => if (s'.tar k).directory then (s'.tar k).children else []) =
      fun k => if (s.tar k).directory then (s.tar k).children else [] := by
    funext k
    rw [h.directory, h.children]
  rw [Vfs.archive, hname, hkids]
  rfl

theorem archive_children {k : Nat} : (archive s).children k =
    if (s.tar k).directory then (s.tar k).children else [] := rfl

theorem archive_child {k : Nat} {name : Name} : (archive s).child k name =
    if (s.tar k).directory then s.tarChild k name else none := by
  rw [Named.Tree.child, archive_children]
  split
  · rfl
  · rfl

theorem archive_mem {k c : Nat} (h : c ∈ (archive s).children k) : c ∈ (s.tar k).children := by
  rw [archive_children] at h
  split at h
  · exact h
  · cases h

theorem archive_deep {depth : Nat → Nat} (hdepth : ∀ k c, c ∈ (s.tar k).children → depth k < depth c)
    {k m : Nat} {names : List Name} (h : (archive s).walk k names = some m) :
    depth k ≤ depth m ∧ (names ≠ [] → depth k < depth m) := by
  induction names generalizing k with
  | nil =>
    cases h
    exact ⟨le_rfl, fun hn => absurd rfl hn⟩
  | cons name names ih =>
    obtain ⟨c, hc, hrest⟩ := Option.bind_eq_some_iff.mp h
    have hlt := hdepth k c (archive_mem (Named.child_mem hc).1)
    have hle := (ih hrest).1
    exact ⟨(hlt.trans_le hle).le, fun _ => hlt.trans_le hle⟩

-- ---------------------------------------------------------------------------
-- Lookups
-- ---------------------------------------------------------------------------

theorem vfsFinddir_outside {x : Nat} {name : Name} (hx : s.Alloc x) (hparent : s.parent x = none)
    (hkind : s.kind x &&& fsTypeMask = fsDirectory) :
    vfsFinddir s x name = driverFinddir s (s.driver x) name := by
  obtain ⟨v, hv⟩ := Option.isSome_iff_exists.mp hx
  have htype : s.kind x = v.type := by simp [State.kind, hv]
  have hdriver : s.driver x = v.d := by simp [State.driver, hv]
  have hp : v.parent = none := by simpa [State.link, hv] using hparent
  rw [htype] at hkind
  simp only [vfsFinddir, get_eq hv, Bind.bind, Except.bind, hp]
  rw [if_neg (not_not.mpr hkind), hdriver]

theorem Shape.apart_of_parent (h : Shape s kids) {x : Nat} (hparent : s.parent x = none) :
    Apart s kids x := by
  refine ⟨fun he => h.rooted (he ▸ hparent), fun m hm hmem => ?_⟩
  rw [(h.kid m hm x hmem).2] at hparent
  cases hparent

theorem tarFinddir_new {k cn : Nat} {name : Name} (hdot : name ≠ dot) (hdotdot : name ≠ dotdot)
    (hcn : s.tarChild k name = some cn) (hbuf : (s.tar cn).buffer = none) :
    ∃ s₁, tarFinddir s k name = .ok (some s.next, s₁) ∧ Added s s₁ (newInode (s.tar cn) cn) := by
  obtain ⟨s₁, hget, ha⟩ := tarGetInode_none hbuf
  refine ⟨s₁, ?_, ha⟩
  simp only [tarFinddir_child hdot hdotdot, hcn, hget]

theorem walk_archive {x k : Nat} {names : List Name} (hs : Shape s kids) (hp : Placed s kids)
    (hx : s.Alloc x) (hparent : s.parent x = none) (hd : s.driver x = .tarfs k)
    (hkind : s.kind x = (newInode (s.tar k) k).type)
    (hbuf : ∀ names m, names ≠ [] → (archive s).walk k names = some m → (s.tar m).buffer = none)
    (hplain : Plain names) : ∃ res s', walkTokens false s x names = .ok (res, s') ∧
      res.map (object s') = ((archive s).walk k names).map .node := by
  induction names generalizing s kids x k with
  | nil =>
    refine ⟨some x, s, rfl, ?_⟩
    rw [Named.walk_nil, Option.map_some, Option.map_some, object, hd]
  | cons name names ih =>
    obtain ⟨hdot, hdotdot, hrest⟩ := hplain.head
    obtain ⟨s₀, hfree₀, -⟩ := vfsFree_freed hs hx hparent
    have hstop (hn : vfsFinddir s x name = .ok (none, s)) (hc : (archive s).child k name = none) :
        ∃ res s', walkTokens false s x (name :: names) = .ok (res, s') ∧
          res.map (object s') = ((archive s).walk k (name :: names)).map .node := by
      refine ⟨none, s₀, ?_, ?_⟩
      · simp only [walkTokens, hn, hfree₀, Bind.bind, Except.bind]
        rfl
      · rw [Named.walk_cons, hc]
        rfl
    by_cases hdir : (s.tar k).directory = true
    · have hisdir : s.kind x &&& fsTypeMask = fsDirectory := by rw [hkind, newInode_directory, hdir]
      have hfind : vfsFinddir s x name = tarFinddir s k name := by
        rw [vfsFinddir_outside hx hparent hisdir, hd, driverFinddir]
      have hchild : (archive s).child k name = s.tarChild k name := by rw [archive_child, if_pos hdir]
      cases hcn : s.tarChild k name with
      | none =>
        refine hstop (hfind.trans ?_) (hchild.trans hcn)
        simp only [tarFinddir_child hdot hdotdot, hcn]
      | some cn =>
        rw [hcn] at hchild
        obtain ⟨depth, hdepth⟩ := hp.deep
        have hone : (s.tar cn).buffer = none := hbuf [name] cn (List.cons_ne_nil _ _)
          (by rw [Named.walk_cons, hchild]; rfl)
        obtain ⟨s₁, hfind₁, ha⟩ := tarFinddir_new hdot hdotdot hcn hone
        have hs₁ := hs.added ha
        have hp₁ := hp.added hs ha fun k' c hd' _ => by
          cases hd'
          exact ⟨rfl, rfl⟩
        have hxa : s₁.Alloc x := ha.alloc.mpr (Or.inl hx)
        have hxp : s₁.parent x = none := by rw [State.parent, ha.link hs ha.bare.1]; exact hparent
        have hxb : s.next ≠ x := (hs.bound x hx).ne'
        obtain ⟨s₂, hfree, hf⟩ := vfsFree_freed hs₁ hxa hxp
        have hs₂ := hs₁.freed hf (hs₁.apart_of_parent hxp)
        have hsame : SameTar s s₂ := ha.same.trans hf.same
        have hinode : s₂.inode s.next = some (newInode (s.tar cn) cn) := by
          rw [hf.others _ hxb, ha.inode, Function.update_self]
        have hbelow : ∀ names m, names ≠ [] → (archive s₂).walk cn names = some m →
            (s₂.tar m).buffer = none := by
          intro names' m hne hw
          rw [hsame.archive] at hw
          have hold : (s.tar m).buffer = none := hbuf (name :: names') m (List.cons_ne_nil _ _)
            (by rw [Named.walk_cons, hchild]; exact hw)
          have hdeep := (archive_deep hdepth hw).2 hne
          cases hb : (s₂.tar m).buffer with
          | none => rfl
          | some b =>
            have hb₁ := ((hf.buffer m b).mp hb).1
            rw [ha.buffer, if_neg, hold] at hb₁
            · cases hb₁
            · intro he
              rw [Driver.tarfs.inj he] at hdeep
              exact lt_irrefl _ hdeep
        obtain ⟨res, s', hwalk, hres⟩ := ih hs₂ (hp₁.freed hf) (by rw [State.Alloc, hinode]; rfl)
          (by rw [State.parent, State.link, hinode]; rfl) (by rw [State.driver, hinode]; rfl)
          (by rw [State.kind, hinode]; simp [newInode, hsame.directory]) hbelow hrest
        refine ⟨res, s', ?_, ?_⟩
        · simp only [walkTokens, hfind.trans hfind₁, Bind.bind, Except.bind, Pure.pure, Except.pure,
            Bool.false_eq_true, if_false, hfree]
          exact hwalk
        · rw [hres, hsame.archive, Named.walk_cons, hchild, Option.bind_some]
    · refine hstop (vfsFinddir_file hx ?_ name) (by rw [archive_child, if_neg hdir])
      rw [hkind]
      exact fun hc => hdir (newInode_directory.mp hc)

-- ---------------------------------------------------------------------------
-- Mount trees built by mounts
-- ---------------------------------------------------------------------------

/-- No inode was made yet for the nodes of the archive that are found from `ino`. -/
def Clean (s : State) (kids : Nat → List Nat) (ino : Nat) : Prop :=
  s.kind ino &&& fsTypeMask = fsDirectory → ∀ name cn, (tree s kids).child ino name = none →
    s.driverChild (s.driver ino) name = some cn →
    ∀ names m, (archive s).walk cn names = some m → (s.tar m).buffer = none

structure Ready (s : State) (kids : Nat → List Nat) : Prop where
  shape : Shape s kids
  placed : Placed s kids
  clean : ∀ n, Inside s kids n → Clean s kids n
  head : ∀ n c, Inside s kids n → s.child n = some c → s.younger c = none
  driven : ∀ n, Inside s kids n → s.kind n &&& fsTypeMask = fsDirectory → s.driver n ≠ .none
  alone : s.older s.vfsRoot = none ∧ s.younger s.vfsRoot = none
  /-- Only directories have mounted children. -/
  stem : ∀ n, Inside s kids n → kids n ≠ [] → s.kind n &&& fsTypeMask = fsDirectory
  titled : ∀ n c, Inside s kids n → c ∈ kids n → s.name c ≠ [] ∧ s.name c ≠ dot ∧ s.name c ≠ dotdot
  named : ∀ k c, c ∈ (s.tar k).children → (s.tar c).name ≠ []

theorem Ready.lookup {u : Nat} {names : List Name} (h : Ready s kids) (hu : Inside s kids u)
    (hstop : ∀ name rest, names = name :: rest → (tree s kids).child u name = none)
    (hplain : Plain names) : ∃ res s', walkTokens false s u names = .ok (res, s') ∧
      res.map (object s') = lookAt s u names := by
  have hs := h.shape
  have hua := hu.alloc hs
  have hup := hu.parent hs
  cases names with
  | nil => exact ⟨some u, s, rfl, rfl⟩
  | cons name names =>
    obtain ⟨hdot, hdotdot, hrest⟩ := hplain.head
    have hchild := hstop name names rfl
    have hnone (hn : vfsFinddir s u name = .ok (none, s)) (hl : lookAt s u (name :: names) = none) :
        ∃ res s', walkTokens false s u (name :: names) = .ok (res, s') ∧
          res.map (object s') = lookAt s u (name :: names) := by
      refine ⟨none, s, ?_, hl.symm⟩
      simp only [walkTokens, hn, vfsFree_inside hua hup, Bind.bind, Except.bind]
      rfl
    by_cases hdir : s.kind u &&& fsTypeMask = fsDirectory
    · have hfind := vfsFinddir_driver hs hua hup hdir hdot hdotdot hchild
      have hlook : lookAt s u (name :: names) =
          ((s.driverChild (s.driver u) name).bind fun cn => (archive s).walk cn names).map .node := by
        rw [lookAt, if_pos hdir]
      cases hd : s.driver u with
      | none => exact absurd hd (h.driven u hu hdir)
      | device =>
        rw [hd] at hfind hlook
        exact hnone hfind hlook
      | tarfs k =>
        have hclean := h.clean u hu hdir
        rw [hd] at hfind hlook hclean
        cases hcn : s.tarChild k name with
        | none =>
          refine hnone (hfind.trans ?_) (hlook.trans ?_)
          · simp only [driverFinddir, tarFinddir_child hdot hdotdot, hcn]
          · rw [State.driverChild, hcn]
            rfl
        | some cn =>
          have hbelow := hclean name cn hchild hcn
          obtain ⟨depth, hdepth⟩ := h.placed.deep
          obtain ⟨s₁, hfind₁, ha⟩ := tarFinddir_new hdot hdotdot hcn (hbelow [] cn rfl)
          have hs₁ := hs.added ha
          have hp₁ := h.placed.added hs ha fun k' c hd' _ => by
            cases hd'
            exact ⟨rfl, rfl⟩
          have hinode : s₁.inode s.next = some (newInode (s.tar cn) cn) := by
            rw [ha.inode, Function.update_self]
          have hfree : vfsFree s₁ u = .ok s₁ := by
            refine vfsFree_inside (ha.alloc.mpr (Or.inl hua)) ?_
            rw [State.parent, ha.link hs ha.bare.1]
            exact hup
          have hdeeper : ∀ names m, names ≠ [] → (archive s₁).walk cn names = some m →
              (s₁.tar m).buffer = none := by
            intro names' m hne hw
            rw [ha.same.archive] at hw
            have hdeep := (archive_deep hdepth hw).2 hne
            rw [ha.buffer, if_neg]
            · exact hbelow names' m hw
            · intro he
              rw [Driver.tarfs.inj he] at hdeep
              exact lt_irrefl _ hdeep
          obtain ⟨res, s', hwalk, hres⟩ := walk_archive hs₁ hp₁ (by rw [State.Alloc, hinode]; rfl)
            (by rw [State.parent, State.link, hinode]; rfl) (by rw [State.driver, hinode]; rfl)
            (by rw [State.kind, hinode]; simp [newInode, ha.same.directory]) hdeeper hrest
          refine ⟨res, s', ?_, ?_⟩
          · simp only [walkTokens, hfind, driverFinddir, hfind₁, Bind.bind, Except.bind, Pure.pure,
              Except.pure, Bool.false_eq_true, if_false, hfree]
            exact hwalk
          · rw [hres, hlook, ha.same.archive, State.driverChild, hcn]
            rfl
    · refine hnone (vfsFinddir_file hua hdir name) ?_
      rw [lookAt, if_neg hdir]

/-- A path names the object that `resolve` says. -/
theorem Ready.namei {path : Name} (h : Ready s kids) (hplain : Plain (strsepTokens (path.drop 1))) :
    ∃ res s', vfsNamei s path = .ok (res, s') ∧
      res.map (object s') = resolve s kids s.vfsRoot (strsepTokens (path.drop 1)) := by
  have hfind := vfsFindRoot_eq h.shape h.shape.root (strsepTokens (path.drop 1))
  obtain ⟨pre, hpre, hwalk, hstop⟩ :=
    Named.descend_spec (tree s kids) s.vfsRoot (strsepTokens (path.drop 1))
  have hrest : Plain ((tree s kids).descend s.vfsRoot (strsepTokens (path.drop 1))).2 := by
    rw [hpre] at hplain
    exact ⟨fun hd => hplain.1 (List.mem_append_right _ hd), fun hd => hplain.2 (List.mem_append_right _ hd)⟩
  obtain ⟨res, s', hw, hres⟩ := h.lookup (Inside.walk .root hwalk) hstop hrest
  refine ⟨res, s', ?_, hres⟩
  rw [vfsNamei, walkPath, hfind]
  exact hw

-- ---------------------------------------------------------------------------
-- A node is put into the tree
-- ---------------------------------------------------------------------------

theorem SameTar.driverChild (h : SameTar s s') (d : Driver) (name : Name) :
    s'.driverChild d name = s.driverChild d name := by
  cases d with
  | none => rfl
  | device => rfl
  | tarfs tn => exact h.tarChild tn name

theorem lookAt_congr {u : Nat} (h : SameTar s s') (hd : s'.driver u = s.driver u)
    (hk : s'.kind u &&& fsTypeMask = s.kind u &&& fsTypeMask) (names : List Name) :
    lookAt s' u names = lookAt s u names := by
  cases names with
  | nil => rw [lookAt, lookAt, object, object, hd]
  | cons name names => rw [lookAt, lookAt, hk, hd, h.driverChild, h.archive]

section
variable {cur b tn cn : Nat} {name : Name}

theorem Pushed.kids_new (hp : Pushed s s' kids kids' cur b cn) (hb : s.child b = none) : kids' b = [] := by
  have hchain := hp.shape.chain b ((hp.alloc b).mpr (Or.inr rfl))
  rw [hp.child, Function.update_of_ne hp.ne, hb] at hchain
  exact hchain.eq_nil

theorem Pushed.grown (hp : Pushed s s' kids kids' cur b cn) (hcur : s.Alloc cur)
    (hb : s.child b = none) (hname : (s.tar cn).name = name)
    (hchild : (tree s kids).child cur name = none) :
    Named.Grown (tree s kids) (tree s' kids') cur b name where
  fresh n hmem := hp.apart.2 n (tree_mem hmem).1 (tree_mem hmem).2
  empty := by
    have hkids : (tree s' kids').children b = kids' b := if_pos ((hp.alloc b).mpr (Or.inr rfl))
    rw [hkids, hp.kids_new hb]
  name := (congrFun hp.name b).trans ((Function.update_self _ _ _).trans hname)
  names n hn := (congrFun hp.name n).trans (Function.update_of_ne hn _ _)
  absent := hchild
  place := by
    have hold : (tree s kids).children cur = kids cur := if_pos hcur
    have hnew : (tree s' kids').children cur = kids' cur := if_pos ((hp.alloc cur).mpr (Or.inl hcur))
    exact ⟨[], kids cur, hold, by rw [hnew, hp.kidsCur]; rfl⟩
  others n hn hnc := by
    by_cases ha : s.Alloc n
    · have hold : (tree s kids).children n = kids n := if_pos ha
      have hnew : (tree s' kids').children n = kids' n := if_pos ((hp.alloc n).mpr (Or.inl ha))
      rw [hold, hnew, hp.kidsOther n ha hnc]
    · have ha' : ¬s'.Alloc n := fun h => ((hp.alloc n).mp h).elim ha hn
      have hold : (tree s kids).children n = [] := if_neg ha
      have hnew : (tree s' kids').children n = [] := if_neg ha'
      rw [hold, hnew]

theorem archive_last {k m : Nat} {names : List Name} (h : Placed s kids) (hne : names ≠ [])
    (hm : m ∈ (s.tar tn).children) (hw : (archive s).walk k names = some m) :
    ∃ init, (archive s).walk k init = some tn := by
  cases names using List.reverseRecOn with
  | nil => exact absurd rfl hne
  | append_singleton init name =>
    obtain ⟨c, hc, hlast⟩ := Named.walk_concat hw
    have hup := h.up c m (archive_mem (Named.child_mem hlast).1)
    rw [h.up tn m hm] at hup
    exact ⟨init, Option.some.inj hup ▸ hc⟩

theorem Clean.pushed {x : Nat} (hx : Clean s kids x) (hs : Shape s kids) (h : Placed s kids)
    (hp : Pushed s s' kids kids' cur b cn) (hcur : s.Alloc cur) (hb : s.child b = none)
    (hd : s.driver cur = .tarfs tn) (hcn : s.tarChild tn name = some cn)
    (hchild : (tree s kids).child cur name = none) (hxb : x ≠ b) : Clean s' kids' x := by
  obtain ⟨hmem, hname⟩ := tarChild_mem hcn
  have hg := hp.grown hcur hb hname hchild
  have hbuf : (s.tar tn).buffer = some cur := (hs.buffer tn cur).mpr hd
  intro hdir j c hnone hc names m hw
  have hdir' : s.kind x &&& fsTypeMask = fsDirectory := by
    rwa [hp.kind, Function.update_of_ne hxb] at hdir
  have hc' : s.driverChild (s.driver x) j = some c := by
    rwa [hp.driver, Function.update_of_ne hxb, hp.same.driverChild] at hc
  rw [hp.same.archive] at hw
  have hnone' : (tree s kids).child x j = none ∧ ¬(x = cur ∧ j = name) := by
    by_cases hxc : x = cur
    · subst hxc
      rw [hg.child_place] at hnone
      split at hnone
      · cases hnone
      · next hj => exact ⟨hnone, fun he => hj he.2⟩
    · rw [hg.child_other hxb hxc] at hnone
      exact ⟨hnone, fun he => hxc he.1⟩
  have hclean := hx hdir' j c hnone'.1 hc'
  rw [hp.buffer]
  split
  · next hmc =>
    -- the way to `cn` goes through `cur`
    subst hmc
    exfalso
    by_cases hnames : names = []
    · subst hnames
      obtain rfl := Option.some.inj hw
      cases hdx : s.driver x with
      | none =>
        rw [hdx] at hc'
        cases hc'
      | device =>
        rw [hdx] at hc'
        cases hc'
      | tarfs k =>
        rw [hdx] at hc'
        obtain ⟨hck, hcj⟩ := tarChild_mem hc'
        obtain rfl := Option.some.inj ((h.up k c hck).symm.trans (h.up tn c hmem))
        have hxc : x = cur := Option.some.inj (((hs.buffer k x).mpr hdx).symm.trans hbuf)
        exact hnone'.2 ⟨hxc, hcj.symm.trans hname⟩
    · obtain ⟨init, hinit⟩ := archive_last h hnames hmem hw
      rw [hclean init tn hinit] at hbuf
      cases hbuf
  · exact hclean names m hw

theorem Inside.pushed_cases (hp : Pushed s s' kids kids' cur b cn) (hcur : Inside s kids cur)
    (hs : Shape s kids) (hb : s.child b = none) {n : Nat} (hn : Inside s' kids' n) :
    n = b ∨ n ≠ b ∧ Inside s kids n := by
  induction hn with
  | root =>
    rw [hp.vfsRoot]
    exact Or.inr ⟨hp.apart.1.symm, .root⟩
  | @kid n c _ hc ih =>
    obtain rfl | ⟨hnb, hn⟩ := ih
    · rw [hp.kids_new hb] at hc
      cases hc
    · by_cases hcb : c = b
      · exact Or.inl hcb
      · right
        refine ⟨hcb, ?_⟩
        by_cases hnc : n = cur
        · subst hnc
          rw [hp.kidsCur, List.mem_cons] at hc
          exact hn.kid (hc.resolve_left hcb)
        · rw [hp.kidsOther n (hn.alloc hs) hnc] at hc
          exact hn.kid hc

theorem Ready.pushed (h : Ready s kids) (hp : Pushed s s' kids kids' cur b cn) (hcur : Inside s kids cur)
    (hkind : s.kind cur &&& fsTypeMask = fsDirectory) (hd : s.driver cur = .tarfs tn)
    (hcn : s.tarChild tn name = some cn) (hchild : (tree s kids).child cur name = none)
    (hdot : name ≠ dot) (hdotdot : name ≠ dotdot) : Ready s' kids' := by
  have hs := h.shape
  have hca := hcur.alloc hs
  have hclean := h.clean cur hcur hkind name cn hchild (by rw [hd]; exact hcn)
  have hfree : ¬s.Alloc b := by
    obtain hbuf | ⟨-, hfree⟩ := hp.cached
    · rw [hclean [] cn rfl] at hbuf
      cases hbuf
    · exact hfree
  have hb : s.child b = none := link_none hfree
  obtain ⟨depth, hdepth⟩ := h.placed.deep
  refine ⟨hp.shape, hp.placed, fun n hn => ?_, fun n c hn hc => ?_, fun n hn hdir => ?_, ?_,
    fun n hn hne => ?_, fun n c hn hc => ?_, fun k c hc => ?_⟩
  · obtain rfl | ⟨hnb, hn⟩ := hcur.pushed_cases hp hs hb hn
    · intro hdir j c _ hc names m hw
      rw [hp.kind, Function.update_self, newInode_directory] at hdir
      rw [hp.driver, Function.update_self, hp.same.driverChild] at hc
      rw [hp.same.archive] at hw
      have hlong : (archive s).walk cn (j :: names) = some m := by
        rw [Named.walk_cons, archive_child, if_pos hdir]
        exact Option.bind_eq_some_iff.mpr ⟨c, hc, hw⟩
      have hdeep := (archive_deep hdepth hlong).2 (List.cons_ne_nil _ _)
      rw [hp.buffer, if_neg (fun he => by rw [he] at hdeep; exact lt_irrefl _ hdeep)]
      exact hclean _ m hlong
    · exact (h.clean n hn).pushed hs h.placed hp hca hb hd hcn hchild hnb
  · rw [hp.younger]
    rw [hp.child] at hc
    by_cases hnc : n = cur
    · subst hnc
      rw [Function.update_self] at hc
      rw [← Option.some.inj hc]
      exact link_none hfree
    · rw [Function.update_of_ne hnc] at hc
      obtain rfl | ⟨-, hn⟩ := hcur.pushed_cases hp hs hb hn
      · rw [hb] at hc
        cases hc
      · exact h.head n c hn hc
  · rw [hp.driver]
    obtain rfl | ⟨hnb, hn⟩ := hcur.pushed_cases hp hs hb hn
    · rw [Function.update_self]
      exact fun he => nomatch he
    · rw [Function.update_of_ne hnb]
      rw [hp.kind, Function.update_of_ne hnb] at hdir
      exact h.driven n hn hdir
  · rw [hp.vfsRoot, hp.older, hp.younger, Function.update_of_ne hp.apart.1.symm]
    exact h.alone
  · obtain rfl | ⟨hnb, hn⟩ := hcur.pushed_cases hp hs hb hn
    · exact absurd (hp.kids_new hb) hne
    · rw [hp.kind, Function.update_of_ne hnb]
      by_cases hnc : n = cur
      · rw [hnc]
        exact hkind
      · rw [hp.kidsOther n (hn.alloc hs) hnc] at hne
        exact h.stem n hn hne
  · rw [hp.name]
    by_cases hcb : c = b
    · subst hcb
      rw [Function.update_self, (tarChild_mem hcn).2]
      refine ⟨fun he => h.named tn cn (tarChild_mem hcn).1 ?_, hdot, hdotdot⟩
      rw [(tarChild_mem hcn).2, he]
    · rw [Function.update_of_ne hcb]
      obtain rfl | ⟨-, hn⟩ := hcur.pushed_cases hp hs hb hn
      · rw [hp.kids_new hb] at hc
        cases hc
      · by_cases hnc : n = cur
        · subst hnc
          rw [hp.kidsCur, List.mem_cons] at hc
          exact h.titled n c hn (hc.resolve_left hcb)
        · rw [hp.kidsOther n (hn.alloc hs) hnc] at hc
          exact h.titled n c hn hc
  · rw [hp.same.children] at hc
    rw [hp.same.name]
    exact h.named k c hc

theorem Pushed.resolve (hp : Pushed s s' kids kids' cur b cn) (hcur : s.Alloc cur) (hb : s.child b = none)
    (hkind : s.kind cur &&& fsTypeMask = fsDirectory) (hd : s.driver cur = .tarfs tn)
    (hcn : s.tarChild tn name = some cn) (hchild : (tree s kids).child cur name = none) {n : Nat}
    (hn : n ≠ b) (hmem : ∀ pre m, (tree s kids).walk n pre = some m → m ≠ b) (names : List Name) :
    resolve s' kids' n names = resolve s kids n names := by
  have hg := hp.grown hcur hb (tarChild_mem hcn).2 hchild
  have hsame (u : Nat) (hu : u ≠ b) (rest : List Name) : lookAt s' u rest = lookAt s u rest := by
    refine lookAt_congr hp.same ?_ ?_ rest
    · rw [hp.driver, Function.update_of_ne hu]
    · rw [hp.kind, Function.update_of_ne hu]
  rw [Vfs.resolve, Vfs.resolve]
  obtain ⟨rest, hold, hnew⟩ | ⟨-, heq⟩ := hg.descend hn names
  · rw [hold, hnew]
    have hlook : lookAt s cur (name :: rest) = ((archive s).walk cn rest).map .node := by
      rw [lookAt, if_pos hkind, hd, State.driverChild, hcn]
      rfl
    rw [hlook]
    have hdb : s'.driver b = .tarfs cn := by rw [hp.driver, Function.update_self]
    cases rest with
    | nil =>
      rw [lookAt, object, hdb]
      rfl
    | cons j rest =>
      rw [lookAt, hp.kind, Function.update_self, hdb, hp.same.driverChild, hp.same.archive,
        Named.walk_cons, archive_child]
      simp only [newInode_directory, State.driverChild]
      split
      · rfl
      · rfl
  · rw [heq]
    obtain ⟨pre, -, hwalk, -⟩ := Named.descend_spec (tree s kids) n names
    exact hsame _ (hmem pre _ hwalk) _

-- ---------------------------------------------------------------------------
-- The walk to a mount point
-- ---------------------------------------------------------------------------

/-- The root that is to be mounted: it has no children, and no inode was made for its
archive. -/
structure Waiting (s : State) (kids : Nat → List Nat) (r : Nat) : Prop where
  aside : Aside s kids r
  bare : s.child r = none
  clean : Clean s kids r
  driven : s.kind r &&& fsTypeMask = fsDirectory → s.driver r ≠ .none

theorem Waiting.pushed {r : Nat} (h : Waiting s kids r) (hr : Ready s kids)
    (hp : Pushed s s' kids kids' cur b cn) (hcur : Inside s kids cur) (hfree : ¬s.Alloc b)
    (hd : s.driver cur = .tarfs tn) (hcn : s.tarChild tn name = some cn)
    (hchild : (tree s kids).child cur name = none) : Waiting s' kids' r := by
  have hrb : r ≠ b := fun he => hfree (he ▸ h.aside.alloc)
  have hrc : r ≠ cur := hcur.ne_apart hr.shape h.aside.apart
  refine ⟨h.aside.pushed hr.shape hp (tarChild_mem hcn).1, ?_,
    h.clean.pushed hr.shape hr.placed hp (hcur.alloc hr.shape) (link_none hfree) hd hcn hchild hrb, ?_⟩
  · rw [hp.child, Function.update_of_ne hrc]
    exact h.bare
  · rw [hp.kind, hp.driver, Function.update_of_ne hrb, Function.update_of_ne hrb]
    exact h.driven

/-- What a walk from `u` to the mount point `t` leaves. -/
structure Walked (s s' : State) (kids kids' : Nat → List Nat) (u t : Nat) (names : List Name) : Prop where
  ready : Ready s' kids'
  vfsRoot : s'.vfsRoot = s.vfsRoot
  waiting : ∀ r, Waiting s kids r → Waiting s' kids' r
  inside : ∀ n, Inside s kids n → Inside s' kids' n
  path : (tree s' kids').walk u names = some t
  walk : ∀ n ks m, Inside s kids n → (tree s kids).walk n ks = some m → (tree s' kids').walk n ks = some m
  resolve : ∀ n, Inside s kids n → ∀ ks, resolve s' kids' n ks = resolve s kids n ks
  target : names = [] ∧ t = u ∧ s' = s ∧ kids' = kids ∨
    ∃ p, Inside s' kids' p ∧ s'.child p = some t ∧ t ∈ kids' p

theorem walk_ready {names : List Name} {u : Nat} (h : Ready s kids) (hu : Inside s kids u)
    (hstop : ∀ name rest, names = name :: rest → (tree s kids).child u name = none)
    (hplain : Plain names) :
    (lookAt s u names = none → ∃ s', walkTokens true s u names = .ok (none, s')) ∧
      (lookAt s u names ≠ none → ∃ t s' kids', walkTokens true s u names = .ok (some t, s') ∧
        Walked s s' kids kids' u t names) := by
  induction names generalizing s kids u with
  | nil =>
    exact ⟨fun hl => (nomatch hl), fun _ => ⟨u, s, kids, rfl, h, rfl, fun _ hr => hr, fun _ hn => hn, rfl,
      fun _ _ _ _ hw => hw, fun _ _ _ => rfl, Or.inl ⟨rfl, rfl, rfl, rfl⟩⟩⟩
  | cons name names ih =>
    have hs := h.shape
    have hua := hu.alloc hs
    have hup := hu.parent hs
    obtain ⟨hdot, hdotdot, hrest⟩ := hplain.head
    have hchild := hstop name names rfl
    have hnone (hn : vfsFinddir s u name = .ok (none, s)) :
        ∃ s', walkTokens true s u (name :: names) = .ok (none, s') := by
      refine ⟨s, ?_⟩
      simp only [walkTokens, hn, vfsFree_inside hua hup, Bind.bind, Except.bind]
      rfl
    by_cases hdir : s.kind u &&& fsTypeMask = fsDirectory
    · have hfind := vfsFinddir_driver hs hua hup hdir hdot hdotdot hchild
      have hlook : lookAt s u (name :: names) =
          ((s.driverChild (s.driver u) name).bind fun cn => (archive s).walk cn names).map .node := by
        rw [lookAt, if_pos hdir]
      cases hd : s.driver u with
      | none => exact absurd hd (h.driven u hu hdir)
      | device =>
        rw [hd] at hfind hlook
        exact ⟨fun _ => hnone hfind, fun hl => absurd hlook hl⟩
      | tarfs k =>
        rw [hd] at hfind hlook
        cases hcn : s.tarChild k name with
        | none =>
          have hfind' : driverFinddir s (.tarfs k) name = .ok (none, s) := by
            simp only [driverFinddir, tarFinddir_child hdot hdotdot, hcn]
          have hlook' : lookAt s u (name :: names) = none := by
            rw [hlook, State.driverChild, hcn]
            rfl
          exact ⟨fun _ => hnone (hfind.trans hfind'), fun hl => absurd hlook' hl⟩
        | some cn =>
          obtain ⟨b, s₂, kids₂, hp, hstep⟩ := walk_push hs h.placed hu hdir hdot hdotdot hchild hd hcn
          have hfree : ¬s.Alloc b := by
            obtain hbuf | ⟨-, hfree⟩ := hp.cached
            · rw [h.clean u hu hdir name cn hchild (by rw [hd]; exact hcn) [] cn rfl] at hbuf
              cases hbuf
            · exact hfree
          have hb : s.child b = none := link_none hfree
          have h₂ := h.pushed hp hu hdir hd hcn hchild hdot hdotdot
          have hg := hp.grown hua hb (tarChild_mem hcn).2 hchild
          have hin : ∀ n, Inside s kids n → Inside s₂ kids₂ n := fun n hn => by
            refine hn.mono hs hp.vfsRoot fun m hm => ?_
            by_cases hmc : m = u
            · rw [hmc, hp.kidsCur]
              exact List.subset_cons_self _ _
            · rw [hp.kidsOther m hm hmc]
              exact List.Subset.refl _
          have hub : Inside s₂ kids₂ b := (hin u hu).kid (by rw [hp.kidsCur]; exact List.mem_cons_self)
          have hne : ∀ n, Inside s kids n → n ≠ b := fun n hn he => hfree (he ▸ hn.alloc hs)
          have hres : ∀ n, Inside s kids n → ∀ ks, Vfs.resolve s₂ kids₂ n ks = Vfs.resolve s kids n ks :=
            fun n hn ks => hp.resolve hua hb hdir hd hcn hchild (hne n hn)
              (fun pre m hw => hne m (hn.walk hw)) ks
          have hleaf : ∀ j, (tree s₂ kids₂).child b j = none := fun j => by
            rw [Named.Tree.child, hg.empty, List.find?_nil]
          have hlookb : lookAt s₂ b names = lookAt s u (name :: names) := by
            have h₁ := hres u hu (name :: names)
            have hdesc : (tree s₂ kids₂).descend b names = (b, names) := by
              cases names with
              | nil => rfl
              | cons j names => rw [Named.Tree.descend, hleaf]
            simp only [Vfs.resolve, Named.Tree.descend, hg.child_new, hchild, hdesc] at h₁
            exact h₁
          obtain ⟨ih₁, ih₂⟩ := ih h₂ hub (fun j rest _ => hleaf j) hrest
          rw [hstep, ← hlookb]
          refine ⟨ih₁, fun hl => ?_⟩
          obtain ⟨t, s', kids', hwalk, hw⟩ := ih₂ hl
          refine ⟨t, s', kids', hwalk, hw.ready, hw.vfsRoot.trans hp.vfsRoot,
            fun r hr => hw.waiting r (hr.pushed h hp hu hfree hd hcn hchild),
            fun n hn => hw.inside n (hin n hn), ?_, fun n ks m hn hwk =>
              hw.walk n ks m (hin n hn) (hg.walk (hne n hn) hwk),
            fun n hn ks => (hw.resolve n (hin n hn) ks).trans (hres n hn ks), Or.inr ?_⟩
          · have hone : (tree s' kids').walk u [name] = some b := by
              refine hw.walk u [name] b (hin u hu) ?_
              rw [Named.walk_cons, hg.child_new]
              rfl
            have happ : (tree s' kids').walk u ([name] ++ names) =
                ((tree s' kids').walk u [name]).bind fun c => (tree s' kids').walk c names :=
              Named.walk_append
            rw [hone] at happ
            exact happ.trans hw.path
          · obtain ⟨-, rfl, rfl, rfl⟩ | hp' := hw.target
            · refine ⟨u, hin u hu, ?_, by rw [hp.kidsCur]; exact List.mem_cons_self⟩
              rw [hp.child, Function.update_self]
            · exact hp'
    · have hlook : lookAt s u (name :: names) = none := by rw [lookAt, if_neg hdir]
      exact ⟨fun _ => hnone (vfsFinddir_file hua hdir name), fun hl => absurd hlook hl⟩

end

-- ---------------------------------------------------------------------------
-- The mount point is replaced
-- ---------------------------------------------------------------------------

theorem mount_kind (k : Nat) : (k ||| fsMount) &&& fsTypeMask = k &&& fsTypeMask := by
  have h : fsMount &&& fsTypeMask = 0 := by decide
  rw [Nat.and_or_distrib_right, h, Nat.or_zero]

section
variable {t r p : Nat}

/-- `r` was put in the place of `t`, which was freed if nobody used it. -/
structure Replaced (s s' : State) (t r p : Nat) : Prop where
  freed : Freed (swapped s t r p) s' t
  alloc : s.Alloc r
  ne : r ≠ t

theorem Replaced.same (h : Replaced s s' t r p) : SameTar s s' :=
  (sameTar_of_eq swapped_tar).trans h.freed.same

theorem Replaced.alloc_iff (h : Replaced s s' t r p) {n : Nat} (hn : n ≠ t) : s'.Alloc n ↔ s.Alloc n := by
  rw [State.Alloc, h.freed.others n hn]
  exact swapped_alloc

theorem Replaced.link (h : Replaced s s' t r p) {n : Nat} (hn : n ≠ t) (g : Inode → Option Nat) :
    s'.link g n = (swapped s t r p).link g n := by
  rw [State.link, h.freed.others n hn, State.link]

theorem Replaced.child (h : Replaced s s' t r p) {n : Nat} (hn : n ≠ t) :
    s'.child n = (swapped s t r p).child n := h.link hn _

theorem Replaced.older (h : Replaced s s' t r p) {n : Nat} (hn : n ≠ t) :
    s'.older n = (swapped s t r p).older n := h.link hn _

theorem Replaced.younger (h : Replaced s s' t r p) {n : Nat} (hn : n ≠ t) :
    s'.younger n = (swapped s t r p).younger n := h.link hn _

theorem Replaced.driver (h : Replaced s s' t r p) {n : Nat} (hn : n ≠ t) : s'.driver n = s.driver n := by
  have hd : (swapped s t r p).driver n = s.driver n := congrFun swapped_driver n
  rw [← hd, State.driver, h.freed.others n hn, State.driver]

theorem Replaced.kind (h : Replaced s s' t r p) {n : Nat} (hn : n ≠ t) :
    s'.kind n &&& fsTypeMask = s.kind n &&& fsTypeMask := by
  have hk : s'.kind n = (swapped s t r p).kind n := by
    rw [State.kind, h.freed.others n hn, State.kind]
  rw [hk]
  by_cases hr : n = r
  · subst hr
    rw [swapped_kind_self h.alloc, mount_kind]
  · rw [swapped_kind hr]

theorem Replaced.name (h : Replaced s s' t r p) {n : Nat} (hn : n ≠ t) (hr : n ≠ r) : s'.name n = s.name n := by
  have hname : (swapped s t r p).name n = s.name n := swapped_name hr
  rw [← hname, State.name, h.freed.others n hn, State.name]

theorem Replaced.name_self (h : Replaced s s' t r p) : s'.name r = s.name t := by
  have hname : (swapped s t r p).name r = s.name t := swapped_name_self h.alloc
  rw [← hname, State.name, h.freed.others r h.ne, State.name]

theorem Replaced.buffer (h : Replaced s s' t r p) {m : Nat} (hm : (s.tar m).buffer = none) :
    (s'.tar m).buffer = none := by
  cases hb : (s'.tar m).buffer with
  | none => rfl
  | some b =>
    have hb' := ((h.freed.buffer m b).mp hb).1
    rw [swapped_tar, hm] at hb'
    cases hb'

theorem Replaced.lookAt (h : Replaced s s' t r p) {u : Nat} (hu : u ≠ t) (names : List Name) :
    lookAt s' u names = lookAt s u names :=
  lookAt_congr h.same (h.driver hu) (h.kind hu) names

theorem Replaced.clean (h : Replaced s s' t r p) {n : Nat} (hn : n ≠ t) (hc : Clean s kids n)
    (hchild : ∀ j, (tree s' kids').child n j = none → (tree s kids).child n j = none) :
    Clean s' kids' n := by
  intro hdir j cn hnone hcn names m hw
  rw [h.kind hn] at hdir
  rw [h.driver hn, h.same.driverChild] at hcn
  rw [h.same.archive] at hw
  exact h.buffer (hc hdir j cn (hchild j hnone) hcn names m hw)

theorem Waiting.empty (h : Waiting s kids r) (hs : Shape s kids) : kids r = [] := by
  have hchain := hs.chain r h.aside.alloc
  rw [h.bare] at hchain
  exact hchain.eq_nil

theorem Waiting.leaf (h : Waiting s kids r) (hs : Shape s kids) (j : Name) : (tree s kids).child r j = none := by
  rw [tree_child h.aside.alloc, h.empty hs]
  rfl

theorem Ready.replaceChild (h : Ready s kids) (hp : Inside s kids p) (hc : s.child p = some t)
    (htp : t ∈ kids p) (hr : Waiting s kids r) :
    ∃ s' kids', replaceNode s t r = .ok s' ∧ Ready s' kids' ∧ Replaced s s' t r p ∧
      s'.vfsRoot = s.vfsRoot ∧ Named.Swapped (tree s kids) (tree s' kids') t r := by
  have hs := h.shape
  have hpa := hp.alloc hs
  have hra := hr.aside.alloc
  obtain ⟨hta, hparent⟩ := hs.kid p hpa t htp
  have hrt : r ≠ t := fun he => hr.aside.apart.2 p hpa (he ▸ htp)
  have hrp : r ≠ p := hp.ne_apart hs hr.aside.apart
  have hroot : t ≠ s.vfsRoot := fun he => hs.rootless p hpa (he ▸ htp)
  have hchain := hs.chain p hpa
  obtain ⟨rest, hkids⟩ : ∃ rest, kids p = t :: rest := by
    cases hk : kids p with
    | nil =>
      rw [hk] at htp
      cases htp
    | cons x rest =>
      rw [hk, hc] at hchain
      rw [Option.some.inj hchain.1]
      exact ⟨rest, rfl⟩
  have hnodup := hchain.nodup
  rw [hkids] at hchain hnodup
  have htrest : t ∉ rest := (List.nodup_cons.mp hnodup).1
  have holder : ∀ o, s.older t = some o → o ∈ rest := by
    intro o ho
    have hrest := hchain.2
    rw [ho] at hrest
    cases rest with
    | nil => cases hrest
    | cons x rest =>
      rw [Option.some.inj hrest.1]
      exact List.mem_cons_self
  have hmem : ∀ o ∈ rest, o ∈ kids p := fun o ho => hkids ▸ List.mem_cons_of_mem _ ho
  have hone : ∀ n, s.Alloc n → n ≠ p → ∀ x ∈ kids p, x ∉ kids n := by
    intro n hn hnp x hx hxn
    exact hnp (Option.some.inj ((hs.kid n hn x hxn).2.symm.trans (hs.kid p hpa x hx).2))
  obtain ⟨hs₁, hapart⟩ := hs.swapped hta hra hpa hkids hrt hr.aside.apart
  have hp₁ : Placed (swapped s t r p) (Function.update kids p (r :: rest)) := by
    refine h.placed.swapped hr.aside.top fun n c hn hcn => ?_
    by_cases hnp : n = p
    · subst hnp
      rw [Function.update_self, List.mem_cons] at hcn
      exact hcn.imp_right (hmem c)
    · rw [Function.update_of_ne hnp] at hcn
      exact Or.inr hcn
  obtain ⟨s', hrep, hf⟩ := replaceNode_freed hta hra hpa hrt hparent (h.head p t hp hc)
    (fun o ho => ⟨(hs.kid p hpa o (hmem o (holder o ho))).1, fun he => htrest (he ▸ holder o ho)⟩) hs₁
  have hrepl : Replaced s s' t r p := ⟨hf, hra, hrt⟩
  have hroot' : s'.vfsRoot = s.vfsRoot := by
    rw [hf.vfsRoot, swapped_vfsRoot, if_neg hroot]
  have hswap : Named.Swapped (tree s kids) (tree s' (Function.update kids p (r :: rest))) t r := by
    refine ⟨fun n hnt hnr j => ?_, fun j => ?_, fun n hmem => hr.aside.apart.2 n (tree_mem hmem).1 (tree_mem hmem).2⟩
    · by_cases hna : s.Alloc n
      · have hna' := (hrepl.alloc_iff hnt).mpr hna
        rw [tree_child hna, tree_child hna']
        have hfind (l : List Nat) (hl : t ∉ l) (hl' : r ∉ l) : (l.find? fun c => s'.name c = j) =
            l.find? fun c => s.name c = j := by
          refine List.find?_congr fun c hcl => ?_
          have hname := hrepl.name (ne_of_mem_of_not_mem hcl hl) (ne_of_mem_of_not_mem hcl hl')
          exact decide_eq_decide.mpr (Iff.of_eq (congrArg (· = j) hname))
        by_cases hnp : n = p
        · subst hnp
          rw [Function.update_self, hkids, List.find?_cons, List.find?_cons, hrepl.name_self]
          by_cases hj : s.name t = j
          · simp only [hj, decide_true]
            exact ⟨fun _ => trivial, fun hne => absurd rfl hne⟩
          · have hrest := hfind rest htrest fun hm => hr.aside.apart.2 n hna (hmem r hm)
            simp only [hj, decide_false, hrest]
            refine ⟨fun he => ?_, fun _ => trivial⟩
            exact absurd (List.mem_of_find?_eq_some he) htrest
        · have htn := hone n hna hnp t htp
          rw [Function.update_of_ne hnp, hfind _ htn (hr.aside.apart.2 n hna)]
          refine ⟨fun he => ?_, fun _ => rfl⟩
          exact absurd (List.mem_of_find?_eq_some he) htn
      · have hold : (tree s kids).child n j = none := by
          rw [Named.Tree.child, show (tree s kids).children n = [] from if_neg hna]
          rfl
        have hnew : (tree s' (Function.update kids p (r :: rest))).child n j = none := by
          rw [Named.Tree.child, show (tree s' (Function.update kids p (r :: rest))).children n = [] from
            if_neg fun ha => hna ((hrepl.alloc_iff hnt).mp ha)]
          rfl
        rw [hold, hnew]
        exact ⟨fun he => (by cases he), fun _ => rfl⟩
    · have hra' := (hrepl.alloc_iff hrt).mpr hra
      rw [tree_child hra', Function.update_of_ne hrp, hr.empty hs]
      rfl
  have hinside : ∀ n, Inside s' (Function.update kids p (r :: rest)) n →
      n = r ∨ n ≠ t ∧ n ≠ r ∧ Inside s kids n := by
    intro n hn
    induction hn with
    | root =>
      rw [hroot']
      exact Or.inr ⟨hroot.symm, hr.aside.apart.1.symm, .root⟩
    | @kid n c _ hcn ih =>
      obtain rfl | ⟨hnt, hnr, hn⟩ := ih
      · rw [Function.update_of_ne hrp, hr.empty hs] at hcn
        cases hcn
      · by_cases hnp : n = p
        · subst hnp
          rw [Function.update_self, List.mem_cons] at hcn
          refine hcn.imp_right fun hcr => ⟨ne_of_mem_of_not_mem hcr htrest, ?_, hn.kid (hmem c hcr)⟩
          exact ne_of_mem_of_not_mem (hmem c hcr) (hr.aside.apart.2 n hpa)
        · have hna := hn.alloc hs
          rw [Function.update_of_ne hnp] at hcn
          exact Or.inr ⟨ne_of_mem_of_not_mem hcn (hone n hna hnp t htp),
            ne_of_mem_of_not_mem hcn (hr.aside.apart.2 n hna), hn.kid hcn⟩
  refine ⟨s', _, hrep, ⟨hs₁.freed hf hapart, hp₁.freed hf, fun n hn => ?_, fun n c hn hcn => ?_,
    fun n hn hdir => ?_, ?_, fun n hn hne => ?_, fun n c hn hcn => ?_, fun k c hck => ?_⟩, hrepl, hroot',
    hswap⟩
  · obtain rfl | ⟨hnt, hnr, hn⟩ := hinside n hn
    · exact hrepl.clean hrt hr.clean fun j _ => hr.leaf hs j
    · refine hrepl.clean hnt (h.clean n hn) fun j hnone => ?_
      obtain ⟨h₁, h₂⟩ := hswap.child n hnt hnr j
      by_cases hj : (tree s kids).child n j = some t
      · rw [h₁ hj] at hnone
        cases hnone
      · rw [← h₂ hj]
        exact hnone
  · obtain rfl | ⟨hnt, hnr, hn⟩ := hinside n hn
    · rw [hrepl.child hrt, swapped_child hpa, if_pos hc, Function.update_of_ne hrp, hr.bare] at hcn
      cases hcn
    · rw [hrepl.child hnt, swapped_child hpa, if_pos hc] at hcn
      by_cases hnp : n = p
      · subst hnp
        rw [Function.update_self] at hcn
        obtain rfl := Option.some.inj hcn
        rw [hrepl.younger hrt]
        exact swapped_younger_self hra
      · rw [Function.update_of_ne hnp] at hcn
        have hna := hn.alloc hs
        have hcn' : c ∈ kids n := by
          have hchain' := hs.chain n hna
          rw [hcn] at hchain'
          cases hk : kids n with
          | nil =>
            rw [hk] at hchain'
            cases hchain'
          | cons x l =>
            rw [hk] at hchain'
            rw [Option.some.inj hchain'.1]
            exact List.mem_cons_self
        rw [hrepl.younger (ne_of_mem_of_not_mem hcn' (hone n hna hnp t htp))]
        refine (swapped_younger (ne_of_mem_of_not_mem hcn' (hr.aside.apart.2 n hna)) fun ho => ?_).trans
          (h.head n c hn hcn)
        exact hone n hna hnp c (hmem c (holder c ho)) hcn'
  · obtain rfl | ⟨hnt, -, hn⟩ := hinside n hn
    · rw [hrepl.kind hrt] at hdir
      rw [hrepl.driver hrt]
      exact hr.driven hdir
    · rw [hrepl.kind hnt] at hdir
      rw [hrepl.driver hnt]
      exact h.driven n hn hdir
  · have hrr : s.vfsRoot ≠ r := hr.aside.apart.1.symm
    rw [hroot', hrepl.older hroot.symm, hrepl.younger hroot.symm]
    refine ⟨?_, (swapped_younger hrr fun ho => ?_).trans h.alone.2⟩
    · rw [swapped_older hra, Function.update_of_ne hrr]
      exact h.alone.1
    · exact hs.rootless p hpa (hmem _ (holder _ ho))
  · obtain rfl | ⟨hnt, -, hn⟩ := hinside n hn
    · rw [Function.update_of_ne hrp] at hne
      exact absurd (hr.empty hs) hne
    · rw [hrepl.kind hnt]
      by_cases hnp : n = p
      · subst hnp
        exact h.stem n hp (List.ne_nil_of_mem htp)
      · rw [Function.update_of_ne hnp] at hne
        exact h.stem n hn hne
  · obtain rfl | ⟨-, -, hn⟩ := hinside n hn
    · rw [Function.update_of_ne hrp, hr.empty hs] at hcn
      cases hcn
    · by_cases hcr : c = r
      · subst hcr
        rw [hrepl.name_self]
        exact h.titled p t hp htp
      · have hold : c ∈ kids n ∧ c ≠ t := by
          by_cases hnp : n = p
          · subst hnp
            rw [Function.update_self, List.mem_cons] at hcn
            have hcrest := hcn.resolve_left hcr
            exact ⟨hmem c hcrest, ne_of_mem_of_not_mem hcrest htrest⟩
          · rw [Function.update_of_ne hnp] at hcn
            exact ⟨hcn, ne_of_mem_of_not_mem hcn (hone n (hn.alloc hs) hnp t htp)⟩
        rw [hrepl.name hold.2 hcr]
        exact h.titled n c hn hold.1
  · rw [hrepl.same.children] at hck
    rw [hrepl.same.name]
    exact h.named k c hck

theorem Ready.replaceRoot (h : Ready s kids) (hparent : s.parent s.vfsRoot = some p) (hpa : s.Alloc p)
    (hr : Waiting s kids r) :
    ∃ s', replaceNode s s.vfsRoot r = .ok s' ∧ Ready s' kids ∧ Replaced s s' s.vfsRoot r p ∧
      s'.vfsRoot = r ∧ ∀ j, (tree s' kids).child r j = none := by
  have hs := h.shape
  have hra := hr.aside.alloc
  have hrt : r ≠ s.vfsRoot := hr.aside.apart.1
  obtain ⟨hs₁, hapart⟩ := hs.swappedRoot hra hpa hrt hr.aside.apart
  have hp₁ : Placed (swapped s s.vfsRoot r p) kids :=
    h.placed.swapped hr.aside.top fun _ _ _ hc => Or.inr hc
  obtain ⟨s', hrep, hf⟩ := replaceNode_freed hs.root hra hpa hrt hparent h.alone.2
    (fun o ho => by rw [h.alone.1] at ho; cases ho) hs₁
  have hrepl : Replaced s s' s.vfsRoot r p := ⟨hf, hra, hrt⟩
  have hroot' : s'.vfsRoot = r := by
    rw [hf.vfsRoot, swapped_vfsRoot, if_pos rfl]
  have hkids := hr.empty hs
  have hra' := (hrepl.alloc_iff hrt).mpr hra
  have hleaf (j : Name) : (tree s' kids).child r j = none := by
    rw [tree_child hra', hkids]
    rfl
  have hinside : ∀ n, Inside s' kids n → n = r := by
    intro n hn
    induction hn with
    | root => exact hroot'
    | @kid n c _ hcn ih =>
      rw [ih, hkids] at hcn
      cases hcn
  have hs' := hs₁.freed hf hapart
  refine ⟨s', hrep, ⟨hs', hp₁.freed hf, fun n hn => ?_, fun n c hn hcn => ?_,
    fun n hn hdir => ?_, ?_, fun n hn hne => ?_, fun n c hn hcn => ?_, fun k c hck => ?_⟩, hrepl, hroot',
    hleaf⟩
  · obtain rfl := hinside n hn
    exact hrepl.clean hrt hr.clean fun j _ => hr.leaf hs j
  · obtain rfl := hinside n hn
    have hchain := hs'.chain n hra'
    rw [hcn, hkids] at hchain
    cases hchain
  · obtain rfl := hinside n hn
    rw [hrepl.kind hrt] at hdir
    rw [hrepl.driver hrt]
    exact hr.driven hdir
  · rw [hroot', hrepl.older hrt, hrepl.younger hrt]
    refine ⟨?_, swapped_younger_self hra⟩
    rw [swapped_older hra, Function.update_self]
    exact h.alone.1
  · rw [hinside n hn] at hne
    exact absurd hkids hne
  · rw [hinside n hn, hkids] at hcn
    cases hcn
  · rw [hrepl.same.children] at hck
    rw [hrepl.same.name]
    exact h.named k c hck

end

end Os5.Vfs
