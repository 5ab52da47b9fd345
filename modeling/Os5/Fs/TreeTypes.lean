import Os5.Fs.Tarfs

/-!
# Directories of a tar tree

A node keeps the header that first mentions it, and its inode takes the type of that header.
Whether a node with children is a directory depends on the order of all the headers whose
names pass through it.
-/

namespace Os5.Tarfs

def nodeTokens (path : Name) : List Name :=
  match strchr path with
  | some p => tokens p
  | none => []

def components (mem : Memory) (tar : Nat) : List Name := nodeTokens (cString mem tar)

def headersFrom (mem : Memory) : Nat → Nat → Option (List Nat)
  | 0, _ => none
  | fuel + 1, tar =>
    if mem tar = 0 then some []
    else do
      let size ← tarSize mem tar
      let rest ← headersFrom mem fuel (nextHeader tar size)
      return tar :: rest

/-- The first of the headers whose components begin with `ks`. -/
def firstMention (mem : Memory) (hs : List Nat) (ks : List Name) : Option Nat :=
  hs.find? fun tar => decide (ks <+: components mem tar)

/-- What is above a component of a header is first mentioned by a directory. -/
def DirectoriesFirst (mem : Memory) (hs : List Nat) : Prop :=
  ∀ tar ∈ hs, ∀ ks, ks ≠ [] → ks <+: components mem tar → ks ≠ components mem tar →
    ∀ first ∈ firstMention mem hs ks, mem (first + typeField) = tarTypeDir

instance (mem : Memory) (hs : List Nat) : Decidable (DirectoriesFirst mem hs) :=
  decidable_of_iff (∀ tar ∈ hs, ∀ ks ∈ (components mem tar).inits, ks ≠ [] → ks ≠ components mem tar →
      ∀ first ∈ firstMention mem hs ks, mem (first + typeField) = tarTypeDir) <| by
    simp only [List.mem_inits]
    exact ⟨fun h tar htar ks hne hpre => h tar htar ks hpre hne,
      fun h tar htar ks hpre hne => h tar htar ks hne hpre⟩

/-- No component is taken for a special case by `tar_finddir`. -/
def PlainNames (mem : Memory) (hs : List Nat) : Prop :=
  ∀ tar ∈ hs, dot ∉ components mem tar ∧ dotdot ∉ components mem tar

instance (mem : Memory) (hs : List Nat) : Decidable (PlainNames mem hs) := by
  unfold PlainNames
  infer_instance

def flushTar (t : TarTree) (n : Nat) : TarTree :=
  let item := (t.node n).item
  let users := item.users - 1
  t.setItem n { item with users := users, buffer := if users = 0 then none else item.buffer }

/-- Inodes are asked for and given back; `held` counts those of each node in hand. -/
inductive Used (mem : Memory) (t : TarTree) : TarTree → (Nat → Nat) → Prop
  | start : Used mem t t fun _ => 0
  | get {t' held} (n : Nat) : Used mem t t' held →
      Used mem t (tarGetInode mem t' n).2 (Function.update held n (held n + 1))
  | flush {t' held} (n : Nat) : Used mem t t' held → 0 < held n →
      Used mem t (flushTar t' n) (Function.update held n (held n - 1))

/-- `vfs_finddir`, without the mount tree. -/
def vfsFinddir (mem : Memory) (t : TarTree) (dir : Vnode) (name : Name) :
    Option (Option Vnode × TarTree) :=
  if dir.type ≠ .directory then some (none, t) else tarFinddir mem t dir name

def descend (mem : Memory) : TarTree → Vnode → List Name → Option (Option Vnode × TarTree)
  | t, dir, [] => some (some dir, t)
  | t, dir, k :: ks => do
    let (found, t) ← vfsFinddir mem t dir k
    match found with
    | some v => descend mem t v ks
    | none => some (none, t)

def StemsOpen (mem : Memory) (t : TarTree) : Prop :=
  ∀ t' held, Used mem t t' held → ∀ n < t.count, (t.node n).children ≠ [] →
    (tarGetInode mem t' n).1.type = .directory

def Descends (mem : Memory) (t : TarTree) (hs : List Nat) : Prop :=
  ∀ t' held, Used mem t t' held → ∀ tar ∈ hs, ∃ v t'',
    descend mem t' rootNode (components mem tar) = some (some v, t'') ∧
      t.view.walk 0 (components mem tar) = some v.data

variable {mem : Memory} {a tar : Nat} {t t' : TarTree} {hs : List Nat} {ks : List Name}

theorem tartreeAddNode_tokens (t : TarTree) (tar : Nat) (path : Name) :
    tartreeAddNode t tar path = addTokens tar t 0 (nodeTokens path) := by
  rw [tartreeAddNode, nodeTokens]
  cases strchr path <;> rfl

-- ---------------------------------------------------------------------------
-- Headers of the nodes
-- ---------------------------------------------------------------------------

def Reached (t : TarTree) : Prop := ∀ n < t.count, ∃ ks, t.view.walk 0 ks = some n

theorem addTokens_nodup {ps : List Name} {node : Nat} (h : t.Sound) (hnode : node < t.count)
    (hnodup : ∀ n, (t.node n).children.Nodup) (n : Nat) :
    ((addTokens tar t node ps).node n).children.Nodup := by
  induction ps generalizing t node with
  | nil => exact hnodup n
  | cons p ps ih =>
    rw [addTokens]
    cases hc : t.view.child node p with
    | some tn => exact ih h (h.child node tn (Named.child_mem hc).1).1 hnodup
    | none =>
      refine ih (makeChild_sound h hnode) (Nat.lt_succ_self _) fun m => ?_
      by_cases hm : m = node
      · subst hm
        rw [makeChild_last hnode, ← List.concat_eq_append]
        exact List.Nodup.concat (fun hmem => lt_irrefl _ (h.child m _ hmem).1) (hnodup m)
      · by_cases hnew : m = t.count
        · subst hnew
          rw [makeChild_new]
          exact List.nodup_nil
        · rw [show (t.makeChild node p tar).node m = t.node m from (if_neg hnew).trans (if_neg hm)]
          exact hnodup m

theorem addTokens_new {ps : List Name} (h : t.Sound) (hreached : Reached t) {node : Nat}
    {pre : List Name} (hpre : t.view.walk 0 pre = some node) :
    Reached (addTokens tar t node ps) ∧ ∀ n, t.count ≤ n → n < (addTokens tar t node ps).count →
      ((addTokens tar t node ps).node n).item.tar = tar := by
  induction ps generalizing t node pre with
  | nil => exact ⟨hreached, fun n hle hlt => absurd hlt (not_lt.mpr hle)⟩
  | cons p ps ih =>
    have hnode : node < t.count := h.walk_lt h.root.1 hpre
    rw [addTokens]
    cases hc : t.view.child node p with
    | some tn =>
      have hpre' : t.view.walk 0 (pre ++ [p]) = some tn := by
        rw [Named.walk_append, hpre, Option.bind_some, Named.walk_cons, hc]
        rfl
      exact ih h hreached hpre'
    | none =>
      have hg := makeChild_grown (a := tar) h hnode hc
      have hs := makeChild_sound (k := p) (a := tar) h hnode
      have hpre' : (t.makeChild node p tar).view.walk 0 (pre ++ [p]) = some t.count := by
        rw [Named.walk_append, hg.walk h.root.1.ne hpre, Option.bind_some, Named.walk_cons,
          hg.child_new]
        rfl
      have hall : Reached (t.makeChild node p tar) := by
        intro n hn
        obtain hold | rfl := Nat.lt_succ_iff_lt_or_eq.mp hn
        · obtain ⟨ks, hks⟩ := hreached n hold
          exact ⟨ks, hg.walk h.root.1.ne hks⟩
        · exact ⟨_, hpre'⟩
      obtain ⟨hreached', hnew⟩ := ih hs hall hpre'
      refine ⟨hreached', fun n hle hlt => ?_⟩
      obtain rfl | hgt := Nat.eq_or_lt_of_le hle
      · have hext : Extended (t.makeChild node p tar) (addTokens tar (t.makeChild node p tar) t.count ps)
            tar t.count (pre ++ [p]) ps := addTokens_extended hs hpre'
        show ((addTokens tar (t.makeChild node p tar) t.count ps).node t.count).item.tar = tar
        rw [hext.item _ (Nat.lt_succ_self _), makeChild_new]
      · exact hnew n hgt hlt

/-- The tree of the headers `hs`: what each node was made for. -/
structure Mentioned (mem : Memory) (t : TarTree) (hs : List Nat) : Prop where
  sound : t.Sound
  reached : Reached t
  nodup : ∀ n, (t.node n).children.Nodup
  root : (t.node 0).item.buffer = some rootNode ∧ (t.node 0).item.users = 1
  fresh : ∀ n, n ≠ 0 → (t.node n).item.buffer = none
  present : ∀ tar ∈ hs, ∃ m, t.view.walk 0 (components mem tar) = some m
  header : ∀ ks m, ks ≠ [] → t.view.walk 0 ks = some m →
    firstMention mem hs ks = some (t.node m).item.tar

theorem firstMention_append (mem : Memory) (hs : List Nat) (tar : Nat) (ks : List Name) :
    firstMention mem (hs ++ [tar]) ks =
      (firstMention mem hs ks).or (if ks <+: components mem tar then some tar else none) := by
  rw [firstMention, firstMention, List.find?_append, List.find?_singleton]
  simp

theorem firstMention_spec {first : Nat} (h : firstMention mem hs ks = some first) :
    first ∈ hs ∧ ks <+: components mem first :=
  ⟨List.mem_of_find?_eq_some h, by simpa using List.find?_some h⟩

theorem Mentioned.walk {first : Nat} (h : Mentioned mem t hs)
    (hf : firstMention mem hs ks = some first) : ∃ m, t.view.walk 0 ks = some m := by
  obtain ⟨hmem, rest, hrest⟩ := firstMention_spec hf
  obtain ⟨m, hm⟩ := h.present first hmem
  rw [← hrest] at hm
  obtain ⟨c, hc, -⟩ := Named.walk_prefix hm
  exact ⟨c, hc⟩

theorem Mentioned.add (h : Mentioned mem t hs) (tar : Nat) :
    Mentioned mem (tartreeAddNode t tar (cString mem tar)) (hs ++ [tar]) := by
  have hext : Extended t (addTokens tar t 0 (components mem tar)) tar 0 [] (components mem tar) :=
    addTokens_extended h.sound rfl
  have hlive := h.sound.root.1
  obtain ⟨hreached, hnew⟩ :=
    @addTokens_new tar t (components mem tar) h.sound h.reached 0 [] Named.walk_nil
  rw [tartreeAddNode_tokens, ← components]
  refine ⟨hext.sound, hreached, addTokens_nodup h.sound hlive h.nodup, ?_, fun n hne => ?_,
    fun g hg => ?_, fun ks m hne hw => ?_⟩
  · rw [hext.item 0 hlive]
    exact h.root
  · obtain hnone | hsame := hext.buffer n
    · exact hnone
    · exact hsame.trans (h.fresh n hne)
  · rw [List.mem_append, List.mem_singleton] at hg
    obtain hg | rfl := hg
    · obtain ⟨m, hm⟩ := h.present g hg
      exact ⟨m, hext.walk 0 hlive _ m hm⟩
    · obtain ⟨m, hm, -⟩ := hext.reach
      exact ⟨m, hm⟩
  rw [firstMention_append]
  cases hold : t.view.walk 0 ks with
  | some k =>
    -- the node was there, and keeps its header
    obtain rfl := Option.some.inj (hw.symm.trans (hext.walk 0 hlive ks k hold))
    rw [h.header ks _ hne hold, hext.item _ (h.sound.walk_lt hlive hold)]
    rfl
  | none =>
    have hnone : firstMention mem hs ks = none := by
      cases hf : firstMention mem hs ks with
      | none => rfl
      | some first =>
        obtain ⟨m', hm'⟩ := h.walk hf
        rw [hold] at hm'
        cases hm'
    have hprefix : ks <+: components mem tar := by
      obtain hw' | hks := hext.new ks m hw
      · rw [hold] at hw'
        cases hw'
      · rwa [List.nil_append] at hks
    have hcount : t.count ≤ m := by
      by_contra hlt
      obtain ⟨ks', hks'⟩ := h.reached m (not_le.mp hlt)
      obtain rfl := hext.sound.inj hw (hext.walk 0 hlive _ _ hks')
      rw [hold] at hks'
      cases hks'
    rw [hnone, if_pos hprefix, Option.none_or, hnew m hcount (hext.sound.walk_lt hext.sound.root.1 hw)]

theorem rootTree_mentioned (name : Name) (tar : Nat) :
    Mentioned mem (rootTree name tar rootNode) [] where
  sound := (rootTree_built name tar).sound
  reached n hn := by
    obtain rfl : n = 0 := Nat.lt_one_iff.mp hn
    exact ⟨[], rfl⟩
  nodup n := by
    simp only [rootTree]
    split <;> exact List.nodup_nil
  root := ⟨rfl, rfl⟩
  fresh := (rootTree_built name tar).fresh
  present tar htar := nomatch htar
  header ks m hne hw := by
    cases ks with
    | nil => exact absurd rfl hne
    | cons k ks =>
      rw [Named.walk_cons] at hw
      cases hw

theorem buildLoop_mentioned {fuel : Nat} {seen : List Nat} (h : Mentioned mem t seen)
    (hrun : buildLoop mem fuel t a seen = some (t', hs)) :
    Mentioned mem t' hs ∧ ∃ new, headersFrom mem fuel a = some new ∧ hs = seen ++ new := by
  induction fuel generalizing t a seen with
  | zero => cases hrun
  | succ fuel ih =>
    rw [buildLoop] at hrun
    rw [headersFrom]
    split at hrun
    · next hzero =>
      cases hrun
      exact ⟨h, [], if_pos hzero, (List.append_nil _).symm⟩
    · next hzero =>
      obtain ⟨size, hsize, hrest⟩ := Option.bind_eq_some_iff.mp hrun
      obtain ⟨hm, new, hnew, rfl⟩ := ih (h.add a) hrest
      refine ⟨hm, a :: new, ?_, List.append_assoc _ _ _⟩
      rw [if_neg hzero, hsize]
      simp [hnew]

theorem tarfsInit_mentioned {fuel : Nat} (h : tarfsInit mem a fuel = some (t, hs)) :
    Mentioned mem t hs ∧ headersFrom mem fuel a = some hs := by
  rw [tarfsInit, buildTarTree] at h
  obtain ⟨name, -, hrun⟩ := Option.bind_eq_some_iff.mp h
  obtain ⟨hm, new, hnew, hseen⟩ := buildLoop_mentioned (rootTree_mentioned name a) hrun
  rw [List.nil_append] at hseen
  exact ⟨hm, hseen ▸ hnew⟩

-- ---------------------------------------------------------------------------
-- Inodes in use
-- ---------------------------------------------------------------------------

theorem Mentioned.cached (h : Mentioned mem t hs) : Cached mem t := cached_of_fresh h.root.1 h.fresh

theorem setItem_item (t : TarTree) (n k : Nat) (item : Item) :
    ((t.setItem n item).node k).item = if k = n then item else (t.node k).item := by
  simp only [TarTree.setItem, Function.update_apply]
  split <;> rfl

theorem tarGetInode_users (h : Cached mem t) (n : Nat) : ((tarGetInode mem t n).2.node 0).item.users =
    (t.node 0).item.users + if n = 0 then 1 else 0 := by
  rw [tarGetInode]
  cases hb : (t.node n).item.buffer with
  | some v =>
    rw [setItem_item]
    by_cases hn : n = 0
    · rw [if_pos hn.symm, if_pos hn, hn]
    · rw [if_neg (Ne.symm hn), if_neg hn, Nat.add_zero]
  | none =>
    have hn : n ≠ 0 := by
      rintro rfl
      rw [h.1] at hb
      cases hb
    rw [setItem_item, if_neg hn.symm, if_neg hn, Nat.add_zero]

theorem flushTar_spec (h : Cached mem t) {n : Nat} (hn : n = 0 → 1 < (t.node 0).item.users) :
    Same t (flushTar t n) ∧ Cached mem (flushTar t n) := by
  have hs : Same t (flushTar t n) := setItem_same rfl rfl
  refine ⟨hs, ?_, fun k v hv => ?_⟩
  · rw [flushTar, setItem_item]
    split
    · next h0 =>
      subst h0
      have husers := hn rfl
      rw [if_neg (by omega)]
      exact h.1
    · exact h.1
  · rw [hs.inodeOf]
    rw [flushTar, setItem_item] at hv
    split at hv
    · next hk =>
      subst hk
      split at hv
      · cases hv
      · exact h.2 k v hv
    · exact h.2 k v hv

/-- One use of the root's inode is never given back. -/
theorem Used.kept {held : Nat → Nat} (h : Used mem t t' held) (hc : Cached mem t)
    (hroot : (t.node 0).item.users = 1) :
    Same t t' ∧ Cached mem t' ∧ (t'.node 0).item.users = held 0 + 1 := by
  induction h with
  | start => exact ⟨Same.refl t, hc, hroot⟩
  | get n _ ih =>
    obtain ⟨hs, hc', husers⟩ := ih
    obtain ⟨-, hs', hc''⟩ := tarGetInode_spec hc' n
    refine ⟨hs.trans hs', hc'', ?_⟩
    rw [tarGetInode_users hc', husers, Function.update_apply]
    by_cases hn : n = 0
    · simp [hn]
    · simp [hn, Ne.symm hn]
  | flush n _ hpos ih =>
    obtain ⟨hs, hc', husers⟩ := ih
    obtain ⟨hs', hc''⟩ := flushTar_spec hc' (n := n) fun hn => by
      subst hn
      rw [husers]
      exact Nat.lt_add_of_pos_left hpos
    refine ⟨hs.trans hs', hc'', ?_⟩
    rw [flushTar, setItem_item, Function.update_apply]
    by_cases hn : n = 0
    · subst hn
      simp only [if_true, husers]
      omega
    · rw [if_neg (Ne.symm hn), if_neg (Ne.symm hn), husers]

theorem setItem_sound {n : Nat} {item : Item} (h : t.Sound) : (t.setItem n item).Sound := by
  have hnode (k : Nat) : ((t.setItem n item).node k).children = (t.node k).children ∧
      ((t.setItem n item).node k).parent = (t.node k).parent := by
    simp only [TarTree.setItem, Function.update_apply]
    split
    · next he => rw [he]; exact ⟨rfl, rfl⟩
    · exact ⟨rfl, rfl⟩
  refine ⟨⟨h.root.1, (hnode 0).2.trans h.root.2⟩, fun k c hc => ?_⟩
  rw [(hnode k).1] at hc
  rw [(hnode c).2]
  exact h.child k c hc

theorem tarGetInode_sound (h : t.Sound) (n : Nat) : (tarGetInode mem t n).2.Sound := by
  rw [tarGetInode]
  cases (t.node n).item.buffer <;> exact setItem_sound h

-- ---------------------------------------------------------------------------
-- Nodes with children
-- ---------------------------------------------------------------------------

theorem inodeOf_directory (n : Nat) : (inodeOf mem t n).type = .directory ↔
    n = 0 ∨ mem ((t.node n).item.tar + typeField) = tarTypeDir := by
  rw [inodeOf]
  by_cases hn : n = 0
  · rw [if_pos hn]
    exact iff_of_true rfl (Or.inl hn)
  · rw [if_neg hn, newInode]
    split
    · next ht => exact iff_of_true rfl (Or.inr ht)
    · next ht => exact iff_of_false (fun hc => by cases hc) (not_or.mpr ⟨hn, ht⟩)

theorem Mentioned.stemsOpen (h : Mentioned mem t hs) : StemsOpen mem t ↔
    ∀ n < t.count, (t.node n).children ≠ [] → (inodeOf mem t n).type = .directory := by
  constructor
  · intro hopen n hn hc
    rw [← (tarGetInode_spec h.cached n).1]
    exact hopen t _ .start n hn hc
  · intro hopen t' held hused n hn hc
    obtain ⟨hsame, hcached, -⟩ := hused.kept h.cached h.root.2
    rw [(tarGetInode_spec hcached n).1, hsame.inodeOf]
    exact hopen n hn hc

theorem child_ne_nil {n m : Nat} {k : Name} (h : t.view.child n k = some m) :
    (t.node n).children ≠ [] := by
  intro hnil
  have hmem : m ∈ (t.node n).children := (Named.child_mem h).1
  rw [hnil] at hmem
  cases hmem

theorem child_of_ne_nil {n : Nat} (h : (t.node n).children ≠ []) :
    ∃ k m, t.view.child n k = some m := by
  obtain ⟨c, hc⟩ := List.exists_mem_of_ne_nil _ h
  refine ⟨(t.node c).item.name, ?_⟩
  rw [← Option.isSome_iff_exists, Named.Tree.child, List.find?_isSome]
  exact ⟨c, hc, by simp [TarTree.view]⟩

theorem Mentioned.directoriesFirst (h : Mentioned mem t hs) : DirectoriesFirst mem hs ↔
    ∀ n < t.count, (t.node n).children ≠ [] → (inodeOf mem t n).type = .directory := by
  constructor
  · intro hfirst n hn hc
    rw [inodeOf_directory]
    obtain ⟨ks, hks⟩ := h.reached n hn
    by_cases hnil : ks = []
    · subst hnil
      exact Or.inl (Option.some.inj hks).symm
    obtain ⟨k, m, hm⟩ := child_of_ne_nil hc
    have hwalk : t.view.walk 0 (ks ++ [k]) = some m := by
      rw [Named.walk_append, hks, Option.bind_some, Named.walk_cons, hm]
      rfl
    obtain ⟨hmem, hprefix⟩ := firstMention_spec (h.header _ m (by simp) hwalk)
    refine Or.inr (hfirst _ hmem ks hnil ((List.prefix_append ks [k]).trans hprefix) ?_ _
      (h.header ks n hnil hks))
    intro he
    have := hprefix.length_le
    rw [← he, List.length_append, List.length_singleton] at this
    omega
  · rintro hopen tar htar ks hnil ⟨rest, hrest⟩ hne first hfirst
    obtain ⟨m, hm⟩ := h.present tar htar
    rw [← hrest] at hm hne
    obtain ⟨n, hn, hbelow⟩ := Named.walk_prefix hm
    obtain rfl : first = (t.node n).item.tar :=
      Option.some.inj (hfirst.symm.trans (h.header ks n hnil hn))
    have hc : (t.node n).children ≠ [] := by
      cases rest with
      | nil => exact absurd (List.append_nil ks).symm hne
      | cons k rest =>
        obtain ⟨c, hc, -⟩ := Option.bind_eq_some_iff.mp hbelow
        exact child_ne_nil hc
    refine ((inodeOf_directory n).mp
      (hopen n (h.sound.walk_lt h.sound.root.1 hn) hc)).resolve_left ?_
    rintro rfl
    exact hnil (h.sound.inj hn Named.walk_nil)

-- ---------------------------------------------------------------------------
-- The descent
-- ---------------------------------------------------------------------------

theorem descend_eq {d : Vnode} {m : Nat} (h : Cached mem t)
    (hopen : ∀ pre k n, pre ++ [k] <+: ks → t.view.walk d.data pre = some n →
      (inodeOf mem t n).type = .directory)
    (hdir : d = inodeOf mem t d.data) (hplain : dot ∉ ks ∧ dotdot ∉ ks)
    (hw : t.view.walk d.data ks = some m) :
    ∃ t', descend mem t d ks = some (some (inodeOf mem t m), t') := by
  induction ks generalizing t d with
  | nil =>
    cases hw
    exact ⟨t, congrArg (fun v => some (some v, t)) hdir⟩
  | cons k ks ih =>
    obtain ⟨c, hc, hrest⟩ := Option.bind_eq_some_iff.mp hw
    obtain ⟨-, hs, hcached⟩ := tarGetInode_spec h c
    have htype : d.type = .directory := by
      rw [hdir]
      exact hopen [] k d.data (List.prefix_append [k] ks) rfl
    have hf : vfsFinddir mem t d k = some (some (inodeOf mem t c), (tarGetInode mem t c).2) := by
      rw [vfsFinddir, if_neg (not_not.mpr htype)]
      exact tarFinddir_child h (fun he => hplain.1 (he ▸ List.mem_cons_self))
        (fun he => hplain.2 (he ▸ List.mem_cons_self)) hc
    have hdata := inodeOf_data mem t c
    have hbelow : ∀ pre j n, pre ++ [j] <+: ks →
        (tarGetInode mem t c).2.view.walk (inodeOf mem t c).data pre = some n →
        (inodeOf mem (tarGetInode mem t c).2 n).type = .directory := by
      intro pre j n hpre hn
      rw [hdata, hs.view] at hn
      rw [hs.inodeOf]
      refine hopen (k :: pre) j n ((List.prefix_cons_inj k).mpr hpre) ?_
      rw [Named.walk_cons, hc]
      exact hn
    obtain ⟨t', ht'⟩ := ih (d := inodeOf mem t c) hcached hbelow
      (by rw [hdata, hs.inodeOf])
      ⟨fun hm => hplain.1 (List.mem_cons_of_mem _ hm), fun hm => hplain.2 (List.mem_cons_of_mem _ hm)⟩
      (by rw [hdata, hs.view]; exact hrest)
    refine ⟨t', ?_⟩
    rw [descend, hf]
    simp only [Option.bind_eq_bind, Option.bind_some]
    rw [ht', hs.inodeOf]

theorem tarFinddir_cases {d v : Vnode} {k : Name} (hf : tarFinddir mem t d k = some (some v, t')) :
    ∃ n, (v, t') = tarGetInode mem t n ∧ (k = dot ∧ n = d.data ∨
      k = dotdot ∧ (t.node d.data).parent = some n ∨
      k ≠ dot ∧ k ≠ dotdot ∧ t.view.child d.data k = some n) := by
  rw [tarFinddir] at hf
  split at hf
  · next hdot =>
    cases hf
    exact ⟨_, rfl, Or.inl ⟨hdot, rfl⟩⟩
  · next hdot =>
    split at hf
    · next hdotdot =>
      obtain ⟨parent, hparent, hf⟩ := Option.bind_eq_some_iff.mp hf
      cases hf
      exact ⟨_, rfl, Or.inr (Or.inl ⟨hdotdot, hparent⟩)⟩
    · next hdotdot =>
      split at hf
      · next c hc =>
        cases hf
        exact ⟨c, rfl, Or.inr (Or.inr ⟨hdot, hdotdot, hc⟩)⟩
      · cases hf

theorem vfsFinddir_depth {d v : Vnode} {k : Name} {ps : List Name} (h : Cached mem t)
    (hsound : t.Sound) (hd : t.view.walk 0 ps = some d.data)
    (hf : vfsFinddir mem t d k = some (some v, t')) :
    t'.Sound ∧ Same t t' ∧ Cached mem t' ∧ ∃ qs, t.view.walk 0 qs = some v.data ∧
      qs.length ≤ ps.length + 1 ∧ (k = dot ∨ k = dotdot → qs.length ≤ ps.length) := by
  rw [vfsFinddir] at hf
  split at hf
  · cases hf
  obtain ⟨n, hget, hn⟩ := tarFinddir_cases hf
  obtain ⟨hv, hsame, hcached⟩ := tarGetInode_spec h n
  have hsound' : (tarGetInode mem t n).2.Sound := tarGetInode_sound hsound n
  rw [← hget] at hv hsame hcached hsound'
  refine ⟨hsound', hsame, hcached, ?_⟩
  rw [show v.data = n by rw [show v = _ from hv, inodeOf_data]]
  obtain ⟨-, rfl⟩ | ⟨-, hparent⟩ | ⟨hdot, hdotdot, hc⟩ := hn
  · exact ⟨ps, hd, Nat.le_succ _, fun _ => le_rfl⟩
  · cases ps using List.reverseRecOn with
    | nil =>
      rw [← Option.some.inj hd, hsound.root.2] at hparent
      cases hparent
    | append_singleton ps j =>
      obtain ⟨c, hc, hchild⟩ := Named.walk_concat hd
      rw [(hsound.child c _ (Named.child_mem hchild).1).2] at hparent
      cases hparent
      rw [List.length_append]
      exact ⟨ps, hc, by omega, fun _ => Nat.le_add_right _ _⟩
  · refine ⟨ps ++ [k], ?_, by rw [List.length_append, List.length_singleton], fun hk => ?_⟩
    · rw [Named.walk_append, hd, Option.bind_some, Named.walk_cons, hc]
      rfl
    · exact absurd hk (not_or.mpr ⟨hdot, hdotdot⟩)

theorem descend_depth {d v : Vnode} {ps : List Name} (h : Cached mem t) (hsound : t.Sound)
    (hd : t.view.walk 0 ps = some d.data) (hf : descend mem t d ks = some (some v, t')) :
    ∃ qs, t.view.walk 0 qs = some v.data ∧ qs.length ≤ ps.length + ks.length ∧
      (dot ∈ ks ∨ dotdot ∈ ks → qs.length < ps.length + ks.length) := by
  induction ks generalizing t d ps with
  | nil =>
    cases hf
    exact ⟨ps, hd, le_rfl, fun hk => by simp at hk⟩
  | cons k ks ih =>
    obtain ⟨⟨found, t₁⟩, hfind, hrest⟩ := Option.bind_eq_some_iff.mp hf
    cases found with
    | none => cases hrest
    | some w =>
      obtain ⟨hsound₁, hs, hc₁, qs₁, hq₁, hle₁, hspecial⟩ := vfsFinddir_depth h hsound hd hfind
      rw [← hs.view] at hq₁
      obtain ⟨qs, hq, hle, hlt⟩ := ih hc₁ hsound₁ hq₁ hrest
      rw [hs.view] at hq
      rw [List.length_cons]
      refine ⟨qs, hq, by omega, fun hk => ?_⟩
      rw [List.mem_cons, List.mem_cons] at hk
      by_cases htail : dot ∈ ks ∨ dotdot ∈ ks
      · have := hlt htail
        omega
      · have := hspecial (by tauto)
        omega

theorem Mentioned.descends (h : Mentioned mem t hs) (hfirst : DirectoriesFirst mem hs) :
    Descends mem t hs ↔ PlainNames mem hs := by
  constructor
  · intro hdesc tar htar
    obtain ⟨v, t'', hd, hw⟩ := hdesc t _ .start tar htar
    obtain ⟨qs, hq, -, hlt⟩ := descend_depth h.cached h.sound Named.walk_nil hd
    rw [h.sound.inj hq hw, List.length_nil, Nat.zero_add] at hlt
    exact ⟨fun hk => lt_irrefl _ (hlt (Or.inl hk)), fun hk => lt_irrefl _ (hlt (Or.inr hk))⟩
  · intro hplain t' held hused tar htar
    obtain ⟨hsame, hcached, -⟩ := hused.kept h.cached h.root.2
    obtain ⟨m, hm⟩ := h.present tar htar
    have hopen : ∀ pre k n, pre ++ [k] <+: components mem tar → t.view.walk 0 pre = some n →
        (inodeOf mem t n).type = .directory := by
      rintro pre k n ⟨rest, hrest⟩ hn
      rw [← hrest, List.append_assoc, Named.walk_append, hn, Option.bind_some] at hm
      obtain ⟨c, hc, -⟩ := Option.bind_eq_some_iff.mp hm
      exact h.directoriesFirst.mp hfirst n (h.sound.walk_lt h.sound.root.1 hn) (child_ne_nil hc)
    obtain ⟨t'', hd⟩ := descend_eq (d := rootNode) hcached
      (fun pre k n hpre hn => by
        rw [hsame.view] at hn
        rw [hsame.inodeOf]
        exact hopen pre k n hpre hn)
      rfl (hplain tar htar) (by rw [hsame.view]; exact hm)
    refine ⟨_, t'', hd, ?_⟩
    rw [inodeOf_data]
    exact hm

/-- Nodes with children are directories where the first header that mentions them is one, and
then the entries are all reached if none of their components is a special case. -/
theorem directories_first {fuel : Nat} (h : tarfsInit mem a fuel = some (t, hs)) :
    headersFrom mem fuel a = some hs ∧ (StemsOpen mem t ↔ DirectoriesFirst mem hs) ∧
      (StemsOpen mem t ∧ Descends mem t hs ↔ DirectoriesFirst mem hs ∧ PlainNames mem hs) := by
  obtain ⟨hm, hheaders⟩ := tarfsInit_mentioned h
  have hopen : StemsOpen mem t ↔ DirectoriesFirst mem hs :=
    hm.stemsOpen.trans hm.directoriesFirst.symm
  refine ⟨hheaders, hopen, ?_⟩
  rw [hopen]
  exact and_congr_right fun hfirst => hm.descends hfirst

/-- `t/`, `t/a/` and the file `t/a/b` -/
def explicit : List TarEntry :=
  [⟨[116, 47], 0, 53⟩, ⟨[116, 47, 97, 47], 0, 53⟩, ⟨[116, 47, 97, 47, 98], 1, 48⟩]

theorem directories_first_explicit : ∃ t, tarfsInit (load (imageOf explicit)) 0 4 = some (t, [0, 512, 1024]) ∧
    StemsOpen (load (imageOf explicit)) t ∧ Descends (load (imageOf explicit)) t [0, 512, 1024] := by
  have hrun : (tarfsInit (load (imageOf explicit)) 0 4).map Prod.snd = some [0, 512, 1024] := by
    decide +kernel
  obtain ⟨⟨t, hs⟩, ht, rfl⟩ := Option.map_eq_some_iff.mp hrun
  exact ⟨t, ht, (directories_first ht).2.2.mpr ⟨by decide +kernel, by decide +kernel⟩⟩

/-- `t/` and the file `t/a/b` -/
def implied : List TarEntry := [⟨[116, 47], 0, 53⟩, ⟨[116, 47, 97, 47, 98], 1, 48⟩]

def impliedTree : TarTree :=
  ((tarfsInit (load (imageOf implied)) 0 3).getD (rootTree [] 0 rootNode, [])).1

theorem implied_fits : ∀ e ∈ implied, e.Fits := by
  intro e he
  have : e.path.length ≤ 99 ∧ 0 ∉ e.path ∧ e.path ≠ [] ∧ e.size < 8 ^ 11 := by
    revert e
    decide
  exact ⟨this.1, this.2.1, this.2.2.1, this.2.2.2⟩

/-- The node of `t/a` has a child and the inode of a file, and the child is not found. -/
theorem directories_first_implied : Image (load (imageOf implied)) 0 implied ∧
    tarfsInit (load (imageOf implied)) 0 3 = some (impliedTree, [0, 512]) ∧
    (impliedTree.node 1).children = [2] ∧
    (tarGetInode (load (imageOf implied)) impliedTree 1).1 = ⟨[97], .file, 1, 1⟩ ∧
    ¬StemsOpen (load (imageOf implied)) impliedTree ∧
    (descend (load (imageOf implied)) impliedTree rootNode [[97], [98]]).map Prod.fst = some none := by
  have hrun : (tarfsInit (load (imageOf implied)) 0 3).map Prod.snd = some [0, 512] := by
    decide +kernel
  have hchildren : (impliedTree.node 1).children = [2] := by decide +kernel
  have hinode : (tarGetInode (load (imageOf implied)) impliedTree 1).1 = ⟨[97], .file, 1, 1⟩ := by
    decide +kernel
  refine ⟨imageOf_image implied_fits [], ?_, hchildren, hinode, fun hopen => ?_, by decide +kernel⟩
  · obtain ⟨⟨t, hs⟩, ht, rfl⟩ := Option.map_eq_some_iff.mp hrun
    rw [impliedTree, ht]
    rfl
  · have htype := hopen impliedTree _ .start 1 (by decide +kernel) (by rw [hchildren]; decide)
    rw [hinode] at htype
    cases htype

end Os5.Tarfs
