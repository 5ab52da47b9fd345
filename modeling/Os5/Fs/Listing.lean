import Os5.Fs.Placing
import Os5.Fs.Readdir
import Os5.Fs.TreeTypes

/-!
# Listings and lookups of directories

A directory is listed by counting through the children of its tar node, and searched by name,
first among the mounted children. Where the two agree depends on what is mounted in it, on the
names in the archive and on the node above it.
-/

namespace Os5.Vfs

open Tarfs (dot dotdot)
open Linear (Forward)
open Outcome

structure TarDirectory (s : State) (d k : Nat) : Prop where
  driver : s.driver d = .tarfs k
  type : s.kind d &&& fsTypeMask = fsDirectory

def Yielded (s : State) (d index : Nat) (name : Name) : Prop :=
  ∃ x s', vfsReaddir s d index = .ok (some ⟨x, name⟩, s')

/-- One `vfs_readdir` after the other; the names that were yielded. -/
def readAll (s : State) (d : Nat) : List Nat → Run (List Name × State)
  | [] => .ok ([], s)
  | index :: rest => do
    let (de, s) ← vfsReaddir s d index
    let (names, s) ← readAll s d rest
    return ((de.map Dirent.name).toList ++ names, s)

def entryNames (s : State) (k : Nat) : List Name :=
  dot :: dotdot :: (s.tar k).children.map fun c => (s.tar c).name

/-- The inode found for a name is the one of the tar node, or one mounted there. -/
def StandsFor (s : State) (d c x : Nat) : Prop :=
  (s.tar c).buffer = some x ∨ s.parent d ≠ none ∧ findChild s d (s.tar c).name = .ok (some x)

/-- The listing of a directory is complete and agrees with the lookups of names. -/
structure Listed (s : State) (d k : Nat) : Prop where
  self : Yielded s d 0 dot
  up : Yielded s d 1 dotdot
  child : ∀ i c, (s.tar k).children[i]? = some c →
    ∃ x s', vfsReaddir s d (i + 2) = .ok (some ⟨x, (s.tar c).name⟩, s') ∧ StandsFor s' d c x
  rest : ∀ index, (s.tar k).children.length + 2 ≤ index → vfsReaddir s d index = .ok (none, s)
  same : ∀ index de s', vfsReaddir s d index = .ok (some de, s') →
    ∃ s'', vfsFinddir s' d de.name = .ok (some de.ino, s'')
  once : ∀ name, ∃ found s', vfsFinddir s d name = .ok (found, s') ∧
    (found ≠ none → ∃! index, Yielded s d index name)

/-- There is a directory above, no entry is named like a special case, and the mounted children
are a chain of inodes that have names of entries. -/
structure Listable (s : State) (d k : Nat) : Prop where
  above : s.parent d ≠ none ∨ (s.tar k).parent ≠ none
  plain : ∀ c ∈ (s.tar k).children, (s.tar c).name ≠ dot ∧ (s.tar c).name ≠ dotdot
  mounts : s.parent d ≠ none → ∃ l, Forward s.older (s.child d) l ∧ (∀ u ∈ l, s.Alloc u) ∧
    ∀ u ∈ l, s.name u = dot ∨ s.name u = dotdot ∨ ∃ c ∈ (s.tar k).children, (s.tar c).name = s.name u

variable {s s' s₁ s₂ : State} {d k c x : Nat} {name : Name} {l : List Nat}

-- ---------------------------------------------------------------------------
-- The driver
-- ---------------------------------------------------------------------------

theorem nthChild_eq (i : Nat) (cs : List Nat) : nthChild (i + 1) cs = cs[i]? := by
  induction cs generalizing i with
  | nil => rfl
  | cons c cs ih =>
    cases i with
    | zero => rfl
    | succ i =>
      rw [nthChild, List.getElem?_cons_succ, ← ih i]
      rfl

theorem tarReaddir_child (s : State) (k i : Nat) : tarReaddir s k (i + 2) =
    match (s.tar k).children[i]? with
    | some c => .ok (some ⟨(tarGetInode s c).1, (s.tar c).name⟩, (tarGetInode s c).2)
    | none => .ok (none, s) := by
  have hnth : nthChild (i + 2 - 1) (s.tar k).children = (s.tar k).children[i]? := nthChild_eq i _
  cases hc : (s.tar k).children[i]? with
  | some c => rw [tarReaddir, if_neg (by omega), if_neg (by omega), hnth, hc]
  | none => rw [tarReaddir, if_neg (by omega), if_neg (by omega), hnth, hc]

theorem Catalogue.tarChild (h : Catalogue s.tar) (hc : c ∈ (s.tar k).children) :
    s.tarChild k (s.tar c).name = some c := by
  cases hf : s.tarChild k (s.tar c).name with
  | none =>
    rw [State.tarChild, List.find?_eq_none] at hf
    exact absurd (decide_eq_true rfl) (hf c hc)
  | some c' =>
    obtain ⟨hmem, hname⟩ := tarChild_mem hf
    rw [List.inj_on_of_nodup_map (h.names k) hmem hc hname]

theorem Fetches.again (h : Fetches s s' c x) : ∃ s'', tarGetInode s' c = (x, s'') := by
  obtain ⟨s'', hget, -⟩ := tarGetInode_some ((h.stocked.buffer c x).mpr h.driver)
  exact ⟨s'', hget⟩

theorem Fetches.undo (h : Stocked s) (hf : Fetches s s₁ c x) (hr : Frees s₁ s₂ x) (m : Nat)
    (hm : s.Alloc m) : s₂.inode m = s.inode m := by
  by_cases hmx : m = x
  · subst hmx
    have hold := hf.inode m hm
    have hdriver : s.driver m = .tarfs c := by
      rw [← hf.driver, State.driver, State.driver, hold]
    have hbuffer := (h.buffer c m).mpr hdriver
    rw [hr.self c hf.driver (hf.kept (by rw [hbuffer]; exact Option.some_ne_none m)), hold]
  · rw [hr.others m hmx, hf.inode m hm]

structure Undisturbed (s s' : State) : Prop where
  stocked : Stocked s'
  same : SameTar s s'
  inode : ∀ m, s.Alloc m → s'.inode m = s.inode m

theorem Stocked.undisturbed (h : Stocked s) : Undisturbed s s := ⟨h, SameTar.refl s, fun _ _ => rfl⟩

theorem Fetches.undisturbed (h : Fetches s s' c x) : Undisturbed s s' := ⟨h.stocked, h.same, h.inode⟩

-- ---------------------------------------------------------------------------
-- The mounted children
-- ---------------------------------------------------------------------------

theorem findChild_chain (h : Stocked s) (hd : s.Alloc d) (hl : Forward s.older (s.child d) l)
    (halloc : ∀ u ∈ l, s.Alloc u) (name : Name) :
    findChild s d name = .ok (l.find? fun u => s.name u = name) := by
  obtain ⟨v, hv⟩ := Option.isSome_iff_exists.mp hd
  have hchild : s.child d = v.child := by simp [State.link, hv]
  have hsub : l ⊆ List.range s.next := fun u hu => List.mem_range.mpr (h.bound u (halloc u hu))
  have hlen := (List.subperm_of_subset hl.nodup hsub).length_le
  rw [List.length_range] at hlen
  rw [hchild] at hl
  simp only [findChild, get_eq hv, Bind.bind, Except.bind]
  exact findSibling_eq hl halloc (hlen.trans (Nat.le_succ _))

theorem Undisturbed.chain (h : Undisturbed s s') (hd : s.Alloc d) (hl : Forward s.older (s.child d) l)
    (halloc : ∀ u ∈ l, s.Alloc u) : s'.Alloc d ∧ Forward s'.older (s'.child d) l ∧
      (∀ u ∈ l, s'.Alloc u) ∧ ∀ u ∈ l, s'.name u = s.name u := by
  have hkeep {m : Nat} (hm : s.Alloc m) : s'.Alloc m := by
    rw [State.Alloc, h.inode m hm]
    exact hm
  have hlink {m : Nat} (hm : s.Alloc m) (g : Inode → Option Nat) : s'.link g m = s.link g m := by
    rw [State.link, h.inode m hm, State.link]
  refine ⟨hkeep hd, ?_, fun u hu => hkeep (halloc u hu), fun u hu => ?_⟩
  · rw [State.child, hlink hd]
    exact hl.congr fun u hu => hlink (halloc u hu) _
  · rw [State.name, h.inode u (halloc u hu), State.name]

theorem findChild_kept (h : Stocked s) (h' : Undisturbed s s')
    (hd : s.Alloc d) (hl : Forward s.older (s.child d) l) (halloc : ∀ u ∈ l, s.Alloc u) (name : Name) :
    findChild s' d name = findChild s d name := by
  obtain ⟨hd', hl', halloc', hname⟩ := h'.chain hd hl halloc
  rw [findChild_chain h hd hl halloc, findChild_chain h'.stocked hd' hl' halloc']
  exact congrArg Except.ok (List.find?_congr fun u hu => by rw [hname u hu])

/-- A search for a name that no inode has comes to the end of the chain. -/
theorem findSibling_forward {fuel : Nat} {o : Option Nat} {from_ : Option Nat}
    (hname : ∀ u, s.Alloc u → s.name u ≠ name) (h : findSibling s name fuel from_ = .ok o) :
    ∃ l, Forward s.older from_ l ∧ ∀ u ∈ l, s.Alloc u := by
  induction fuel generalizing from_ with
  | zero =>
    cases from_ with
    | none => exact ⟨[], rfl, fun u hu => nomatch hu⟩
    | some u => cases h
  | succ fuel ih =>
    cases from_ with
    | none => exact ⟨[], rfl, fun u hu => nomatch hu⟩
    | some u =>
      rw [findSibling] at h
      obtain ⟨v, hget, hrest⟩ := bind_ok.mp h
      have hv : s.inode u = some v := by
        rw [State.get] at hget
        cases hu : s.inode u with
        | none =>
          rw [hu] at hget
          cases hget
        | some w =>
          rw [hu] at hget
          exact congrArg some (Except.ok.inj hget)
      have hu : s.Alloc u := Option.isSome_iff_exists.mpr ⟨v, hv⟩
      have hne : v.name ≠ name := by
        have := hname u hu
        rwa [State.name, hv] at this
      rw [if_neg hne] at hrest
      obtain ⟨l, hl, halloc⟩ := ih hrest
      have holder : s.older u = v.older := by simp [State.link, hv]
      refine ⟨u :: l, ⟨rfl, holder ▸ hl⟩, fun w hw => ?_⟩
      obtain rfl | hw := List.mem_cons.mp hw
      · exact hu
      · exact halloc w hw

theorem Stocked.unused_name (h : Stocked s) :
    ∃ name, (∀ u, s.Alloc u → s.name u ≠ name) ∧ name ≠ dot ∧ name ≠ dotdot := by
  obtain ⟨name, hname⟩ := Infinite.exists_notMem_finset
    ((Finset.range s.next).image s.name ∪ {dot, dotdot})
  simp only [Finset.mem_union, Finset.mem_image, Finset.mem_range, Finset.mem_insert,
    Finset.mem_singleton, not_or, not_exists, not_and] at hname
  exact ⟨name, fun u hu => hname.1 u (h.bound u hu), hname.2⟩

-- ---------------------------------------------------------------------------
-- Calls on a directory
-- ---------------------------------------------------------------------------

theorem TarDirectory.inode (h : TarDirectory s d k) : ∃ v, s.inode d = some v ∧ v.d = .tarfs k ∧
    v.type &&& fsTypeMask = fsDirectory ∧ s.parent d = v.parent := by
  obtain ⟨v, hv⟩ := Option.isSome_iff_exists.mp (driver_alloc h.driver)
  have hdriver := h.driver
  have htype := h.type
  rw [State.driver, hv] at hdriver
  rw [State.kind, hv] at htype
  exact ⟨v, hv, hdriver, htype, by simp [State.link, hv]⟩

theorem TarDirectory.kept (h : TarDirectory s d k) (hsame : s'.inode d = s.inode d) :
    TarDirectory s' d k ∧ s'.parent d = s.parent d := by
  refine ⟨⟨?_, ?_⟩, ?_⟩
  · rw [State.driver, hsame]
    exact h.driver
  · rw [State.kind, hsame]
    exact h.type
  · show (s'.inode d).bind _ = (s.inode d).bind _
    rw [hsame]

theorem TarDirectory.outside (h : TarDirectory s d k) (hp : s.parent d = none) :
    (∀ index, vfsReaddir s d index = tarReaddir s k index) ∧
      ∀ name, vfsFinddir s d name = tarFinddir s k name := by
  obtain ⟨v, hv, hdriver, htype, hparent⟩ := h.inode
  rw [hp] at hparent
  refine ⟨fun index => ?_, fun name => ?_⟩
  · simp only [vfsReaddir, get_eq hv, Bind.bind, Except.bind, if_neg (not_not.mpr htype), ← hparent, hdriver]
    rfl
  · simp only [vfsFinddir, get_eq hv, Bind.bind, Except.bind, if_neg (not_not.mpr htype), ← hparent, hdriver]
    rfl

theorem TarDirectory.inside (h : TarDirectory s d k) {p : Nat} (hp : s.parent d = some p) :
    vfsReaddir s d 0 = .ok (some ⟨d, dot⟩, s) ∧ vfsReaddir s d 1 = .ok (some ⟨p, dotdot⟩, s) ∧
      (∀ i, vfsReaddir s d (i + 2) = match (s.tar k).children[i]? with
        | some c => replaceEntry (tarGetInode s c).2 d ⟨(tarGetInode s c).1, (s.tar c).name⟩
        | none => .ok (none, s)) ∧
      vfsFinddir s d dot = .ok (some d, s) ∧ vfsFinddir s d dotdot = .ok (some p, s) ∧
      ∀ name, name ≠ dot → name ≠ dotdot → vfsFinddir s d name = (do
        match ← findChild s d name with
        | some u => return (some u, s)
        | none => tarFinddir s k name) := by
  obtain ⟨v, hv, hdriver, htype, hparent⟩ := h.inode
  rw [hp] at hparent
  refine ⟨?_, ?_, fun i => ?_, ?_, ?_, fun name hdot hdotdot => ?_⟩
  all_goals
    simp only [vfsReaddir, vfsFinddir, get_eq hv, Bind.bind, Except.bind, if_neg (not_not.mpr htype),
      ← hparent, hdriver]
  · rfl
  · rfl
  · rw [if_neg (by omega), if_neg (by omega), driverReaddir, tarReaddir_child]
    cases (s.tar k).children[i]? <;> rfl
  · rfl
  · rfl
  · rw [if_neg hdot, if_neg hdotdot]
    rfl

theorem replaceEntry_name {de de' : Dirent} (h : replaceEntry s d de = .ok (some de', s')) :
    de'.name = de.name := by
  obtain ⟨o, -, hrest⟩ := bind_ok.mp h
  cases o with
  | none =>
    cases hrest
    rfl
  | some u =>
    obtain ⟨s₁, -, hret⟩ := bind_ok.mp hrest
    cases hret
    rfl

theorem TarDirectory.yielded (h : TarDirectory s d k) {index : Nat} (hy : Yielded s d index name) :
    index = 0 ∧ name = dot ∨ index = 1 ∧ name = dotdot ∨
      ∃ i c, index = i + 2 ∧ (s.tar k).children[i]? = some c ∧ (s.tar c).name = name := by
  obtain ⟨x, s', hr⟩ := hy
  match index with
  | 0 =>
    refine Or.inl ⟨rfl, ?_⟩
    cases hp : s.parent d with
    | none =>
      rw [(h.outside hp).1] at hr
      exact (congrArg (fun r => (r.1.map Dirent.name).getD name) (Except.ok.inj hr)).symm
    | some p =>
      rw [(h.inside hp).1] at hr
      cases hr
      rfl
  | 1 =>
    refine Or.inr (Or.inl ⟨rfl, ?_⟩)
    cases hp : s.parent d with
    | none =>
      rw [(h.outside hp).1, tarReaddir, if_neg one_ne_zero, if_pos rfl] at hr
      obtain ⟨p, -, hret⟩ := bind_ok.mp hr
      exact (congrArg (fun r => (r.1.map Dirent.name).getD name) (Except.ok.inj hret)).symm
    | some p =>
      rw [(h.inside hp).2.1] at hr
      cases hr
      rfl
  | i + 2 =>
    refine Or.inr (Or.inr ⟨i, ?_⟩)
    cases hp : s.parent d with
    | none =>
      rw [(h.outside hp).1, tarReaddir_child] at hr
      split at hr
      · next c hc => exact ⟨c, rfl, hc, congrArg (fun r => (r.1.map Dirent.name).getD name) (Except.ok.inj hr)⟩
      · cases hr
    | some p =>
      rw [(h.inside hp).2.2.1] at hr
      split at hr
      · next c hc => exact ⟨c, rfl, hc, (replaceEntry_name hr).symm⟩
      · cases hr

theorem TarDirectory.child (h : Stocked s) (hd : TarDirectory s d k) (hl : Listable s d k) {i : Nat}
    (hc : (s.tar k).children[i]? = some c) :
    ∃ x s', vfsReaddir s d (i + 2) = .ok (some ⟨x, (s.tar c).name⟩, s') ∧ Undisturbed s s' ∧
      StandsFor s' d c x ∧ ∃ s'', vfsFinddir s' d (s.tar c).name = .ok (some x, s'') := by
  have hmem : c ∈ (s.tar k).children := List.mem_of_getElem? hc
  obtain ⟨hdot, hdotdot⟩ := hl.plain c hmem
  have halive := driver_alloc hd.driver
  have hf := h.fetch c
  obtain ⟨hd₁, hp₁⟩ := hd.kept (hf.inode d halive)
  have hbuffer := (hf.stocked.buffer c _).mpr hf.driver
  obtain ⟨s₂, hagain⟩ := hf.again
  have hdriver : tarFinddir (tarGetInode s c).2 k (s.tar c).name =
      .ok (some (tarGetInode s c).1, s₂) := by
    rw [tarFinddir_child hdot hdotdot, hf.same.tarChild, h.catalogue.tarChild hmem]
    simp only [hagain]
  cases hp : s.parent d with
  | none =>
    rw [hp] at hp₁
    refine ⟨_, _, ?_, hf.undisturbed, Or.inl hbuffer, s₂, ?_⟩
    · rw [(hd.outside hp).1, tarReaddir_child, hc]
    · rw [(hd₁.outside hp₁).2, hdriver]
  | some p =>
    rw [hp] at hp₁
    obtain ⟨l, hchain, halloc, -⟩ := hl.mounts (by rw [hp]; exact Option.some_ne_none p)
    have hsearch := findChild_chain h halive hchain halloc (s.tar c).name
    have hread : vfsReaddir s d (i + 2) =
        replaceEntry (tarGetInode s c).2 d ⟨(tarGetInode s c).1, (s.tar c).name⟩ := by
      rw [(hd.inside hp).2.2.1, hc]
    have hsearch₁ := (findChild_kept h hf.undisturbed halive hchain halloc (s.tar c).name).trans hsearch
    cases ho : l.find? fun u => s.name u = (s.tar c).name with
    | none =>
      rw [ho] at hsearch₁
      refine ⟨_, _, hread.trans ?_, hf.undisturbed, Or.inl hbuffer, s₂, ?_⟩
      · rw [replaceEntry, hsearch₁]
        rfl
      · rw [(hd₁.inside hp₁).2.2.2.2.2 _ hdot hdotdot, hsearch₁]
        exact hdriver
    | some u =>
      rw [ho] at hsearch hsearch₁
      obtain ⟨s₃, hfree, hr⟩ := hf.stocked.free (driver_alloc hf.driver)
      have hkept : Undisturbed s s₃ := ⟨hr.stocked, hf.same.trans hr.same, hf.undo h hr⟩
      obtain ⟨hd₃, hp₃⟩ := hd.kept (hkept.inode d halive)
      rw [hp] at hp₃
      have hsearch₃ := (findChild_kept h hkept halive hchain halloc (s.tar c).name).trans hsearch
      have hname : (s₃.tar c).name = (s.tar c).name := hkept.same.name c
      refine ⟨u, s₃, hread.trans ?_, hkept, Or.inr ⟨by rw [hp₃]; exact Option.some_ne_none p, ?_⟩, s₃, ?_⟩
      · simp only [replaceEntry, hsearch₁, hfree, Bind.bind, Except.bind]
        rfl
      · rw [hname]
        exact hsearch₃
      · rw [(hd₃.inside hp₃).2.2.2.2.2 _ hdot hdotdot, hsearch₃]
        rfl

theorem TarDirectory.own (h : Stocked s) (hd : TarDirectory s d k) :
    ∃ x s', vfsReaddir s d 0 = .ok (some ⟨x, dot⟩, s') ∧ Undisturbed s s' ∧
      (∃ s'', vfsFinddir s' d dot = .ok (some x, s'')) ∧ ∃ s'', vfsFinddir s d dot = .ok (some x, s'') := by
  cases hp : s.parent d with
  | none =>
    have hf := h.fetch k
    obtain ⟨hd₁, hp₁⟩ := hd.kept (hf.inode d (driver_alloc hd.driver))
    rw [hp] at hp₁
    obtain ⟨s₂, hagain⟩ := hf.again
    refine ⟨(tarGetInode s k).1, (tarGetInode s k).2, (hd.outside hp).1 0, hf.undisturbed, ⟨s₂, ?_⟩, _,
      (hd.outside hp).2 _⟩
    rw [(hd₁.outside hp₁).2, tarFinddir, if_pos rfl, hagain]
  | some p =>
    have hfind := (hd.inside hp).2.2.2.1
    exact ⟨d, s, (hd.inside hp).1, h.undisturbed, ⟨s, hfind⟩, s, hfind⟩

theorem TarDirectory.upper (h : Stocked s) (hd : TarDirectory s d k)
    (habove : s.parent d ≠ none ∨ (s.tar k).parent ≠ none) :
    ∃ x s', vfsReaddir s d 1 = .ok (some ⟨x, dotdot⟩, s') ∧ Undisturbed s s' ∧
      (∃ s'', vfsFinddir s' d dotdot = .ok (some x, s'')) ∧
        ∃ s'', vfsFinddir s d dotdot = .ok (some x, s'') := by
  cases hp : s.parent d with
  | none =>
    obtain ⟨q, hq⟩ := Option.ne_none_iff_exists'.mp (habove.resolve_left (not_not.mpr hp))
    have hf := h.fetch q
    obtain ⟨hd₁, hp₁⟩ := hd.kept (hf.inode d (driver_alloc hd.driver))
    rw [hp] at hp₁
    obtain ⟨s₂, hagain⟩ := hf.again
    refine ⟨(tarGetInode s q).1, (tarGetInode s q).2, ?_, hf.undisturbed, ⟨s₂, ?_⟩, (tarGetInode s q).2, ?_⟩
    · rw [(hd.outside hp).1, tarReaddir, if_neg one_ne_zero, if_pos rfl, hq]
      rfl
    · rw [(hd₁.outside hp₁).2, tarFinddir, if_neg (by decide), if_pos rfl, hf.same.parent, hq]
      simp only [deref, Bind.bind, Except.bind, hagain]
      rfl
    · rw [(hd.outside hp).2, tarFinddir, if_neg (by decide), if_pos rfl, hq]
      rfl
  | some p =>
    have hfind := (hd.inside hp).2.2.2.2.1
    exact ⟨p, s, (hd.inside hp).2.1, h.undisturbed, ⟨s, hfind⟩, s, hfind⟩

-- ---------------------------------------------------------------------------
-- Every index and every name
-- ---------------------------------------------------------------------------

theorem TarDirectory.unique (h : Stocked s) (hd : TarDirectory s d k) (hl : Listable s d k)
    (hc : c ∈ (s.tar k).children) : ∃! index, Yielded s d index (s.tar c).name := by
  obtain ⟨hdot, hdotdot⟩ := hl.plain c hc
  obtain ⟨i, hi⟩ := List.mem_iff_getElem?.mp hc
  obtain ⟨x, s', hread, -⟩ := hd.child h hl hi
  refine ⟨i + 2, ⟨x, s', hread⟩, fun index hy => ?_⟩
  obtain ⟨-, hname⟩ | ⟨-, hname⟩ | ⟨j, c', rfl, hj, hname⟩ := hd.yielded hy
  · exact absurd hname hdot
  · exact absurd hname hdotdot
  · obtain rfl := List.inj_on_of_nodup_map (h.catalogue.names k) (List.mem_of_getElem? hj) hc hname
    have hnodup := List.Nodup.of_map _ (h.catalogue.names k)
    have hlt := (List.getElem?_eq_some_iff.mp hi).1
    rw [(List.getElem?_inj hlt hnodup).mp (hi.trans hj.symm)]

theorem TarDirectory.special (hd : TarDirectory s d k) (hl : Listable s d k) {index : Nat}
    (hy : Yielded s d index name) (hname : name = dot ∨ name = dotdot) :
    index = if name = dot then 0 else 1 := by
  obtain ⟨rfl, hdot⟩ | ⟨rfl, rfl⟩ | ⟨i, c, -, hc, rfl⟩ := hd.yielded hy
  · rw [if_pos hdot]
  · exact (if_neg (by decide)).symm
  · obtain ⟨hdot, hdotdot⟩ := hl.plain c (List.mem_of_getElem? hc)
    exact absurd hname (not_or.mpr ⟨hdot, hdotdot⟩)

theorem tarFinddir_answers (hdot : name ≠ dot) (hdotdot : name ≠ dotdot) :
    ∃ found s', tarFinddir s k name = .ok (found, s') ∧
      (found ≠ none → ∃ c ∈ (s.tar k).children, (s.tar c).name = name) := by
  rw [tarFinddir_child hdot hdotdot]
  cases hc : s.tarChild k name with
  | none => exact ⟨none, s, rfl, fun hne => absurd rfl hne⟩
  | some c => exact ⟨_, _, rfl, fun _ => ⟨c, tarChild_mem hc⟩⟩

theorem TarDirectory.answers (h : Stocked s) (hd : TarDirectory s d k) (hl : Listable s d k)
    (hdot : name ≠ dot) (hdotdot : name ≠ dotdot) : ∃ found s', vfsFinddir s d name = .ok (found, s') ∧
      (found ≠ none → ∃ c ∈ (s.tar k).children, (s.tar c).name = name) := by
  cases hp : s.parent d with
  | none =>
    rw [(hd.outside hp).2]
    exact tarFinddir_answers hdot hdotdot
  | some p =>
    obtain ⟨l, hchain, halloc, hnames⟩ := hl.mounts (by rw [hp]; exact Option.some_ne_none p)
    rw [(hd.inside hp).2.2.2.2.2 name hdot hdotdot,
      findChild_chain h (driver_alloc hd.driver) hchain halloc name]
    cases ho : l.find? fun u => s.name u = name with
    | none => exact tarFinddir_answers hdot hdotdot
    | some u =>
      refine ⟨some u, s, rfl, fun _ => ?_⟩
      have hname : s.name u = name := by simpa using List.find?_some ho
      obtain he | he | hentry := hnames u (List.mem_of_find?_eq_some ho)
      · exact absurd (hname.symm.trans he) hdot
      · exact absurd (hname.symm.trans he) hdotdot
      · rwa [hname] at hentry

theorem Listable.listed (h : Stocked s) (hd : TarDirectory s d k) (hl : Listable s d k) : Listed s d k := by
  obtain ⟨x₀, s₀, hread₀, -, hsame₀, t₀, hfind₀⟩ := hd.own h
  obtain ⟨x₁, s₁, hread₁, -, hsame₁, t₁, hfind₁⟩ := hd.upper h hl.above
  refine ⟨⟨x₀, s₀, hread₀⟩, ⟨x₁, s₁, hread₁⟩, fun i c hc => ?_, fun index hindex => ?_,
    fun index de s' hr => ?_, fun name => ?_⟩
  · obtain ⟨x, s', hread, -, hstands, -⟩ := hd.child h hl hc
    exact ⟨x, s', hread, hstands⟩
  · obtain ⟨i, rfl⟩ : ∃ i, index = i + 2 := ⟨index - 2, by omega⟩
    have hnone : (s.tar k).children[i]? = none := List.getElem?_eq_none (by omega)
    cases hp : s.parent d with
    | none => rw [(hd.outside hp).1, tarReaddir_child, hnone]
    | some p => rw [(hd.inside hp).2.2.1, hnone]
  · obtain ⟨rfl, -⟩ | ⟨rfl, -⟩ | ⟨i, c, rfl, hc, -⟩ := hd.yielded ⟨de.ino, s', hr⟩
    · rw [hread₀] at hr
      cases hr
      exact hsame₀
    · rw [hread₁] at hr
      cases hr
      exact hsame₁
    · obtain ⟨x, s₂, hread, -, -, hfind⟩ := hd.child h hl hc
      rw [hread] at hr
      cases hr
      exact hfind
  · by_cases hdot : name = dot
    · subst hdot
      exact ⟨_, t₀, hfind₀, fun _ => ⟨0, ⟨x₀, s₀, hread₀⟩, fun i hi => hd.special hl hi (Or.inl rfl)⟩⟩
    by_cases hdotdot : name = dotdot
    · subst hdotdot
      exact ⟨_, t₁, hfind₁, fun _ => ⟨1, ⟨x₁, s₁, hread₁⟩, fun i hi => hd.special hl hi (Or.inr rfl)⟩⟩
    obtain ⟨found, s', hfind, hentry⟩ := hd.answers h hl hdot hdotdot
    refine ⟨found, s', hfind, fun hne => ?_⟩
    obtain ⟨c, hc, rfl⟩ := hentry hne
    exact hd.unique h hl hc

theorem Listable.undisturbed (hl : Listable s d k) (h : Undisturbed s s') (hd : TarDirectory s d k) :
    TarDirectory s' d k ∧ Listable s' d k := by
  have halive := driver_alloc hd.driver
  obtain ⟨hd', hp⟩ := hd.kept (h.inode d halive)
  refine ⟨hd', ?_, fun c hc => ?_, fun hne => ?_⟩
  · rw [hp, h.same.parent]
    exact hl.above
  · rw [h.same.children] at hc
    rw [h.same.name]
    exact hl.plain c hc
  · rw [hp] at hne
    obtain ⟨l, hchain, halloc, hnames⟩ := hl.mounts hne
    obtain ⟨-, hchain', halloc', hname⟩ := h.chain halive hchain halloc
    refine ⟨l, hchain', halloc', fun u hu => ?_⟩
    rw [hname u hu, h.same.children]
    simpa only [h.same.name] using hnames u hu

theorem Listable.read (h : Stocked s) (hd : TarDirectory s d k) (hl : Listable s d k) (index : Nat) :
    ∃ de s', vfsReaddir s d index = .ok (de, s') ∧ Undisturbed s s' ∧
      de.map Dirent.name = (entryNames s k)[index]? := by
  match index with
  | 0 =>
    obtain ⟨x, s', hread, hu, -⟩ := hd.own h
    exact ⟨_, s', hread, hu, rfl⟩
  | 1 =>
    obtain ⟨x, s', hread, hu, -⟩ := hd.upper h hl.above
    exact ⟨_, s', hread, hu, rfl⟩
  | i + 2 =>
    have hname : (entryNames s k)[i + 2]? = (s.tar k).children[i]?.map fun c => (s.tar c).name := by
      simp only [entryNames, List.getElem?_cons_succ, List.getElem?_map]
    rw [hname]
    cases hc : (s.tar k).children[i]? with
    | some c =>
      obtain ⟨x, s', hread, hu, -⟩ := hd.child h hl hc
      exact ⟨_, s', hread, hu, rfl⟩
    | none =>
      exact ⟨none, s, (hl.listed h hd).rest _ (Nat.add_le_add_right (List.getElem?_eq_none_iff.mp hc) 2),
        h.undisturbed, rfl⟩

/-- By the indices that are left. -/
theorem Listable.readAll (h : Stocked s) (hd : TarDirectory s d k) (hl : Listable s d k)
    (indices : List Nat) : ∃ s', readAll s d indices =
      .ok (indices.filterMap fun i => (entryNames s k)[i]?, s') := by
  induction indices generalizing s with
  | nil => exact ⟨s, rfl⟩
  | cons index rest ih =>
    obtain ⟨de, s₁, hread, hu, hname⟩ := hl.read h hd index
    obtain ⟨hd₁, hl₁⟩ := hl.undisturbed hu hd
    obtain ⟨s', hrest⟩ := ih hu.stocked hd₁ hl₁
    have hnames : entryNames s₁ k = entryNames s k := by
      simp only [entryNames, hu.same.children, hu.same.name]
    refine ⟨s', ?_⟩
    rw [hnames] at hrest
    simp only [Vfs.readAll, hread, hrest, Bind.bind, Except.bind, List.filterMap_cons, ← hname]
    cases de <;> rfl

theorem Listed.listable (h : Stocked s) (hd : TarDirectory s d k) (hl : Listed s d k) : Listable s d k := by
  have habove : s.parent d ≠ none ∨ (s.tar k).parent ≠ none := by
    by_contra hno
    obtain ⟨hp, hq⟩ := not_or.mp hno
    obtain ⟨x, s', hread⟩ := hl.up
    rw [(hd.outside (not_not.mp hp)).1, tarReaddir, if_neg one_ne_zero, if_pos rfl, not_not.mp hq] at hread
    cases hread
  -- a special case is found, and yielded before any entry
  have hspecial {i c : Nat} (hc : (s.tar k).children[i]? = some c) {index : Nat} {found : Option Nat} {t : State}
      (hfind : vfsFinddir s d (s.tar c).name = .ok (found, t)) (hfound : found ≠ none)
      (hy : Yielded s d index (s.tar c).name) : index = i + 2 := by
    obtain ⟨x, s', hread, -⟩ := hl.child i c hc
    obtain ⟨found', t', hfind', honce⟩ := hl.once (s.tar c).name
    rw [hfind] at hfind'
    cases hfind'
    exact (honce hfound).unique hy ⟨x, s', hread⟩
  refine ⟨habove, fun c hc => ?_, fun hp => ?_⟩
  · obtain ⟨i, hi⟩ := List.mem_iff_getElem?.mp hc
    refine ⟨fun hdot => ?_, fun hdotdot => ?_⟩
    · obtain ⟨x₀, s₀, -, -, -, t₀, hfind₀⟩ := hd.own h
      have := hspecial hi (hdot ▸ hfind₀) (Option.some_ne_none x₀) (hdot ▸ hl.self)
      omega
    · obtain ⟨x₁, s₁, -, -, -, t₁, hfind₁⟩ := hd.upper h habove
      have := hspecial hi (hdotdot ▸ hfind₁) (Option.some_ne_none x₁) (hdotdot ▸ hl.up)
      omega
  · obtain ⟨p, hp⟩ := Option.ne_none_iff_exists'.mp hp
    obtain ⟨fresh, hfresh, hdot, hdotdot⟩ := h.unused_name
    obtain ⟨found, s', hfind, -⟩ := hl.once fresh
    rw [(hd.inside hp).2.2.2.2.2 fresh hdot hdotdot] at hfind
    obtain ⟨o, ho, -⟩ := bind_ok.mp hfind
    obtain ⟨v, hget, hsibling⟩ := bind_ok.mp ho
    obtain ⟨l, hchain, halloc⟩ := findSibling_forward hfresh hsibling
    have hchild : s.child d = v.child := by
      obtain ⟨w, hw, -⟩ := hd.inode
      rw [get_eq hw] at hget
      obtain rfl := Except.ok.inj hget
      simp [State.link, hw]
    rw [← hchild] at hchain
    refine ⟨l, hchain, halloc, fun u hu => ?_⟩
    by_cases hudot : s.name u = dot
    · exact Or.inl hudot
    by_cases hudotdot : s.name u = dotdot
    · exact Or.inr (Or.inl hudotdot)
    obtain ⟨found, s', hfind, honce⟩ := hl.once (s.name u)
    have hfound : found ≠ none := by
      rw [(hd.inside hp).2.2.2.2.2 _ hudot hudotdot,
        findChild_chain h (driver_alloc hd.driver) hchain halloc] at hfind
      cases hf : l.find? fun w => s.name w = s.name u with
      | none =>
        rw [List.find?_eq_none] at hf
        exact absurd (decide_eq_true rfl) (hf u hu)
      | some w =>
        rw [hf] at hfind
        cases hfind
        exact Option.some_ne_none w
    obtain ⟨index, hy, -⟩ := honce hfound
    obtain ⟨-, hname⟩ | ⟨-, hname⟩ | ⟨i, c, -, hc, hname⟩ := hd.yielded hy
    · exact absurd hname hudot
    · exact absurd hname hudotdot
    · exact Or.inr (Or.inr ⟨c, List.mem_of_getElem? hc, hname⟩)

/-- In every state that calls lead to, the directories whose listings are complete and agree
with the lookups are those with nothing unusual above, in or mounted below them; the indices can
be read one after the other. -/
theorem listing_agrees (h : Transition.Reach opStep NewFresh Started s) (hd : TarDirectory s d k) :
    (Listed s d k ↔ Listable s d k) ∧ (Listable s d k → ∀ indices,
      ∃ s', readAll s d indices = .ok (indices.filterMap fun i => (entryNames s k)[i]?, s')) := by
  have hs := stocked_reach h
  exact ⟨⟨fun hl => hl.listable hs hd, fun hl => hl.listed hs hd⟩, fun hl => hl.readAll hs hd⟩

def twoFiles : Nat → TarNode
  | 0 => ⟨[], none, [1, 3], true, none, 0⟩
  | 1 => ⟨[97], some 0, [2], true, none, 0⟩
  | 2 => ⟨[98], some 1, [], false, none, 0⟩
  | 3 => ⟨[99], some 0, [], false, none, 0⟩
  | _ => ⟨[], none, [], false, none, 0⟩

theorem twoFiles_catalogue : Catalogue twoFiles where
  names k := by
    match k with
    | 0 => decide
    | 1 => decide
    | 2 => decide
    | 3 => decide
    | _ + 4 => exact List.nodup_nil
  below k := by
    match k with
    | 0 => decide
    | 1 => decide
    | 2 => decide
    | 3 => decide
    | _ + 4 => exact List.not_mem_nil

def archiveRoot : Inode := ⟨[], none, none, none, none, .tarfs 0, fsDirectory, 0⟩
def deviceNode : Inode := ⟨[], none, none, none, none, .device, 3, 0⟩

def unmounted : State := newRoot (vfsInit twoFiles) archiveRoot

theorem unmounted_reach : Transition.Reach opStep NewFresh Started unmounted := by
  refine .next (a := .newRoot archiveRoot) (.start ⟨twoFiles, twoFiles_catalogue, fun tn => ?_, rfl⟩) ?_ rfl
  · match tn with
    | 0 => rfl
    | 1 => rfl
    | 2 => rfl
    | 3 => rfl
    | _ + 4 => rfl
  · refine ⟨⟨rfl, rfl, rfl, rfl⟩, fun tn hd => ?_, fun k tn hd => ?_⟩
    · obtain rfl := Driver.tarfs.inj hd
      rfl
    · obtain rfl := Driver.tarfs.inj hd
      match k with
      | 0 => decide
      | 1 => decide
      | 2 => decide
      | 3 => decide
      | _ + 4 => exact List.not_mem_nil

/-- The archive is mounted on `/`, and a device on its file `c`. -/
def withDevice : State :=
  (Transition.exec opStep unmounted [.mount [slash] 1, .newRoot deviceNode, .mount [slash, 99] 2]).getD unmounted

theorem withDevice_reach : Transition.Reach opStep NewFresh Started withDevice := by
  have hrun : (Transition.exec opStep unmounted
      [.mount [slash] 1, .newRoot deviceNode, .mount [slash, 99] 2]).isSome := by decide +kernel
  obtain ⟨s, hs⟩ := Option.isSome_iff_exists.mp hrun
  rw [withDevice, hs]
  have hdevice (s : State) : NewFresh s (.newRoot deviceNode) :=
    ⟨⟨rfl, rfl, rfl, rfl⟩, fun tn hd => (nomatch hd), fun k tn hd => (nomatch hd)⟩
  have halong : Transition.Along opStep NewFresh unmounted
      [.mount [slash] 1, .newRoot deviceNode, .mount [slash, 99] 2] :=
    ⟨trivial, fun s _ => ⟨hdevice s, fun _ _ => ⟨trivial, fun _ _ => trivial⟩⟩⟩
  exact unmounted_reach.along halong hs

theorem listing_agrees_device : Listed withDevice 1 0 := by
  refine (listing_agrees withDevice_reach ⟨by decide +kernel, by decide +kernel⟩).1.mpr
    ⟨Or.inl (by decide +kernel), by decide +kernel, fun _ => ⟨[2], ⟨by decide +kernel, ?_⟩, ?_, ?_⟩⟩
  · exact show withDevice.older 2 = none by decide +kernel
  · intro u hu
    obtain rfl := List.mem_singleton.mp hu
    exact show (withDevice.inode 2).isSome by decide +kernel
  · intro u hu
    obtain rfl := List.mem_singleton.mp hu
    exact Or.inr (Or.inr (by decide +kernel))

/-- The second entry of the root of an archive that is not mounted is taken from a null pointer. -/
theorem listing_agrees_unmounted : Transition.Reach opStep NewFresh Started unmounted ∧
    TarDirectory unmounted 1 0 ∧ vfsReaddir unmounted 1 1 = .error .fault ∧ ¬Listed unmounted 1 0 := by
  have hfault : vfsReaddir unmounted 1 1 = .error .fault := rfl
  refine ⟨unmounted_reach, ⟨by decide +kernel, by decide +kernel⟩, hfault, fun hl => ?_⟩
  obtain ⟨x, s', hread⟩ := hl.up
  rw [hfault] at hread
  cases hread

end Os5.Vfs
