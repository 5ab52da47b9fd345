import Os5.Fs.Grafts
import Os5.Lib.Transition

/-!
# Reading directories

`vfs_readdir` counts an index down along the children of a tar node and puts the inode of the
mount tree in the place of the entry's, if there is one of that name. Which inodes the tar
nodes have in use is known in every state that calls lead to, whatever the links of the mount
tree have become.
-/

namespace Os5.Vfs

open Tarfs (dot dotdot)
open Outcome

structure Dirent where
  ino : Nat
  name : Name
  deriving DecidableEq, Repr

def nthChild : Nat → List Nat → Option Nat
  | _, [] => none
  | index, c :: cs =>
    let index := index - 1
    if index = 0 then some c else nthChild index cs

/-- The parent of the root of a tar tree is a null pointer. -/
def tarReaddir (s : State) (tn index : Nat) : Run (Option Dirent × State) :=
  if index = 0 then
    let (ino, s) := tarGetInode s tn
    .ok (some ⟨ino, dot⟩, s)
  else if index = 1 then do
    let parent ← deref (s.tar tn).parent
    let (ino, s) := tarGetInode s parent
    return (some ⟨ino, dotdot⟩, s)
  else
    match nthChild (index - 1) (s.tar tn).children with
    | some cn =>
      let name := (s.tar cn).name
      let (ino, s) := tarGetInode s cn
      .ok (some ⟨ino, name⟩, s)
    | none => .ok (none, s)

def driverReaddir (s : State) (d : Driver) (num : Nat) : Run (Option Dirent × State) :=
  match d with
  | .none => .error .fault
  | .device => .ok (none, s)
  | .tarfs tn => tarReaddir s tn num

/-- The inode of an entry is replaced by the one from the mount tree if it exists. -/
def replaceEntry (s : State) (ino : Nat) (de : Dirent) : Run (Option Dirent × State) := do
  match ← findChild s ino de.name with
  | some n => do
    let s ← vfsFree s de.ino
    return (some { de with ino := n }, s)
  | none => return (some de, s)

def vfsReaddir (s : State) (ino num : Nat) : Run (Option Dirent × State) := do
  let n ← s.get ino
  if n.type &&& fsTypeMask ≠ fsDirectory then return (none, s)
  match n.parent with
  | some parent =>
    -- the inode is in the mount tree
    if num = 0 then return (some ⟨ino, dot⟩, s)
    else if num = 1 then return (some ⟨parent, dotdot⟩, s)
    else do
      let (de, s) ← driverReaddir s n.d num
      match de with
      | some de => replaceEntry s ino de
      | none => return (none, s)
  | none => driverReaddir s n.d num

-- ---------------------------------------------------------------------------
-- The system
-- ---------------------------------------------------------------------------

inductive Op
  | newRoot (v : Inode)
  | free (ino : Nat)
  | finddir (ino : Nat) (name : Name)
  | readdir (ino num : Nat)
  | namei (path : Name)
  | mount (path : Name) (root : Nat)
  | umount (path : Name)

def runOp (s : State) : Op → Run State
  | .newRoot v => .ok (newRoot s v)
  | .free ino => vfsFree s ino
  | .finddir ino name => (vfsFinddir s ino name).map Prod.snd
  | .readdir ino num => (vfsReaddir s ino num).map Prod.snd
  | .namei path => (vfsNamei s path).map Prod.snd
  | .mount path root => (vfsMount s path root).map Prod.snd
  | .umount path => (vfsUmount s path).map Prod.snd

def opStep (s : State) (o : Op) : Option State := (runOp s o).toOption

/-- A new file system has an archive that nothing else has used. -/
def NewFresh (s : State) : Op → Prop
  | .newRoot v => Fresh s v
  | _ => True

/-- The children of a tar node have names of their own. -/
structure Catalogue (tar : Nat → TarNode) : Prop where
  names : ∀ k, ((tar k).children.map fun c => (tar c).name).Nodup
  below : ∀ k, k ∉ (tar k).children

def Started (s : State) : Prop :=
  ∃ tar, Catalogue tar ∧ (∀ tn, (tar tn).buffer = none) ∧ s = vfsInit tar

-- ---------------------------------------------------------------------------
-- The inodes of tar nodes
-- ---------------------------------------------------------------------------

/-- The inode of a tar node is its own, and in use. -/
structure Stocked (s : State) : Prop where
  bound : ∀ n, s.Alloc n → n < s.next
  buffer : ∀ tn b, (s.tar tn).buffer = some b ↔ s.driver b = .tarfs tn
  used : ∀ tn, (s.tar tn).buffer ≠ none → 0 < (s.tar tn).users
  catalogue : Catalogue s.tar

variable {s s' : State} {n tn : Nat}

theorem Catalogue.same (h : Catalogue s.tar) (hs : SameTar s s') : Catalogue s'.tar where
  names k := by
    have hnames : (fun c => (s'.tar c).name) = fun c => (s.tar c).name := funext hs.name
    rw [hs.children, hnames]
    exact h.names k
  below k := by
    rw [hs.children]
    exact h.below k

theorem Stocked.congr (h : Stocked s) (halloc : ∀ m, s'.Alloc m ↔ s.Alloc m) (hnext : s'.next = s.next)
    (hdriver : s'.driver = s.driver) (htar : s'.tar = s.tar) : Stocked s' where
  bound m hm := by
    rw [hnext]
    exact h.bound m ((halloc m).mp hm)
  buffer k b := by
    rw [htar, hdriver]
    exact h.buffer k b
  used k := by
    rw [htar]
    exact h.used k
  catalogue := by
    rw [htar]
    exact h.catalogue

theorem Stocked.alter {f : Inode → Inode} (h : Stocked s) (hf : ∀ v, (f v).d = v.d) :
    Stocked (s.alter n f) := by
  refine h.congr (fun m => alter_alloc) rfl ?_ rfl
  funext m
  by_cases hm : m = n
  · subst hm
    rw [State.driver, alter_inode_self, State.driver]
    cases s.inode m with
    | none => rfl
    | some v => exact hf v
  · rw [State.driver, alter_inode_ne hm, State.driver]

/-- What a computation on a stocked state leaves. -/
abbrev Keeps (x : Run State) : Prop := Yields x (fun _ => True) Stocked

theorem Stocked.assign {f : Inode → Inode} (h : Stocked s) (hf : ∀ v, (f v).d = v.d) :
    Keeps (s.assign n f) := by
  by_cases hn : s.Alloc n
  · rw [assign_eq hn]
    exact h.alter hf
  · have hnone : s.inode n = none := Option.not_isSome_iff_eq_none.mp hn
    rw [State.assign, State.get, hnone]
    exact trivial

theorem Stocked.setParent (h : Stocked s) (x : Option Nat) : Keeps (s.setParent n x) := h.assign fun _ => rfl
theorem Stocked.setChild (h : Stocked s) (x : Option Nat) : Keeps (s.setChild n x) := h.assign fun _ => rfl
theorem Stocked.setOlder (h : Stocked s) (x : Option Nat) : Keeps (s.setOlder n x) := h.assign fun _ => rfl
theorem Stocked.setYounger (h : Stocked s) (x : Option Nat) : Keeps (s.setYounger n x) := h.assign fun _ => rfl

theorem yields_any {α β : Type} {x : Run α} {f : α → Run β} {Q : β → Prop}
    (hf : ∀ a, Yields (f a) (fun _ => True) Q) : Yields (x >>= f) (fun _ => True) Q := by
  cases x with
  | ok a => exact hf a
  | error e => exact trivial

theorem Stocked.counted (h : Stocked s) (hc : Counted s s')
    (hused : ∀ k, (s.tar k).buffer ≠ none → 0 < (s'.tar k).users) : Stocked s' where
  bound m hm := by
    rw [State.Alloc, hc.inode] at hm
    rw [hc.next]
    exact h.bound m hm
  buffer k b := by
    rw [hc.buffer, hc.driver]
    exact h.buffer k b
  used k hk := by
    rw [hc.buffer] at hk
    exact hused k hk
  catalogue := h.catalogue.same hc.same

theorem Stocked.added {v : Inode} (h : Stocked s) (ha : Added s s' v)
    (hused : ∀ k, (s'.tar k).buffer ≠ none → 0 < (s'.tar k).users) : Stocked s' where
  bound m hm := by
    rw [ha.next]
    obtain hold | rfl := ha.alloc.mp hm
    · exact Nat.lt_succ_of_lt (h.bound m hold)
    · exact Nat.lt_succ_self _
  buffer := ha.buffer_iff (fun hn => lt_irrefl _ (h.bound _ hn)) h.buffer
  used := hused
  catalogue := h.catalogue.same ha.same

theorem putTar_tar (s : State) (tn k : Nat) (t : TarNode) :
    (s.putTar tn t).tar k = if k = tn then t else s.tar k := Function.update_apply _ _ _ _

theorem Stocked.newRoot {v : Inode} (h : Stocked s) (hv : Fresh s v) : Stocked (newRoot s v) := by
  refine h.added (newRoot_added hv) fun k => ?_
  have hother (s₁ : State) : ({ s₁.put s₁.next v with next := s₁.next + 1 } : State).tar = s₁.tar := rfl
  simp only [Vfs.newRoot]
  split
  · next tn hd =>
    rw [hother, putTar_tar]
    split
    · exact fun _ => Nat.one_pos
    · exact h.used k
  · exact h.used k

structure Fetches (s s' : State) (tn x : Nat) : Prop where
  stocked : Stocked s'
  same : SameTar s s'
  driver : s'.driver x = .tarfs tn
  inode : ∀ m, s.Alloc m → s'.inode m = s.inode m
  kept : (s.tar tn).buffer ≠ none → 1 < (s'.tar tn).users

theorem Stocked.fetch (h : Stocked s) (tn : Nat) :
    Fetches s (tarGetInode s tn).2 tn (tarGetInode s tn).1 := by
  cases hb : (s.tar tn).buffer with
  | some b =>
    obtain ⟨s₁, hget, hc⟩ := tarGetInode_some hb
    have hs₁ (k : Nat) : (s₁.tar k).users = if k = tn then (s.tar tn).users + 1 else (s.tar k).users := by
      have := hget
      simp only [tarGetInode, hb] at this
      rw [← (Prod.mk.inj this).2, putTar_tar]
      split <;> rfl
    have hpos := h.used tn (by rw [hb]; exact Option.some_ne_none b)
    rw [hget]
    refine ⟨h.counted hc fun k hk => ?_, hc.same, ?_, fun m _ => by rw [hc.inode], fun _ => ?_⟩
    · rw [hs₁]
      split
      · exact Nat.succ_pos _
      · exact h.used k hk
    · rw [hc.driver]
      exact (h.buffer tn b).mp hb
    · rw [hs₁, if_pos rfl]
      exact Nat.succ_lt_succ hpos
  | none =>
    obtain ⟨s₁, hget, ha⟩ := tarGetInode_none hb
    have hs₁ (k : Nat) : s₁.tar k = if k = tn then { s.tar tn with buffer := some s.next, users := 1 }
        else s.tar k := by
      have := hget
      simp only [tarGetInode, hb] at this
      rw [← (Prod.mk.inj this).2]
      exact putTar_tar _ _ _ _
    rw [hget]
    refine ⟨h.added ha fun k => ?_, ha.same, ?_, fun m hm => ?_, fun hne => absurd hb hne⟩
    · rw [hs₁]
      split
      · exact fun _ => Nat.one_pos
      · exact h.used k
    · rw [ha.driver, Function.update_self]
      rfl
    · rw [ha.inode, Function.update_of_ne (h.bound m hm).ne]

structure Frees (s s' : State) (n : Nat) : Prop where
  stocked : Stocked s'
  same : SameTar s s'
  others : ∀ m, m ≠ n → s'.inode m = s.inode m
  /-- An inode in use twice is not freed. -/
  self : ∀ tn, s.driver n = .tarfs tn → 1 < (s.tar tn).users → s'.inode n = s.inode n

theorem Stocked.flush (h : Stocked s) (hd : s.driver n = .tarfs tn) :
    ∃ s', flushTar s tn = .ok s' ∧ Frees s s' n := by
  have hb : (s.tar tn).buffer = some n := (h.buffer tn n).mpr hd
  have hrelease : SameTar s (s.release n) := sameTar_of_eq rfl
  rw [flushTar]
  by_cases hone : (s.tar tn).users - 1 = 0
  · simp only [if_pos hone, hb]
    have hsame : SameTar s ((s.release n).putTar tn ⟨(s.tar tn).name, (s.tar tn).parent,
        (s.tar tn).children, (s.tar tn).directory, none, 0⟩) :=
      hrelease.trans (putTar_same rfl rfl rfl rfl)
    refine ⟨_, rfl, ⟨fun m hm => ?_, fun k b => ?_, fun k => ?_, h.catalogue.same hsame⟩,
      hsame, fun m hm => Function.update_of_ne hm _ _, fun k hk husers => ?_⟩
    · have hmn : m ≠ n := by
        rintro rfl
        simp [State.Alloc, State.putTar, State.release] at hm
      refine h.bound m ?_
      rwa [State.Alloc, show ((s.release n).putTar tn _).inode m = s.inode m from
        Function.update_of_ne hmn _ _] at hm
    · rw [putTar_tar]
      by_cases hbn : b = n
      · subst hbn
        have hnone : ((s.release b).putTar tn ⟨(s.tar tn).name, (s.tar tn).parent, (s.tar tn).children,
            (s.tar tn).directory, none, 0⟩).driver b = .none := by
          simp [State.driver, State.putTar, State.release]
        rw [hnone]
        split
        · exact iff_of_false (fun hc => by cases hc) (fun hc => by cases hc)
        · next hk =>
          refine iff_of_false (fun hc => hk ?_) (fun hc => by cases hc)
          rw [show (s.release b).tar = s.tar from rfl, h.buffer, hd] at hc
          exact (Driver.tarfs.inj hc).symm
      · have hdriver : ((s.release n).putTar tn ⟨(s.tar tn).name, (s.tar tn).parent, (s.tar tn).children,
            (s.tar tn).directory, none, 0⟩).driver b = s.driver b := by
          rw [State.driver, show ((s.release n).putTar tn _).inode b = s.inode b from
            Function.update_of_ne hbn _ _, State.driver]
        rw [hdriver, ← h.buffer]
        split
        · next hk =>
          subst hk
          rw [hb]
          exact ⟨fun hc => (by cases hc), fun hc => absurd (Option.some.inj hc).symm hbn⟩
        · exact Iff.rfl
    · rw [putTar_tar]
      split
      · exact fun hc => absurd rfl hc
      · exact h.used k
    · rw [hd] at hk
      cases hk
      omega
  · simp only [if_neg hone]
    have hc : Counted s (s.putTar tn { s.tar tn with users := (s.tar tn).users - 1 }) := by
      refine ⟨rfl, rfl, putTar_same rfl rfl rfl rfl, rfl, fun k => ?_⟩
      rw [putTar_tar]
      split
      · next hk => rw [hk]
      · rfl
    refine ⟨_, rfl, h.counted hc fun k hk => ?_, hc.same, fun _ _ => rfl, fun _ _ _ => rfl⟩
    rw [putTar_tar]
    split
    · exact Nat.pos_of_ne_zero hone
    · exact h.used k hk

theorem Stocked.released (h : Stocked s) (hd : ∀ k, s.driver n ≠ .tarfs k) : Stocked (s.release n) where
  bound m hm := by
    refine h.bound m ?_
    by_cases hmn : m = n
    · subst hmn
      simp [State.Alloc, State.release] at hm
    · rwa [State.Alloc, show (s.release n).inode m = s.inode m from Function.update_of_ne hmn _ _] at hm
  buffer k b := by
    rw [show (s.release n).tar = s.tar from rfl, h.buffer]
    by_cases hbn : b = n
    · subst hbn
      refine iff_of_false (hd k) ?_
      simp [State.driver, State.release]
    · rw [State.driver, State.driver, show (s.release n).inode b = s.inode b from
        Function.update_of_ne hbn _ _]
  used := h.used
  catalogue := h.catalogue

theorem Stocked.free (h : Stocked s) (hn : s.Alloc n) : ∃ s', vfsFree s n = .ok s' ∧ Frees s s' n := by
  obtain ⟨v, hv⟩ := Option.isSome_iff_exists.mp hn
  have hdriver : s.driver n = v.d := by simp [State.driver, hv]
  have hsame : Frees s s n := ⟨h, SameTar.refl s, fun _ _ => rfl, fun _ _ _ => rfl⟩
  simp only [vfsFree, get_eq hv, Bind.bind, Except.bind]
  by_cases hp : v.parent ≠ none
  · rw [if_pos hp]
    exact ⟨s, rfl, hsame⟩
  rw [if_neg hp]
  by_cases hu : 0 < v.users
  · rw [if_pos hu]
    exact ⟨s, rfl, hsame⟩
  rw [if_neg hu]
  have hrelease (hd : ∀ k, v.d ≠ .tarfs k) : Frees s (s.release n) n :=
    ⟨h.released (fun k => hdriver ▸ hd k), sameTar_of_eq rfl,
      fun m hm => Function.update_of_ne hm _ _, fun k hk => absurd (hdriver.symm.trans hk) (hd k)⟩
  cases hd : v.d with
  | none => exact ⟨_, rfl, hrelease fun k => by simp [hd]⟩
  | device => exact ⟨_, rfl, hrelease fun k => by simp [hd]⟩
  | tarfs k => exact h.flush (hdriver.trans hd)

theorem Stocked.vfsFree (h : Stocked s) (n : Nat) : Keeps (vfsFree s n) := by
  by_cases hn : s.Alloc n
  · obtain ⟨s', hs', hf⟩ := h.free hn
    exact Yields.of_ok ⟨s', hs', hf.stocked⟩
  · rw [Vfs.vfsFree, State.get, Option.not_isSome_iff_eq_none.mp hn]
    exact trivial

-- ---------------------------------------------------------------------------
-- Every call keeps them
-- ---------------------------------------------------------------------------

abbrev Answers {α : Type} (x : Run (α × State)) : Prop := Yields x (fun _ => True) fun r => Stocked r.2

theorem Stocked.driverFinddir (h : Stocked s) (d : Driver) (name : Name) :
    Answers (driverFinddir s d name) := by
  cases d with
  | none => exact trivial
  | device => exact h
  | tarfs tn =>
    rw [Vfs.driverFinddir, tarFinddir]
    split
    · exact (h.fetch tn).stocked
    split
    · exact yields_any fun parent => (h.fetch parent).stocked
    split
    · next c hc => exact (h.fetch c).stocked
    · exact h

theorem Stocked.vfsFinddir (h : Stocked s) (ino : Nat) (name : Name) : Answers (vfsFinddir s ino name) := by
  refine yields_any fun n => ?_
  split
  · exact h
  split
  · split
    · exact h
    split
    · exact h
    · refine yields_any fun c => ?_
      split
      · exact h
      · exact h.driverFinddir _ _
  · exact h.driverFinddir _ _

theorem Stocked.driverReaddir (h : Stocked s) (d : Driver) (num : Nat) :
    Answers (driverReaddir s d num) := by
  cases d with
  | none => exact trivial
  | device => exact h
  | tarfs tn =>
    rw [Vfs.driverReaddir, tarReaddir]
    split
    · exact (h.fetch tn).stocked
    split
    · exact yields_any fun parent => (h.fetch parent).stocked
    split
    · next c hc => exact (h.fetch c).stocked
    · exact h

theorem Stocked.replaceEntry (h : Stocked s) (ino : Nat) (de : Dirent) :
    Answers (replaceEntry s ino de) := by
  refine yields_any fun c => ?_
  split
  · exact (h.vfsFree _).bind fun s hs => hs
  · exact h

theorem Stocked.vfsReaddir (h : Stocked s) (ino num : Nat) : Answers (vfsReaddir s ino num) := by
  refine yields_any fun n => ?_
  split
  · exact h
  split
  · split
    · exact h
    split
    · exact h
    · refine (h.driverReaddir _ _).bind fun r hr => ?_
      obtain ⟨de, s₁⟩ := r
      cases de with
      | some de => exact Stocked.replaceEntry hr ino de
      | none => exact hr
  · exact h.driverReaddir _ _

theorem Stocked.pushNode (h : Stocked s) (current next : Nat) : Keeps (pushNode s current next) :=
  (h.setParent _).bind fun _ h₁ => yields_any fun _ => (h₁.setOlder _).bind fun _ h₂ => h₂.setChild _

theorem Stocked.walkTokens (h : Stocked s) (mounting : Bool) (current : Nat) (names : List Name) :
    Answers (walkTokens mounting s current names) := by
  induction names generalizing s current with
  | nil => exact h
  | cons name names ih =>
    refine (h.vfsFinddir current name).bind fun r hr => ?_
    obtain ⟨next, s₁⟩ := r
    cases next with
    | none => exact (Stocked.vfsFree hr current).bind fun s hs => hs
    | some next =>
      cases mounting with
      | true =>
        exact (Stocked.pushNode hr current next).bind fun s₂ h₂ =>
          (h₂.vfsFree current).bind fun s₃ h₃ => ih h₃ next
      | false => exact (Stocked.vfsFree hr current).bind fun s₃ h₃ => ih h₃ next

theorem Stocked.walkPath (h : Stocked s) (mounting : Bool) (path : Name) :
    Answers (walkPath mounting s path) :=
  yields_any fun r => h.walkTokens mounting r.1 r.2

theorem Stocked.replaceName (h : Stocked s) (current root : Nat) : Keeps (replaceName s current root) := by
  refine yields_any fun c => ?_
  have hname : Keeps (s.assign root fun n => { n with name := c.name, type := n.type ||| fsMount }) :=
    h.assign fun _ => rfl
  refine hname.bind fun s₁ h₁ => ?_
  rw [yields_pure]
  split
  · exact h₁.congr (fun _ => Iff.rfl) rfl rfl rfl
  · exact h₁

theorem Stocked.replaceNode (h : Stocked s) (current root : Nat) : Keeps (replaceNode s current root) := by
  have hparent : Keeps (replaceParent s current root) := by
    refine yields_any fun c => (h.setParent _).bind fun _ h₁ => (h₁.setParent _).bind fun s₂ h₂ =>
      yields_any fun r => yields_any fun p => yields_any fun pn => ?_
    split
    · exact h₂.setChild _
    · exact h₂
  have holder {s : State} (h : Stocked s) : Keeps (replaceOlder s current root) := by
    refine yields_any fun c => (h.setOlder _).bind fun s₁ h₁ => ?_
    split
    · exact h₁.setYounger _
    · exact h₁
  have hyounger {s : State} (h : Stocked s) : Keeps (replaceYounger s current root) := by
    refine yields_any fun c => (h.setYounger _).bind fun s₁ h₁ => ?_
    split
    · exact h₁.setOlder _
    · exact h₁
  exact hparent.bind fun _ h₁ => (holder h₁).bind fun _ h₂ => (hyounger h₂).bind fun _ h₃ =>
    (h₃.replaceName current root).bind fun _ h₄ => (h₄.vfsFree _).bind fun _ h₅ => h₅.vfsFree _

theorem Stocked.vfsMount (h : Stocked s) (path : Name) (root : Nat) : Answers (vfsMount s path root) := by
  refine (h.walkPath true path).bind fun r hr => ?_
  obtain ⟨found, s₁⟩ := r
  cases found with
  | none => exact hr
  | some current => exact (Stocked.replaceNode hr current root).bind fun s₂ h₂ => h₂

theorem Stocked.removeNode (h : Stocked s) (ino : Nat) : Keeps (removeNode s ino) := by
  have hyounger {s : State} (h : Stocked s) (y o : Option Nat) : Keeps (joinYounger s y o) := by
    cases y with
    | none => exact h
    | some y => exact h.setOlder _
  have holder {s : State} (h : Stocked s) (y o : Option Nat) : Keeps (joinOlder s y o) := by
    cases o with
    | none => exact h
    | some o => exact h.setYounger _
  refine yields_any fun n => yields_any fun p => yields_any fun pn => ?_
  split
  · exact (h.setChild _).bind fun _ h₁ => (hyounger h₁ _ _).bind fun _ h₂ => holder h₂ _ _
  · exact (hyounger h _ _).bind fun _ h₂ => holder h₂ _ _

theorem Stocked.vfsUmount (h : Stocked s) (path : Name) : Answers (vfsUmount s path) := by
  refine yields_any fun r => ?_
  obtain ⟨ino, names⟩ := r
  by_cases hnames : names ≠ []
  · simp only [if_pos hnames]
    exact h
  simp only [if_neg hnames]
  refine yields_any fun n => ?_
  by_cases hchild : n.child ≠ none
  · rw [if_pos hchild]
    exact h
  · rw [if_neg hchild]
    exact (h.removeNode ino).bind fun s₁ h₁ => h₁

theorem Answers.keeps {α : Type} {x : Run (α × State)} (h : Answers x) : Keeps (x.map Prod.snd) := by
  cases x with
  | ok r => exact h
  | error e => exact trivial

theorem Stocked.step {o : Op} (h : Stocked s) (hok : NewFresh s o) (hstep : opStep s o = some s') :
    Stocked s' := by
  have hkeeps : Keeps (runOp s o) := by
    cases o with
    | newRoot v => exact h.newRoot hok
    | free ino => exact h.vfsFree ino
    | finddir ino name => exact (h.vfsFinddir ino name).keeps
    | readdir ino num => exact (h.vfsReaddir ino num).keeps
    | namei path => exact (h.walkPath false path).keeps
    | mount path root => exact (h.vfsMount path root).keeps
    | umount path => exact (h.vfsUmount path).keeps
  refine hkeeps.of_eq_ok ?_
  rw [opStep] at hstep
  cases hr : runOp s o with
  | ok r =>
    rw [hr] at hstep
    exact congrArg Except.ok (Option.some.inj hstep)
  | error e =>
    rw [hr] at hstep
    cases hstep

theorem vfsInit_stocked {tar : Nat → TarNode} (h : Catalogue tar) (hfree : ∀ tn, (tar tn).buffer = none) :
    Stocked (vfsInit tar) where
  bound n hn := by
    by_cases h0 : n = 0
    · rw [h0]
      exact Nat.one_pos
    · simp [State.Alloc, vfsInit, h0] at hn
  buffer tn b := by
    have hdriver : (vfsInit tar).driver b = .none := by
      by_cases h0 : b = 0
      · simp [State.driver, vfsInit, h0]
      · simp [State.driver, vfsInit, h0]
    rw [hdriver, show (vfsInit tar).tar = tar from rfl, hfree]
    exact iff_of_false (fun hc => by cases hc) (fun hc => by cases hc)
  used tn hne := absurd (hfree tn) hne
  catalogue := h

theorem stocked_reach (h : Transition.Reach opStep NewFresh Started s) : Stocked s :=
  h.invariant (fun s hs => by
    obtain ⟨tar, hcat, hfree, rfl⟩ := hs
    exact vfsInit_stocked hcat hfree) fun s o s' hs hok hstep => hs.step hok hstep

end Os5.Vfs
