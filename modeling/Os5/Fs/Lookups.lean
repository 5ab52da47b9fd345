import Os5.Fs.MountPoints

/-!
# Two lookups of a path

`open` looks a path up after `canonicalize_path` took it apart by its text alone; `stat`
and `execve` walk it as it is. A place is what components lead to before any inode is
made for it, and the walk of `vfs_namei` goes from place to place.
-/

namespace Os5.Vfs

open Tarfs (dot dotdot)

variable {s s' s₁ s₂ : State} {kids : Nat → List Nat}

-- ---------------------------------------------------------------------------
-- Places
-- ---------------------------------------------------------------------------

/-- An inode of the mount tree, or a node of an archive that has none there. -/
inductive Place
  | mounted (u : Nat)
  | stored (k : Nat)
  deriving DecidableEq, Repr

namespace Place

def object (s : State) : Place → Object
  | mounted u => Vfs.object s u
  | stored k => .node k

def Directory (s : State) : Place → Prop
  | mounted u => s.kind u &&& fsTypeMask = fsDirectory
  | stored k => (s.tar k).directory = true

def down (s : State) (kids : Nat → List Nat) (name : Name) : Place → Option Place
  | mounted u =>
    match (tree s kids).child u name with
    | some c => some (mounted c)
    | none =>
      if s.kind u &&& fsTypeMask = fsDirectory then (s.driverChild (s.driver u) name).map stored
      else none
  | stored k => ((archive s).child k name).map stored

end Place

def placeAt (s : State) (kids : Nat → List Nat) (names : List Name) : Option Place :=
  names.foldl (fun pl name => pl.bind (Place.down s kids name)) (some (.mounted s.vfsRoot))

def DirectoryAt (s : State) (kids : Nat → List Nat) (names : List Name) : Prop :=
  ∃ pl ∈ placeAt s kids names, pl.Directory s

theorem placeAt_concat (names : List Name) (name : Name) : placeAt s kids (names ++ [name]) =
    (placeAt s kids names).bind (Place.down s kids name) := by
  rw [placeAt, List.foldl_append]
  rfl

/-- The mount tree while no lookup is going on. Inodes that were made for the nodes of
archives below it, and are in use, have no place in it. -/
structure Settled (s : State) (kids : Nat → List Nat) : Prop where
  shape : Shape s kids
  up : ∀ k c, c ∈ (s.tar k).children → (s.tar c).parent = some k
  deep : ∃ depth : Nat → Nat, ∀ k c, c ∈ (s.tar k).children → depth k < depth c
  named : ∀ k c, c ∈ (s.tar k).children → (s.tar c).name ≠ []
  driven : ∀ n, Inside s kids n → s.kind n &&& fsTypeMask = fsDirectory → s.driver n ≠ .none
  stem : ∀ n, Inside s kids n → kids n ≠ [] → s.kind n &&& fsTypeMask = fsDirectory
  titled : ∀ n c, Inside s kids n → c ∈ kids n → s.name c ≠ [] ∧ s.name c ≠ dot ∧ s.name c ≠ dotdot
  loose : ∀ names k b, placeAt s kids names = some (.stored k) → (s.tar k).buffer = some b →
    s.parent b = none ∧ s.kind b = (newInode (s.tar k) k).type
  blank : ∀ n, ¬s.Alloc n → kids n = []

section
variable {names : List Name} {name : Name} {u k : Nat} {pl : Place}

theorem down_mounted (h : pl.down s kids name = some (.mounted u)) :
    ∃ p, pl = .mounted p ∧ (tree s kids).child p name = some u := by
  cases pl with
  | mounted p =>
    rw [Place.down] at h
    split at h
    · next c hc =>
      cases h
      exact ⟨p, rfl, hc⟩
    · split at h
      · obtain ⟨k, -, hk⟩ := Option.map_eq_some_iff.mp h
        cases hk
      · cases h
  | stored p =>
    obtain ⟨k, -, hk⟩ := Option.map_eq_some_iff.mp h
    cases hk

theorem down_stored (h : pl.down s kids name = some (.stored k)) :
    (∃ p j, pl = .mounted p ∧ (tree s kids).child p name = none ∧
        s.kind p &&& fsTypeMask = fsDirectory ∧ s.driver p = .tarfs j ∧ s.tarChild j name = some k) ∨
      ∃ j, pl = .stored j ∧ (s.tar j).directory = true ∧ s.tarChild j name = some k := by
  cases pl with
  | mounted p =>
    rw [Place.down] at h
    split at h
    · cases h
    · next hnone =>
      split at h
      · next hdir =>
        obtain ⟨k', hk, he⟩ := Option.map_eq_some_iff.mp h
        cases he
        cases hd : s.driver p with
        | tarfs j =>
          rw [hd] at hk
          exact Or.inl ⟨p, j, rfl, hnone, hdir, hd, hk⟩
        | none => rw [hd] at hk; cases hk
        | device => rw [hd] at hk; cases hk
      · cases h
  | stored j =>
    obtain ⟨k', hk, he⟩ := Option.map_eq_some_iff.mp h
    cases he
    rw [archive_child] at hk
    split at hk
    · next hdir => exact Or.inr ⟨j, rfl, hdir, hk⟩
    · cases hk

theorem placeAt_inside (h : placeAt s kids names = some (.mounted u)) : Inside s kids u := by
  induction names using List.reverseRecOn generalizing u with
  | nil =>
    cases h
    exact Inside.root
  | append_singleton names name ih =>
    rw [placeAt_concat] at h
    obtain ⟨pl, hpl, hdown⟩ := Option.bind_eq_some_iff.mp h
    obtain ⟨p, rfl, hc⟩ := down_mounted hdown
    exact (ih hpl).kid (tree_mem (Named.child_mem hc).1).2

end

-- ---------------------------------------------------------------------------
-- Inodes on loan
-- ---------------------------------------------------------------------------

/-- A lookup changes nothing of the mount tree; it makes and frees inodes for nodes of the
archives. -/
structure Lent (s : State) (kids : Nat → List Nat) (s' : State) : Prop where
  shape : Shape s' kids
  vfsRoot : s'.vfsRoot = s.vfsRoot
  same : SameTar s s'
  inside : ∀ n, Inside s kids n → s'.inode n = s.inode n
  next : s.next ≤ s'.next
  loose : ∀ names k b, placeAt s kids names = some (.stored k) → (s'.tar k).buffer = some b →
    s'.parent b = none ∧ s'.kind b = (newInode (s.tar k) k).type

/-- The inode a lookup has in hand for a place; it counts one use of a stored node's. -/
def Holds (s : State) : Place → Nat → Prop
  | .mounted u, x => x = u
  | .stored k, x => (s.tar k).buffer = some x ∧ 0 < (s.tar k).users

theorem Settled.lent (h : Settled s kids) : Lent s kids s :=
  ⟨h.shape, rfl, SameTar.refl s, fun _ _ => rfl, le_rfl, h.loose⟩

section
variable {n k m x : Nat} {names : List Name} {name : Name}

theorem Lent.child (h : Lent s kids s') (hs : Settled s kids) (hn : Inside s kids n) (name : Name) :
    (tree s' kids).child n name = (tree s kids).child n name := by
  have hna := hn.alloc hs.shape
  have hna' : s'.Alloc n := by
    rw [State.Alloc, h.inside n hn]
    exact hna
  rw [tree_child hna, tree_child hna']
  refine List.find?_congr fun c hc => ?_
  rw [State.name, h.inside c (hn.kid hc), State.name]

theorem Lent.kind (h : Lent s kids s') (hn : Inside s kids n) : s'.kind n = s.kind n := by
  rw [State.kind, h.inside n hn, State.kind]

theorem Lent.driver (h : Lent s kids s') (hn : Inside s kids n) : s'.driver n = s.driver n := by
  rw [State.driver, h.inside n hn, State.driver]

theorem Lent.parent (h : Lent s kids s') (hn : Inside s kids n) : s'.parent n = s.parent n := by
  show (s'.inode n).bind _ = (s.inode n).bind _
  rw [h.inside n hn]

theorem Lent.alloc (h : Lent s kids s') (hs : Settled s kids) (hn : Inside s kids n) : s'.Alloc n := by
  rw [State.Alloc, h.inside n hn]
  exact hn.alloc hs.shape

theorem tarGetInode_tar (s : State) (m : Nat) (hk : k ≠ m) : (tarGetInode s m).2.tar k = s.tar k := by
  rw [tarGetInode]
  cases hb : (s.tar m).buffer with
  | some b => exact Function.update_of_ne hk _ _
  | none => exact Function.update_of_ne hk _ _

theorem tarGetInode_users (s : State) (m : Nat) :
    ((tarGetInode s m).2.tar m).buffer = some (tarGetInode s m).1 ∧
      0 < ((tarGetInode s m).2.tar m).users ∧
      ((s.tar m).buffer ≠ none → (s.tar m).users < ((tarGetInode s m).2.tar m).users) := by
  rw [tarGetInode]
  cases hb : (s.tar m).buffer with
  | some b => simp [State.putTar]
  | none => simp [State.putTar]

theorem Lent.fetch (h : Lent s kids s') (hs : Settled s kids) (m : Nat) :
    Lent s kids (tarGetInode s' m).2 ∧ ∀ n, s'.Alloc n → (tarGetInode s' m).2.inode n = s'.inode n := by
  cases hb : (s'.tar m).buffer with
  | some b =>
    obtain ⟨s₁, hget, hc⟩ := tarGetInode_some hb
    rw [hget]
    refine ⟨⟨h.shape.counted hc, hc.vfsRoot.trans h.vfsRoot, h.same.trans hc.same, fun n hn => ?_,
      hc.next ▸ h.next, fun names k x hk hx => ?_⟩, fun n _ => by rw [hc.inode]⟩
    · rw [hc.inode]
      exact h.inside n hn
    · rw [hc.buffer] at hx
      rw [State.parent, hc.link, hc.kind]
      exact h.loose names k x hk hx
  | none =>
    obtain ⟨s₁, hget, ha⟩ := tarGetInode_none hb
    rw [hget]
    have hold : ∀ n, s'.Alloc n → s₁.inode n = s'.inode n := fun n hn => by
      rw [ha.inode, Function.update_of_ne (h.shape.bound n hn).ne]
    have hblank : kids s'.next = [] := by
      refine hs.blank _ fun hn => ?_
      exact absurd (hs.shape.bound _ hn) (not_lt.mpr h.next)
    have hshape := h.shape.added ha
    rw [← hblank, Function.update_eq_self] at hshape
    refine ⟨⟨hshape, ha.vfsRoot.trans h.vfsRoot, h.same.trans ha.same, fun n hn => ?_,
      h.next.trans (ha.next ▸ Nat.le_succ _), fun names k x hk hx => ?_⟩, hold⟩
    · rw [hold n (h.alloc hs hn)]
      exact h.inside n hn
    · rw [ha.buffer] at hx
      rw [State.parent, ha.link h.shape rfl, ha.kind]
      split at hx
      · next hd =>
        cases hx
        cases hd
        refine ⟨link_none h.shape.next_free, ?_⟩
        rw [Function.update_self, newInode, newInode, h.same.directory]
      · rw [Function.update_of_ne (h.shape.bound x (h.shape.buffered hx)).ne]
        exact h.loose names k x hk hx

theorem vfsFree_tar (hs : Shape s kids) (hp : s.parent x = none) (hx : (s.tar k).buffer = some x)
    (h : vfsFree s x = .ok s') : (∀ m, m ≠ k → s'.tar m = s.tar m) ∧
      (1 < (s.tar k).users → (s'.tar k).buffer = some x ∧ 0 < (s'.tar k).users) := by
  have hd := (hs.buffer k x).mp hx
  obtain ⟨v, hv⟩ := Option.isSome_iff_exists.mp (driver_alloc hd)
  have hparent : v.parent = none := by simpa [State.link, hv] using hp
  have hdriver : v.d = .tarfs k := by simpa [State.driver, hv] using hd
  simp only [vfsFree, get_eq hv, Bind.bind, Except.bind, hparent] at h
  rw [if_neg (by simp)] at h
  by_cases hu : 0 < v.users
  · rw [if_pos hu] at h
    cases h
    exact ⟨fun _ _ => rfl, fun h1 => ⟨hx, Nat.zero_lt_of_lt h1⟩⟩
  rw [if_neg hu] at h
  simp only [hdriver, flushTar] at h
  by_cases hone : (s.tar k).users - 1 = 0
  · rw [if_pos hone, hx] at h
    cases h
    exact ⟨fun m hm => Function.update_of_ne hm _ _, fun h1 => absurd hone (by omega)⟩
  · rw [if_neg hone] at h
    cases h
    refine ⟨fun m hm => Function.update_of_ne hm _ _, fun _ => ?_⟩
    simp only [State.putTar, Function.update_self]
    exact ⟨hx, Nat.pos_of_ne_zero hone⟩

theorem Settled.stored_outside (h : Lent s kids s') (hs : Settled s kids)
    (hk : placeAt s kids names = some (.stored k)) (hx : (s'.tar k).buffer = some x) :
    ¬Inside s kids x ∧ Apart s' kids x := by
  have hparent := (h.loose names k x hk hx).1
  refine ⟨fun hin => ?_, h.shape.apart_of_parent hparent⟩
  rw [h.parent hin] at hparent
  exact hin.parent hs.shape hparent

theorem Lent.free (h : Lent s kids s') (hs : Settled s kids)
    (hk : placeAt s kids names = some (.stored k)) (hx : (s'.tar k).buffer = some x) :
    ∃ s₁, vfsFree s' x = .ok s₁ ∧ Lent s kids s₁ ∧ (∀ m, m ≠ k → s₁.tar m = s'.tar m) ∧
      (1 < (s'.tar k).users → (s₁.tar k).buffer = some x ∧ 0 < (s₁.tar k).users) := by
  obtain ⟨hout, hapart⟩ := hs.stored_outside h hk hx
  have hparent := (h.loose names k x hk hx).1
  obtain ⟨s₁, hfree, hf⟩ := vfsFree_freed h.shape (h.shape.buffered hx) hparent
  obtain ⟨hother, hkept⟩ := vfsFree_tar h.shape hparent hx hfree
  refine ⟨s₁, hfree, ⟨h.shape.freed hf hapart, hf.vfsRoot.trans h.vfsRoot, h.same.trans hf.same,
    fun n hn => ?_, hf.next ▸ h.next, fun names' j b hj hb => ?_⟩, hother, hkept⟩
  · rw [hf.others n fun he => hout (he ▸ hn)]
    exact h.inside n hn
  · obtain ⟨hold, halloc⟩ := (hf.buffer j b).mp hb
    have hinode : s₁.inode b = s'.inode b := by
      by_cases hbx : b = x
      · subst hbx
        refine hf.self.resolve_right fun hnone => ?_
        rw [State.Alloc, hnone] at halloc
        cases halloc
      · exact hf.others b hbx
    have hloose := h.loose names' j b hj hold
    rw [State.kind, hinode, ← State.kind]
    refine ⟨?_, hloose.2⟩
    show (s₁.inode b).bind _ = none
    rw [hinode]
    exact hloose.1

end

-- ---------------------------------------------------------------------------
-- One step of a lookup
-- ---------------------------------------------------------------------------

/-- The step of `walkTokens` without mounting. -/
def lookStep (s : State) (x : Nat) (name : Name) : Run (Option Nat × State) := do
  let (next, s) ← vfsFinddir s x name
  let s ← vfsFree s x
  return (next, s)

def StepTo (s : State) (kids : Nat → List Nat) (names : List Name) (name : Name) : Prop :=
  name ≠ [] ∧ (name = dot ∨ name = dotdot → DirectoryAt s kids names) ∧
    placeAt s kids (after names name) ≠ none

section
variable {k m x : Nat} {names : List Name} {name : Name} {pl : Place}

theorem lookStep_eq {r : Option Nat} (hfind : vfsFinddir s x name = .ok (r, s₁))
    (hfree : vfsFree s₁ x = .ok s₂) : lookStep s x name = .ok (r, s₂) := by
  rw [lookStep, hfind]
  show (vfsFree s₁ x >>= _) = _
  rw [hfree]
  rfl

theorem walkTokens_none (h : lookStep s x name = .ok (none, s')) :
    walkTokens false s x (name :: names) = .ok (none, s') := by
  obtain ⟨⟨next, s₁⟩, hfind, hrest⟩ := Outcome.bind_ok.mp h
  obtain ⟨s₂, hfree, hret⟩ := Outcome.bind_ok.mp hrest
  cases hret
  simp only [walkTokens, hfind, hfree, Bind.bind, Except.bind]
  rfl

theorem walkTokens_some (h : lookStep s x name = .ok (some m, s')) :
    walkTokens false s x (name :: names) = walkTokens false s' m names := by
  obtain ⟨⟨next, s₁⟩, hfind, hrest⟩ := Outcome.bind_ok.mp h
  obtain ⟨s₂, hfree, hret⟩ := Outcome.bind_ok.mp hrest
  cases hret
  simp only [walkTokens, hfind, hfree, Bind.bind, Except.bind, Pure.pure, Except.pure,
    Bool.false_eq_true, if_false]

theorem vfsFinddir_inside (hs : Shape s kids) {u p : Nat} (hu : s.Alloc u) (hp : s.parent u = some p)
    (hdir : s.kind u &&& fsTypeMask = fsDirectory) (name : Name) : vfsFinddir s u name =
      if name = dot then .ok (some u, s) else if name = dotdot then .ok (some p, s) else
        match (tree s kids).child u name with
        | some c => .ok (some c, s)
        | none => driverFinddir s (s.driver u) name := by
  obtain ⟨v, hv⟩ := Option.isSome_iff_exists.mp hu
  have htype : s.kind u = v.type := by simp [State.kind, hv]
  have hdriver : s.driver u = v.d := by simp [State.driver, hv]
  have hparent : s.parent u = v.parent := by simp [State.link, hv]
  rw [hparent] at hp
  rw [htype] at hdir
  simp only [vfsFinddir, get_eq hv, Bind.bind, Except.bind, hp, findChild_eq hs hu]
  rw [if_neg (not_not.mpr hdir), hdriver]
  cases (tree s kids).child u name <;> rfl

theorem Lent.move (h : Lent s kids s') (hs : Settled s kids)
    (hpl : placeAt s kids names = some pl) (hx : Holds s' pl x) (hm : pl ≠ .stored m) :
    ∃ s₂, vfsFree (tarGetInode s' m).2 x = .ok s₂ ∧ Lent s kids s₂ ∧
      (s₂.tar m).buffer = some (tarGetInode s' m).1 ∧ 0 < (s₂.tar m).users := by
  obtain ⟨hlent, hold⟩ := h.fetch hs m
  obtain ⟨hbuf, husers, -⟩ := tarGetInode_users s' m
  cases pl with
  | mounted u =>
    obtain rfl : x = u := hx
    have hin := placeAt_inside hpl
    refine ⟨_, vfsFree_inside (hlent.alloc hs hin) ?_, hlent, hbuf, husers⟩
    rw [hlent.parent hin]
    exact hin.parent hs.shape
  | stored k =>
    have hmk : m ≠ k := fun he => hm (he ▸ rfl)
    have hxk : ((tarGetInode s' m).2.tar k).buffer = some x := by
      rw [tarGetInode_tar s' m hmk.symm]
      exact hx.1
    obtain ⟨s₂, hfree, hlent₂, hother, -⟩ := hlent.free hs hpl hxk
    rw [← hother m hmk] at hbuf husers
    exact ⟨s₂, hfree, hlent₂, hbuf, husers⟩

theorem Lent.stop (h : Lent s kids s') (hs : Settled s kids)
    (hpl : placeAt s kids names = some pl) (hx : Holds s' pl x)
    (hfind : vfsFinddir s' x name = .ok (none, s')) : ∃ s₂, lookStep s' x name = .ok (none, s₂) := by
  cases pl with
  | mounted u =>
    obtain rfl : x = u := hx
    have hin := placeAt_inside hpl
    refine ⟨_, lookStep_eq hfind (vfsFree_inside (h.alloc hs hin) ?_)⟩
    rw [h.parent hin]
    exact hin.parent hs.shape
  | stored k =>
    obtain ⟨s₂, hfree, -⟩ := h.free hs hpl hx.1
    exact ⟨s₂, lookStep_eq hfind hfree⟩

theorem Lent.tarChild_nil (h : Lent s kids s') (hs : Settled s kids) (k : Nat) :
    s'.tarChild k [] = none := by
  rw [h.same.tarChild]
  cases hc : s.tarChild k [] with
  | none => rfl
  | some c =>
    obtain ⟨hmem, hname⟩ := tarChild_mem hc
    exact absurd hname (hs.named k c hmem)

theorem Lent.ask (h : Lent s kids s') (hs : Settled s kids) {k : Nat}
    (hpl : placeAt s kids names = some pl) (hx : Holds s' pl x)
    (hfind : vfsFinddir s' x name = tarFinddir s' k name) (hdot : name ≠ dot)
    (hdotdot : name ≠ dotdot) (hdown : pl.down s kids name = (s.tarChild k name).map .stored)
    (hother : ∀ c, s.tarChild k name = some c → pl ≠ .stored c) :
    (∀ pl', pl.down s kids name = some pl' → ∃ x' s₂, lookStep s' x name = .ok (some x', s₂) ∧
        Lent s kids s₂ ∧ Holds s₂ pl' x') ∧
      (pl.down s kids name = none → ∃ s₂, lookStep s' x name = .ok (none, s₂)) := by
  rw [hdown]
  rw [tarFinddir_child hdot hdotdot, h.same.tarChild] at hfind
  cases hc : s.tarChild k name with
  | none =>
    rw [hc] at hfind
    exact ⟨fun pl' hpl' => (nomatch hpl'), fun _ => h.stop hs hpl hx hfind⟩
  | some c =>
    rw [hc] at hfind
    refine ⟨fun pl' hpl' => ?_, fun hn => nomatch hn⟩
    cases hpl'
    obtain ⟨s₂, hfree, hlent, hholds⟩ := h.move hs hpl hx (hother c hc)
    exact ⟨_, s₂, lookStep_eq hfind hfree, hlent, hholds⟩

/-- What a step of the lookup has to do at a place. -/
structure Steps (s : State) (kids : Nat → List Nat) (s' : State) (names : List Name) (x : Nat)
    (name : Name) : Prop where
  goes : StepTo s kids names name → ∃ pl x' s₂, lookStep s' x name = .ok (some x', s₂) ∧
    Lent s kids s₂ ∧ placeAt s kids (after names name) = some pl ∧ Holds s₂ pl x'
  stops : ¬StepTo s kids names name → ∃ s₂, lookStep s' x name = .ok (none, s₂)

theorem steps_stop (h : Lent s kids s') (hs : Settled s kids)
    (hpl : placeAt s kids names = some pl) (hx : Holds s' pl x)
    (hfind : vfsFinddir s' x name = .ok (none, s')) (hno : ¬StepTo s kids names name) :
    Steps s kids s' names x name :=
  ⟨fun hg => absurd hg hno, fun _ => h.stop hs hpl hx hfind⟩

theorem not_stepTo_nil : ¬StepTo s kids names [] := fun h => h.1 rfl

theorem after_name (hnil : name ≠ []) (hdot : name ≠ dot) (hdotdot : name ≠ dotdot) :
    after names name = names ++ [name] := by
  rw [after, if_neg (not_or.mpr ⟨hnil, hdot⟩), if_neg hdotdot]

theorem steps_down (hpl : placeAt s kids names = some pl) (hnil : name ≠ [])
    (hdot : name ≠ dot) (hdotdot : name ≠ dotdot)
    (hgoes : ∀ pl', pl.down s kids name = some pl' → ∃ x' s₂,
      lookStep s' x name = .ok (some x', s₂) ∧ Lent s kids s₂ ∧ Holds s₂ pl' x')
    (hstops : pl.down s kids name = none → ∃ s₂, lookStep s' x name = .ok (none, s₂)) :
    Steps s kids s' names x name := by
  have hafter : after names name = names ++ [name] := after_name hnil hdot hdotdot
  have hplace : placeAt s kids (after names name) = pl.down s kids name := by
    rw [hafter, placeAt_concat, hpl, Option.bind_some]
  constructor
  · rintro ⟨-, -, hsome⟩
    obtain ⟨pl', hpl'⟩ := Option.ne_none_iff_exists'.mp hsome
    obtain ⟨x', s₂, hstep, hlent, hholds⟩ := hgoes pl' (hplace.symm.trans hpl')
    exact ⟨pl', x', s₂, hstep, hlent, hpl', hholds⟩
  · intro hno
    refine hstops ?_
    by_contra hsome
    refine hno ⟨hnil, fun hd => absurd hd (not_or.mpr ⟨hdot, hdotdot⟩), ?_⟩
    rwa [hplace]

theorem steps_dots {pl' : Place} {x' : Nat} (hpl : placeAt s kids names = some pl)
    (hdir : pl.Directory s) (hname : name = dot ∨ name = dotdot)
    (hpl' : placeAt s kids (after names name) = some pl')
    (hstep : lookStep s' x name = .ok (some x', s₂)) (hlent : Lent s kids s₂)
    (hholds : Holds s₂ pl' x') : Steps s kids s' names x name := by
  refine ⟨fun _ => ⟨pl', x', s₂, hstep, hlent, hpl', hholds⟩, fun hno => absurd ⟨?_, ?_, ?_⟩ hno⟩
  · obtain rfl | rfl := hname <;> decide
  · exact fun _ => ⟨pl, hpl, hdir⟩
  · rw [hpl']
    exact Option.some_ne_none _

theorem not_stepTo_file (hs : Settled s kids) (hpl : placeAt s kids names = some pl)
    (hfile : ¬pl.Directory s) : ¬StepTo s kids names name := by
  rintro ⟨hnil, hdots, hsome⟩
  have hno : ¬DirectoryAt s kids names := by
    rintro ⟨pl', hpl', hdir⟩
    obtain rfl := Option.some.inj (hpl.symm.trans hpl')
    exact hfile hdir
  have hdot : name ≠ dot := fun he => hno (hdots (Or.inl he))
  have hdotdot : name ≠ dotdot := fun he => hno (hdots (Or.inr he))
  rw [after_name hnil hdot hdotdot, placeAt_concat, hpl, Option.bind_some] at hsome
  refine hsome ?_
  cases pl with
  | mounted u =>
    have hin := placeAt_inside hpl
    have hchild : (tree s kids).child u name = none := by
      cases hc : (tree s kids).child u name with
      | none => rfl
      | some c =>
        have hmem := (tree_mem (Named.child_mem hc).1).2
        exact absurd (hs.stem u hin (List.ne_nil_of_mem hmem)) hfile
    rw [Place.down, hchild]
    exact if_neg hfile
  | stored k =>
    rw [Place.down, archive_child]
    exact congrArg _ (if_neg hfile)

theorem Lent.step_mounted (h : Lent s kids s') (hs : Settled s kids) {u : Nat}
    (hpl : placeAt s kids names = some (.mounted u)) (hheld : name = dotdot → names ≠ []) :
    Steps s kids s' names u name := by
  have hin := placeAt_inside hpl
  have hua := h.alloc hs hin
  obtain ⟨p, hp⟩ := Option.ne_none_iff_exists'.mp (hin.parent hs.shape)
  have hfree : ∀ s₁, Lent s kids s₁ → vfsFree s₁ u = .ok s₁ := fun s₁ h₁ => by
    refine vfsFree_inside (h₁.alloc hs hin) ?_
    rw [h₁.parent hin, hp]
    exact Option.some_ne_none _
  by_cases hdir : s.kind u &&& fsTypeMask = fsDirectory
  · have hfind := vfsFinddir_inside h.shape hua ((h.parent hin).trans hp)
      (by rw [h.kind hin]; exact hdir) name
    rw [h.child hs hin, h.driver hin] at hfind
    by_cases hdot : name = dot
    · subst hdot
      have hholds : Holds s' (.mounted u) u := rfl
      refine steps_dots hpl hdir (Or.inl rfl) ?_ (lookStep_eq hfind (hfree _ h)) h hholds
      rw [after_dropped (Or.inr rfl)]
      exact hpl
    rw [if_neg hdot] at hfind
    by_cases hdotdot : name = dotdot
    · subst hdotdot
      obtain ⟨above, m, rfl⟩ := (List.eq_nil_or_concat' names).resolve_left (hheld rfl)
      obtain ⟨pl', hpl', hdown⟩ := Option.bind_eq_some_iff.mp ((placeAt_concat above m).symm.trans hpl)
      obtain ⟨q, rfl, hc⟩ := down_mounted hdown
      have hq := placeAt_inside hpl'
      have hqp := (hs.shape.kid q (hq.alloc hs.shape) u (tree_mem (Named.child_mem hc).1).2).2
      obtain rfl := Option.some.inj (hqp.symm.trans hp)
      have hholds : Holds s' (.mounted q) q := rfl
      refine steps_dots hpl hdir (Or.inr rfl) ?_ (lookStep_eq hfind (hfree _ h)) h hholds
      rw [after_dotdot, List.dropLast_concat]
      exact hpl'
    rw [if_neg hdotdot] at hfind
    cases hc : (tree s kids).child u name with
    | some c =>
      rw [hc] at hfind
      have hnil : name ≠ [] := by
        obtain ⟨hmem, hname⟩ := Named.child_mem hc
        rw [← hname]
        exact (hs.titled u c hin (tree_mem hmem).2).1
      have hdown : Place.down s kids name (.mounted u) = some (.mounted c) := by rw [Place.down, hc]
      refine steps_down hpl hnil hdot hdotdot (fun pl' hpl' => ?_) fun hn => ?_
      · cases hdown.symm.trans hpl'
        exact ⟨c, s', lookStep_eq hfind (hfree _ h), h, rfl⟩
      · rw [hdown] at hn
        cases hn
    | none =>
      rw [hc] at hfind
      have hdown : Place.down s kids name (.mounted u) =
          (s.driverChild (s.driver u) name).map .stored := by
        rw [Place.down, hc]
        exact if_pos hdir
      cases hd : s.driver u with
      | none => exact absurd hd (hs.driven u hin hdir)
      | device =>
        rw [hd] at hfind hdown
        by_cases hnil : name = []
        · subst hnil
          exact steps_stop h hs hpl rfl hfind not_stepTo_nil
        · exact steps_down hpl hnil hdot hdotdot (fun pl' hpl' => by cases hdown.symm.trans hpl')
            fun _ => h.stop hs hpl rfl hfind
      | tarfs k =>
        rw [hd] at hfind hdown
        by_cases hnil : name = []
        · subst hnil
          refine steps_stop h hs hpl rfl (hfind.trans ?_) not_stepTo_nil
          rw [driverFinddir, tarFinddir_child (by decide) (by decide), h.tarChild_nil hs]
        · obtain ⟨hgoes, hstops⟩ := h.ask hs hpl rfl hfind hdot hdotdot hdown
            fun c _ he => by cases he
          exact steps_down hpl hnil hdot hdotdot hgoes hstops
  · refine steps_stop h hs hpl rfl (vfsFinddir_file hua ?_ name) (not_stepTo_file hs hpl hdir)
    rw [h.kind hin]
    exact hdir

theorem Lent.step_stored (h : Lent s kids s') (hs : Settled s kids)
    (hpl : placeAt s kids names = some (.stored k)) (hx : Holds s' (.stored k) x) :
    Steps s kids s' names x name := by
  obtain ⟨hbuf, husers⟩ := hx
  obtain ⟨hparent, hkind⟩ := h.loose names k x hpl hbuf
  have hxa := h.shape.buffered hbuf
  have hdriver := (h.shape.buffer k x).mp hbuf
  obtain ⟨depth, hdepth⟩ := hs.deep
  by_cases hdir : (s.tar k).directory = true
  · have hfind : vfsFinddir s' x name = tarFinddir s' k name := by
      rw [vfsFinddir_outside hxa hparent (by rw [hkind]; exact newInode_directory.mpr hdir), hdriver,
        driverFinddir]
    by_cases hdot : name = dot
    · subst hdot
      obtain ⟨hlent, -⟩ := h.fetch hs k
      obtain ⟨hbuf₁, -, hmore⟩ := tarGetInode_users s' k
      have hsame : (tarGetInode s' k).1 = x := by
        obtain ⟨s₁, hget, -⟩ := tarGetInode_some hbuf
        rw [hget]
      rw [hsame] at hbuf₁
      obtain ⟨s₂, hfree, hlent₂, -, hkept⟩ := hlent.free hs hpl hbuf₁
      have hmany := hmore (by rw [hbuf]; exact Option.some_ne_none _)
      have hholds : Holds s₂ (.stored k) x := hkept (by omega)
      refine steps_dots hpl hdir (Or.inl rfl) ?_ (lookStep_eq (hfind.trans ?_) hfree) hlent₂ hholds
      · rw [after_dropped (Or.inr rfl)]
        exact hpl
      · rw [← hsame]
        rfl
    by_cases hdotdot : name = dotdot
    · subst hdotdot
      -- the place above is that of the parent in the archive
      have hne : names ≠ [] := by
        rintro rfl
        cases hpl
      obtain ⟨above, m, rfl⟩ := (List.eq_nil_or_concat' names).resolve_left hne
      obtain ⟨pl', hpl', hdown⟩ := Option.bind_eq_some_iff.mp ((placeAt_concat above m).symm.trans hpl)
      have hafter : placeAt s kids (after (above ++ [m]) dotdot) = some pl' := by
        rw [after_dotdot, List.dropLast_concat]
        exact hpl'
      obtain ⟨j, hmem, hplace⟩ : ∃ j, k ∈ (s.tar j).children ∧
          ((∃ p, pl' = .mounted p ∧ s.driver p = .tarfs j) ∨ pl' = .stored j) := by
        obtain ⟨p, j, rfl, -, -, hd, hc⟩ | ⟨j, rfl, -, hc⟩ := down_stored hdown
        · exact ⟨j, (tarChild_mem hc).1, Or.inl ⟨p, rfl, hd⟩⟩
        · exact ⟨j, (tarChild_mem hc).1, Or.inr rfl⟩
      have hjk : j ≠ k := fun he => lt_irrefl _ (he ▸ hdepth j k hmem)
      obtain ⟨s₂, hfree, hlent, hbuf₂, husers₂⟩ := h.move hs (m := j) hpl ⟨hbuf, husers⟩
        fun he => hjk (Place.stored.inj he).symm
      have hup : (s'.tar k).parent = some j := by
        rw [h.same.parent]
        exact hs.up j k hmem
      have hstep : lookStep s' x dotdot = .ok (some (tarGetInode s' j).1, s₂) := by
        refine lookStep_eq (hfind.trans ?_) hfree
        simp only [tarFinddir, hup, deref, Bind.bind, Except.bind]
        rfl
      refine steps_dots hpl hdir (Or.inr rfl) hafter hstep hlent ?_
      obtain ⟨p, rfl, hd⟩ | rfl := hplace
      · have hp := placeAt_inside hpl'
        rw [← hlent.driver hp, ← hlent.shape.buffer] at hd
        exact Option.some.inj (hbuf₂.symm.trans hd)
      · exact ⟨hbuf₂, husers₂⟩
    by_cases hnil : name = []
    · subst hnil
      refine steps_stop h hs hpl ⟨hbuf, husers⟩ (hfind.trans ?_) not_stepTo_nil
      rw [tarFinddir_child (by decide) (by decide), h.tarChild_nil hs]
    · have hdown : Place.down s kids name (.stored k) = (s.tarChild k name).map .stored := by
        rw [Place.down, archive_child, if_pos hdir]
      obtain ⟨hgoes, hstops⟩ := h.ask hs hpl ⟨hbuf, husers⟩ hfind hdot hdotdot hdown fun c hc he => by
        cases he
        exact lt_irrefl _ (hdepth k k (tarChild_mem hc).1)
      exact steps_down hpl hnil hdot hdotdot hgoes hstops
  · refine steps_stop h hs hpl ⟨hbuf, husers⟩ (vfsFinddir_file hxa ?_ name) (not_stepTo_file hs hpl hdir)
    rw [hkind]
    exact fun hc => hdir (newInode_directory.mp hc)

theorem Lent.steps (h : Lent s kids s') (hs : Settled s kids)
    (hpl : placeAt s kids names = some pl) (hx : Holds s' pl x)
    (hheld : name = dotdot → names ≠ []) : Steps s kids s' names x name := by
  cases pl with
  | mounted u =>
    obtain rfl : x = u := hx
    exact h.step_mounted hs hpl hheld
  | stored k => exact h.step_stored hs hpl hx

theorem Holds.object (h : Lent s kids s') (hpl : placeAt s kids names = some pl)
    (hx : Holds s' pl x) : object s' x = pl.object s := by
  cases pl with
  | mounted u =>
    obtain rfl : x = u := hx
    rw [Vfs.object, h.driver (placeAt_inside hpl)]
    rfl
  | stored k =>
    rw [Vfs.object, (h.shape.buffer k x).mp hx.1]
    rfl

end

-- ---------------------------------------------------------------------------
-- Whole lookups
-- ---------------------------------------------------------------------------

/-- From the components `acc` on, every component leads to a place: none is empty, and `.`
and `..` come after directories only. -/
def Walks (s : State) (kids : Nat → List Nat) (acc names : List Name) : Prop :=
  ∀ i n, names[i]? = some n → StepTo s kids ((names.take i).foldl after acc) n

theorem walks_cons {acc names : List Name} {name : Name} : Walks s kids acc (name :: names) ↔
    StepTo s kids acc name ∧ Walks s kids (after acc name) names := by
  constructor
  · exact fun h => ⟨h 0 name rfl, fun i n hn => h (i + 1) n hn⟩
  · rintro ⟨h0, h⟩ i n hn
    cases i with
    | zero =>
      cases hn
      exact h0
    | succ i => exact h i n hn

structure Looks (s : State) (kids : Nat → List Nat) (acc names : List Name)
    (r : Run (Option Nat × State)) : Prop where
  found : Walks s kids acc names → ∃ x s', r = .ok (some x, s') ∧
    (placeAt s kids (names.foldl after acc)).map (Place.object s) = some (object s' x)
  fails : ¬Walks s kids acc names → ∃ s', r = .ok (none, s')

theorem Looks.cons {acc names : List Name} {name : Name} {r : Run (Option Nat × State)}
    (hgoes : StepTo s kids acc name → Looks s kids (after acc name) names r)
    (hstops : ¬StepTo s kids acc name → ∃ s', r = .ok (none, s')) :
    Looks s kids acc (name :: names) r where
  found hw := by
    rw [walks_cons] at hw
    exact (hgoes hw.1).found hw.2
  fails hw := by
    rw [walks_cons, not_and] at hw
    by_cases hstep : StepTo s kids acc name
    · exact (hgoes hstep).fails (hw hstep)
    · exact hstops hstep

theorem walkTokens_looks {acc names : List Name} {x : Nat} {pl : Place} (h : Lent s kids s')
    (hs : Settled s kids) (hpl : placeAt s kids acc = some pl) (hx : Holds s' pl x)
    (hheld : Held acc names) : Looks s kids acc names (walkTokens false s' x names) := by
  induction names generalizing acc s' x pl with
  | nil =>
    refine ⟨fun _ => ⟨x, s', rfl, ?_⟩, fun hno => absurd (fun i n hn => nomatch hn) hno⟩
    rw [List.foldl_nil, hpl, Option.map_some, Holds.object h hpl hx]
  | cons name names ih =>
    obtain ⟨hname, hrest⟩ := held_cons.mp hheld
    have hstep := h.steps hs hpl hx hname
    refine Looks.cons (fun hgo => ?_) fun hno => ?_
    · obtain ⟨pl', x', s₂, hok, hlent, hpl', hx'⟩ := hstep.goes hgo
      rw [walkTokens_some hok]
      exact ih hlent hpl' hx' hrest
    · obtain ⟨s₂, hok⟩ := hstep.stops hno
      exact ⟨s₂, walkTokens_none hok⟩

/-- Down the mount tree without the drivers, and on from there. -/
theorem vfsFindRoot_looks {acc names : List Name} {u : Nat} (hs : Settled s kids)
    (hpl : placeAt s kids acc = some (.mounted u)) (hheld : Held acc names) :
    Looks s kids acc names (vfsFindRoot s u names >>= fun r => walkTokens false s r.1 r.2) := by
  induction names generalizing acc u with
  | nil => exact walkTokens_looks hs.lent hs hpl rfl hheld
  | cons name names ih =>
    have hin := placeAt_inside hpl
    simp only [vfsFindRoot, findChild_eq hs.shape (hin.alloc hs.shape), Bind.bind, Except.bind]
    cases hc : (tree s kids).child u name with
    | none => exact walkTokens_looks hs.lent hs hpl rfl hheld
    | some c =>
      obtain ⟨hmem, hname⟩ := Named.child_mem hc
      obtain ⟨hnil, hdot, hdotdot⟩ := hs.titled u c hin (tree_mem hmem).2
      change s.name c = name at hname
      rw [hname] at hnil hdot hdotdot
      have hplace : placeAt s kids (after acc name) = some (.mounted c) := by
        rw [after_name hnil hdot hdotdot, placeAt_concat, hpl, Option.bind_some, Place.down, hc]
      have hstep : StepTo s kids acc name := by
        refine ⟨hnil, fun hd => absurd hd (not_or.mpr ⟨hdot, hdotdot⟩), ?_⟩
        rw [hplace]
        exact Option.some_ne_none _
      exact Looks.cons (fun _ => ih hplace (held_cons.mp hheld).2) fun hno => absurd hstep hno

theorem vfsNamei_looks {path : Name} (hs : Settled s kids)
    (hheld : Held [] (strsepTokens (path.drop 1))) :
    Looks s kids [] (strsepTokens (path.drop 1)) (vfsNamei s path) :=
  vfsFindRoot_looks hs rfl hheld

theorem held_concat {acc names : List Name} {n : Name} :
    Held acc (names ++ [n]) ↔ Held acc names ∧ (n = dotdot → names.foldl after acc ≠ []) := by
  induction names generalizing acc with
  | nil =>
    rw [List.nil_append, held_cons, List.foldl_nil]
    exact ⟨fun h => ⟨held_nil _, h.1⟩, fun h => ⟨h.2, held_nil _⟩⟩
  | cons m names ih => rw [List.cons_append, held_cons, held_cons, ih, List.foldl_cons, and_assoc]

/-- What is left of the tokens `strsep` returns is what is left of all components. -/
theorem strsepTokens_components {path : Name} (h : path.head? = some slash) :
    (strsepTokens (path.drop 1)).foldl after [] = normal (components path none) ∧
      (Held [] (strsepTokens (path.drop 1)) ↔ Grounded (components path none)) := by
  obtain ⟨rest, rfl⟩ : ∃ rest, path = slash :: rest := by
    cases path with
    | nil => cases h
    | cons c rest => exact ⟨rest, by rw [Option.some.inj h]⟩
  have hcomp : components (slash :: rest) none = [] :: pieces rest := by
    have hprefix : pathPrefix (slash :: rest) none = none := if_pos rfl
    rw [components, hprefix]
    exact pieces_append (s := []) List.not_mem_nil
  have hskip (acc : List Name) : after acc [] = acc := after_dropped (Or.inl rfl)
  have hall : Grounded ([] :: pieces rest) ↔ Held [] (pieces rest) := by
    rw [Grounded, held_cons, hskip]
    exact and_iff_right fun he => absurd he (by decide)
  rw [hcomp, hall, normal, List.foldl_cons, hskip, List.drop_one, List.tail_cons, strsepTokens]
  split
  · next hlast =>
    obtain ⟨names, hnames⟩ := List.getLast?_eq_some_iff.mp hlast
    rw [hnames, List.dropLast_concat, List.foldl_append, held_concat]
    exact ⟨(hskip _).symm, (and_iff_left fun he => absurd he (by decide)).symm⟩
  · exact ⟨rfl, Iff.rfl⟩

theorem placeAt_prefix {names rest : List Name} (h : placeAt s kids (names ++ rest) ≠ none) :
    placeAt s kids names ≠ none := by
  induction rest using List.reverseRecOn with
  | nil => rwa [List.append_nil] at h
  | append_singleton rest name ih =>
    rw [← List.append_assoc, placeAt_concat] at h
    refine ih fun hnone => h ?_
    rw [hnone]
    rfl

theorem walks_canonical {acc names : List Name} (h : Canonical names)
    (hsome : placeAt s kids (names.foldl after acc) ≠ none) : Walks s kids acc names := by
  induction names generalizing acc with
  | nil => exact fun i n hn => nomatch hn
  | cons name names ih =>
    obtain ⟨hnil, -, hdot, hdotdot⟩ := h name List.mem_cons_self
    have hrest : Canonical names := fun n hn => h n (List.mem_cons_of_mem _ hn)
    refine walks_cons.mpr ⟨⟨hnil, fun hd => absurd hd (not_or.mpr ⟨hdot, hdotdot⟩), ?_⟩,
      ih hrest hsome⟩
    rw [List.foldl_cons, foldl_canonical hrest] at hsome
    exact placeAt_prefix hsome

theorem Looks.result {acc names : List Name} {r : Run (Option Nat × State)}
    (h : Looks s kids acc names r) : ∃ x s', r = .ok (x, s') ∧
      (Walks s kids acc names → x.map (object s') =
        (placeAt s kids (names.foldl after acc)).map (Place.object s)) ∧
      (¬Walks s kids acc names → x = none) := by
  by_cases hw : Walks s kids acc names
  · obtain ⟨x, s', hr, hx⟩ := h.found hw
    exact ⟨some x, s', hr, fun _ => hx.symm, fun hno => absurd hw hno⟩
  · obtain ⟨s', hr⟩ := h.fails hw
    exact ⟨none, s', hr, fun hw' => absurd hw' hw, fun _ => rfl⟩

theorem vfsNamei_render (h : Settled s kids) {names : List Name} (hc : Canonical names) :
    ∃ y s', vfsNamei s (render names) = .ok (y, s') ∧
      y.map (object s') = (placeAt s kids names).map (Place.object s) := by
  have hheld : Held [] (strsepTokens ((render names).drop 1)) := by
    rw [strsepTokens_render hc]
    exact held_canonical hc
  have hlooks := vfsNamei_looks h hheld
  rw [strsepTokens_render hc] at hlooks
  have hfold : names.foldl after [] = names := by rw [foldl_canonical hc, List.nil_append]
  by_cases hnone : placeAt s kids names = none
  · have hno : ¬Walks s kids [] names := fun hw => by
      obtain ⟨x, s', -, hx⟩ := hlooks.found hw
      rw [hfold, hnone] at hx
      cases hx
    obtain ⟨s', hr⟩ := hlooks.fails hno
    exact ⟨none, s', hr, by rw [hnone]; rfl⟩
  · have hw : Walks s kids [] names := walks_canonical hc (by rw [hfold]; exact hnone)
    obtain ⟨x, s', hr, hx⟩ := hlooks.found hw
    rw [hfold] at hx
    exact ⟨some x, s', hr, hx.symm⟩

-- ---------------------------------------------------------------------------
-- Mount trees built by mounts
-- ---------------------------------------------------------------------------

/-- A stored node is reached from an inode of the mount tree through its archive. -/
theorem placeAt_stored {names : List Name} {k : Nat} (h : placeAt s kids names = some (.stored k)) :
    ∃ u name cn rest, Inside s kids u ∧ s.kind u &&& fsTypeMask = fsDirectory ∧
      (tree s kids).child u name = none ∧ s.driverChild (s.driver u) name = some cn ∧
      (archive s).walk cn rest = some k := by
  induction names using List.reverseRecOn generalizing k with
  | nil => cases h
  | append_singleton names name ih =>
    rw [placeAt_concat] at h
    obtain ⟨pl, hpl, hdown⟩ := Option.bind_eq_some_iff.mp h
    obtain ⟨p, j, rfl, hnone, hdir, hd, hc⟩ | ⟨j, rfl, hdir, hc⟩ := down_stored hdown
    · exact ⟨p, name, k, [], placeAt_inside hpl, hdir, hnone, by rw [hd]; exact hc, rfl⟩
    · obtain ⟨u, first, cn, rest, hu, hdiru, hnone, hcn, hw⟩ := ih hpl
      refine ⟨u, first, cn, rest ++ [name], hu, hdiru, hnone, hcn, ?_⟩
      rw [Named.walk_append, hw, Option.bind_some, Named.walk_cons, archive_child, if_pos hdir, hc]
      rfl

def present (s : State) (kids : Nat → List Nat) (n : Nat) : List Nat :=
  if (s.inode n).isSome then kids n else []

theorem present_eq {n : Nat} (hn : s.Alloc n) : present s kids n = kids n := if_pos hn

theorem tree_present : tree s (present s kids) = tree s kids := by
  have hkids : (fun n => if (s.inode n).isSome then present s kids n else []) =
      fun n => if (s.inode n).isSome then kids n else [] := by
    funext n
    by_cases hn : (s.inode n).isSome
    · rw [if_pos hn, if_pos hn, present_eq hn]
    · rw [if_neg hn, if_neg hn]
  rw [tree, hkids]
  rfl

theorem inside_present {n : Nat} (hn : Inside s (present s kids) n) (hs : Shape s kids) :
    Inside s kids n := by
  induction hn with
  | root => exact Inside.root
  | kid _ hc ih =>
    rw [present_eq (ih.alloc hs)] at hc
    exact ih.kid hc

theorem Shape.present (h : Shape s kids) : Shape s (present s kids) where
  chain n hn := by
    rw [present_eq hn]
    exact h.chain n hn
  kid n hn c hc := by
    rw [present_eq hn] at hc
    exact h.kid n hn c hc
  root := h.root
  rooted := h.rooted
  rootless n hn := by
    rw [present_eq hn]
    exact h.rootless n hn
  bound := h.bound
  buffer := h.buffer

theorem Ready.settled (h : Ready s kids) : Settled s (present s kids) where
  shape := h.shape.present
  up := h.placed.up
  deep := h.placed.deep
  named := h.named
  driven n hn := h.driven n (inside_present hn h.shape)
  stem n hn hne := by
    have hin := inside_present hn h.shape
    rw [present_eq (hin.alloc h.shape)] at hne
    exact h.stem n hin hne
  titled n c hn hc := by
    have hin := inside_present hn h.shape
    rw [present_eq (hin.alloc h.shape)] at hc
    exact h.titled n c hin hc
  loose names k b hk hb := by
    obtain ⟨u, name, cn, rest, hu, hdir, hnone, hcn, hw⟩ := placeAt_stored hk
    rw [tree_present] at hnone
    have hclean := h.clean u (inside_present hu h.shape) hdir name cn hnone hcn rest k hw
    rw [hclean] at hb
    cases hb
  blank n hn := if_neg hn

-- ---------------------------------------------------------------------------
-- `stat` and `open`
-- ---------------------------------------------------------------------------

/-- The lookups of a path by `stat` and by `open`: both find the same object, or both
find nothing. -/
def Agree (s : State) (path : Name) : Prop :=
  ∃ canon x s₁ y s₂, canonicalizePath path none = .ok canon ∧ vfsNamei s path = .ok (x, s₁) ∧
    vfsNamei s canon = .ok (y, s₂) ∧ x.map (object s₁) = y.map (object s₂)

theorem namei_agrees (h : Settled s kids) {path : Name} (hpath : path.head? = some slash) :
    Agree s path ↔ Grounded (components path none) ∧
      (placeAt s kids (normal (components path none)) = none ∨
        Walks s kids [] (strsepTokens (path.drop 1))) := by
  obtain ⟨hfold, hheld⟩ := strsepTokens_components hpath
  have hcpath := canonicalizePath_eq path none
  obtain ⟨y, s₂, hy, hyo⟩ := vfsNamei_render h (canonical_normal (notMem_components path none))
  by_cases hg : Grounded (components path none)
  · rw [if_pos hg] at hcpath
    obtain ⟨x, s₁, hx, hwalks, hfails⟩ := (vfsNamei_looks h (hheld.mpr hg)).result
    rw [hfold] at hwalks
    have hagree : Agree s path ↔ x.map (object s₁) = y.map (object s₂) := by
      constructor
      · rintro ⟨canon, x', s₁', y', s₂', hc, hx', hy', hsame⟩
        cases hcpath.symm.trans hc
        cases hx.symm.trans hx'
        cases hy.symm.trans hy'
        exact hsame
      · exact fun hsame => ⟨_, x, s₁, y, s₂, hcpath, hx, hy, hsame⟩
    rw [hagree, hyo, and_iff_right hg]
    by_cases hw : Walks s kids [] (strsepTokens (path.drop 1))
    · exact iff_of_true (hwalks hw) (Or.inr hw)
    · rw [hfails hw, or_iff_left hw, Option.map_none, eq_comm, Option.map_eq_none_iff]
  · rw [if_neg hg] at hcpath
    refine iff_of_false ?_ fun hc => hg hc.1
    rintro ⟨canon, x, s₁, y, s₂, hc, -⟩
    rw [hcpath] at hc
    cases hc

theorem namei_agrees_kbd : ∃ s, Transition.exec mountStep (vfsInit bootArchive) booting = some s ∧
    Agree s (render kbdNames) := by
  obtain ⟨s, hreach, hexec⟩ := boot_reach
  obtain ⟨kids, hk⟩ := mounts_ready hreach
  refine ⟨s, hexec, (namei_agrees hk.settled (by decide)).mpr ⟨by decide, ?_⟩⟩
  have hc : Canonical kbdNames := by decide
  have hnames : normal (components (render kbdNames) none) = kbdNames := by decide
  rw [hnames, strsepTokens_render hc]
  by_cases hnone : placeAt s (present s kids) kbdNames = none
  · exact Or.inl hnone
  · refine Or.inr (walks_canonical hc ?_)
    rwa [foldl_canonical hc, List.nil_append]

/-- `stat` finds nothing at `//dev`, and `open` finds the directory. -/
theorem namei_disagrees : ¬∀ s kids path, Settled s kids → path.head? = some slash → Agree s path := by
  intro hall
  obtain ⟨s, hreach, hexec⟩ := boot_reach
  obtain ⟨kids, hk⟩ := mounts_ready hreach
  obtain ⟨canon, x, s₁, y, s₂, hc, hx, hy, hsame⟩ :=
    hall s _ (slash :: render [[100, 101, 118]]) hk.settled rfl
  have hcanon : canonicalizePath (slash :: render [[100, 101, 118]]) none =
      .ok (render [[100, 101, 118]]) := by rfl
  cases hcanon.symm.trans hc
  have hfacts : (Transition.exec mountStep (vfsInit bootArchive) booting).map (fun s =>
      (((vfsNamei s (slash :: render [[100, 101, 118]])).toOption.bind Prod.fst).isSome,
        ((vfsNamei s (render [[100, 101, 118]])).toOption.bind Prod.fst).isSome)) =
      some (false, true) := by decide
  rw [hexec, Option.map_some, hx, hy] at hfacts
  obtain ⟨hnone, hsome⟩ := Prod.mk.inj (Option.some.inj hfacts)
  have hx' : x.isSome = false := hnone
  have hy' : y.isSome = true := hsome
  rw [← Option.isSome_map (f := object s₁), hsame, Option.isSome_map, hy'] at hx'
  cases hx'

end Os5.Vfs
