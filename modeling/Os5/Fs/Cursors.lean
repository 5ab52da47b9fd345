import Os5.Fs.Failures
import Os5.Fs.Seek
import Os5.Fs.Reading
import Os5.Lib.Cursor

/-!
# A descriptor as a cursor

`dup`, `dup2` and `fork` let slots, and processes, share a descriptor. Its offset is the only
place where a file of the archive is being read at: what all of them read through it, taken
together in the order of the calls, is what one cursor on the file would have given.
-/

namespace Os5.Files

open Transition Tarfs Cursor

-- ---------------------------------------------------------------------------
-- Calls on an archive
-- ---------------------------------------------------------------------------

/-- An archive in memory and its tree, and what the calls use besides. `read` and `write` of the
other drivers see to their pipes, and do not touch the tables. -/
structure Volume where
  mem : Memory
  tree : TarTree
  rest : Backing
  vfsRead_rest : ∀ {s ino ptr len offset ret s'}, rest.vfsRead s ino ptr len offset = some (ret, s') →
    ∃ pipe', s' = { s with pipe := pipe' }
  vfsWrite_rest : ∀ {s ino ptr len offset ret s'}, rest.vfsWrite s ino ptr len offset = some (ret, s') →
    ∃ pipe', s' = { s with pipe := pipe' }

inductive Call
  | file (c : FileCall)
  | desc (c : DescCall)

structure Action where
  p : Pid
  call : Call
  user : Nat → Buffer

namespace Volume

/-- `read_tar`, for the inode `tar_get_inode` makes. -/
def readTar (v : Volume) (e : EntryId) (buffer : Buffer) (len offset : Nat) : Option (Nat × Buffer) :=
  Tarfs.readTar v.mem v.tree (newInode v.mem (v.tree.node e).item e) buffer len offset

def vfsRead (v : Volume) (user : Nat → Buffer) (s : Files) (ino : Ino) (ptr len offset : Nat) :
    Option (Nat × Files) := do
  let n ← s.inode ino
  match n.driver with
  | .tarfs e => do
    let (ret, _) ← v.readTar e (user ptr) len offset
    return (ret, s)
  | .pipe _ _ => v.rest.vfsRead s ino ptr len offset
  | .debug => v.rest.vfsRead s ino ptr len offset

def vfsWrite (v : Volume) (s : Files) (ino : Ino) (ptr len offset : Nat) : Option (Nat × Files) := do
  let n ← s.inode ino
  match n.driver with
  | .tarfs _ => return (0, s)
  | .pipe _ _ => v.rest.vfsWrite s ino ptr len offset
  | .debug => v.rest.vfsWrite s ino ptr len offset

def backing (v : Volume) (user : Nat → Buffer) : Backing :=
  { v.rest with vfsRead := v.vfsRead user, vfsWrite := v.vfsWrite }

def carryOut (v : Volume) (s : Files) (a : Action) : Option Files :=
  match a.call with
  | .file c => (s.call a.p c).map (·.2)
  | .desc c => (s.descCall (v.backing a.user) a.p c).map (·.2)

def step (v : Volume) (s : Files) (a : Action) : Option Files :=
  if a.p ∈ s.live then v.carryOut s a else none

/-- What a read of a file of the archive leaves in the buffer, up to its value. -/
def delivered (v : Volume) (s : Files) (f : FileDesc) (buffer : Buffer) (len : Nat) : Option (List UInt8) := do
  let n ← s.inode (← f.ino)
  match n.driver with
  | .tarfs e => do
    let (ret, buffer) ← v.readTar e buffer len f.offset
    return (List.range ret).map buffer
  | .pipe _ _ => none
  | .debug => none

def event (v : Volume) (d : DescId) (s : Files) (a : Action) : Option (Op UInt8) :=
  match a.call with
  | .file _ => none
  | .desc c =>
    match s.slot a.p c.fildes with
    | none => none
    | some (k, f) =>
      if k ≠ d then none else
        match c, s.descCall (v.backing a.user) a.p c with
        | .read _ ptr len, some ((_, none), _) => (v.delivered s f (a.user ptr) len).map (.read len)
        | .lseek _ _ _, some ((offset, none), _) => some (.seek (asUint offset))
        | _, _ => none

def events (v : Volume) (d : DescId) : Files → List Action → List (Op UInt8)
  | _, [] => []
  | s, a :: as =>
    match v.step s a with
    | none => []
    | some s' => (v.event d s a).toList ++ v.events d s' as

end Volume

def readThrough (d : DescId) (s : Files) (a : Action) : Option (Nat × Nat) :=
  match a.call with
  | .desc (.read file _ len) =>
    match s.slot a.p file with
    | some (k, f) => if k = d then some (len, f.offset) else none
    | none => none
  | _ => none

/-- No read through the descriptor is so long that its end wraps around. -/
def NoWrap (d : DescId) (size : Nat) (s : Files) (a : Action) : Prop :=
  ∀ x ∈ readThrough d s a, ¬Wraps size x.1 x.2

instance (d : DescId) (size : Nat) (s : Files) (a : Action) : Decidable (NoWrap d size s a) :=
  inferInstanceAs (Decidable (∀ x ∈ readThrough d s a, ¬Wraps size x.1 x.2))

/-- As long as it is there, the descriptor stands at the offset in the file of the entry. -/
structure Stands (d : DescId) (node : Ino) (e : EntryId) (o : Nat) (s : Files) : Prop where
  desc_lt : d < s.nextDesc
  node_lt : node < s.nextIno
  offset_lt : o < 2 ^ 32
  desc : ∀ {f}, s.desc d = some f → f.ino = some node ∧ f.offset = o
  inode : ∀ {n}, s.inode node = some n → n.driver = .tarfs e

section
variable {v : Volume} {s s' : Files} {d k : DescId} {node ino : Ino} {e : EntryId} {o o' : Nat} {p : Pid} {r : Int}
  {rep : Reply} {f : FileDesc}

-- ---------------------------------------------------------------------------
-- Inodes
-- ---------------------------------------------------------------------------

def SameDrivers (s s' : Files) : Prop :=
  s.nextIno ≤ s'.nextIno ∧
    ∀ {i n}, s'.inode i = some n → i < s.nextIno → ∃ m, s.inode i = some m ∧ m.driver = n.driver

theorem SameDrivers.refl : SameDrivers s s := ⟨le_rfl, fun hn _ => ⟨_, hn, rfl⟩⟩

theorem SameDrivers.trans {s'' : Files} (h1 : SameDrivers s s') (h2 : SameDrivers s' s'') : SameDrivers s s'' := by
  refine ⟨h1.1.trans h2.1, fun hn hi => ?_⟩
  obtain ⟨m, hm, hd⟩ := h2.2 hn (lt_of_lt_of_le hi h1.1)
  obtain ⟨l, hl, hd'⟩ := h1.2 hm hi
  exact ⟨l, hl, hd'.trans hd⟩

theorem SameDrivers.recounts {g : Nat → Nat} (h : Recounts s ino g s') : SameDrivers s s' := by
  obtain ⟨n, hn, hinode, -⟩ := h.inode
  refine ⟨h.nextIno.ge, fun {i m} hm _ => ?_⟩
  rw [hinode] at hm
  by_cases hi : i = ino
  · subst hi
    rw [Function.update_self] at hm
    obtain rfl := Option.some.inj hm
    exact ⟨n, hn, rfl⟩
  · rw [Function.update_of_ne hi] at hm
    exact ⟨m, hm, rfl⟩

theorem SameDrivers.dropped : SameDrivers s (s.setInode ino none) := by
  refine ⟨le_rfl, fun {i n} hn _ => ?_⟩
  have hi : i ≠ ino := by
    rintro rfl
    cases (Function.update_self ..).symm.trans hn
  exact ⟨n, (Function.update_of_ne hi _ _).symm.trans hn, rfl⟩

theorem SameDrivers.fresh {n : Inode} : SameDrivers s { s.setInode s.nextIno (some n) with nextIno := s.nextIno + 1 } :=
  ⟨Nat.le_succ _, fun hn hi => ⟨_, (Function.update_of_ne hi.ne _ _).symm.trans hn, rfl⟩⟩

theorem flushTar_looks : SameFds s (s.flushTar e) ∧ SameDrivers s (s.flushTar e) := by
  unfold Files.flushTar
  by_cases hz : decr (s.entry e).users = 0
  · simp only [hz, if_true]
    cases (s.entry e).buffer with
    | none => exact ⟨⟨rfl, rfl, rfl, rfl, rfl, rfl⟩, .refl⟩
    | some b => exact ⟨⟨rfl, rfl, rfl, rfl, rfl, rfl⟩, @SameDrivers.dropped s b⟩
  · simp only [hz, if_false]
    exact ⟨⟨rfl, rfl, rfl, rfl, rfl, rfl⟩, .refl⟩

theorem vfsFree_looks (hs : s.vfsFree ino = some s') : SameFds s s' ∧ SameDrivers s s' := by
  obtain ⟨n, -, hs⟩ := Option.bind_eq_some_iff.mp hs
  split at hs
  · obtain rfl := Option.some.inj hs
    exact ⟨.refl, .refl⟩
  split at hs
  · obtain rfl := Option.some.inj hs
    exact ⟨.refl, .refl⟩
  have hdropped : SameFds s (s.setInode ino none) := ⟨rfl, rfl, rfl, rfl, rfl, rfl⟩
  cases hd : n.driver with
  | tarfs e =>
    rw [hd] at hs
    obtain rfl := Option.some.inj hs
    exact flushTar_looks
  | pipe k e =>
    rw [hd] at hs
    obtain rfl := Option.some.inj hs
    exact ⟨hdropped, .dropped⟩
  | debug =>
    rw [hd] at hs
    obtain rfl := Option.some.inj hs
    exact ⟨hdropped, .dropped⟩

theorem tarGetInode_looks (e : EntryId) : SameFds s (s.tarGetInode e).2 ∧ SameDrivers s (s.tarGetInode e).2 := by
  unfold Files.tarGetInode
  cases (s.entry e).buffer with
  | some b => exact ⟨⟨rfl, rfl, rfl, rfl, rfl, rfl⟩, .refl⟩
  | none => exact ⟨⟨rfl, rfl, rfl, rfl, rfl, rfl⟩, SameDrivers.fresh (s := s)⟩

theorem vfsFinddir_looks {hop : Hop} (hs : s.vfsFinddir hop = some (ino, s')) : SameFds s s' ∧ SameDrivers s s' := by
  cases hop with
  | mounted i =>
    obtain ⟨n, -, hs⟩ := Option.bind_eq_some_iff.mp hs
    split at hs
    · obtain ⟨-, rfl⟩ := Prod.mk.inj (Option.some.inj hs)
      exact ⟨.refl, .refl⟩
    · cases hs
  | entry e =>
    have hget := tarGetInode_looks (s := s) e
    rwa [Option.some.inj hs] at hget

theorem walk_looks {missing : Bool} {hops : List Hop} {i : Option Ino}
    (hs : s.walk ino missing hops = some (i, s')) : SameFds s s' ∧ SameDrivers s s' := by
  induction hops generalizing s ino with
  | nil =>
    unfold Files.walk at hs
    split at hs
    · obtain ⟨s1, hfree, hs⟩ := Option.bind_eq_some_iff.mp hs
      obtain ⟨-, rfl⟩ := Prod.mk.inj (Option.some.inj hs)
      exact vfsFree_looks hfree
    · obtain ⟨-, rfl⟩ := Prod.mk.inj (Option.some.inj hs)
      exact ⟨.refl, .refl⟩
  | cons hop hops ih =>
    obtain ⟨⟨next, s1⟩, hfind, hs⟩ := Option.bind_eq_some_iff.mp hs
    obtain ⟨s2, hfree, hs⟩ := Option.bind_eq_some_iff.mp hs
    obtain ⟨hf1, hd1⟩ := vfsFinddir_looks hfind
    obtain ⟨hf2, hd2⟩ := vfsFree_looks hfree
    obtain ⟨hf3, hd3⟩ := ih hs
    exact ⟨(hf1.trans hf2).trans hf3, (hd1.trans hd2).trans hd3⟩

theorem vfsNamei_looks {path : Path} {i : Option Ino} (hs : s.vfsNamei path = some (i, s')) :
    SameFds s s' ∧ SameDrivers s s' := by
  obtain ⟨⟨root, s1⟩, hfind, hs⟩ := Option.bind_eq_some_iff.mp hs
  obtain ⟨hf1, hd1⟩ := vfsFinddir_looks hfind
  obtain ⟨hf2, hd2⟩ := walk_looks hs
  exact ⟨hf1.trans hf2, hd1.trans hd2⟩

theorem vfsReaddir_looks {what : Listing} {i : Option Ino} (hs : s.vfsReaddir what = some (i, s')) :
    SameFds s s' ∧ SameDrivers s s' := by
  cases what with
  | nothing =>
    obtain ⟨-, rfl⟩ := Prod.mk.inj (Option.some.inj hs)
    exact ⟨.refl, .refl⟩
  | mounted ino =>
    obtain ⟨⟨i', s1⟩, hfind, hs⟩ := Option.bind_eq_some_iff.mp hs
    obtain ⟨-, rfl⟩ := Prod.mk.inj (Option.some.inj hs)
    exact vfsFinddir_looks hfind
  | entry e =>
    obtain ⟨-, rfl⟩ := Prod.mk.inj (Option.some.inj hs)
    exact tarGetInode_looks e
  | covered e n =>
    obtain ⟨s1, hfree, hs⟩ := Option.bind_eq_some_iff.mp hs
    obtain ⟨⟨i', s2⟩, hfind, hs⟩ := Option.bind_eq_some_iff.mp hs
    obtain ⟨-, rfl⟩ := Prod.mk.inj (Option.some.inj hs)
    obtain ⟨hf1, hd1⟩ := tarGetInode_looks (s := s) e
    obtain ⟨hf2, hd2⟩ := vfsFree_looks hfree
    obtain ⟨hf3, hd3⟩ := vfsFinddir_looks hfind
    exact ⟨(hf1.trans hf2).trans hf3, (hd1.trans hd2).trans hd3⟩

theorem Stands.looks (h : Stands d node e o s) (hl : SameFds s s' ∧ SameDrivers s s') :
    Stands d node e o s' := by
  obtain ⟨hf, hnext, hdrivers⟩ := hl
  refine ⟨by rw [hf.nextDesc]; exact h.desc_lt, lt_of_lt_of_le h.node_lt hnext, h.offset_lt, ?_, fun hn => ?_⟩
  · rw [hf.desc]
    exact h.desc
  · obtain ⟨m, hm, hd⟩ := hdrivers hn h.node_lt
    exact hd.symm.trans (h.inode hm)

theorem vfsOpen_looks (hs : s.vfsOpen ino = some (r, s')) : SameFds s s' ∧ SameDrivers s s' :=
  have h := (vfsOpen_recounts hs).1
  ⟨h.same, .recounts h⟩

theorem vfsClose_looks (hs : s.vfsClose ino = some (r, s')) : SameFds s s' ∧ SameDrivers s s' :=
  have h := (vfsClose_recounts hs).1
  ⟨h.same, .recounts h⟩

-- ---------------------------------------------------------------------------
-- Descriptors
-- ---------------------------------------------------------------------------

theorem setDesc_self {c : Option FileDesc} : (s.setDesc d c).desc d = c := Function.update_self ..

theorem Stands.setFd (h : Stands d node e o s) {i : Nat} {c : Option DescId} :
    Stands d node e o (s.setFd p i c) :=
  ⟨h.desc_lt, h.node_lt, h.offset_lt, h.desc, h.inode⟩

theorem Stands.setDesc_of_ne (h : Stands d node e o s) (hk : k ≠ d) {c : Option FileDesc} :
    Stands d node e o (s.setDesc k c) :=
  ⟨h.desc_lt, h.node_lt, h.offset_lt, fun hf => h.desc ((Function.update_of_ne (Ne.symm hk) _ _).symm.trans hf),
    h.inode⟩

theorem Stands.moved (h : Stands d node e o s) (ho : o' < 2 ^ 32) (hf : s.desc d = some f) :
    Stands d node e o' (s.setDesc d (some { f with offset := o' })) := by
  refine ⟨h.desc_lt, h.node_lt, ho, fun hg => ?_, h.inode⟩
  obtain rfl := Option.some.inj (setDesc_self.symm.trans hg)
  exact ⟨(h.desc hf).1, rfl⟩

theorem Stands.shared (h : Stands d node e o s) {n : Nat} (hf : s.desc k = some f) :
    Stands d node e o (s.setDesc k (some { f with users := n })) := by
  by_cases hk : k = d
  · subst hk
    refine ⟨h.desc_lt, h.node_lt, h.offset_lt, fun hg => ?_, h.inode⟩
    obtain rfl := Option.some.inj (setDesc_self.symm.trans hg)
    obtain ⟨hino, hoffset⟩ := h.desc hf
    exact ⟨hino, hoffset⟩
  · exact h.setDesc_of_ne hk

theorem Stands.dropped (h : Stands d node e o s) : Stands d node e o (s.setDesc k none) := by
  by_cases hk : k = d
  · subst hk
    refine ⟨h.desc_lt, h.node_lt, h.offset_lt, fun hg => ?_, h.inode⟩
    cases setDesc_self.symm.trans hg
  · exact h.setDesc_of_ne hk

theorem Stands.fdGet (h : Stands d node e o s) (hs : s.fdGet k = some s') : Stands d node e o s' := by
  obtain ⟨f, hf, hs⟩ := Option.bind_eq_some_iff.mp hs
  obtain rfl := Option.some.inj hs
  exact h.shared hf

theorem Stands.fdPut (h : Stands d node e o s) (hs : s.fdPut k = some s') : Stands d node e o s' := by
  obtain ⟨f, hf, hs⟩ := Option.bind_eq_some_iff.mp hs
  obtain rfl := Option.some.inj hs
  split
  · exact h.dropped
  · exact h.shared hf

theorem Stands.allocFd (h : Stands d node e o s) {i : Nat} : Stands d node e o (s.allocFd p i).2 := by
  have hne : s.nextDesc ≠ d := h.desc_lt.ne'
  have h1 := h.setDesc_of_ne (c := some ⟨none, 0, 0, 1⟩) hne
  exact ⟨Nat.lt_succ_of_lt h.desc_lt, h1.node_lt, h1.offset_lt, h1.desc, h1.inode⟩

theorem Stands.closeSlot (h : Stands d node e o s) {i : Nat} (hs : s.closeSlot p i = some (rep, s')) :
    Stands d node e o s' := by
  obtain ⟨k, -, hs⟩ := Option.bind_eq_some_iff.mp hs
  obtain ⟨f, -, hs⟩ := Option.bind_eq_some_iff.mp hs
  cases hfi : f.ino with
  | none =>
    rw [hfi] at hs
    obtain ⟨-, rfl⟩ := Prod.mk.inj (Option.some.inj hs)
    exact h
  | some ino =>
    rw [hfi] at hs
    obtain ⟨⟨r, s1⟩, h1, hs⟩ := Option.bind_eq_some_iff.mp hs
    obtain ⟨s2, h2, hs⟩ := Option.bind_eq_some_iff.mp hs
    obtain ⟨s3, h3, hs⟩ := Option.bind_eq_some_iff.mp hs
    obtain ⟨-, rfl⟩ := Prod.mk.inj (Option.some.inj hs)
    exact (((h.looks (vfsClose_looks h1)).looks (vfsFree_looks h2)).fdPut h3).setFd

theorem Stands.setupFd (h : Stands d node e o s) (hk : k ≠ d) {flags : Nat} (hs : s.setupFd k ino flags = some s') :
    Stands d node e o s' := by
  obtain ⟨f, -, hs⟩ := Option.bind_eq_some_iff.mp hs
  obtain ⟨⟨r, s1⟩, hopen, hs⟩ := Option.bind_eq_some_iff.mp hs
  obtain rfl := Option.some.inj hs
  exact (h.setDesc_of_ne hk).looks (vfsOpen_looks hopen)

-- ---------------------------------------------------------------------------
-- Calls
-- ---------------------------------------------------------------------------

theorem Stands.open (h : Stands d node e o s) {path : Path} {flags : Nat}
    (hs : s.open p path flags = some (rep, s')) : Stands d node e o s' := by
  unfold Files.open at hs
  split at hs
  · obtain ⟨-, rfl⟩ := Prod.mk.inj (Option.some.inj hs)
    exact h
  · obtain ⟨⟨found, s1⟩, hnamei, hs⟩ := Option.bind_eq_some_iff.mp hs
    have h1 : Stands d node e o s1 := h.allocFd.looks (vfsNamei_looks hnamei)
    cases found with
    | none =>
      obtain ⟨s2, hput, hs⟩ := Option.bind_eq_some_iff.mp hs
      obtain ⟨-, rfl⟩ := Prod.mk.inj (Option.some.inj hs)
      exact (h1.fdPut hput).setFd
    | some found =>
      obtain ⟨⟨r, s2⟩, hopen, hs⟩ := Option.bind_eq_some_iff.mp hs
      have hr := (vfsOpen_recounts hopen).2
      change (if r < 0 then _ else _) = _ at hs
      rw [if_neg (by omega)] at hs
      obtain ⟨f, hf, hs⟩ := Option.bind_eq_some_iff.mp hs
      obtain ⟨-, rfl⟩ := Prod.mk.inj (Option.some.inj hs)
      exact (h1.looks (vfsOpen_looks hopen)).setDesc_of_ne h.desc_lt.ne'

theorem Stands.dup (h : Stands d node e o s) {fildes : Int} (hs : s.dup p fildes = some (rep, s')) :
    Stands d node e o s' := by
  obtain ⟨i, -, hs⟩ := Option.bind_eq_some_iff.mp hs
  split at hs
  · obtain ⟨-, rfl⟩ := Prod.mk.inj (Option.some.inj hs)
    exact h
  · split at hs
    · obtain ⟨-, rfl⟩ := Prod.mk.inj (Option.some.inj hs)
      exact h
    · obtain ⟨s1, hget, hs⟩ := Option.bind_eq_some_iff.mp hs
      obtain ⟨-, rfl⟩ := Prod.mk.inj (Option.some.inj hs)
      exact h.setFd.fdGet hget

theorem Stands.dup2 (h : Stands d node e o s) {fildes1 fildes2 : Int}
    (hs : s.dup2 p fildes1 fildes2 = some (rep, s')) : Stands d node e o s' := by
  rcases dup2_cases hs with rfl | ⟨-, k, s1, hclose, hget⟩
  · exact h
  · rcases hclose with rfl | ⟨rep', hclose⟩
    · exact h.setFd.fdGet hget
    · exact (h.closeSlot hclose).setFd.fdGet hget

theorem Stands.newPipe (h : Stands d node e o s) (size : Nat) : Stands d node e o (s.newPipe size).2 := by
  have hnew : ∀ i, s.nextIno ≤ i → i ≠ node := fun i hi => (lt_of_lt_of_le h.node_lt hi).ne'
  refine ⟨h.desc_lt, Nat.lt_add_right 2 h.node_lt, h.offset_lt, h.desc, fun hn => h.inode ?_⟩
  have hold := (Function.update_of_ne (hnew (s.nextIno + 1) (Nat.le_succ _)).symm _ _).symm.trans hn
  exact (Function.update_of_ne (hnew s.nextIno le_rfl).symm _ _).symm.trans hold

theorem Stands.pipeCall (h : Stands d node e o s) (hs : s.pipeCall p = some (rep, s')) :
    Stands d node e o s' := by
  unfold Files.pipeCall at hs
  split at hs
  · obtain ⟨-, rfl⟩ := Prod.mk.inj (Option.some.inj hs)
    exact h
  next i hi =>
  obtain ⟨k, s0, hk⟩ : ∃ k s0, s.allocFd p i = (k, s0) := ⟨_, _, rfl⟩
  rw [hk] at hs
  obtain rfl : k = s.nextDesc := (congrArg Prod.fst hk).symm
  obtain rfl : s0 = (s.allocFd p i).2 := (congrArg Prod.snd hk).symm
  dsimp only at hs
  split at hs
  · obtain ⟨-, rfl⟩ := Prod.mk.inj (Option.some.inj hs)
    exact h.allocFd
  · next j hj =>
    obtain ⟨s1, h1, hs⟩ := Option.bind_eq_some_iff.mp hs
    obtain ⟨s2, h2, hs⟩ := Option.bind_eq_some_iff.mp hs
    obtain ⟨-, rfl⟩ := Prod.mk.inj (Option.some.inj hs)
    have hlast : (s.allocFd p i).2.nextDesc ≠ d := h.allocFd.desc_lt.ne'
    exact ((h.allocFd.allocFd.newPipe 512).setupFd h.desc_lt.ne' h1).setupFd hlast h2

theorem Stands.foldlM {g : Files → Nat → Option Files}
    (hg : ∀ {s s' i}, Stands d node e o s → g s i = some s' → Stands d node e o s') {l : List Nat}
    (h : Stands d node e o s) (hs : l.foldlM g s = some s') : Stands d node e o s' := by
  induction l generalizing s with
  | nil =>
    obtain rfl := Option.some.inj hs
    exact h
  | cons i l ih =>
    rw [List.foldlM_cons] at hs
    obtain ⟨s1, h1, hs⟩ := Option.bind_eq_some_iff.mp hs
    exact ih (hg h h1) hs

theorem Stands.forkFd (h : Stands d node e o s) {child : Pid} {i : Nat} (hs : Files.forkFd child s i = some s') :
    Stands d node e o s' := by
  unfold Files.forkFd at hs
  split at hs
  · obtain rfl := Option.some.inj hs
    exact h
  · obtain ⟨s1, hget, hs⟩ := Option.bind_eq_some_iff.mp hs
    obtain ⟨f, -, hs⟩ := Option.bind_eq_some_iff.mp hs
    obtain ⟨ino, -, hs⟩ := Option.bind_eq_some_iff.mp hs
    obtain ⟨⟨r, s2⟩, hopen, hs⟩ := Option.bind_eq_some_iff.mp hs
    obtain rfl := Option.some.inj hs
    exact (h.fdGet hget).looks (vfsOpen_looks hopen)

theorem Stands.exitFd (h : Stands d node e o s) {i : Nat} (hs : Files.exitFd p s i = some s') :
    Stands d node e o s' := by
  unfold Files.exitFd at hs
  split at hs
  · obtain rfl := Option.some.inj hs
    exact h
  · obtain ⟨⟨rep, s1⟩, hclose, hs⟩ := Option.bind_eq_some_iff.mp hs
    obtain rfl := Option.some.inj hs
    exact h.closeSlot hclose

theorem Stands.close (h : Stands d node e o s) {file : Int} (hs : s.close p file = some (rep, s')) :
    Stands d node e o s' := by
  obtain ⟨i, -, hs⟩ := Option.bind_eq_some_iff.mp hs
  exact h.closeSlot hs

theorem Stands.call (h : Stands d node e o s) {c : FileCall} (hs : s.call p c = some (rep, s')) :
    Stands d node e o s' := by
  cases c with
  | «open» path flags => exact h.open hs
  | close file => exact h.close hs
  | dup fildes => exact h.dup hs
  | dup2 fildes1 fildes2 => exact h.dup2 hs
  | pipe => exact h.pipeCall hs
  | fork =>
    obtain ⟨s1, hloop, hs⟩ := Option.bind_eq_some_iff.mp hs
    obtain ⟨-, rfl⟩ := Prod.mk.inj (Option.some.inj hs)
    have hchild : Stands d node e o
        { s with nextPid := s.nextPid + 1, fd := Function.update s.fd s.nextPid (s.fd p) } :=
      ⟨h.desc_lt, h.node_lt, h.offset_lt, h.desc, h.inode⟩
    have hdone := hchild.foldlM (fun hi => hi.forkFd) hloop
    exact ⟨hdone.desc_lt, hdone.node_lt, hdone.offset_lt, hdone.desc, hdone.inode⟩
  | exit =>
    obtain ⟨s1, hloop, hs⟩ := Option.bind_eq_some_iff.mp hs
    obtain ⟨-, rfl⟩ := Prod.mk.inj (Option.some.inj hs)
    have hdone := h.foldlM (fun hi => hi.exitFd) hloop
    exact ⟨hdone.desc_lt, hdone.node_lt, hdone.offset_lt, hdone.desc, hdone.inode⟩

-- ---------------------------------------------------------------------------
-- Calls on descriptors
-- ---------------------------------------------------------------------------

theorem Stands.pipes (h : Stands d node e o s) {pipe' : PipeId → Pipe} :
    Stands d node e o { s with pipe := pipe' } :=
  ⟨h.desc_lt, h.node_lt, h.offset_lt, h.desc, h.inode⟩

theorem vfsRead_pipes {user : Nat → Buffer} {ptr len offset ret : Nat}
    (hs : v.vfsRead user s ino ptr len offset = some (ret, s')) : ∃ pipe', s' = { s with pipe := pipe' } := by
  obtain ⟨n, -, hs⟩ := Option.bind_eq_some_iff.mp hs
  cases hd : n.driver with
  | tarfs e =>
    rw [hd] at hs
    obtain ⟨x, -, hs⟩ := Option.bind_eq_some_iff.mp hs
    obtain ⟨-, rfl⟩ := Prod.mk.inj (Option.some.inj hs)
    exact ⟨s.pipe, rfl⟩
  | pipe k e =>
    rw [hd] at hs
    exact v.vfsRead_rest hs
  | debug =>
    rw [hd] at hs
    exact v.vfsRead_rest hs

theorem vfsWrite_pipes {ptr len offset ret : Nat} (hs : v.vfsWrite s ino ptr len offset = some (ret, s')) :
    ∃ pipe', s' = { s with pipe := pipe' } := by
  obtain ⟨n, -, hs⟩ := Option.bind_eq_some_iff.mp hs
  cases hd : n.driver with
  | tarfs e =>
    rw [hd] at hs
    obtain ⟨-, rfl⟩ := Prod.mk.inj (Option.some.inj hs)
    exact ⟨s.pipe, rfl⟩
  | pipe k e =>
    rw [hd] at hs
    exact v.vfsWrite_rest hs
  | debug =>
    rw [hd] at hs
    exact v.vfsWrite_rest hs

theorem onFile_cases {file : Int} {bad a : Answer} {act : Ino → DescId → FileDesc → Option (Answer × Files)}
    (hs : s.onFile p file bad act = some (a, s')) :
    ∃ k f, s.slot p file = some (k, f) ∧
      (f.ino = none ∧ a = bad ∧ s' = s ∨ ∃ ino, f.ino = some ino ∧ act ino k f = some (a, s')) := by
  obtain ⟨⟨k, f⟩, hslot, hs⟩ := Option.bind_eq_some_iff.mp hs
  refine ⟨k, f, hslot, ?_⟩
  cases hino : f.ino with
  | none =>
    simp only [hino] at hs
    obtain ⟨rfl, rfl⟩ := Prod.mk.inj (Option.some.inj hs)
    exact .inl ⟨rfl, rfl, rfl⟩
  | some ino =>
    simp only [hino] at hs
    exact .inr ⟨ino, rfl, hs⟩

theorem advance_cases {file : Int} {ret : Nat} {a : Answer} (hs : s.advance p file ret = some (a, s')) :
    ∃ k f, s.slot p file = some (k, f) ∧ a = (asInt ret, none) ∧
      s' = s.setDesc k (some { f with offset := wrap (f.offset + ret) }) := by
  obtain ⟨⟨k, f⟩, hslot, hs⟩ := Option.bind_eq_some_iff.mp hs
  obtain ⟨rfl, rfl⟩ := Prod.mk.inj (Option.some.inj hs)
  exact ⟨k, f, hslot, rfl, rfl⟩

theorem read_cases {b : Backing} {file : Int} {ptr len : Nat} {a : Answer}
    (hs : s.read b p file ptr len = some (a, s')) :
    (∃ err, a = (-1, some err) ∧ s' = s) ∨ ∃ k f ino ret s1, s.slot p file = some (k, f) ∧ f.ino = some ino ∧
      b.vfsRead s ino ptr len f.offset = some (ret, s1) ∧ s1.advance p file ret = some (a, s') := by
  unfold Files.read at hs
  split at hs
  · obtain ⟨rfl, rfl⟩ := Prod.mk.inj (Option.some.inj hs)
    exact .inl ⟨_, rfl, rfl⟩
  · obtain ⟨k, f, hslot, ⟨-, rfl, rfl⟩ | ⟨ino, hino, hs⟩⟩ := onFile_cases hs
    · exact .inl ⟨_, rfl, rfl⟩
    · obtain ⟨⟨ret, s1⟩, hread, hs⟩ := Option.bind_eq_some_iff.mp hs
      exact .inr ⟨k, f, ino, ret, s1, hslot, hino, hread, hs⟩

theorem write_cases {b : Backing} {file : Int} {ptr len : Nat} {a : Answer}
    (hs : s.write b p file ptr len = some (a, s')) :
    (∃ err, a = (-1, some err) ∧ s' = s) ∨ ∃ k f ino ret s1, s.slot p file = some (k, f) ∧ f.ino = some ino ∧
      b.vfsWrite s ino ptr len f.offset = some (ret, s1) ∧ s1.advance p file ret = some (a, s') := by
  unfold Files.write at hs
  split at hs
  · obtain ⟨rfl, rfl⟩ := Prod.mk.inj (Option.some.inj hs)
    exact .inl ⟨_, rfl, rfl⟩
  · obtain ⟨k, f, hslot, ⟨-, rfl, rfl⟩ | ⟨ino, hino, hs⟩⟩ := onFile_cases hs
    · exact .inl ⟨_, rfl, rfl⟩
    · obtain ⟨⟨ret, s1⟩, hwrite, hs⟩ := Option.bind_eq_some_iff.mp hs
      exact .inr ⟨k, f, ino, ret, s1, hslot, hino, hwrite, hs⟩

theorem lseek_cases {b : Backing} {file ptr dir : Int} {a : Answer}
    (hs : s.lseek b p file ptr dir = some (a, s')) :
    (∃ err, a = (-1, some err) ∧ s' = s) ∨ ∃ k f, ∃ offset : Nat, s.slot p file = some (k, f) ∧ offset < 2 ^ 32 ∧
      a = (asInt offset, none) ∧ s' = s.setDesc k (some { f with offset := offset }) := by
  obtain ⟨k, f, hslot, ⟨-, rfl, rfl⟩ | ⟨ino, hino, hs⟩⟩ := onFile_cases hs
  · exact .inl ⟨_, rfl, rfl⟩
  split at hs
  · obtain ⟨rfl, rfl⟩ := Prod.mk.inj (Option.some.inj hs)
    exact .inl ⟨_, rfl, rfl⟩
  split at hs
  · obtain ⟨rfl, rfl⟩ := Prod.mk.inj (Option.some.inj hs)
    exact .inl ⟨_, rfl, rfl⟩
  obtain ⟨n, -, hs⟩ := Option.bind_eq_some_iff.mp hs
  split at hs
  · obtain ⟨rfl, rfl⟩ := Prod.mk.inj (Option.some.inj hs)
    exact .inl ⟨_, rfl, rfl⟩
  obtain ⟨rfl, rfl⟩ := Prod.mk.inj (Option.some.inj hs)
  refine .inr ⟨k, f, _, hslot, ?_, rfl, rfl⟩
  have hlt : ∀ m : Int, asUint m < 2 ^ 32 := fun m => by
    unfold asUint
    omega
  split
  · exact hlt _
  split
  · exact hlt _
  · exact hlt _

theorem readTar_cursor {entry : TarEntry} {buffer buffer' : Buffer} {len ret : Nat}
    (hfile : FileIn v.mem (v.tree.node e).item.tar entry) (hclear : ¬Wraps entry.size len o)
    (hread : v.readTar e buffer len o = some (ret, buffer')) :
    ret = min len (entry.size - o) ∧
      (List.range ret).map buffer' = ((content v.mem (v.tree.node e).item.tar entry).drop o).take len := by
  have hright : ReadsRight v.mem v.tree (newInode v.mem (v.tree.node e).item e) entry buffer len o :=
    (readTar_iff hfile).mpr hclear
  rw [ReadsRight] at hright
  obtain ⟨rfl, rfl⟩ := Prod.mk.inj (Option.some.inj (hread.symm.trans hright))
  refine ⟨rfl, ?_⟩
  have hlen : ((content v.mem (v.tree.node e).item.tar entry).drop o).length = entry.size - o := by
    simp [content, bytesAt]
  have hcut : ((content v.mem (v.tree.node e).item.tar entry).drop o).take len =
      ((content v.mem (v.tree.node e).item.tar entry).drop o).take (min len (entry.size - o)) := by
    rw [← hlen, List.take_eq_take_min]
  rw [hcut, content_drop _ (Nat.min_le_right _ _)]
  exact List.map_congr_left fun i hi => if_pos (List.mem_range.mp hi)

def Follows (v : Volume) (entry : TarEntry) (d : DescId) (node : Ino) (e : EntryId) (o : Nat)
    (op : Option (Op UInt8)) (s' : Files) : Prop :=
  ∃ o', replay (content v.mem (v.tree.node e).item.tar entry) o op.toList = some o' ∧ Stands d node e o' s'

theorem Stands.stays {entry : TarEntry} (h : Stands d node e o s') : Follows v entry d node e o none s' :=
  ⟨o, rfl, h⟩

theorem Stands.read {entry : TarEntry} {user : Nat → Buffer} {file : Int} {ptr len : Nat} {a : Answer}
    (h : Stands d node e o s) (hfile : FileIn v.mem (v.tree.node e).item.tar entry)
    (hok : NoWrap d entry.size s ⟨p, .desc (.read file ptr len), user⟩)
    (hs : s.read (v.backing user) p file ptr len = some (a, s')) :
    Follows v entry d node e o (v.event d s ⟨p, .desc (.read file ptr len), user⟩) s' := by
  have hevent : ∀ {k f}, s.slot p file = some (k, f) → v.event d s ⟨p, .desc (.read file ptr len), user⟩ =
      if k ≠ d then none else match a.2 with
        | none => (v.delivered s f (user ptr) len).map (.read len)
        | some _ => none := by
    intro k f hslot
    simp only [Volume.event, DescCall.fildes, hslot, descCall, hs]
    obtain ⟨r, _ | err⟩ := a <;> rfl
  rcases read_cases hs with ⟨err, rfl, rfl⟩ | ⟨k, f, ino, ret, s1, hslot, hino, hread, hadvance⟩
  · suffices hnone : v.event d s' ⟨p, .desc (.read file ptr len), user⟩ = none by
      rw [hnone]
      exact h.stays
    cases hslot : s'.slot p file with
    | none => simp only [Volume.event, DescCall.fildes, hslot]
    | some x =>
      rw [hevent hslot]
      split <;> rfl
  obtain ⟨pipe', rfl⟩ := vfsRead_pipes hread
  obtain ⟨k', f', hslot', rfl, rfl⟩ := advance_cases hadvance
  obtain ⟨rfl, rfl⟩ := Prod.mk.inj (Option.some.inj (hslot.symm.trans hslot'))
  obtain ⟨i, -, hfd, hdesc⟩ := slot_some hslot
  rw [hevent hslot]
  by_cases hk : k = d
  swap
  · rw [if_pos hk]
    exact (h.pipes.setDesc_of_ne hk).stays
  subst hk
  rw [if_neg (not_not_intro rfl)]
  obtain ⟨hnode, rfl⟩ := h.desc hdesc
  obtain rfl := Option.some.inj (hino.symm.trans hnode)
  -- the driver is that of the archive, and the table is as it was
  obtain ⟨n, hn, hread⟩ := Option.bind_eq_some_iff.mp hread
  have hdriver := h.inode hn
  simp only [hdriver] at hread
  obtain ⟨⟨ret', buffer'⟩, htar, hread⟩ := Option.bind_eq_some_iff.mp hread
  obtain ⟨rfl, -⟩ := Prod.mk.inj (Option.some.inj hread)
  have hclear : ¬Wraps entry.size len f.offset := by
    refine hok (len, f.offset) ?_
    simp only [readThrough, hslot, if_true]
    exact Option.mem_some_self _
  obtain ⟨hret, hbytes⟩ := readTar_cursor hfile hclear htar
  have hdelivered : v.delivered s f (user ptr) len = some ((List.range ret').map buffer') := by
    simp only [Volume.delivered, hino, hn, hdriver, htar, Option.bind_eq_bind, Option.bind_some, Option.pure_def]
  have hlen : ((List.range ret').map buffer').length = ret' := by simp
  have hlt : f.offset + ret' < 2 ^ 32 := by
    have hoffset := h.offset_lt
    have hsize := hfile.size_le
    omega
  refine ⟨f.offset + ret', ?_, ?_⟩
  · rw [hdelivered, Option.map_some, Option.toList_some, replay, if_pos hbytes, hlen, replay]
  · have hwrap : wrap (f.offset + ret') = f.offset + ret' := Nat.mod_eq_of_lt hlt
    rw [hwrap]
    exact h.pipes.moved hlt hdesc

theorem Stands.write {user : Nat → Buffer} {file : Int} {ptr len : Nat} {a : Answer}
    (h : Stands d node e o s) (hs : s.write (v.backing user) p file ptr len = some (a, s')) :
    Stands d node e o s' := by
  rcases write_cases hs with ⟨err, rfl, rfl⟩ | ⟨k, f, ino, ret, s1, hslot, hino, hwrite, hadvance⟩
  · exact h
  obtain ⟨pipe', rfl⟩ := vfsWrite_pipes hwrite
  obtain ⟨k', f', hslot', -, rfl⟩ := advance_cases hadvance
  obtain ⟨rfl, rfl⟩ := Prod.mk.inj (Option.some.inj (hslot.symm.trans hslot'))
  obtain ⟨i, -, hfd, hdesc⟩ := slot_some hslot
  by_cases hk : k = d
  swap
  · exact h.pipes.setDesc_of_ne hk
  subst hk
  obtain ⟨hnode, rfl⟩ := h.desc hdesc
  obtain rfl := Option.some.inj (hino.symm.trans hnode)
  obtain ⟨n, hn, hwrite⟩ := Option.bind_eq_some_iff.mp hwrite
  simp only [h.inode hn] at hwrite
  obtain ⟨rfl, -⟩ := Prod.mk.inj (Option.some.inj hwrite)
  have hwrap : wrap (f.offset + 0) = f.offset := Nat.mod_eq_of_lt h.offset_lt
  rw [hwrap]
  exact h.pipes.moved h.offset_lt hdesc

theorem Stands.lseek {entry : TarEntry} {user : Nat → Buffer} {file ptr dir : Int} {a : Answer}
    (h : Stands d node e o s) (hs : s.lseek (v.backing user) p file ptr dir = some (a, s')) :
    Follows v entry d node e o (v.event d s ⟨p, .desc (.lseek file ptr dir), user⟩) s' := by
  have hevent : ∀ {k f}, s.slot p file = some (k, f) → v.event d s ⟨p, .desc (.lseek file ptr dir), user⟩ =
      if k ≠ d then none else match a.2 with
        | none => some (.seek (asUint a.1))
        | some _ => none := by
    intro k f hslot
    simp only [Volume.event, DescCall.fildes, hslot, descCall, hs]
    obtain ⟨r, _ | err⟩ := a <;> rfl
  rcases lseek_cases hs with ⟨err, rfl, rfl⟩ | ⟨k, f, offset, hslot, hoffset, rfl, rfl⟩
  · suffices hnone : v.event d s' ⟨p, .desc (.lseek file ptr dir), user⟩ = none by
      rw [hnone]
      exact h.stays
    cases hslot : s'.slot p file with
    | none => simp only [Volume.event, DescCall.fildes, hslot]
    | some x =>
      rw [hevent hslot]
      split <;> rfl
  obtain ⟨i, -, hfd, hdesc⟩ := slot_some hslot
  rw [hevent hslot]
  by_cases hk : k = d
  swap
  · rw [if_pos hk]
    exact (h.setDesc_of_ne hk).stays
  subst hk
  rw [if_neg (not_not_intro rfl)]
  have hback : asUint (asInt offset) = offset := by
    rw [asUint, asInt_eq]
    split <;> omega
  refine ⟨offset, ?_, h.moved hoffset hdesc⟩
  simp only [Option.toList_some, replay, hback]

theorem Stands.readdir (h : Stands d node e o s) {file : Int} {what : Listing} {a : Answer}
    (hs : s.readdir p file what = some (a, s')) : Stands d node e o s' := by
  obtain ⟨k, f, -, ⟨-, -, rfl⟩ | ⟨ino, -, hs⟩⟩ := onFile_cases hs
  · exact h
  obtain ⟨⟨de, s1⟩, hdir, hs⟩ := Option.bind_eq_some_iff.mp hs
  have h1 := h.looks (vfsReaddir_looks hdir)
  cases de with
  | none =>
    obtain ⟨-, rfl⟩ := Prod.mk.inj (Option.some.inj hs)
    exact h1
  | some i =>
    obtain ⟨s2, hfree, hs⟩ := Option.bind_eq_some_iff.mp hs
    obtain ⟨-, rfl⟩ := Prod.mk.inj (Option.some.inj hs)
    exact h1.looks (vfsFree_looks hfree)

theorem fstat_same {b : Backing} {file : Int} {st : Nat} {a : Answer} (hs : s.fstat b p file st = some (a, s')) :
    s' = s := by
  obtain ⟨k, f, -, ⟨-, -, rfl⟩ | ⟨ino, -, hs⟩⟩ := onFile_cases hs
  · rfl
  split at hs
  · exact (Prod.mk.inj (Option.some.inj hs)).2.symm
  obtain ⟨n, -, hs⟩ := Option.bind_eq_some_iff.mp hs
  cases hstat : vfsStat n.driver with
  | ok mode =>
    rw [hstat] at hs
    exact (Prod.mk.inj (Option.some.inj hs)).2.symm
  | error err =>
    rw [hstat] at hs
    exact (Prod.mk.inj (Option.some.inj hs)).2.symm

theorem isatty_same {file : Int} {a : Answer} (hs : s.isatty p file = some (a, s')) : s' = s := by
  obtain ⟨k, f, -, ⟨-, -, rfl⟩ | ⟨ino, -, hs⟩⟩ := onFile_cases hs
  · rfl
  obtain ⟨n, -, hs⟩ := Option.bind_eq_some_iff.mp hs
  exact (Prod.mk.inj (Option.some.inj hs)).2.symm

/-- What is neither a read nor a seek does not move a cursor. -/
theorem event_none {a : Action} (hread : ∀ file ptr len, a.call ≠ .desc (.read file ptr len))
    (hseek : ∀ file ptr dir, a.call ≠ .desc (.lseek file ptr dir)) : v.event d s a = none := by
  obtain ⟨p, call, user⟩ := a
  cases call with
  | file c => rfl
  | desc c =>
    unfold Volume.event
    cases hslot : s.slot p c.fildes with
    | none => simp only [hslot]
    | some x =>
      simp only [hslot]
      split
      · rfl
      · cases c with
        | read file ptr len => exact absurd rfl (hread file ptr len)
        | lseek file ptr dir => exact absurd rfl (hseek file ptr dir)
        | close | write | fstat | isatty | readdir | dup | dup2 => rfl

theorem Stands.step {entry : TarEntry} {a : Action} (h : Stands d node e o s)
    (hfile : FileIn v.mem (v.tree.node e).item.tar entry) (hok : NoWrap d entry.size s a)
    (hs : v.step s a = some s') : Follows v entry d node e o (v.event d s a) s' := by
  obtain ⟨p, call, user⟩ := a
  unfold Volume.step at hs
  split at hs
  swap
  · cases hs
  unfold Volume.carryOut at hs
  by_cases hmoves : (∃ file ptr len, call = .desc (.read file ptr len)) ∨
      ∃ file ptr dir, call = .desc (.lseek file ptr dir)
  · rcases hmoves with ⟨file, ptr, len, rfl⟩ | ⟨file, ptr, dir, rfl⟩
    · obtain ⟨⟨a, s1⟩, hcall, rfl⟩ := Option.map_eq_some_iff.mp hs
      exact h.read hfile hok hcall
    · obtain ⟨⟨a, s1⟩, hcall, rfl⟩ := Option.map_eq_some_iff.mp hs
      exact h.lseek hcall
  obtain ⟨hread, hseek⟩ := not_or.mp hmoves
  rw [event_none (fun file ptr len hc => hread ⟨file, ptr, len, hc⟩) fun file ptr dir hc =>
    hseek ⟨file, ptr, dir, hc⟩]
  refine Stands.stays ?_
  cases call with
  | file c =>
    obtain ⟨⟨rep, s1⟩, hcall, rfl⟩ := Option.map_eq_some_iff.mp hs
    exact h.call hcall
  | desc c =>
    obtain ⟨⟨a, s1⟩, hcall, rfl⟩ := Option.map_eq_some_iff.mp hs
    cases c with
    | read file ptr len => exact absurd ⟨file, ptr, len, rfl⟩ hread
    | lseek file ptr dir => exact absurd ⟨file, ptr, dir, rfl⟩ hseek
    | write file ptr len => exact h.write hcall
    | readdir file what => exact h.readdir hcall
    | fstat file st => exact (fstat_same hcall).symm ▸ h
    | isatty file => exact (isatty_same hcall).symm ▸ h
    | close file =>
      obtain ⟨⟨rep, s2⟩, hclose, hcall⟩ := Option.map_eq_some_iff.mp hcall
      obtain ⟨-, rfl⟩ := Prod.mk.inj hcall
      exact h.close hclose
    | dup fildes =>
      obtain ⟨⟨rep, s2⟩, hdup, hcall⟩ := Option.map_eq_some_iff.mp hcall
      obtain ⟨-, rfl⟩ := Prod.mk.inj hcall
      exact h.dup hdup
    | dup2 fildes1 fildes2 =>
      obtain ⟨⟨rep, s2⟩, hdup, hcall⟩ := Option.map_eq_some_iff.mp hcall
      obtain ⟨-, rfl⟩ := Prod.mk.inj hcall
      exact h.dup2 hdup

theorem Stands.exec {entry : TarEntry} {as : List Action} (h : Stands d node e o s)
    (hfile : FileIn v.mem (v.tree.node e).item.tar entry) (hok : Along v.step (NoWrap d entry.size) s as)
    (hs : Transition.exec v.step s as = some s') :
    ∃ o', replay (content v.mem (v.tree.node e).item.tar entry) o (v.events d s as) = some o' ∧
      Stands d node e o' s' := by
  induction as generalizing s o with
  | nil =>
    obtain rfl := Option.some.inj hs
    exact ⟨o, rfl, h⟩
  | cons a as ih =>
    rw [exec_cons] at hs
    obtain ⟨s1, hstep, hs⟩ := Option.bind_eq_some_iff.mp hs
    obtain ⟨o1, hfirst, h1⟩ := h.step hfile hok.1 hstep
    obtain ⟨o', hrest, h'⟩ := ih h1 (hok.2 s1 hstep) hs
    refine ⟨o', ?_, h'⟩
    rw [Volume.events, hstep]
    dsimp only
    rw [replay_append, hfirst, Option.bind_some, hrest]

-- ---------------------------------------------------------------------------
-- From the call of open on
-- ---------------------------------------------------------------------------

theorem open_stands {path : Path} {flags fd : Nat} {n : Inode} (hintact : s.Intact)
    (hs : s.open p path flags = some (.ok fd, s')) (hfd : s'.fd p fd = some d) (hf : s'.desc d = some f)
    (hino : f.ino = some node) (hn : s'.inode node = some n) (he : n.driver = .tarfs e) :
    Stands d node e 0 s' := by
  have hintact' := hintact.open hs
  have hlt : d < s'.nextDesc := by
    by_contra hge
    rw [hintact'.freshDesc (Nat.not_lt.mp hge)] at hf
    cases hf
  have hnode : node < s'.nextIno := by
    by_contra hge
    rw [hintact'.freshIno (Nat.not_lt.mp hge)] at hn
    cases hn
  suffices hoffset : f.offset = 0 by
    refine ⟨hlt, hnode, by decide, fun hg => ?_, fun hm => ?_⟩
    · obtain rfl := Option.some.inj (hf.symm.trans hg)
      exact ⟨hino, hoffset⟩
    · obtain rfl := Option.some.inj (hn.symm.trans hm)
      exact he
  unfold Files.open at hs
  split at hs
  · cases (Prod.mk.inj (Option.some.inj hs)).1
  next i hi =>
  obtain ⟨⟨found, s1⟩, hnamei, hs⟩ := Option.bind_eq_some_iff.mp hs
  cases found with
  | none =>
    obtain ⟨s2, hput, hs⟩ := Option.bind_eq_some_iff.mp hs
    cases (Prod.mk.inj (Option.some.inj hs)).1
  | some found =>
    obtain ⟨⟨r, s2⟩, hopen, hs⟩ := Option.bind_eq_some_iff.mp hs
    obtain ⟨hrec, hr⟩ := vfsOpen_recounts hopen
    change (if r < 0 then _ else _) = _ at hs
    rw [if_neg (by omega)] at hs
    obtain ⟨g, -, hs⟩ := Option.bind_eq_some_iff.mp hs
    obtain ⟨hrep, rfl⟩ := Prod.mk.inj (Option.some.inj hs)
    have hslot : s2.fd p i = some s.nextDesc := by
      rw [hrec.same.fd, (vfsNamei_looks hnamei).1.fd]
      simp [Files.setFd]
    obtain rfl : fd = i := by
      have hcast : (i : Int) = fd := Except.ok.inj hrep
      omega
    obtain rfl : s.nextDesc = d := Option.some.inj (hslot.symm.trans hfd)
    obtain rfl := Option.some.inj (setDesc_self.symm.trans hf)
    rfl

/-- What is read and sought through a descriptor of a file of the archive, by whom and from
whichever slots, is what one cursor on the file does that `open` has put at its start; reads
alone give the file piece by piece. -/
theorem descriptor_cursor (v : Volume) {entry : TarEntry} {path : Path} {flags fd : Nat} {n : Inode}
    {as : List Action} {s'' : Files} (hintact : s.Intact) (hopen : s.open p path flags = some (.ok fd, s'))
    (hfd : s'.fd p fd = some d) (hf : s'.desc d = some f) (hino : f.ino = some node)
    (hn : s'.inode node = some n) (he : n.driver = .tarfs e)
    (hfile : FileIn v.mem (v.tree.node e).item.tar entry) (hok : Along v.step (NoWrap d entry.size) s' as)
    (hrun : exec v.step s' as = some s'') :
    (∃ o, replay (content v.mem (v.tree.node e).item.tar entry) 0 (v.events d s' as) = some o ∧
      ∀ g, s''.desc d = some g → g.ino = some node ∧ g.offset = o) ∧
    (Forward (v.events d s' as) → itemsRead (v.events d s' as) =
      (content v.mem (v.tree.node e).item.tar entry).take (asked (v.events d s' as))) := by
  obtain ⟨o, hreplay, h⟩ := (open_stands hintact hopen hfd hf hino hn he).exec hfile hok hrun
  refine ⟨⟨o, hreplay, fun g => h.desc⟩, fun hforward => ?_⟩
  rw [(replay_forward hreplay hforward).1, List.drop_zero]

end

def smallVolume : Volume where
  mem := loaded
  tree := smallTree
  rest := serial
  vfsRead_rest {s _ _ _ _ _ s'} h := ⟨s.pipe, by obtain ⟨-, rfl⟩ := Prod.mk.inj (Option.some.inj h); rfl⟩
  vfsWrite_rest {s _ _ _ _ _ s'} h := ⟨s.pipe, by obtain ⟨-, rfl⟩ := Prod.mk.inj (Option.some.inj h); rfl⟩

/-- A child duplicates the descriptor of its parent, and both read. -/
def sharedRun : List Action :=
  [⟨1, .file .fork, fun _ _ => 0⟩, ⟨1, .desc (.read 0 0 2), fun _ _ => 0⟩, ⟨2, .desc (.dup 0), fun _ _ => 0⟩,
    ⟨2, .desc (.read 1 0 5), fun _ _ => 0⟩]

theorem descriptor_cursor_shared : ∃ s s' o, mounted.open 1 ⟨0, [.entry 1], false⟩ 0 = some (.ok 0, s) ∧
    exec smallVolume.step s sharedRun = some s' ∧
    replay (content smallVolume.mem (loadedAt + 512) ⟨[116, 47, 97], 3, 48⟩) 0 (smallVolume.events 0 s sharedRun) = some o ∧
    ∀ g, s'.desc 0 = some g → g.ino = some 2 ∧ g.offset = o := by
  have hcall : ((mounted.open 1 ⟨0, [.entry 1], false⟩ 0).map (·.1)) = some (.ok 0) := by decide +kernel
  have hseen : ((mounted.open 1 ⟨0, [.entry 1], false⟩ 0).map fun r => (r.2.fd 1 0, r.2.desc 0, r.2.inode 2)) =
      some (some 0, some ⟨some 2, 0, 0, 1⟩, some ⟨.tarfs 1, false, 1⟩) := by decide +kernel
  have hruns : ((mounted.open 1 ⟨0, [.entry 1], false⟩ 0).bind fun r =>
      exec smallVolume.step r.2 sharedRun).isSome := by decide +kernel
  have hclear : ∀ r ∈ mounted.open 1 ⟨0, [.entry 1], false⟩ 0,
      Along smallVolume.step (NoWrap 0 3) r.2 sharedRun := by decide +kernel
  obtain ⟨⟨rep, s⟩, hopen, rfl⟩ := Option.map_eq_some_iff.mp hcall
  rw [hopen, Option.map_some, Option.some_inj, Prod.mk.injEq, Prod.mk.injEq] at hseen
  rw [hopen, Option.bind_some] at hruns
  obtain ⟨hfd, hf, hn⟩ := hseen
  obtain ⟨s', hrun⟩ := Option.isSome_iff_exists.mp hruns
  have hfile : FileIn smallVolume.mem (smallVolume.tree.node 1).item.tar ⟨[116, 47, 97], 3, 48⟩ := by
    simp only [smallVolume]
    exact loaded_file
  have htar : (smallVolume.tree.node 1).item.tar = loadedAt + 512 := rfl
  obtain ⟨⟨o, hreplay, hat⟩, -⟩ := descriptor_cursor smallVolume mounted_intact hopen hfd hf rfl hn rfl hfile
    (hclear _ hopen) hrun
  rw [htar] at hreplay
  exact ⟨s, s', o, hopen, hrun, hreplay, hat⟩

end Os5.Files
