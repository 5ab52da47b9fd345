import Os5.Fs.Access

/-!
# Calls that take a slot and fail

`open`, `dup`, `dup2` and `pipe` take slots and references before they know whether they
will succeed. A failed call has to give back what it took.
-/

namespace Os5

open Transition

inductive TakeCall
  | open (name : Nat) (path : Files.Path) (flags : Nat)
  | dup (fildes : Int)
  | dup2 (fildes1 fildes2 : Int)
  | pipe

namespace Files

/-- `open`, with the check of the address of the path. -/
def openName (s : Files) (k : Backing) (p : Pid) (name : Nat) (path : Path) (flags : Nat) :
    Option (Reply × Files) :=
  if k.kernelBooted ∧ k.procmmCheckAddress name = 0 then some (.error .EFAULT, s) else s.open p path flags

def takeCall (s : Files) (k : Backing) (p : Pid) : TakeCall → Option (Reply × Files)
  | .open name path flags => s.openName k p name path flags
  | .dup fildes => s.dup p fildes
  | .dup2 fildes1 fildes2 => s.dup2 p fildes1 fildes2
  | .pipe => s.pipeCall p

def usersOf (s : Files) (ino : Ino) : Nat := ((s.inode ino).map Inode.users).getD 0

/-- Every slot of the process that is occupied holds a descriptor with an inode. -/
def Filled (s : Files) (p : Pid) : Prop :=
  ∀ i d, s.fd p i = some d → ∃ f, s.desc d = some f ∧ f.ino.isSome

structure Undone (s : Files) (p : Pid) (s' : Files) : Prop where
  fd : s'.fd = s.fd
  desc : s'.desc = s.desc
  users : ∀ ino, s'.usersOf ino = s.usersOf ino
  ends : ∀ k e, (s'.pipe k).attached e = (s.pipe k).attached e
  filled : s.Filled p → s'.Filled p

def freeSlots (s : Files) (p : Pid) : Finset Nat := (Finset.range numFiledes).filter fun i => s.fd p i = none

/-- What is allocated next is not in use, and an inode of the archive is the buffer of its
entry. -/
structure Intact (s : Files) : Prop where
  freshDesc : ∀ {d}, s.nextDesc ≤ d → s.desc d = none
  freshIno : ∀ {i}, s.nextIno ≤ i → s.inode i = none
  buffer : ∀ {ino n e}, s.inode ino = some n → n.driver = .tarfs e → (s.entry e).buffer = some ino

section
variable {s s' s'' : Files} {ino : Ino} {n : Inode} {d : DescId} {p : Pid} {r : Int} {rep : Reply} {e : EntryId}

-- ---------------------------------------------------------------------------
-- Inodes
-- ---------------------------------------------------------------------------

theorem Intact.sameFds (h : s.Intact) (hs : SameFds s s') (hfresh : ∀ {i}, s'.nextIno ≤ i → s'.inode i = none)
    (hbuffer : ∀ {ino n e}, s'.inode ino = some n → n.driver = .tarfs e → (s'.entry e).buffer = some ino) :
    s'.Intact := by
  refine ⟨fun {d} hd => ?_, hfresh, hbuffer⟩
  rw [hs.nextDesc] at hd
  rw [hs.desc]
  exact h.freshDesc hd

theorem Intact.recounts {g : Nat → Nat} (h : s.Intact) (hr : Recounts s ino g s') : s'.Intact := by
  obtain ⟨n, hn, hinode, -⟩ := hr.inode
  refine h.sameFds hr.same (fun {i} hi => ?_) fun {i m e} hm he => ?_
  · rw [hr.nextIno] at hi
    rw [hinode, Function.update_of_ne, h.freshIno hi]
    rintro rfl
    cases hn.symm.trans (h.freshIno hi)
  · rw [hr.entry]
    rw [hinode] at hm
    by_cases hi : i = ino
    · subst hi
      rw [Function.update_self] at hm
      obtain rfl := Option.some.inj hm
      exact h.buffer hn he
    · rw [Function.update_of_ne hi] at hm
      exact h.buffer hm he

/-- What a lookup leaves alone. -/
structure Looked (s s' : Files) : Prop where
  same : SameFds s s'
  pipe : s'.pipe = s.pipe
  users : ∀ ino, s'.usersOf ino = s.usersOf ino

theorem Looked.refl : Looked s s := ⟨.refl, rfl, fun _ => rfl⟩

theorem Looked.trans (h1 : Looked s s') (h2 : Looked s' s'') : Looked s s'' :=
  ⟨h1.same.trans h2.same, h2.pipe.trans h1.pipe, fun ino => (h2.users ino).trans (h1.users ino)⟩

theorem Intact.release (h : s.Intact) (hn : s.inode ino = some n) (h0 : n.users = 0) {t : EntryId → TarfsEntry}
    (ht : ∀ {e i}, (s.entry e).buffer = some i → i ≠ ino → (t e).buffer = some i) :
    let s' : Files := { s with inode := Function.update s.inode ino none, entry := t }
    s'.Intact ∧ Looked s s' := by
  intro s'
  have hsame : SameFds s s' := ⟨rfl, rfl, rfl, rfl, rfl, rfl⟩
  refine ⟨h.sameFds hsame (fun {i} hi => ?_) fun {i m e} hm he => ?_, hsame, rfl, fun i => ?_⟩
  · by_cases heq : i = ino
    · exact heq ▸ Function.update_self ..
    · exact (Function.update_of_ne heq _ _).trans (h.freshIno hi)
  · have hi : i ≠ ino := by
      rintro rfl
      cases (Function.update_self ..).symm.trans hm
    exact ht (h.buffer ((Function.update_of_ne hi _ _).symm.trans hm) he) hi
  · by_cases hi : i = ino
    · subst hi
      simp [s', usersOf, hn, h0]
    · simp [s', usersOf, hi]

theorem Intact.flushTar (h : s.Intact) (hn : s.inode ino = some n) (h0 : n.users = 0)
    (he : n.driver = .tarfs e) : (s.flushTar e).Intact ∧ Looked s (s.flushTar e) := by
  have hbuf := h.buffer hn he
  unfold Files.flushTar
  by_cases hz : decr (s.entry e).users = 0
  · simp only [hz, if_true, hbuf]
    refine h.release hn h0 fun {e' i} hi hne => ?_
    have hee : e' ≠ e := by
      rintro rfl
      exact hne (Option.some.inj (hi.symm.trans hbuf))
    simpa [setInode, hee] using hi
  · simp only [hz, if_false]
    have hbuf : ∀ e', (Function.update s.entry e { s.entry e with users := decr (s.entry e).users } e').buffer =
        (s.entry e').buffer := by
      intro e'
      by_cases hee : e' = e
      · simp [hee]
      · simp [hee]
    refine ⟨⟨h.freshDesc, h.freshIno, fun hm hm' => (hbuf _).trans (h.buffer hm hm')⟩, ?_⟩
    exact ⟨⟨rfl, rfl, rfl, rfl, rfl, rfl⟩, rfl, fun _ => rfl⟩

theorem Intact.vfsFree (h : s.Intact) (hs : s.vfsFree ino = some s') : s'.Intact ∧ Looked s s' := by
  obtain ⟨n, hn, hs⟩ := Option.bind_eq_some_iff.mp hs
  split at hs
  · obtain rfl := Option.some.inj hs
    exact ⟨h, .refl⟩
  split at hs
  · obtain rfl := Option.some.inj hs
    exact ⟨h, .refl⟩
  next h0 =>
  have h0 : n.users = 0 := by omega
  have hother : (∀ e, n.driver ≠ .tarfs e) → (s.setInode ino none).Intact ∧ Looked s (s.setInode ino none) := by
    intro hne
    exact h.release (t := s.entry) hn h0 fun hi _ => hi
  cases hd : n.driver with
  | tarfs e =>
    rw [hd] at hs
    obtain rfl := Option.some.inj hs
    exact h.flushTar hn h0 hd
  | pipe k e =>
    rw [hd] at hs
    obtain rfl := Option.some.inj hs
    exact hother (by simp [hd])
  | debug =>
    rw [hd] at hs
    obtain rfl := Option.some.inj hs
    exact hother (by simp [hd])

theorem Intact.fresh (h : s.Intact) {v : Driver} {t : EntryId → TarfsEntry}
    (ht : ∀ e, (t e).buffer = if v = .tarfs e then some s.nextIno else (s.entry e).buffer)
    (hbuf : ∀ e, v = .tarfs e → (s.entry e).buffer = none) :
    let s' : Files := { s with inode := Function.update s.inode s.nextIno (some ⟨v, false, 0⟩)
                               nextIno := s.nextIno + 1, entry := t }
    s'.Intact ∧ Looked s s' := by
  intro s'
  have hsame : SameFds s s' := ⟨rfl, rfl, rfl, rfl, rfl, rfl⟩
  refine ⟨h.sameFds hsame (fun {i} hi => ?_) fun {i m e} hm he => ?_, hsame, rfl, fun i => ?_⟩
  · have hi : s.nextIno + 1 ≤ i := hi
    exact (Function.update_of_ne (Nat.ne_of_gt hi) _ _).trans (h.freshIno (Nat.le_of_succ_le hi))
  · show (t e).buffer = some i
    rw [ht]
    by_cases hi : i = s.nextIno
    · subst hi
      have hm : Function.update s.inode s.nextIno (some ⟨v, false, 0⟩) s.nextIno = some m := hm
      rw [Function.update_self] at hm
      obtain rfl := Option.some.inj hm
      exact if_pos he
    · have hold := h.buffer ((Function.update_of_ne hi _ _).symm.trans hm) he
      rw [if_neg, hold]
      intro hv
      cases (hbuf e hv).symm.trans hold
  · by_cases hi : i = s.nextIno
    · subst hi
      simp [s', usersOf, h.freshIno le_rfl]
    · simp [s', usersOf, hi]

theorem Intact.tarGetInode (h : s.Intact) (e : EntryId) :
    (s.tarGetInode e).2.Intact ∧ Looked s (s.tarGetInode e).2 := by
  unfold Files.tarGetInode
  cases hbuf : (s.entry e).buffer with
  | some b =>
    have hsame : ∀ e', (Function.update s.entry e { s.entry e with users := (s.entry e).users + 1 } e').buffer =
        (s.entry e').buffer := by
      intro e'
      by_cases hee : e' = e
      · simp [hee]
      · simp [hee]
    refine ⟨⟨h.freshDesc, h.freshIno, fun hm he => (hsame _).trans (h.buffer hm he)⟩, ?_⟩
    exact ⟨⟨rfl, rfl, rfl, rfl, rfl, rfl⟩, rfl, fun _ => rfl⟩
  | none =>
    refine h.fresh (v := .tarfs e) (fun e' => ?_) fun e' he => ?_
    · by_cases hee : e' = e
      · simp [hee, setEntry]
      · simp [hee, Ne.symm hee, setEntry, setInode]
    · obtain rfl := Driver.tarfs.inj he
      exact hbuf

theorem Intact.newPipe (h : s.Intact) (size : Nat) :
    (s.newPipe size).2.Intact ∧ SameFds s (s.newPipe size).2 := by
  refine ⟨?_, ⟨rfl, rfl, rfl, rfl, rfl, rfl⟩⟩
  have h0 : Intact { s with pipe := Function.update s.pipe s.nextPipe (Os5.newPipe size fun _ => 0)
                            nextPipe := s.nextPipe + 1 } := ⟨h.freshDesc, h.freshIno, h.buffer⟩
  have h1 := (h0.fresh (v := .pipe s.nextPipe .read) (t := s.entry) (fun _ => by simp) fun _ hk => nomatch hk).1
  exact (h1.fresh (v := .pipe s.nextPipe .write) (t := s.entry) (fun _ => by simp) fun _ hk => nomatch hk).1

theorem Intact.walk (h : s.Intact) {current : Ino} {missing : Bool} {hops : List Hop} {o : Option Ino}
    (hs : s.walk current missing hops = some (o, s')) : s'.Intact ∧ Looked s s' := by
  induction hops generalizing s current with
  | nil =>
    unfold Files.walk at hs
    split at hs
    · obtain ⟨s1, hfree, hs⟩ := Option.bind_eq_some_iff.mp hs
      obtain ⟨-, rfl⟩ := Prod.mk.inj (Option.some.inj hs)
      exact h.vfsFree hfree
    · obtain ⟨-, rfl⟩ := Prod.mk.inj (Option.some.inj hs)
      exact ⟨h, .refl⟩
  | cons hop hops ih =>
    obtain ⟨⟨next, s1⟩, hfind, hs⟩ := Option.bind_eq_some_iff.mp hs
    obtain ⟨s2, hfree, hs⟩ := Option.bind_eq_some_iff.mp hs
    have h1 : s1.Intact ∧ Looked s s1 := by
      cases hop with
      | mounted ino =>
        obtain ⟨n, -, hfind⟩ := Option.bind_eq_some_iff.mp hfind
        split at hfind
        · obtain ⟨-, rfl⟩ := Prod.mk.inj (Option.some.inj hfind)
          exact ⟨h, .refl⟩
        · cases hfind
      | entry e =>
        have hget := h.tarGetInode e
        rwa [Option.some.inj hfind] at hget
    obtain ⟨h2, hl2⟩ := h1.1.vfsFree hfree
    obtain ⟨h3, hl3⟩ := ih h2 hs
    exact ⟨h3, (h1.2.trans hl2).trans hl3⟩

theorem Intact.vfsNamei (h : s.Intact) {path : Path} {o : Option Ino}
    (hs : s.vfsNamei path = some (o, s')) : s'.Intact ∧ Looked s s' := by
  obtain ⟨⟨root, s1⟩, hfind, hs⟩ := Option.bind_eq_some_iff.mp hs
  obtain ⟨n, -, hfind⟩ := Option.bind_eq_some_iff.mp hfind
  split at hfind
  · obtain ⟨-, rfl⟩ := Prod.mk.inj (Option.some.inj hfind)
    exact h.walk hs
  · cases hfind

-- ---------------------------------------------------------------------------
-- Descriptors
-- ---------------------------------------------------------------------------

theorem Intact.setFd (h : s.Intact) {i : Nat} {v : Option DescId} : (s.setFd p i v).Intact :=
  ⟨h.freshDesc, h.freshIno, h.buffer⟩

theorem Intact.setDesc (h : s.Intact) {f : FileDesc} {v : Option FileDesc} (hf : s.desc d = some f) :
    (s.setDesc d v).Intact := by
  refine ⟨fun {k} hk => ?_, h.freshIno, h.buffer⟩
  have hne : k ≠ d := by
    rintro rfl
    cases hf.symm.trans (h.freshDesc hk)
  exact (Function.update_of_ne hne _ _).trans (h.freshDesc hk)

theorem Intact.allocFd (h : s.Intact) {i : Nat} : (s.allocFd p i).2.Intact := by
  refine ⟨fun {k} hk => ?_, h.freshIno, h.buffer⟩
  have hk : s.nextDesc + 1 ≤ k := hk
  exact (Function.update_of_ne (Nat.ne_of_gt hk) _ _).trans (h.freshDesc (Nat.le_of_succ_le hk))

theorem Intact.fdGet (h : s.Intact) (hs : s.fdGet d = some s') : s'.Intact := by
  obtain ⟨f, hf, hs⟩ := Option.bind_eq_some_iff.mp hs
  obtain rfl := Option.some.inj hs
  exact h.setDesc hf

theorem Intact.fdPut (h : s.Intact) (hs : s.fdPut d = some s') : s'.Intact := by
  obtain ⟨f, hf, hs⟩ := Option.bind_eq_some_iff.mp hs
  obtain rfl := Option.some.inj hs
  exact h.setDesc hf

theorem Intact.closeSlot (h : s.Intact) {i : Nat} (hs : s.closeSlot p i = some (rep, s')) : s'.Intact := by
  obtain ⟨d, -, hs⟩ := Option.bind_eq_some_iff.mp hs
  obtain ⟨f, hf, hs⟩ := Option.bind_eq_some_iff.mp hs
  cases hfi : f.ino with
  | none =>
    rw [hfi] at hs
    obtain ⟨-, rfl⟩ := Prod.mk.inj (Option.some.inj hs)
    exact h
  | some ino =>
    rw [hfi] at hs
    obtain ⟨⟨r, s1⟩, h1, hs⟩ := Option.bind_eq_some_iff.mp hs
    obtain ⟨s2, h2, hs⟩ := Option.bind_eq_some_iff.mp hs
    obtain ⟨s3, h3, hs⟩ := Option.bind_eq_some_iff.mp hs
    obtain ⟨-, rfl⟩ := Prod.mk.inj (Option.some.inj hs)
    have hclosed := h.recounts (vfsClose_recounts h1).1
    exact ((hclosed.vfsFree h2).1.fdPut h3).setFd

theorem Intact.vfsOpen (h : s.Intact) (hs : s.vfsOpen ino = some (r, s')) : s'.Intact :=
  h.recounts (vfsOpen_recounts hs).1

-- ---------------------------------------------------------------------------
-- Calls
-- ---------------------------------------------------------------------------

theorem Intact.open (h : s.Intact) {path : Path} {flags : Nat} (hs : s.open p path flags = some (rep, s')) :
    s'.Intact := by
  unfold Files.open at hs
  split at hs
  · obtain ⟨-, rfl⟩ := Prod.mk.inj (Option.some.inj hs)
    exact h
  · obtain ⟨⟨node, s1⟩, hnamei, hs⟩ := Option.bind_eq_some_iff.mp hs
    obtain ⟨h1, -⟩ := h.allocFd.vfsNamei hnamei
    cases node with
    | none =>
      obtain ⟨s2, hput, hs⟩ := Option.bind_eq_some_iff.mp hs
      obtain ⟨-, rfl⟩ := Prod.mk.inj (Option.some.inj hs)
      exact (h1.fdPut hput).setFd
    | some node =>
      obtain ⟨⟨r, s2⟩, hopen, hs⟩ := Option.bind_eq_some_iff.mp hs
      have hr := (vfsOpen_recounts hopen).2
      change (if r < 0 then _ else _) = _ at hs
      rw [if_neg (by omega)] at hs
      obtain ⟨f, hf, hs⟩ := Option.bind_eq_some_iff.mp hs
      obtain ⟨-, rfl⟩ := Prod.mk.inj (Option.some.inj hs)
      exact (h1.vfsOpen hopen).setDesc hf

theorem Intact.dup (h : s.Intact) {fildes : Int} (hs : s.dup p fildes = some (rep, s')) : s'.Intact := by
  obtain ⟨i, -, hs⟩ := Option.bind_eq_some_iff.mp hs
  split at hs
  · obtain ⟨-, rfl⟩ := Prod.mk.inj (Option.some.inj hs)
    exact h
  · split at hs
    · obtain ⟨-, rfl⟩ := Prod.mk.inj (Option.some.inj hs)
      exact h
    · obtain ⟨s1, hget, hs⟩ := Option.bind_eq_some_iff.mp hs
      obtain ⟨-, rfl⟩ := Prod.mk.inj (Option.some.inj hs)
      exact h.setFd.fdGet hget

theorem dup2_cases {fildes1 fildes2 : Int} (hs : s.dup2 p fildes1 fildes2 = some (rep, s')) :
    s' = s ∨ (rep = .ok fildes2 ∧ ∃ d s1, (s1 = s ∨ ∃ rep', s.closeSlot p fildes2.toNat = some (rep', s1)) ∧
      (s1.setFd p fildes2.toNat (some d)).fdGet d = some s') := by
  obtain ⟨i, -, hs⟩ := Option.bind_eq_some_iff.mp hs
  split at hs
  · exact .inl (Prod.mk.inj (Option.some.inj hs)).2.symm
  next d hd =>
  simp only [Option.bind_eq_bind] at hs
  split at hs
  · exact .inl (Prod.mk.inj (Option.some.inj hs)).2.symm
  split at hs
  · exact .inl (Prod.mk.inj (Option.some.inj hs)).2.symm
  split at hs
  · exact .inl (Prod.mk.inj (Option.some.inj hs)).2.symm
  right
  split at hs
  · obtain ⟨⟨rep', s1⟩, hclose, hs⟩ := Option.bind_eq_some_iff.mp hs
    simp only [Option.pure_def, Option.bind_some] at hs
    obtain ⟨s2, hget, hs⟩ := Option.bind_eq_some_iff.mp hs
    obtain ⟨rfl, rfl⟩ := Prod.mk.inj (Option.some.inj hs)
    exact ⟨rfl, d, s1, .inr ⟨rep', hclose⟩, hget⟩
  · simp only [Option.pure_def, Option.bind_some] at hs
    obtain ⟨s2, hget, hs⟩ := Option.bind_eq_some_iff.mp hs
    obtain ⟨rfl, rfl⟩ := Prod.mk.inj (Option.some.inj hs)
    exact ⟨rfl, d, s, .inl rfl, hget⟩

theorem Intact.dup2 (h : s.Intact) {fildes1 fildes2 : Int} (hs : s.dup2 p fildes1 fildes2 = some (rep, s')) :
    s'.Intact := by
  rcases dup2_cases hs with rfl | ⟨-, d, s1, hclose, hget⟩
  · exact h
  · rcases hclose with rfl | ⟨rep', hclose⟩
    · exact h.setFd.fdGet hget
    · exact (h.closeSlot hclose).setFd.fdGet hget

theorem Intact.setupFd (h : s.Intact) {flags : Nat} (hs : s.setupFd d ino flags = some s') : s'.Intact := by
  obtain ⟨f, hf, hs⟩ := Option.bind_eq_some_iff.mp hs
  obtain ⟨⟨r, s1⟩, hopen, hs⟩ := Option.bind_eq_some_iff.mp hs
  obtain rfl := Option.some.inj hs
  exact (h.setDesc hf).vfsOpen hopen

theorem Intact.pipeCall (h : s.Intact) (hs : s.pipeCall p = some (rep, s')) : s'.Intact := by
  unfold Files.pipeCall at hs
  split at hs
  · obtain ⟨-, rfl⟩ := Prod.mk.inj (Option.some.inj hs)
    exact h
  · next i hi =>
    obtain ⟨d, s0, hd⟩ : ∃ d s0, s.allocFd p i = (d, s0) := ⟨_, _, rfl⟩
    rw [hd] at hs
    obtain rfl : s0 = (s.allocFd p i).2 := (congrArg Prod.snd hd).symm
    dsimp only at hs
    split at hs
    · obtain ⟨-, rfl⟩ := Prod.mk.inj (Option.some.inj hs)
      exact h.allocFd
    · next j hj =>
      obtain ⟨s1, h1, hs⟩ := Option.bind_eq_some_iff.mp hs
      obtain ⟨s2, h2, hs⟩ := Option.bind_eq_some_iff.mp hs
      obtain ⟨-, rfl⟩ := Prod.mk.inj (Option.some.inj hs)
      exact ((h.allocFd.allocFd.newPipe 512).1.setupFd h1).setupFd h2

theorem Intact.foldlM {f : Files → Nat → Option Files} (hf : ∀ {s s' i}, Intact s → f s i = some s' → s'.Intact)
    {l : List Nat} (h : s.Intact) (hs : l.foldlM f s = some s') : s'.Intact := by
  induction l generalizing s with
  | nil =>
    obtain rfl := Option.some.inj hs
    exact h
  | cons i l ih =>
    rw [List.foldlM_cons] at hs
    obtain ⟨s1, h1, hs⟩ := Option.bind_eq_some_iff.mp hs
    exact ih (hf h h1) hs

theorem Intact.forkFd (h : s.Intact) {child : Pid} {i : Nat} (hs : Files.forkFd child s i = some s') :
    s'.Intact := by
  unfold Files.forkFd at hs
  split at hs
  · obtain rfl := Option.some.inj hs
    exact h
  · obtain ⟨s1, hget, hs⟩ := Option.bind_eq_some_iff.mp hs
    obtain ⟨f, -, hs⟩ := Option.bind_eq_some_iff.mp hs
    obtain ⟨ino, -, hs⟩ := Option.bind_eq_some_iff.mp hs
    obtain ⟨⟨r, s2⟩, hopen, hs⟩ := Option.bind_eq_some_iff.mp hs
    obtain rfl := Option.some.inj hs
    exact (h.fdGet hget).vfsOpen hopen

theorem Intact.exitFd (h : s.Intact) {i : Nat} (hs : Files.exitFd p s i = some s') : s'.Intact := by
  unfold Files.exitFd at hs
  split at hs
  · obtain rfl := Option.some.inj hs
    exact h
  · obtain ⟨⟨rep, s1⟩, hclose, hs⟩ := Option.bind_eq_some_iff.mp hs
    obtain rfl := Option.some.inj hs
    exact h.closeSlot hclose

theorem Intact.step {a : Pid × FileCall} (h : s.Intact) (hs : s.step a = some s') : s'.Intact := by
  obtain ⟨p, call⟩ := a
  unfold Files.step at hs
  split at hs
  swap
  · cases hs
  obtain ⟨⟨rep, s1⟩, hcall, rfl⟩ := Option.map_eq_some_iff.mp hs
  cases call with
  | «open» path flags => exact h.open hcall
  | close file =>
    obtain ⟨i, -, hcall⟩ := Option.bind_eq_some_iff.mp hcall
    exact h.closeSlot hcall
  | dup fildes => exact h.dup hcall
  | dup2 fildes1 fildes2 => exact h.dup2 hcall
  | pipe => exact h.pipeCall hcall
  | fork =>
    obtain ⟨s1, hloop, hcall⟩ := Option.bind_eq_some_iff.mp hcall
    obtain ⟨-, rfl⟩ := Prod.mk.inj (Option.some.inj hcall)
    have hchild : Intact { s with nextPid := s.nextPid + 1, fd := Function.update s.fd s.nextPid (s.fd p) } :=
      ⟨h.freshDesc, h.freshIno, h.buffer⟩
    have hdone := hchild.foldlM (fun hi => hi.forkFd) hloop
    exact ⟨hdone.freshDesc, hdone.freshIno, hdone.buffer⟩
  | exit =>
    obtain ⟨s1, hloop, hcall⟩ := Option.bind_eq_some_iff.mp hcall
    obtain ⟨-, rfl⟩ := Prod.mk.inj (Option.some.inj hcall)
    have hdone := h.foldlM (fun hi => hi.exitFd) hloop
    exact ⟨hdone.freshDesc, hdone.freshIno, hdone.buffer⟩

-- ---------------------------------------------------------------------------
-- Calls that fail
-- ---------------------------------------------------------------------------

theorem Undone.refl : Undone s p s := ⟨rfl, rfl, fun _ => rfl, fun _ _ => rfl, fun h => h⟩

/-- A lookup that fails costs no more than the slot, which is given back. -/
theorem open_undone (h : s.Intact) {path : Path} {flags : Nat} {e : Errno}
    (hs : s.open p path flags = some (.error e, s')) : Undone s p s' := by
  unfold Files.open at hs
  split at hs
  · obtain ⟨-, rfl⟩ := Prod.mk.inj (Option.some.inj hs)
    exact .refl
  next i hi =>
  obtain ⟨⟨node, s1⟩, hnamei, hs⟩ := Option.bind_eq_some_iff.mp hs
  obtain ⟨-, hl⟩ := h.allocFd.vfsNamei hnamei
  cases node with
  | some node =>
    obtain ⟨⟨r, s2⟩, hopen, hs⟩ := Option.bind_eq_some_iff.mp hs
    have hr := (vfsOpen_recounts hopen).2
    change (if r < 0 then _ else _) = _ at hs
    rw [if_neg (by omega)] at hs
    obtain ⟨f, hf, hs⟩ := Option.bind_eq_some_iff.mp hs
    cases (Prod.mk.inj (Option.some.inj hs)).1
  | none =>
    obtain ⟨s2, hput, hs⟩ := Option.bind_eq_some_iff.mp hs
    obtain ⟨-, rfl⟩ := Prod.mk.inj (Option.some.inj hs)
    obtain ⟨f, hf, hput⟩ := Option.bind_eq_some_iff.mp hput
    obtain rfl := Option.some.inj hput
    have hdesc1 : s1.desc = Function.update s.desc s.nextDesc (some ⟨none, 0, 0, 1⟩) := hl.same.desc
    rw [hdesc1, Function.update_self] at hf
    obtain rfl := Option.some.inj hf
    have hfd : ((s1.setDesc s.nextDesc none).setFd p i none).fd = s.fd := by
      show Function.update s1.fd p (Function.update (s1.fd p) i none) = s.fd
      have hfd1 : s1.fd = Function.update s.fd p (Function.update (s.fd p) i (some s.nextDesc)) := hl.same.fd
      rw [hfd1, Function.update_self, Function.update_idem, Function.update_idem, ← (freeFd_some hi).2,
        Function.update_eq_self, Function.update_eq_self]
    have hdesc : ((s1.setDesc s.nextDesc none).setFd p i none).desc = s.desc := by
      show Function.update s1.desc s.nextDesc none = s.desc
      rw [hdesc1, Function.update_idem, ← h.freshDesc le_rfl, Function.update_eq_self]
    refine ⟨hfd, hdesc, hl.users, fun k e => ?_, fun hfilled => ?_⟩
    · show (s1.pipe k).attached e = _
      rw [hl.pipe]
      rfl
    · show ∀ i' d, ((s1.setDesc s.nextDesc none).setFd p i none).fd p i' = some d →
        ∃ f, ((s1.setDesc s.nextDesc none).setFd p i none).desc d = some f ∧ f.ino.isSome
      rw [hfd, hdesc]
      exact hfilled

theorem dup_undone {fildes : Int} {e : Errno} (hs : s.dup p fildes = some (.error e, s')) : Undone s p s' := by
  obtain ⟨i, -, hs⟩ := Option.bind_eq_some_iff.mp hs
  split at hs
  · obtain ⟨-, rfl⟩ := Prod.mk.inj (Option.some.inj hs)
    exact .refl
  · split at hs
    · obtain ⟨-, rfl⟩ := Prod.mk.inj (Option.some.inj hs)
      exact .refl
    · obtain ⟨s1, hget, hs⟩ := Option.bind_eq_some_iff.mp hs
      cases (Prod.mk.inj (Option.some.inj hs)).1

theorem dup2_undone {fildes1 fildes2 : Int} {e : Errno} (hs : s.dup2 p fildes1 fildes2 = some (.error e, s')) :
    Undone s p s' := by
  rcases dup2_cases hs with rfl | ⟨hrep, -⟩
  · exact .refl
  · cases hrep

theorem freeSlots_empty (h : s.freeFd p = none) : s.freeSlots p = ∅ := by
  refine Finset.filter_eq_empty_iff.mpr fun i hi => ?_
  have hnone := List.find?_eq_none.mp h i (List.mem_range.mpr (Finset.mem_range.mp hi))
  simpa using hnone

theorem freeSlots_allocFd {i : Nat} : (s.allocFd p i).2.freeSlots p = (s.freeSlots p).erase i := by
  ext j
  by_cases hj : j = i
  · simp [freeSlots, Files.allocFd, Files.setFd, hj]
  · simp [freeSlots, Files.allocFd, Files.setFd, hj, Files.setDesc]

theorem pipeCall_undone {e : Errno} (hs : s.pipeCall p = some (.error e, s')) :
    Undone s p s' ↔ (s.freeSlots p).card ≠ 1 := by
  unfold Files.pipeCall at hs
  split at hs
  · next hfull =>
    obtain ⟨-, rfl⟩ := Prod.mk.inj (Option.some.inj hs)
    refine iff_of_true .refl ?_
    rw [freeSlots_empty hfull, Finset.card_empty]
    exact Nat.zero_ne_one
  · next i hi =>
    obtain ⟨hlt, hempty⟩ := freeFd_some hi
    obtain ⟨d, s0, hd⟩ : ∃ d s0, s.allocFd p i = (d, s0) := ⟨_, _, rfl⟩
    rw [hd] at hs
    obtain rfl : s0 = (s.allocFd p i).2 := (congrArg Prod.snd hd).symm
    dsimp only at hs
    split at hs
    · next hfull =>
      obtain ⟨-, rfl⟩ := Prod.mk.inj (Option.some.inj hs)
      refine iff_of_false (fun hundone => ?_) fun hcard => hcard ?_
      · have hslot : (s.allocFd p i).2.fd p i = some s.nextDesc := by
          simp [Files.allocFd, Files.setFd]
        cases hempty.symm.trans ((congrFun (congrFun hundone.fd p) i).symm.trans hslot)
      · have hmem : i ∈ s.freeSlots p := Finset.mem_filter.mpr ⟨Finset.mem_range.mpr hlt, hempty⟩
        have hrest := freeSlots_allocFd.symm.trans (freeSlots_empty hfull)
        rw [← Finset.card_erase_add_one hmem, hrest, Finset.card_empty]
    · obtain ⟨s1, h1, hs⟩ := Option.bind_eq_some_iff.mp hs
      obtain ⟨s2, h2, hs⟩ := Option.bind_eq_some_iff.mp hs
      cases (Prod.mk.inj (Option.some.inj hs)).1

/-- In every state reached a failed call has changed nothing, unless it was `pipe` with one
free slot. -/
theorem undone_iff {k : Backing} {c : TakeCall} {e : Errno} (h : Reach Files.step Any Intact s)
    (hs : s.takeCall k p c = some (.error e, s')) :
    Undone s p s' ↔ ¬(c = .pipe ∧ (s.freeSlots p).card = 1) := by
  have hintact : s.Intact := h.invariant (fun _ h0 => h0) fun _ _ _ hi _ hstep => Intact.step hi hstep
  cases c with
  | «open» name path flags =>
    refine iff_of_true ?_ (by simp)
    rw [takeCall, openName] at hs
    split at hs
    · obtain ⟨-, rfl⟩ := Prod.mk.inj (Option.some.inj hs)
      exact .refl
    · exact open_undone hintact hs
  | dup fildes => exact iff_of_true (dup_undone hs) (by simp)
  | dup2 fildes1 fildes2 => exact iff_of_true (dup2_undone hs) (by simp)
  | pipe =>
    rw [pipeCall_undone hs]
    simp

end

theorem mounted_intact : mounted.Intact :=
  ⟨Balanced.freshDesc mounted_consistent, Balanced.freshIno mounted_consistent,
    Balanced.buffer mounted_consistent⟩

theorem undone_iff_missing : ∃ s', mounted.takeCall serial 1 (.open 0 ⟨0, [.entry 1], true⟩ 0) =
    some (.error .ENOENT, s') ∧ Undone mounted 1 s' := by
  have hcall : (mounted.takeCall serial 1 (.open 0 ⟨0, [.entry 1], true⟩ 0)).map (·.1) =
      some (.error .ENOENT) := by decide +kernel
  obtain ⟨⟨rep, s'⟩, hs', rfl⟩ := Option.map_eq_some_iff.mp hcall
  exact ⟨s', hs', (undone_iff (Reach.start mounted_intact) hs').mpr (by simp)⟩

def duplicated (n : Nat) : Files :=
  { mounted with
    fd := fun p i => if p = 1 ∧ i ≤ n then some 0 else none
    desc := fun d => if d = 0 then some ⟨some 1, 0, 0, n + 1⟩ else none
    nextDesc := 1
    inode := Function.update mounted.inode 1 (some ⟨.debug, true, 1⟩) }

theorem duplicated_freeFd {n : Nat} (hn : n + 1 < numFiledes) : (duplicated n).freeFd 1 = some (n + 1) := by
  refine List.find?_range_eq_some.mpr ⟨?_, List.mem_range.mpr hn, fun i hi => ?_⟩
  · simp [duplicated]
  · simp [duplicated, Nat.le_of_lt_succ hi]

theorem mounted_open : mounted.open 1 ⟨1, [], false⟩ 0 = some (.ok 0, duplicated 0) := by
  have hfree : mounted.freeFd 1 = some 0 := by decide +kernel
  have hfd : (duplicated 0).fd = Function.update mounted.fd 1 (Function.update (mounted.fd 1) 0 (some 0)) := by
    funext p i
    by_cases hp : p = 1
    · by_cases hi : i = 0 <;> simp [duplicated, mounted, hp, hi]
    · simp [duplicated, mounted, hp]
  have hdesc : (duplicated 0).desc = Function.update (Function.update mounted.desc 0 (some ⟨none, 0, 0, 1⟩)) 0
      (some ⟨some 1, 0, 0, 1⟩) := by
    funext d
    by_cases hd : d = 0 <;> simp [duplicated, mounted, hd]
  have hsame : duplicated 0 = { duplicated 0 with fd := (duplicated 0).fd, desc := (duplicated 0).desc } := rfl
  rw [hsame, hfd, hdesc, Files.open, hfree]
  rfl

theorem duplicated_dup {n : Nat} (hn : n + 1 < numFiledes) :
    (duplicated n).dup 1 0 = some (.ok (n + 1 : Nat), duplicated (n + 1)) := by
  have hslot : (duplicated n).fd 1 0 = some 0 := by simp [duplicated]
  have hfd : (duplicated (n + 1)).fd =
      Function.update (duplicated n).fd 1 (Function.update ((duplicated n).fd 1) (n + 1) (some 0)) := by
    funext p i
    by_cases hp : p = 1
    · by_cases hi : i = n + 1
      · simp [duplicated, hp, hi]
      · simp [duplicated, hp, hi, Nat.le_succ_iff]
    · simp [duplicated, hp]
  have hdesc : (duplicated (n + 1)).desc = Function.update (duplicated n).desc 0 (some ⟨some 1, 0, 0, n + 2⟩) := by
    funext d
    by_cases hd : d = 0 <;> simp [duplicated, hd]
  have hsame : duplicated (n + 1) =
    { duplicated (n + 1) with fd := (duplicated (n + 1)).fd, desc := (duplicated (n + 1)).desc } := rfl
  rw [hsame, hfd, hdesc, Files.dup, show index 0 = some 0 from rfl, Option.bind_eq_bind, Option.bind_some, hslot]
  simp only [duplicated_freeFd hn]
  rfl

theorem duplicated_reach {n : Nat} (hn : n < numFiledes) : Reach Files.step Any (· = mounted) (duplicated n) := by
  induction n with
  | zero =>
    have hstart : Reach Files.step Any (· = mounted) mounted := .start rfl
    have hopen : mounted.step (1, .open ⟨1, [], false⟩ 0) = some (duplicated 0) := by
      rw [Files.step, Files.call, mounted_open]
      rfl
    exact hstart.next trivial hopen
  | succ n ih =>
    have hdup : (duplicated n).step (1, .dup 0) = some (duplicated (n + 1)) := by
      rw [Files.step, Files.call, duplicated_dup hn]
      rfl
    exact (ih (Nat.lt_of_succ_lt hn)).next trivial hdup

/-- `pipe` with one slot left fails, and leaves in it a descriptor without an inode. -/
theorem pipe_not_undone : ∃ s s', Reach Files.step Any (· = mounted) s ∧
    s.takeCall serial 1 .pipe = some (.error .EMFILE, s') ∧ s.fd 1 255 = none ∧ s'.fd 1 255 = some 1 ∧
    (s'.desc 1).map FileDesc.ino = some none ∧ ¬Undone s 1 s' := by
  have hfree : (duplicated 254).freeFd 1 = some 255 := duplicated_freeFd (by decide)
  have hfull : ((duplicated 254).allocFd 1 255).2.freeFd 1 = none := by
    refine List.find?_range_eq_none.mpr fun i hi => ?_
    by_cases hlast : i = 255
    · simp [Files.allocFd, Files.setFd, hlast]
    · have hlt : i < 256 := hi
      have hle : i ≤ 254 := by omega
      simp [Files.allocFd, Files.setFd, Files.setDesc, hlast, duplicated, hle]
  have hcall : (duplicated 254).pipeCall 1 = some (.error .EMFILE, ((duplicated 254).allocFd 1 255).2) := by
    simp only [Files.pipeCall, hfree]
    simp only [hfull]
    rfl
  have hempty : (duplicated 254).fd 1 255 = none := (freeFd_some hfree).2
  have hleft : ((duplicated 254).allocFd 1 255).2.fd 1 255 = some 1 := by
    simp [Files.allocFd, Files.setFd, duplicated]
  refine ⟨duplicated 254, _, duplicated_reach (by decide), hcall, hempty, hleft, ?_, fun hundone => ?_⟩
  · simp [Files.allocFd, Files.setFd, Files.setDesc, duplicated]
  · rw [hundone.fd, hempty] at hleft
    cases hleft

end Files

end Os5
