import Os5.Fs.Counts

/-!
# Calls on a descriptor

Nine calls are given the number of a slot, and each looks at it in its own way: most follow
`p->fd[file]` before they know that there is a slot of that number, or anything in it.
-/

namespace Os5

open Transition

abbrev sIfchr : Nat := 0x2000

abbrev fsPipe : Nat := 5

def asInt (n : Int) : Int := Int.bmod n (2 ^ 32)

def asUint (n : Int) : Nat := (n % 2 ^ 32).toNat

/-- What the calls use besides the table: the memory of the process, the headers of the
archive, and `vfs_read` and `vfs_write`, in which a thread may sleep while others make calls. -/
structure Backing where
  kernelBooted : Bool
  procmmCheckAddress : Nat → Nat
  isDir : EntryId → Bool
  length : EntryId → Nat
  vfsRead : Files → Ino → (ptr length offset : Nat) → Option (Nat × Files)
  vfsWrite : Files → Ino → (ptr length offset : Nat) → Option (Nat × Files)

/-- The value of a call, and what it sets `errno` to. -/
abbrev Answer := Int × Option Errno

def Reply.answer : Reply → Answer
  | .ok n => (n, none)
  | .error e => (-1, some e)

/-- `type`, of which no call here looks at `FS_MOUNT`. -/
def Backing.type (k : Backing) : Driver → Nat
  | .tarfs e => if k.isDir e then 2 else 1
  | .pipe _ _ => fsPipe
  | .debug => 3

def Backing.nodeLength (k : Backing) : Driver → Nat
  | .tarfs e => k.length e
  | .pipe _ _ => 0
  | .debug => 0

/-- `vfs_stat`; the mode it fills in, or that the driver has no `stat`. -/
def vfsStat : Driver → Except Errno Nat
  | .tarfs _ => .error .EBADF
  | .pipe _ _ => .ok sIfchr
  | .debug => .ok sIfchr

def vfsIsatty : Driver → Int
  | .tarfs _ => 0
  | .pipe _ _ => 1
  | .debug => 1

/-- What the index of a directory entry leads to: nothing, "." or ".." of a node of the mount
tree, an entry of the archive, or one that a node of the mount tree stands for. -/
inductive Listing
  | nothing
  | mounted (ino : Ino)
  | entry (e : EntryId)
  | covered (e : EntryId) (ino : Ino)
  deriving DecidableEq, Repr

namespace Files

def slot (s : Files) (p : Pid) (file : Int) : Option (DescId × FileDesc) := do
  let i ← index file
  let d ← s.fd p i
  let f ← s.desc d
  return (d, f)

def onFile (s : Files) (p : Pid) (file : Int) (bad : Answer)
    (act : Ino → DescId → FileDesc → Option (Answer × Files)) : Option (Answer × Files) := do
  let (d, f) ← s.slot p file
  match f.ino with
  | none => return (bad, s)
  | some node => act node d f

def fstat (s : Files) (k : Backing) (p : Pid) (file : Int) (st : Nat) : Option (Answer × Files) :=
  s.onFile p file (-1, some .EBADF) fun node _ _ => do
    if k.kernelBooted ∧ k.procmmCheckAddress st ≤ 1 then
      return ((-1, some .EFAULT), s)
    let n ← s.inode node
    match vfsStat n.driver with
    | .ok _ => return ((0, none), s)
    | .error e => return ((-1, some e), s)

def isatty (s : Files) (p : Pid) (file : Int) : Option (Answer × Files) :=
  s.onFile p file (0, none) fun node _ _ => do
    let n ← s.inode node
    return ((vfsIsatty n.driver, none), s)

def lseek (s : Files) (k : Backing) (p : Pid) (file ptr dir : Int) : Option (Answer × Files) :=
  s.onFile p file (-1, some .EBADF) fun node d f => do
    if dir ≠ 0 ∧ dir ≠ 1 ∧ dir ≠ 2 then
      return ((-1, some .EINVAL), s)
    if asInt (asInt f.offset + ptr) < 0 then
      return ((-1, some .EINVAL), s)
    let n ← s.inode node
    if k.type n.driver &&& fsPipe = fsPipe then
      return ((-1, some .ESPIPE), s)
    let offset :=
      if dir = 0 then asUint ptr
      else if dir = 1 then asUint (f.offset + ptr)
      else asUint (k.nodeLength n.driver + ptr)
    return ((asInt offset, none), s.setDesc d (some { f with offset := offset }))

def advance (s : Files) (p : Pid) (file : Int) (ret : Nat) : Option (Answer × Files) := do
  let (d, f) ← s.slot p file
  return ((asInt ret, none), s.setDesc d (some { f with offset := wrap (f.offset + ret) }))

def read (s : Files) (k : Backing) (p : Pid) (file : Int) (ptr len : Nat) : Option (Answer × Files) :=
  if k.kernelBooted ∧ k.procmmCheckAddress ptr ≤ 1 then
    some ((-1, some .EFAULT), s)
  else s.onFile p file (-1, some .EBADF) fun node _ f => do
    let (ret, s) ← k.vfsRead s node ptr len f.offset
    s.advance p file ret

def write (s : Files) (k : Backing) (p : Pid) (file : Int) (ptr len : Nat) : Option (Answer × Files) :=
  if k.kernelBooted ∧ k.procmmCheckAddress ptr = 0 then
    some ((-1, some .EFAULT), s)
  else s.onFile p file (-1, some .EBADF) fun node _ f => do
    let (ret, s) ← k.vfsWrite s node ptr len f.offset
    s.advance p file ret

def vfsReaddir (s : Files) : Listing → Option (Option Ino × Files)
  | .nothing => some (none, s)
  | .mounted ino => do
    let (ino, s) ← s.vfsFinddir (.mounted ino)
    return (some ino, s)
  | .entry e =>
    let (ino, s) := s.tarGetInode e
    some (some ino, s)
  | .covered e n => do
    let (ino, s) := s.tarGetInode e
    let s ← s.vfsFree ino
    let (n, s) ← s.vfsFinddir (.mounted n)
    return (some n, s)

/-- The value says whether there is an entry or a null pointer. -/
def readdir (s : Files) (p : Pid) (file : Int) (what : Listing) : Option (Answer × Files) :=
  s.onFile p file (0, some .EBADF) fun _ _ _ => do
    let (de, s) ← s.vfsReaddir what
    match de with
    | none => return ((0, none), s)
    | some ino =>
      let s ← s.vfsFree ino
      return ((1, none), s)

end Files

inductive DescCall
  | close (file : Int)
  | read (file : Int) (ptr len : Nat)
  | write (file : Int) (ptr len : Nat)
  | fstat (file : Int) (st : Nat)
  | isatty (file : Int)
  | lseek (file ptr dir : Int)
  | readdir (file : Int) (what : Listing)
  | dup (fildes : Int)
  | dup2 (fildes1 fildes2 : Int)

def DescCall.fildes : DescCall → Int
  | .close file => file
  | .read file _ _ => file
  | .write file _ _ => file
  | .fstat file _ => file
  | .isatty file => file
  | .lseek file _ _ => file
  | .readdir file _ => file
  | .dup fildes => fildes
  | .dup2 fildes1 _ => fildes1

namespace Files

/-- A call that indexes the table outside its bounds, or follows a null pointer, has no result. -/
def descCall (s : Files) (k : Backing) (p : Pid) : DescCall → Option (Answer × Files)
  | .close file => (s.close p file).map fun r => (Reply.answer r.1, r.2)
  | .read file ptr len => s.read k p file ptr len
  | .write file ptr len => s.write k p file ptr len
  | .fstat file st => s.fstat k p file st
  | .isatty file => s.isatty p file
  | .lseek file ptr dir => s.lseek k p file ptr dir
  | .readdir file what => s.readdir p file what
  | .dup fildes => (s.dup p fildes).map fun r => (Reply.answer r.1, r.2)
  | .dup2 fildes1 fildes2 => (s.dup2 p fildes1 fildes2).map fun r => (Reply.answer r.1, r.2)

-- ---------------------------------------------------------------------------
-- Descriptors that are not open
-- ---------------------------------------------------------------------------

/-- No file is open in the slot: it is outside the table, it is empty, or its descriptor has
no inode. -/
def NoFile (s : Files) (p : Pid) (file : Int) : Prop :=
  ∀ i, index file = some i → ∀ d, s.fd p i = some d → ∃ f, s.desc d = some f ∧ f.ino = none

/-- The call is given a slot in which no file is open, or `dup2` one outside the table to put
the descriptor in. -/
def BadRequest (s : Files) (p : Pid) (c : DescCall) : Prop :=
  s.NoFile p c.fildes ∨ ∃ fildes1 fildes2, c = .dup2 fildes1 fildes2 ∧ index fildes2 = none

def ErrorValue : DescCall → Answer → Prop
  | .isatty _, a => a.1 = 0
  | .readdir _ _, a => a.1 = 0
  | _, a => a = (-1, some .EBADF) ∨ a = (-1, some .EMFILE)

def Rejected (s : Files) (k : Backing) (p : Pid) (c : DescCall) : Prop :=
  ∃ a, s.descCall k p c = some (a, s) ∧ ErrorValue c a

/-- What the calls take for granted: `dup` and `dup2` that the number is one of a slot, the
others that there is a descriptor in it. -/
def Expected (s : Files) (k : Backing) (p : Pid) : DescCall → Prop
  | .dup fildes => ∃ i, index fildes = some i ∧ (s.fd p i = none ∨ s.freeFd p = none)
  | .dup2 fildes1 fildes2 => ∃ i, index fildes1 = some i ∧ (s.fd p i = none ∨ index fildes2 = none)
  | .read file ptr _ => (s.slot p file).isSome ∧ (k.kernelBooted = true → 1 < k.procmmCheckAddress ptr)
  | .write file ptr _ => (s.slot p file).isSome ∧ (k.kernelBooted = true → k.procmmCheckAddress ptr ≠ 0)
  | c => (s.slot p c.fildes).isSome

section
variable {s s' : Files} {k : Backing} {p : Pid} {file fildes1 fildes2 : Int} {c : DescCall} {b : Answer}
  {act : Ino → DescId → FileDesc → Option (Answer × Files)}

theorem slot_some {d : DescId} {f : FileDesc} (h : s.slot p file = some (d, f)) :
    ∃ i, index file = some i ∧ s.fd p i = some d ∧ s.desc d = some f := by
  obtain ⟨i, hi, h⟩ := Option.bind_eq_some_iff.mp h
  obtain ⟨d', hd, h⟩ := Option.bind_eq_some_iff.mp h
  obtain ⟨f', hf, h⟩ := Option.bind_eq_some_iff.mp h
  obtain ⟨rfl, rfl⟩ := Prod.mk.inj (Option.some.inj h)
  exact ⟨i, hi, hd, hf⟩

theorem NoFile.ino (h : s.NoFile p file) {d : DescId} {f : FileDesc} (hslot : s.slot p file = some (d, f)) :
    f.ino = none := by
  obtain ⟨i, hi, hd, hf⟩ := slot_some hslot
  obtain ⟨g, hg, hnone⟩ := h i hi d hd
  obtain rfl := Option.some.inj (hf.symm.trans hg)
  exact hnone

theorem onFile_noFile (h : s.NoFile p file) :
    s.onFile p file b act = (s.slot p file).map fun _ => (b, s) := by
  unfold onFile
  cases hslot : s.slot p file with
  | none => rfl
  | some x =>
    obtain ⟨d, f⟩ := x
    simp only [Option.bind_eq_bind, Option.bind_some, h.ino hslot, Option.map_some]
    rfl

theorem close_noFile (h : s.NoFile p file) :
    s.close p file = (s.slot p file).map fun _ => (.error .EBADF, s) := by
  cases hi : index file with
  | none => simp [Files.close, slot, hi]
  | some i =>
    cases hd : s.fd p i with
    | none => simp [Files.close, closeSlot, slot, hi, hd]
    | some d =>
      obtain ⟨f, hf, hnone⟩ := h i hi d hd
      simp [Files.close, closeSlot, slot, hi, hd, hf, hnone]

theorem rejected_iff_slot (hcall : s.descCall k p c = (s.slot p file).map fun _ => (b, s))
    (herror : ErrorValue c b) : s.Rejected k p c ↔ (s.slot p file).isSome := by
  unfold Rejected
  rw [hcall]
  cases s.slot p file with
  | none => simp
  | some x => simp [herror]

theorem rejected_onFile (hcall : s.descCall k p c = s.onFile p file b act) (h : s.NoFile p file)
    (herror : ErrorValue c b) : s.Rejected k p c ↔ (s.slot p file).isSome :=
  rejected_iff_slot (hcall.trans (onFile_noFile h)) herror

theorem not_rejected {a : Answer} (hcall : s.descCall k p c = some (a, s')) (herror : ¬ErrorValue c a) :
    ¬s.Rejected k p c := by
  rintro ⟨b, hb, hval⟩
  obtain ⟨rfl, -⟩ := Prod.mk.inj (Option.some.inj (hcall.symm.trans hb))
  exact herror hval

theorem index_none (h : index file = none) : file < 0 ∨ numFiledes ≤ file := by
  unfold index at h
  split at h
  · cases h
  · next hr => omega

theorem dup_rejected (h : s.NoFile p file) :
    s.Rejected k p (.dup file) ↔ ∃ i, index file = some i ∧ (s.fd p i = none ∨ s.freeFd p = none) := by
  unfold Rejected descCall
  cases hi : index file with
  | none => simp [Files.dup, hi]
  | some i =>
    cases hd : s.fd p i with
    | none => simp [Files.dup, hi, hd, Reply.answer, ErrorValue]
    | some d =>
      obtain ⟨f, hf, -⟩ := h i hi d hd
      cases hfree : s.freeFd p with
      | none => simp [Files.dup, hi, hd, hfree, Reply.answer, ErrorValue]
      | some j => simp [Files.dup, hi, hd, hfree, fdGet, Files.setFd, hf, Reply.answer, ErrorValue]

theorem dup2_ok {i j : Nat} {d : DescId} {rep : Reply} (hi : index fildes1 = some i) (hd : s.fd p i = some d)
    (hj : index fildes2 = some j) (h : s.dup2 p fildes1 fildes2 = some (rep, s')) : rep = .ok fildes2 := by
  obtain ⟨hlt, rfl⟩ := index_some hj
  unfold Files.dup2 at h
  simp only [hi, hd, Option.bind_eq_bind, Option.bind_some] at h
  rw [if_neg (by omega), if_neg (by omega)] at h
  split at h
  · exact (Prod.mk.inj (Option.some.inj h)).1.symm
  · obtain ⟨s1, -, h⟩ : ∃ s1 : Files, _ ∧ ((s1.setFd p _ (some d)).fdGet d).bind _ = some (rep, s') := by
      split at h
      · obtain ⟨⟨rep', s1⟩, -, h⟩ := Option.bind_eq_some_iff.mp h
        exact ⟨s1, trivial, h⟩
      · exact ⟨s, trivial, h⟩
    obtain ⟨s2, -, h⟩ := Option.bind_eq_some_iff.mp h
    exact (Prod.mk.inj (Option.some.inj h)).1.symm

theorem dup2_rejected :
    s.Rejected k p (.dup2 fildes1 fildes2) ↔
      ∃ i, index fildes1 = some i ∧ (s.fd p i = none ∨ index fildes2 = none) := by
  unfold Rejected descCall
  cases hi : index fildes1 with
  | none => simp [Files.dup2, hi]
  | some i =>
    cases hd : s.fd p i with
    | none => simp [Files.dup2, hi, hd, Reply.answer, ErrorValue]
    | some d =>
      cases hj : index fildes2 with
      | none =>
        rcases index_none hj with hneg | hbig
        · simp [Files.dup2, hi, hd, hneg, Reply.answer, ErrorValue]
        · have hnot : ¬fildes2 < 0 := by omega
          have hbig : 256 ≤ fildes2 := hbig
          simp [Files.dup2, hi, hd, hnot, hbig, Reply.answer, ErrorValue]
      | some j =>
        constructor
        · rintro ⟨a, h, herror⟩
          obtain ⟨⟨rep, s'⟩, hcall, h⟩ := Option.map_eq_some_iff.mp h
          obtain rfl := (Prod.mk.inj h).1
          obtain rfl := dup2_ok hi hd hj hcall
          obtain ⟨-, rfl⟩ := index_some hj
          rcases herror with hval | hval <;> cases hval
        · rintro ⟨i', hi', hor⟩
          obtain rfl := Option.some.inj hi'
          rcases hor with hnone | hnone
          · cases hd.symm.trans hnone
          · cases hnone

/-- Exactly the calls that find what they take for granted turn a b descriptor down. -/
theorem rejected_iff_expected (h : s.BadRequest p c) : s.Rejected k p c ↔ s.Expected k p c := by
  have hno : (∀ f1 f2, c ≠ .dup2 f1 f2) → s.NoFile p c.fildes := fun hne =>
    h.resolve_right fun ⟨f1, f2, hc, _⟩ => hne f1 f2 hc
  cases c with
  | dup fildes => exact dup_rejected (hno (by simp))
  | dup2 fildes1 fildes2 => exact dup2_rejected
  | close file =>
    have hfile : s.NoFile p file := hno (by simp)
    refine rejected_iff_slot (b := (-1, some .EBADF)) ?_ (.inl rfl)
    rw [descCall, close_noFile hfile, Option.map_map]
    rfl
  | fstat file st =>
    have hfile : s.NoFile p file := hno (by simp)
    show _ ↔ (s.slot p file).isSome
    exact rejected_onFile (b := (-1, some .EBADF)) (by rw [descCall, Files.fstat]) hfile (.inl rfl)
  | isatty file =>
    have hfile : s.NoFile p file := hno (by simp)
    show _ ↔ (s.slot p file).isSome
    exact rejected_onFile (b := (0, none)) (by rw [descCall, Files.isatty]) hfile rfl
  | lseek file ptr dir =>
    have hfile : s.NoFile p file := hno (by simp)
    show _ ↔ (s.slot p file).isSome
    exact rejected_onFile (b := (-1, some .EBADF)) (by rw [descCall, Files.lseek]) hfile (.inl rfl)
  | readdir file what =>
    have hfile : s.NoFile p file := hno (by simp)
    show _ ↔ (s.slot p file).isSome
    exact rejected_onFile (b := (0, some .EBADF)) (by rw [descCall, Files.readdir]) hfile rfl
  | read file ptr len =>
    have hfile : s.NoFile p file := hno (by simp)
    by_cases hfault : k.kernelBooted ∧ k.procmmCheckAddress ptr ≤ 1
    · refine iff_of_false (not_rejected (if_pos hfault) (by simp [ErrorValue])) fun hexp => ?_
      exact Nat.not_lt.mpr hfault.2 (hexp.2 hfault.1)
    · refine (rejected_onFile (c := .read file ptr len) (if_neg hfault) hfile (.inl rfl)).trans (and_iff_left ?_).symm
      exact fun hbooted => Nat.lt_of_not_le fun hle => hfault ⟨hbooted, hle⟩
  | write file ptr len =>
    have hfile : s.NoFile p file := hno (by simp)
    by_cases hfault : k.kernelBooted ∧ k.procmmCheckAddress ptr = 0
    · refine iff_of_false (not_rejected (if_pos hfault) (by simp [ErrorValue])) fun hexp => ?_
      exact hexp.2 hfault.1 hfault.2
    · refine (rejected_onFile (c := .write file ptr len) (if_neg hfault) hfile (.inl rfl)).trans (and_iff_left ?_).symm
      exact fun hbooted hzero => hfault ⟨hbooted, hzero⟩

end

def serial : Backing where
  kernelBooted := true
  procmmCheckAddress _ := 2
  isDir _ := false
  length _ := 0
  vfsRead s _ _ _ _ := some (0, s)
  vfsWrite s _ _ len _ := some (len, s)

theorem mounted_badRequest : mounted.BadRequest 1 (.dup 3) :=
  .inl fun _ _ _ hd => nomatch hd

/-- `dup` of a slot that was never used. -/
theorem rejected_iff_expected_dup : mounted.Rejected serial 1 (.dup 3) :=
  (rejected_iff_expected mounted_badRequest).mpr ⟨3, rfl, .inl rfl⟩

theorem close_twice : ∃ s, Reach Files.step Any Consistent s ∧ 1 ∈ s.live ∧ s.BadRequest 1 (.close 0) ∧
    s.close 1 0 = none ∧ ∀ k, ¬s.Rejected k 1 (.close 0) := by
  obtain ⟨s, hs⟩ : ∃ s, exec Files.step mounted [(1, .pipe), (1, .close 0)] = some s :=
    Option.isSome_iff_exists.mp (by decide +kernel)
  have hseen : (exec Files.step mounted [(1, .pipe), (1, .close 0)]).map (fun s => (s.live, s.fd 1 0)) =
      some ({1}, none) := by decide +kernel
  rw [hs, Option.map_some, Option.some_inj, Prod.mk.injEq] at hseen
  obtain ⟨hlive, hempty⟩ := hseen
  have hno : s.NoFile 1 0 := fun i hi d hd => by
    obtain rfl := Option.some.inj hi
    cases hempty.symm.trans hd
  have hstuck : s.close 1 0 = none := by
    rw [close_noFile hno]
    simp [slot, index, hempty]
  refine ⟨s, (Reach.start mounted_consistent).exec hs, by simp [hlive], .inl hno, hstuck, ?_⟩
  rintro k ⟨a, ha, -⟩
  rw [descCall, hstuck] at ha
  cases ha

end Files

end Os5
