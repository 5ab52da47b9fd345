import Os5.Fs.Access

/-!
# Moving the offset of a descriptor

`lseek` compares `offset + ptr` with zero, in 32 bits and before it looks at the mode, and then
sets the offset to one of three positions. That comparison says whether the position is an
`int` that is not negative only where the two have the same sign.
-/

namespace Os5.Files

open Transition

abbrev intMax : Int := 2 ^ 31 - 1

def IsInt (n : Int) : Prop := -2 ^ 31 ≤ n ∧ n ≤ intMax

def seekTarget (offset length : Nat) (ptr dir : Int) : Option Int :=
  if dir = 0 then some ptr
  else if dir = 1 then some (offset + ptr)
  else if dir = 2 then some (length + ptr)
  else none

/-- An offset that a descriptor can have. -/
def Position (t : Int) : Prop := 0 ≤ t ∧ t ≤ intMax

/-- The slot has a file open that is not a pipe. -/
structure OpenFile (s : Files) (k : Backing) (p : Pid) (file : Int) (d : DescId) (f : FileDesc) (n : Inode) :
    Prop where
  slot : s.slot p file = some (d, f)
  node : ∃ ino, f.ino = some ino ∧ s.inode ino = some n
  notPipe : k.type n.driver &&& fsPipe ≠ fsPipe
  offset : f.offset < 2 ^ 32
  length : k.nodeLength n.driver < 2 ^ 32

/-- The descriptor moves to the position asked for, if it can have it, and else stays. -/
structure SeeksRight (s : Files) (k : Backing) (p : Pid) (file ptr dir : Int) (d : DescId) (f : FileDesc)
    (n : Inode) : Prop where
  moves : ∀ t, seekTarget f.offset (k.nodeLength n.driver) ptr dir = some t → Position t →
    s.lseek k p file ptr dir = some ((t, none), s.setDesc d (some { f with offset := t.toNat }))
  refuses : (∀ t, seekTarget f.offset (k.nodeLength n.driver) ptr dir = some t → ¬Position t) →
    ∃ e, s.lseek k p file ptr dir = some ((-1, some e), s)

/-- The sign of the sum `lseek` looks at is that of the position, or the sum is the position. -/
def SumTells (offset length : Nat) (ptr dir : Int) : Prop :=
  if dir = 0 then (0 ≤ asInt (offset + ptr) ↔ 0 ≤ ptr)
  else if dir = 1 then offset + ptr < 2 ^ 32
  else if dir = 2 then (0 ≤ asInt (offset + ptr) ↔ Position (length + ptr))
  else True

instance (n : Int) : Decidable (IsInt n) := inferInstanceAs (Decidable (_ ∧ _))
instance (t : Int) : Decidable (Position t) := inferInstanceAs (Decidable (_ ∧ _))

instance (offset length : Nat) (ptr dir : Int) : Decidable (SumTells offset length ptr dir) :=
  inferInstanceAs (Decidable (if dir = 0 then _ else if dir = 1 then _ else if dir = 2 then _ else _))

section
variable {s s' : Files} {k : Backing} {p : Pid} {file ptr dir t : Int} {d : DescId} {f : FileDesc} {n : Inode}

theorem asInt_eq (m : Int) : asInt m = if m % 2 ^ 32 < 2 ^ 31 then m % 2 ^ 32 else m % 2 ^ 32 - 2 ^ 32 := by
  simp only [asInt, Int.bmod]
  norm_num

theorem asInt_nonneg (m : Int) : 0 ≤ asInt m ↔ m % 2 ^ 32 < 2 ^ 31 := by
  rw [asInt_eq]
  split <;> omega

theorem asInt_add (a b : Int) : asInt (asInt a + b) = asInt (a + b) := Int.bmod_add_bmod

theorem Position.asUint (h : Position t) : asUint t = t.toNat ∧ asInt (asUint t) = t := by
  obtain ⟨h1, h2⟩ := h
  unfold intMax at h2
  have hmod : t % 2 ^ 32 = t := Int.emod_eq_of_lt h1 (by omega)
  rw [Os5.asUint, hmod, Int.toNat_of_nonneg h1, asInt_eq, hmod]
  exact ⟨rfl, if_pos (by omega)⟩

theorem OpenFile.lseek_eq (h : OpenFile s k p file d f n)
    (ht : seekTarget f.offset (k.nodeLength n.driver) ptr dir = some t) :
    s.lseek k p file ptr dir = some (if asInt (f.offset + ptr) < 0 then ((-1, some .EINVAL), s)
      else ((asInt (asUint t), none), s.setDesc d (some { f with offset := asUint t }))) := by
  obtain ⟨ino, hino, hnode⟩ := h.node
  unfold seekTarget at ht
  have hdir : ¬(dir ≠ 0 ∧ dir ≠ 1 ∧ dir ≠ 2) := by
    rintro ⟨h0, h1, h2⟩
    rw [if_neg h0, if_neg h1, if_neg h2] at ht
    cases ht
  have hoffset : (if dir = 0 then asUint ptr else if dir = 1 then asUint (f.offset + ptr)
      else asUint (k.nodeLength n.driver + ptr)) = asUint t := by
    split_ifs at ht ⊢ <;> rw [Option.some.inj ht]
  rw [lseek, onFile, h.slot, Option.bind_eq_bind, Option.bind_some]
  simp only [hino, if_neg hdir, asInt_add, hnode, Option.bind_eq_bind, Option.bind_some, if_neg h.notPipe, hoffset]
  split <;> rfl

theorem OpenFile.lseek_mode (h : OpenFile s k p file d f n)
    (ht : seekTarget f.offset (k.nodeLength n.driver) ptr dir = none) :
    s.lseek k p file ptr dir = some ((-1, some .EINVAL), s) := by
  obtain ⟨ino, hino, hnode⟩ := h.node
  unfold seekTarget at ht
  have hdir : dir ≠ 0 ∧ dir ≠ 1 ∧ dir ≠ 2 := by
    split_ifs at ht
    exact ⟨‹_›, ‹_›, ‹_›⟩
  rw [lseek, onFile, h.slot, Option.bind_eq_bind, Option.bind_some]
  simp only [hino, if_pos hdir]
  rfl

theorem OpenFile.seeksRight_iff (h : OpenFile s k p file d f n)
    (ht : seekTarget f.offset (k.nodeLength n.driver) ptr dir = some t) :
    SeeksRight s k p file ptr dir d f n ↔ (0 ≤ asInt (f.offset + ptr) ↔ Position t) := by
  have hseek := h.lseek_eq ht
  constructor
  · intro hright
    constructor
    · intro hsign
      by_contra hpos
      obtain ⟨e, he⟩ := hright.refuses fun t' ht' => by rwa [← Option.some.inj (ht.symm.trans ht')]
      rw [hseek, if_neg (Int.not_lt.mpr hsign)] at he
      simp at he
    · intro hpos
      by_contra hsign
      have hmoves := hright.moves t ht hpos
      rw [hseek, if_pos (Int.not_le.mp hsign)] at hmoves
      simp at hmoves
  · intro hsign
    constructor
    · intro t' ht' hpos
      obtain rfl := Option.some.inj (ht.symm.trans ht')
      obtain ⟨h1, h2⟩ := hpos.asUint
      rw [hseek, if_neg (Int.not_lt.mpr (hsign.mpr hpos)), h1, ← h1, h2]
    · intro hpos
      exact ⟨.EINVAL, by rw [hseek, if_pos (Int.not_le.mp (mt hsign.mp (hpos t ht)))]⟩

theorem OpenFile.lseek_iff (h : OpenFile s k p file d f n) (hptr : IsInt ptr) :
    SeeksRight s k p file ptr dir d f n ↔ SumTells f.offset (k.nodeLength n.driver) ptr dir := by
  have hoffset := h.offset
  obtain ⟨h1, h2⟩ := hptr
  unfold intMax at h2
  unfold SumTells
  by_cases hset : dir = 0
  · rw [if_pos hset, h.seeksRight_iff (by rw [seekTarget, if_pos hset])]
    exact iff_congr Iff.rfl ⟨And.left, fun h0 => ⟨h0, h2⟩⟩
  rw [if_neg hset]
  by_cases hcur : dir = 1
  · rw [if_pos hcur, h.seeksRight_iff (by rw [seekTarget, if_neg hset, if_pos hcur]), asInt_nonneg]
    unfold Position intMax
    omega
  rw [if_neg hcur]
  by_cases hend : dir = 2
  · rw [if_pos hend, h.seeksRight_iff (by rw [seekTarget, if_neg hset, if_neg hcur, if_pos hend])]
  rw [if_neg hend]
  have hnone : seekTarget f.offset (k.nodeLength n.driver) ptr dir = none := by
    rw [seekTarget, if_neg hset, if_neg hcur, if_neg hend]
  refine iff_true_intro ⟨fun t ht => ?_, fun _ => ⟨_, h.lseek_mode hnone⟩⟩
  rw [hnone] at ht
  cases ht

-- ---------------------------------------------------------------------------
-- Sequences of calls
-- ---------------------------------------------------------------------------

def seekStep (k : Backing) (p : Pid) (file : Int) (s : Files) (c : Int × Int) : Option Files :=
  (s.lseek k p file c.1 c.2).map (·.2)

def AtPosition (k : Backing) (p : Pid) (file : Int) (s : Files) : Prop :=
  ∃ d f n, OpenFile s k p file d f n ∧ Position f.offset

/-- The sum tells what it should, at the offset that the call finds. -/
def SumTellsAt (k : Backing) (p : Pid) (file : Int) (s : Files) (c : Int × Int) : Prop :=
  IsInt c.1 ∧ ∀ d f n, OpenFile s k p file d f n → SumTells f.offset (k.nodeLength n.driver) c.1 c.2

theorem OpenFile.moved (h : OpenFile s k p file d f n) (ht : Position t) :
    OpenFile (s.setDesc d (some { f with offset := t.toNat })) k p file d { f with offset := t.toNat } n := by
  obtain ⟨i, hi, hd, hf⟩ := slot_some h.slot
  obtain ⟨h1, h2⟩ := ht
  unfold intMax at h2
  refine ⟨?_, h.node, h.notPipe, by change t.toNat < 2 ^ 32; omega, h.length⟩
  have hdesc : (s.setDesc d (some { f with offset := t.toNat })).desc d = some { f with offset := t.toNat } :=
    Function.update_self _ _ _
  have hfd : (s.setDesc d (some { f with offset := t.toNat })).fd p i = some d := hd
  rw [Files.slot, hi, Option.bind_eq_bind, Option.bind_some, hfd, Option.bind_eq_bind, Option.bind_some, hdesc]
  rfl

theorem AtPosition.step {c : Int × Int} (h : AtPosition k p file s) (hc : SumTellsAt k p file s c)
    (hs : seekStep k p file s c = some s') : AtPosition k p file s' := by
  obtain ⟨d, f, n, hopen, hpos⟩ := h
  have hright := (hopen.lseek_iff hc.1).mpr (hc.2 d f n hopen)
  by_cases hmoves : ∃ t, seekTarget f.offset (k.nodeLength n.driver) c.1 c.2 = some t ∧ Position t
  · obtain ⟨t, ht, htpos⟩ := hmoves
    rw [seekStep, hright.moves t ht htpos] at hs
    obtain rfl := Option.some.inj hs
    refine ⟨d, _, n, hopen.moved htpos, ?_⟩
    change Position (t.toNat : Int)
    rwa [Int.toNat_of_nonneg htpos.1]
  · obtain ⟨e, he⟩ := hright.refuses fun t ht htpos => hmoves ⟨t, ht, htpos⟩
    rw [seekStep, he] at hs
    obtain rfl := Option.some.inj hs
    exact ⟨d, f, n, hopen, hpos⟩

/-- A call is right if and only if the sum tells what it should, and no such calls make the
offset negative. -/
theorem lseek_law (k : Backing) (p : Pid) (file : Int) :
    (∀ {s d f n ptr dir}, OpenFile s k p file d f n → IsInt ptr →
      (SeeksRight s k p file ptr dir d f n ↔ SumTells f.offset (k.nodeLength n.driver) ptr dir)) ∧
    ∀ {s}, Reach (seekStep k p file) (SumTellsAt k p file) (AtPosition k p file) s → AtPosition k p file s :=
  ⟨fun h hptr => h.lseek_iff hptr,
    fun h => h.invariant (fun _ h => h) fun _ _ _ hpos hc hs => hpos.step hc hs⟩

end

def seekFiles : Files where
  live := {1}
  nextPid := 2
  fd := fun _ i => if i = 0 then some 0 else none
  desc := fun d => if d = 0 then some ⟨some 0, 10, 0, 1⟩ else none
  nextDesc := 1
  inode := fun i => if i = 0 then some ⟨.tarfs 0, false, 1⟩ else none
  nextIno := 1
  entry := fun _ => ⟨some 0, 1⟩
  pipe := fun _ => Os5.newPipe 512 fun _ => 0
  nextPipe := 0
  kept := fun _ => 0

def seekBacking : Backing where
  kernelBooted := true
  procmmCheckAddress := fun _ => 3
  isDir := fun _ => false
  length := fun _ => 20
  vfsRead := fun s _ _ _ _ => some (0, s)
  vfsWrite := fun s _ _ _ _ => some (0, s)

theorem seekFiles_open : OpenFile seekFiles seekBacking 1 0 0 ⟨some 0, 10, 0, 1⟩ ⟨.tarfs 0, false, 1⟩ :=
  ⟨rfl, ⟨0, rfl, rfl⟩, by decide, by decide, by decide⟩

theorem lseek_law_current : SeeksRight seekFiles seekBacking 1 0 5 1 0 ⟨some 0, 10, 0, 1⟩ ⟨.tarfs 0, false, 1⟩ :=
  ((lseek_law seekBacking 1 0).1 seekFiles_open (by decide)).mpr (by decide)

/-- Five bytes before the start of the file. -/
theorem lseek_beforeStart : OpenFile seekFiles seekBacking 1 0 0 ⟨some 0, 10, 0, 1⟩ ⟨.tarfs 0, false, 1⟩ ∧
    IsInt (-5) ∧
    ¬SeeksRight seekFiles seekBacking 1 0 (-5) 0 0 ⟨some 0, 10, 0, 1⟩ ⟨.tarfs 0, false, 1⟩ ∧
    seekFiles.lseek seekBacking 1 0 (-5) 0 =
      some ((-5, none), seekFiles.setDesc 0 (some ⟨some 0, 0xFFFFFFFB, 0, 1⟩)) := by
  have hint : IsInt (-5) := by decide
  refine ⟨seekFiles_open, hint, ?_, ?_⟩
  · rw [seekFiles_open.lseek_iff hint]
    decide
  · rw [seekFiles_open.lseek_eq (by rfl)]
    rfl

end Os5.Files
