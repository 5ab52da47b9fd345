import Os5.Fs.Tarfs

/-!
# Reading files of the archive

`read_tar` copies from the archive where it lies in memory. `read` calls it with the
offset of the descriptor and moves the offset on by what it returns.
-/

namespace Os5.Tarfs

abbrev kernelOffset : Nat := 0xC0000000

def eof : UInt8 := 255

/-- The bytes from a pointer on. -/
abbrev Buffer := Nat → UInt8

def memcpy (mem : Memory) (buffer : Buffer) (src size : Nat) : Buffer :=
  fun i => if i < size then mem ((src + i) % 2 ^ 32) else buffer i

/-- `read_tar`, with the buffer it leaves. The offset becomes an address before it is
compared a second time. -/
def readTar (mem : Memory) (t : TarTree) (node : Vnode) (buffer : Buffer) (size offset : Nat) :
    Option (Nat × Buffer) := do
  let tar := (t.node node.data).item.tar
  let tsz ← tarSize mem tar
  if tsz < offset then return (0, buffer)
  let size := if tsz < (size + offset) % 2 ^ 32 then tsz - offset else size
  let offset := (offset + tar + 512) % 2 ^ 32
  let buffer := memcpy mem buffer offset size
  if size = (tsz + 2 ^ 32 - offset) % 2 ^ 32 then
    return (size, Function.update buffer size eof)
  return (size, buffer)

/-- Calls of `read` one after the other, each with its buffer and its length: the bytes
that were returned, and the offset that is left. -/
def readAll (mem : Memory) (t : TarTree) (node : Vnode) :
    Nat → List (Buffer × Nat) → Option (List UInt8 × Nat)
  | offset, [] => some ([], offset)
  | offset, (buffer, len) :: calls => do
    let (ret, buffer) ← readTar mem t node buffer len offset
    let (rest, offset) ← readAll mem t node ((offset + ret) % 2 ^ 32) calls
    return ((List.range ret).map buffer ++ rest, offset)

-- ---------------------------------------------------------------------------
-- One call
-- ---------------------------------------------------------------------------

/-- A file of an archive that lies in kernel memory and ends there. -/
structure FileIn (mem : Memory) (tar : Nat) (e : TarEntry) : Prop where
  header : HeaderAt mem tar e
  kernel : kernelOffset ≤ tar
  inside : tar + e.extent < 2 ^ 32

/-- The sum of size and offset wraps around and looks small. -/
def Wraps (length size offset : Nat) : Prop :=
  offset ≤ length ∧ 2 ^ 32 ≤ size + offset ∧ (size + offset) % 2 ^ 32 ≤ length

instance (length size offset : Nat) : Decidable (Wraps length size offset) :=
  inferInstanceAs (Decidable (_ ∧ _ ∧ _))

/-- The call returns what is left of the file, up to the size, and writes that and nothing
else. -/
def ReadsRight (mem : Memory) (t : TarTree) (node : Vnode) (e : TarEntry) (buffer : Buffer)
    (size offset : Nat) : Prop :=
  readTar mem t node buffer size offset = some (min size (e.size - offset), fun i =>
    if i < min size (e.size - offset) then mem ((t.node node.data).item.tar + 512 + offset + i)
    else buffer i)

variable {mem : Memory} {t : TarTree} {node : Vnode} {e : TarEntry} {tar size offset : Nat}
  {buffer : Buffer}

theorem FileIn.size_le (h : FileIn mem tar e) : tar + 512 + e.size < 2 ^ 32 := by
  have hin := h.inside
  rw [TarEntry.extent] at hin
  omega

theorem FileIn.tarSize (h : FileIn mem tar e) : tarSize mem tar = some e.size :=
  h.header.tarSize (lt_of_le_of_lt (Nat.le_add_left _ _) h.size_le)

theorem readTar_past (h : FileIn mem (t.node node.data).item.tar e) (hpast : e.size < offset) :
    readTar mem t node buffer size offset = some (0, buffer) := by
  simp only [readTar, h.tarSize, Option.bind_eq_bind, Option.bind_some, if_pos hpast]
  rfl

theorem memcpy_at {src : Nat} (hsrc : src + size ≤ 2 ^ 32) :
    memcpy mem buffer src size = fun i => if i < size then mem (src + i) else buffer i := by
  funext i
  by_cases hi : i < size
  · rw [memcpy, if_pos hi, if_pos hi, Nat.mod_eq_of_lt (by omega)]
  · rw [memcpy, if_neg hi, if_neg hi]

/-- Up to the end: the address is behind every length, so that no end of file is written. -/
theorem readTar_inside (h : FileIn mem (t.node node.data).item.tar e) (hoffset : offset ≤ e.size)
    (hwraps : ¬Wraps e.size size offset) : ReadsRight mem t node e buffer size offset := by
  have hle := h.size_le
  have hkernel : 0xC0000000 ≤ (t.node node.data).item.tar := h.kernel
  have hsize : (if e.size < (size + offset) % 2 ^ 32 then e.size - offset else size) =
      min size (e.size - offset) := by
    rw [Wraps] at hwraps
    split <;> omega
  have haddr : (offset + (t.node node.data).item.tar + 512) % 2 ^ 32 =
      (t.node node.data).item.tar + 512 + offset := by omega
  have hend : min size (e.size - offset) ≠
      (e.size + 2 ^ 32 - ((t.node node.data).item.tar + 512 + offset)) % 2 ^ 32 := by
    rw [Nat.mod_eq_of_lt (by omega)]
    omega
  rw [ReadsRight]
  simp only [readTar, h.tarSize, Option.bind_eq_bind, Option.bind_some, hsize, haddr]
  rw [if_neg (by omega), if_neg hend, memcpy_at (by omega)]
  rfl

theorem readTar_wraps (h : FileIn mem (t.node node.data).item.tar e)
    (hwraps : Wraps e.size size offset) : ¬ReadsRight mem t node e buffer size offset := by
  obtain ⟨hoffset, hsum, hsmall⟩ := hwraps
  have hle := h.size_le
  intro hright
  rw [ReadsRight] at hright
  simp only [readTar, h.tarSize, Option.bind_eq_bind, Option.bind_some] at hright
  rw [if_neg (Nat.not_lt.mpr hoffset), if_neg (Nat.not_lt.mpr hsmall)] at hright
  have hret : size = min size (e.size - offset) := by
    split at hright
    · exact (Prod.mk.inj (Option.some.inj hright)).1
    · exact (Prod.mk.inj (Option.some.inj hright)).1
  omega

theorem readTar_iff (h : FileIn mem (t.node node.data).item.tar e) :
    ReadsRight mem t node e buffer size offset ↔ ¬Wraps e.size size offset := by
  refine ⟨fun hright hwraps => readTar_wraps h hwraps hright, fun hwraps => ?_⟩
  by_cases hoffset : offset ≤ e.size
  · exact readTar_inside h hoffset hwraps
  · rw [ReadsRight, readTar_past h (Nat.lt_of_not_le hoffset),
      Nat.sub_eq_zero_of_le (Nat.le_of_not_le hoffset), Nat.min_zero]
    rfl

-- ---------------------------------------------------------------------------
-- Whole files
-- ---------------------------------------------------------------------------

def Clear (length : Nat) : Nat → List Nat → Prop
  | _, [] => True
  | offset, size :: sizes =>
    ¬Wraps length size offset ∧ Clear length (offset + min size (length - offset)) sizes

def content (mem : Memory) (tar : Nat) (e : TarEntry) : List UInt8 := bytesAt mem (tar + 512) e.size

theorem content_drop (tar : Nat) (hsize : size ≤ e.size - offset) :
    ((content mem tar e).drop offset).take size =
      (List.range size).map fun i => mem (tar + 512 + offset + i) := by
  refine List.ext_getElem ?_ fun i h₁ h₂ => ?_
  · simp only [content, bytesAt, List.length_take, List.length_drop, List.length_map,
      List.length_range]
    omega
  · simp only [content, bytesAt, List.getElem_take, List.getElem_drop, List.getElem_map,
      List.getElem_range, Nat.add_assoc]

theorem take_append_take {α : Type} (l : List α) {n : Nat} (hn : l.length = n) (a b : Nat) :
    l.take (min a n) ++ (l.drop (min a n)).take b = l.take (a + b) := by
  rw [← List.take_add]
  by_cases ha : a ≤ n
  · rw [Nat.min_eq_left ha]
  · rw [Nat.min_eq_right (Nat.le_of_not_le ha), List.take_of_length_le (by omega),
      List.take_of_length_le (by omega)]

theorem readAll_clear (h : FileIn mem (t.node node.data).item.tar e) (calls : List (Buffer × Nat))
    (hoffset : offset ≤ e.size) (hclear : Clear e.size offset (calls.map Prod.snd)) :
    readAll mem t node offset calls =
      some (((content mem (t.node node.data).item.tar e).drop offset).take (calls.map Prod.snd).sum,
        min (offset + (calls.map Prod.snd).sum) e.size) := by
  induction calls generalizing offset with
  | nil =>
    rw [readAll, List.map_nil, List.sum_nil, List.take_zero, Nat.add_zero, Nat.min_eq_left hoffset]
  | cons call calls ih =>
    obtain ⟨buffer, len⟩ := call
    obtain ⟨hwraps, hrest⟩ := hclear
    have hle := h.size_le
    have hread : ReadsRight mem t node e buffer len offset := (readTar_iff h).mpr hwraps
    have hnext : offset + min len (e.size - offset) ≤ e.size := by omega
    have hmod : (offset + min len (e.size - offset)) % 2 ^ 32 = offset + min len (e.size - offset) :=
      Nat.mod_eq_of_lt (by omega)
    rw [ReadsRight] at hread
    simp only [readAll, hread, Option.bind_eq_bind, Option.bind_some, hmod, ih hnext hrest]
    have hfirst : ((List.range (min len (e.size - offset))).map fun i =>
        if i < min len (e.size - offset) then
          mem ((t.node node.data).item.tar + 512 + offset + i) else buffer i) =
        ((content mem (t.node node.data).item.tar e).drop offset).take (min len (e.size - offset)) := by
      rw [content_drop _ (Nat.min_le_right _ _)]
      exact List.map_congr_left fun i hi => if_pos (List.mem_range.mp hi)
    have hlen : ((content mem (t.node node.data).item.tar e).drop offset).length = e.size - offset := by
      simp [content, bytesAt]
    rw [hfirst, ← List.drop_drop, List.map_cons, List.sum_cons]
    refine congrArg some (Prod.ext ?_ (by dsimp only; omega))
    exact take_append_take _ hlen _ _

-- ---------------------------------------------------------------------------
-- A file of three bytes
-- ---------------------------------------------------------------------------

theorem bytesAt_shift (mem : Memory) (b a n : Nat) :
    bytesAt (fun i => mem (i - b)) (b + a) n = bytesAt mem a n := by
  refine List.map_congr_left fun i _ => ?_
  show mem (b + a + i - b) = mem (a + i)
  rw [Nat.add_assoc, Nat.add_sub_cancel_left]

theorem HeaderAt.shift {a : Nat} (h : HeaderAt mem a e) (b : Nat) :
    HeaderAt (fun i => mem (i - b)) (b + a) e where
  name := by
    rw [bytesAt_shift]
    exact h.name
  short := h.short
  nonzero := h.nonzero
  nonempty := h.nonempty
  size := by
    rw [Nat.add_assoc, bytesAt_shift]
    exact h.size
  type := by
    rw [Nat.add_assoc, Nat.add_sub_cancel_left]
    exact h.type
  noPrefix := by
    rw [Nat.add_assoc, Nat.add_sub_cancel_left]
    exact h.noPrefix

def loadedAt : Nat := 0xC0100000

def loaded : Memory := fun i => load (imageOf smallArchive) (i - loadedAt)

def smallTree : TarTree :=
  (rootTree [116] loadedAt rootNode).makeChild 0 [97] (loadedAt + 512)

def smallFile : Vnode := ⟨[97], .file, 3, 1⟩

theorem loaded_file : FileIn loaded (smallTree.node smallFile.data).item.tar ⟨[116, 47, 97], 3, 48⟩ := by
  have himage := imageOf_image (smallArchive_fits) []
  exact ⟨himage.2.1.shift loadedAt, by decide, by decide⟩

/-- One call reads as it should unless its sum wraps around; calls one after the other, of
which none wraps, return the content up to the length that was asked for in all. -/
theorem readTar_reads (h : FileIn mem (t.node node.data).item.tar e) :
    (∀ buffer size offset, ReadsRight mem t node e buffer size offset ↔ ¬Wraps e.size size offset) ∧
      ∀ calls : List (Buffer × Nat), Clear e.size 0 (calls.map Prod.snd) →
        readAll mem t node 0 calls =
          some ((content mem (t.node node.data).item.tar e).take (calls.map Prod.snd).sum,
            min (calls.map Prod.snd).sum e.size) := by
  refine ⟨fun _ _ _ => readTar_iff h, fun calls hclear => ?_⟩
  rw [readAll_clear h calls (Nat.zero_le _) hclear, List.drop_zero, Nat.zero_add]

theorem readTar_reads_small :
    ReadsRight loaded smallTree smallFile ⟨[116, 47, 97], 3, 48⟩ (fun _ => 1) 2 0 ∧
      readAll loaded smallTree smallFile 0 [(fun _ => 1, 2), (fun _ => 1, 5)] =
        some ((content loaded (loadedAt + 512) ⟨[116, 47, 97], 3, 48⟩).take 7, 3) :=
  have h := readTar_reads loaded_file
  ⟨(h.1 _ 2 0).mpr (by decide), h.2 [(fun _ => 1, 2), (fun _ => 1, 5)] ⟨by decide, by decide, trivial⟩⟩

/-- `read(fd, p, -1)` after the first byte. -/
theorem readTar_overruns : ¬∀ mem t node e, FileIn mem (t.node node.data).item.tar e →
    ∀ buffer size offset, size < 2 ^ 32 → offset < 2 ^ 32 →
      ReadsRight mem t node e buffer size offset := fun h =>
  readTar_wraps loaded_file ⟨by decide, by decide, by decide⟩
    (h _ _ _ _ loaded_file (fun _ => 1) (2 ^ 32 - 1) 1 (by decide) (by decide))

end Os5.Tarfs
