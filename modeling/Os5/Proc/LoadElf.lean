import Os5.Fs.Reading
import Os5.Lib.Bytes
import Os5.Mem.Granted

/-!
# Loading a program

`load_elf` reads the headers of a file and then its segments, one after the other, right into
the memory of the running process: an area from `new_area`, the bytes of the file, and zeros.
-/

namespace Os5.Elf

open Bytes Machine Outcome
open Tarfs (TarTree Vnode TarEntry Buffer FileIn readTar)

structure Phead extends ElfPhead where
  offset : Nat
  fileSize : Nat
  deriving DecidableEq, Repr

abbrev headerSize : Nat := 52
abbrev pheadSize : Nat := 32

def half (mem : Memory) (a : Nat) : Nat := (mem a).toNat + 0x100 * (mem (a + 1)).toNat

def phOffset (elf : Memory) : Nat := word elf 28
def phNum (elf : Memory) : Nat := half elf 44
def entry (elf : Memory) : Nat := word elf 24

def phead (pheads : Memory) (i : Nat) : Phead :=
  let a := pheadSize * i
  { type := word pheads a
    offset := word pheads (a + 4)
    virtualAddress := word pheads (a + 8)
    fileSize := word pheads (a + 16)
    memSize := word pheads (a + 20)
    flags := word pheads (a + 24) }

/-- `_is_elf` -/
def isElfHeader (elf : Memory) : Int :=
  if elf 0 = 0x7f ∧ elf 1 = 69 ∧ elf 2 = 76 ∧ elf 3 = 70 then half elf 16 else -1

structure File where
  archive : Memory
  tree : TarTree
  node : Vnode

def File.tar (f : File) : Nat := (f.tree.node f.node.data).item.tar

/-- `vfs_read` into memory of the kernel. -/
def vfsRead (f : File) (buffer : Buffer) (size offset : Nat) : Except Stop (Nat × Buffer) :=
  match readTar f.archive f.tree f.node buffer size offset with
  | some r => .ok r
  | none => .error .refused

/-- What `read_tar` stores in a buffer that was all zeros: the bytes it copies, and behind them
the end of file if it puts one there. -/
def stored (r : Nat × Buffer) : List Byte :=
  (List.range r.1).map r.2 ++ if r.2 r.1 = Tarfs.eof then [Tarfs.eof] else []

/-- The memory, and the addresses that were stored to for the program; nothing reads these. -/
structure UserMem where
  mem : Mem
  stores : List Nat

def UserMem.copy (u : UserMem) (ptr : Nat) (data : List Byte) : Except Stop UserMem := do
  let w ← copyOut u.mem ptr data
  return ⟨w, u.stores ++ (List.range data.length).map fun i => wrap (ptr + i)⟩

/-- `vfs_read` right into the memory of the program. -/
def vfsReadUser (f : File) (u : UserMem) (ptr size offset : Nat) : Except Stop UserMem := do
  let r ← vfsRead f (fun _ => 0) size offset
  u.copy ptr (stored r)

def memset (u : UserMem) (ptr size : Nat) : Except Stop UserMem := u.copy ptr (List.replicate size 0)

def loadElfSegment (f : File) (u : UserMem) (ph : Phead) : Except Stop UserMem := do
  let (_, w) ← newArea u.mem u.mem.current ph.virtualAddress ph.end ph.mmFlags mmTypeData
  let u := { u with mem := w }
  if ph.memSize = 0 then return u
  let u ← vfsReadUser f u ph.virtualAddress ph.fileSize ph.offset
  memset u (wrap (ph.virtualAddress + ph.fileSize)) (wrap (ph.memSize + 2 ^ 32 - ph.fileSize))

/-- The memory, with what `process_mem_t` of the running process says of its program. -/
structure Loader extends UserMem where
  codeStart : Nat
  codeEnd : Nat
  dataEnd : Nat
  codeEntry : Nat

def loadPhead (f : File) (s : Loader) (ph : Phead) : Except Stop Loader :=
  if ph.type = elfPtLoad then do
    let u ← loadElfSegment f s.toUserMem ph
    return { s with
      toUserMem := u
      codeStart := if ph.virtualAddress < s.codeStart then ph.virtualAddress else s.codeStart
      codeEnd := if ph.end > s.codeEnd then ph.end else s.codeEnd }
  else .ok s

/-- `load_elf`. The two buffers are what the memory from `malloc` held before. -/
def loadElf (f : File) (elf pheads : Buffer) (s : Loader) : Except Stop (Int × Loader) := do
  let (_, elf) ← vfsRead f elf headerSize 0
  if isElfHeader elf ≠ elfTypeExecutable then return (-1, s)
  let (_, pheads) ← vfsRead f pheads (pheadSize * phNum elf) (phOffset elf)
  let s ← ((List.range (phNum elf)).map (phead pheads)).foldlM (loadPhead f)
    { s with codeStart := 2 ^ 32 - 1, codeEnd := 0 }
  return (0, { s with dataEnd := s.codeEnd, codeEntry := entry elf })

-- ---------------------------------------------------------------------------
-- What a program is
-- ---------------------------------------------------------------------------

def File.image (f : File) : Memory := fun i => f.archive (f.tar + 512 + i)

def File.content (f : File) (e : TarEntry) : List Byte := Tarfs.content f.archive f.tar e

def File.bytes (f : File) (offset size : Nat) : List Byte := (List.range size).map fun i => f.image (offset + i)

def File.segments (f : File) : List Phead :=
  ((List.range (phNum f.image)).map (phead fun i => f.image (phOffset f.image + i))).filter
    fun ph => ph.type = elfPtLoad

/-- An executable file, whole with its headers. -/
structure Executable (f : File) (e : TarEntry) : Prop where
  file : FileIn f.archive f.tar e
  header : headerSize ≤ e.size
  elf : isElfHeader f.image = elfTypeExecutable
  pheads : phOffset f.image + pheadSize * phNum f.image ≤ e.size

/-- What the range of a segment has to be like. -/
structure Phead.Proper (ph : Phead) : Prop where
  size : ph.fileSize ≤ ph.memSize
  below : ph.virtualAddress + ph.memSize ≤ userStackTop

def Phead.Before (ph ph' : Phead) : Prop := ph.virtualAddress + ph.memSize ≤ ph'.virtualAddress

def Phead.InFile (ph : Phead) (size : Nat) : Prop := ph.fileSize = 0 ∨ ph.offset + ph.fileSize ≤ size

/-- The second segment starts behind the last page of the first. -/
def Phead.PagesBefore (ph ph' : Phead) : Prop := areaStop ph.end ≤ pageMask ph'.virtualAddress

structure Headers (f : File) (elf pheads : Buffer) (header : Memory) (segments : List Phead) : Prop where
  read : ∃ n, vfsRead f elf headerSize 0 = .ok (n, header)
  table : ∃ n table, vfsRead f pheads (pheadSize * phNum header) (phOffset header) = .ok (n, table) ∧
    segments = ((List.range (phNum header)).map (phead table)).filter fun ph => ph.type = elfPtLoad

structure Filled (content : List Byte) (w : Mem) (ph : Phead) : Prop where
  file : ∀ j < ph.fileSize, ∃ b, content[ph.offset + j]? = some b ∧ w.byteAt (ph.virtualAddress + j) = some b
  zeros : ∀ j < ph.memSize, ph.fileSize ≤ j → w.byteAt (ph.virtualAddress + j) = some 0

structure Extent (segments : List Phead) (start stop : Nat) : Prop where
  le : ∀ ph ∈ segments, start ≤ ph.virtualAddress
  ge : ∀ ph ∈ segments, ph.virtualAddress + ph.memSize ≤ stop
  least : segments ≠ [] → ∃ ph ∈ segments, ph.virtualAddress = start
  greatest : segments ≠ [] → ∃ ph ∈ segments, ph.virtualAddress + ph.memSize = stop

/-- The running process once `procmm_removeall` has taken its memory. -/
structure Emptied (w : Mem) : Prop where
  lists : Lists w
  living : w.living w.current = true
  empty : w.mem w.current = []
  loaded : w.machine.cr3 = w.pd w.current
  spaces : Spaces w.machine (· = w.machine.cr3)
  unmapped : ∀ x, x < kernelOffset → w.machine.mapped w.machine.cr3 x = false

def Phead.request (ph : Phead) : Request := ⟨ph.virtualAddress, ph.end, ph.mmFlags, mmTypeData⟩

section
variable {f : File} {e : TarEntry} {w w' : Mem} {u u' : UserMem} {s s' : Loader} {ph q : Phead} {done segments : List Phead}
  {base : List Nat} {buffer elf pheads : Buffer} {size offset ptr stop p x : Nat} {r : Nat × Buffer}

-- ---------------------------------------------------------------------------
-- Reading
-- ---------------------------------------------------------------------------

theorem vfsRead_eq (h : FileIn f.archive f.tar e) (hwraps : ¬Tarfs.Wraps e.size size offset) :
    vfsRead f buffer size offset = .ok (min size (e.size - offset), fun i =>
      if i < min size (e.size - offset) then f.image (offset + i) else buffer i) := by
  have hfile : FileIn f.archive (f.tree.node f.node.data).item.tar e := h
  have hright : Tarfs.ReadsRight f.archive f.tree f.node e buffer size offset :=
    (Tarfs.readTar_iff hfile).mpr hwraps
  rw [Tarfs.ReadsRight] at hright
  have hbytes : ∀ i, f.image (offset + i) = f.archive ((f.tree.node f.node.data).item.tar + 512 + offset + i) :=
    fun i => (Nat.add_assoc _ offset i).symm ▸ rfl
  unfold vfsRead
  rw [hright]
  simp only [hbytes]

theorem vfsRead_bytes (h : FileIn f.archive f.tar e) (hwraps : ¬Tarfs.Wraps e.size size offset) : ∃ r,
    vfsRead f (fun _ => 0) size offset = .ok r ∧ stored r = f.bytes offset (min size (e.size - offset)) := by
  refine ⟨_, vfsRead_eq h hwraps, ?_⟩
  rw [stored, if_neg (by simp [Tarfs.eof]), List.append_nil]
  refine List.map_congr_left fun i hi => ?_
  simp only [if_pos (List.mem_range.mp hi)]

theorem vfsReadUser_eq (h : FileIn f.archive f.tar e) (hwraps : ¬Tarfs.Wraps e.size size offset) :
    vfsReadUser f u ptr size offset = u.copy ptr (f.bytes offset (min size (e.size - offset))) := by
  obtain ⟨r, hr, hstored⟩ := vfsRead_bytes h hwraps
  rw [vfsReadUser, hr, ← hstored]
  rfl

-- ---------------------------------------------------------------------------
-- The range of a segment
-- ---------------------------------------------------------------------------

theorem areaStop_le (hstop : stop ≤ p) (hp : pageMask p = p) (hlast : p ≤ lastPage) : areaStop stop ≤ p := by
  unfold areaStop
  split
  · next hflag =>
    have hlt : stop ≠ p := fun h => hflag (pageFlag_of_mask (h ▸ hp))
    have hwrap : wrap (stop + pageSize) = stop + pageSize := Nat.mod_eq_of_lt (by
      unfold lastPage at hlast
      unfold pageSize
      omega)
    rw [hwrap]
    unfold pageMask at *
    unfold pageSize
    omega
  · exact (pageMask_le stop).trans hstop

theorem Phead.Proper.end_eq (h : ph.Proper) : ph.end = ph.virtualAddress + ph.memSize := by
  have hbelow := h.below
  unfold userStackTop at hbelow
  exact Nat.mod_eq_of_lt (by omega)

theorem Phead.Proper.end_le (h : ph.Proper) : ph.end ≤ areaStop ph.end := by
  refine (areaStop_ge ?_).1
  rw [h.end_eq]
  exact h.below.trans (by decide)

theorem Phead.Proper.fits (h : ph.Proper) : ph.request.Fits where
  le := (pageMask_le _).trans ((h.end_eq ▸ Nat.le_add_right _ _ : ph.virtualAddress ≤ ph.end).trans h.end_le)
  low := by
    have hstop : ph.end ≤ userStackTop := by
      rw [h.end_eq]
      exact h.below
    exact (areaStop_le hstop (by decide) (by decide)).trans (by decide)

theorem Phead.Proper.spans {j : Nat} (h : ph.Proper) (hj : j < ph.memSize) :
    ph.request.Spans (ph.virtualAddress + j) := by
  refine ⟨(pageMask_le _).trans (Nat.le_add_right _ _), lt_of_lt_of_le ?_ h.end_le⟩
  rw [h.end_eq]
  exact Nat.add_lt_add_left hj _

theorem clear_iff (hph : ph.Proper) (hbefore : q.Before ph) :
    ph.request.Clear q.request ↔ q.PagesBefore ph := by
  constructor
  · intro hclear
    by_contra hnot
    refine hclear (pageMask ph.virtualAddress) (pageMask_pageMask _) le_rfl hph.fits.le
      ⟨?_, Nat.lt_of_not_le hnot⟩
    exact Nat.mul_le_mul_right _ (Nat.div_le_div_right ((Nat.le_add_right _ _).trans hbefore))
  · intro hpages x _ hx _ hspans
    exact absurd (hspans.2.trans_le (hpages.trans hx)) (Nat.lt_irrefl _)

theorem Phead.Proper.wraps (h : ph.Proper) (hfile : FileIn f.archive f.tar e) :
    ¬Tarfs.Wraps e.size ph.fileSize ph.offset := by
  have hend := hfile.size_le
  have hkernel : 0xC0000000 ≤ f.tar := hfile.kernel
  have hsize := h.size
  have hbelow := h.below
  unfold userStackTop at hbelow
  rintro ⟨h1, h2, -⟩
  omega

theorem Phead.InFile.all (h : ph.InFile e.size) : min ph.fileSize (e.size - ph.offset) = ph.fileSize := by
  rcases h with h | h <;> omega

-- ---------------------------------------------------------------------------
-- One segment
-- ---------------------------------------------------------------------------

theorem content_get {i : Nat} (hi : i < e.size) : (f.content e)[i]? = some (f.image i) := by
  simp [File.content, Tarfs.content, Tarfs.bytesAt, hi, File.image]

theorem bytes_length : (f.bytes offset size).length = size := by simp [File.bytes]

theorem bytes_get {i : Nat} (hi : i < size) : (f.bytes offset size)[i]? = some (f.image (offset + i)) := by
  simp [File.bytes, hi]

structure Copy (u : UserMem) (ptr : Nat) (data : List Byte) (u' : UserMem) : Prop where
  mem : Copied u.mem ptr data u'.mem
  stores : ∀ x ∈ u'.stores, x ∈ u.stores ∨ (ptr ≤ x ∧ x < ptr + data.length)

theorem copy_granted {rs : List Request} {data : List Byte} (h : Granted u.mem rs)
    (hlow : ptr + data.length ≤ kernelOffset)
    (hmap : ∀ x, ptr ≤ x → x < ptr + data.length → u.mem.machine.mapped u.mem.machine.cr3 x = true) :
    ∃ u', u.copy ptr data = .ok u' ∧ Granted u'.mem rs ∧ Copy u ptr data u' := by
  obtain ⟨w, hw, hg, hc⟩ := h.copyOut hlow hmap
  refine ⟨_, bind_ok.mpr ⟨w, hw, rfl⟩, hg, hc, fun x hx => ?_⟩
  rcases List.mem_append.mp hx with hx | hx
  · exact .inl hx
  · obtain ⟨i, hi, rfl⟩ := List.mem_map.mp hx
    have hi := List.mem_range.mp hi
    have hwrap : wrap (ptr + i) = ptr + i := by
      unfold kernelOffset at hlow
      exact Nat.mod_eq_of_lt (by omega)
    rw [hwrap]
    exact .inr ⟨Nat.le_add_right _ _, Nat.add_lt_add_left hi _⟩

structure SegmentBytes (f : File) (e : TarEntry) (ph : Phead) (u u' : UserMem) : Prop where
  current : u'.mem.current = u.mem.current
  file : ∀ j < min ph.fileSize (e.size - ph.offset),
    u'.mem.byteAt (ph.virtualAddress + j) = some (f.image (ph.offset + j))
  zeros : ∀ j < ph.memSize, ph.fileSize ≤ j → u'.mem.byteAt (ph.virtualAddress + j) = some 0
  kept : ∀ x, x < kernelOffset → (x < ph.virtualAddress ∨ ph.virtualAddress + ph.memSize ≤ x) →
    u'.mem.byteAt x = u.mem.byteAt x
  stores : ∀ x ∈ u'.stores, x ∈ u.stores ∨ (ph.virtualAddress ≤ x ∧ x < ph.virtualAddress + ph.memSize)

theorem SegmentBytes.of_copies {u1 : UserMem} (hp : ph.Proper)
    (h1 : Copy u ph.virtualAddress (f.bytes ph.offset (min ph.fileSize (e.size - ph.offset))) u1)
    (h2 : Copy u1 (ph.virtualAddress + ph.fileSize) (List.replicate (ph.memSize - ph.fileSize) 0) u') :
    SegmentBytes f e ph u u' := by
  have hbelow := hp.below
  have hsize := hp.size
  have hlow : ph.virtualAddress + ph.memSize < kernelOffset := hbelow.trans_lt (by decide)
  have hmin := Nat.min_le_left ph.fileSize (e.size - ph.offset)
  refine ⟨h2.mem.current.trans h1.mem.current, fun j hj => ?_, fun j hj h0 => ?_, fun x hx hout => ?_,
    fun x hx => ?_⟩
  · rw [h2.mem.bytes _ (by omega), if_neg (by omega), h1.mem.bytes _ (by omega), bytes_length,
      if_pos (by omega), Nat.add_sub_cancel_left, bytes_get hj]
  · rw [h2.mem.bytes _ (by omega), List.length_replicate, if_pos (by omega), List.getElem?_replicate,
      if_pos (by omega)]
  · rw [h2.mem.bytes x hx, List.length_replicate, if_neg (by omega), h1.mem.bytes x hx, bytes_length,
      if_neg (by omega)]
  · rcases h2.stores x hx with hx | hx
    · rcases h1.stores x hx with hx | hx
      · exact .inl hx
      · rw [bytes_length] at hx
        exact .inr (by omega)
    · rw [List.length_replicate] at hx
      exact .inr (by omega)

theorem copies_granted {rs : List Request} (h : Granted u.mem rs) (hfile : FileIn f.archive f.tar e)
    (hp : ph.Proper) (hr : ph.request ∈ rs) :
    ∃ u', (do
      let u ← vfsReadUser f u ph.virtualAddress ph.fileSize ph.offset
      memset u (wrap (ph.virtualAddress + ph.fileSize)) (wrap (ph.memSize + 2 ^ 32 - ph.fileSize))) = .ok u' ∧
      Granted u'.mem rs ∧ SegmentBytes f e ph u u' := by
  have hsize := hp.size
  have hbelow := hp.below
  have hlow : ph.virtualAddress + ph.memSize ≤ kernelOffset := hbelow.trans (by decide)
  unfold userStackTop at hbelow
  have hmin := Nat.min_le_left ph.fileSize (e.size - ph.offset)
  have hpages : ∀ {v : Mem}, Granted v rs → ∀ x, ph.virtualAddress ≤ x → x < ph.virtualAddress + ph.memSize →
      v.machine.mapped v.machine.cr3 x = true := by
    intro v hv x h1 h2
    have hspans : ph.request.Spans (ph.virtualAddress + (x - ph.virtualAddress)) := hp.spans (by omega)
    rw [Nat.add_sub_cancel' h1] at hspans
    exact hv.mapped _ hr rfl x hspans
  obtain ⟨u1, hu1, hg1, hc1⟩ := @copy_granted u ph.virtualAddress rs
    (f.bytes ph.offset (min ph.fileSize (e.size - ph.offset))) h (by rw [bytes_length]; omega)
    fun x h1 h2 => hpages h x h1 (by rw [bytes_length] at h2; omega)
  obtain ⟨u2, hu2, hg2, hc2⟩ := @copy_granted u1 (ph.virtualAddress + ph.fileSize) rs
    (List.replicate (ph.memSize - ph.fileSize) 0) hg1 (by rw [List.length_replicate]; omega)
    fun x h1 h2 => hpages hg1 x (by omega) (by
      rw [List.length_replicate] at h2
      omega)
  have hptr : wrap (ph.virtualAddress + ph.fileSize) = ph.virtualAddress + ph.fileSize :=
    Nat.mod_eq_of_lt (by omega)
  have hcount : wrap (ph.memSize + 2 ^ 32 - ph.fileSize) = ph.memSize - ph.fileSize := by
    unfold wrap
    omega
  refine ⟨u2, bind_ok.mpr ⟨u1, ?_, ?_⟩, hg2, .of_copies hp hc1 hc2⟩
  · rw [vfsReadUser_eq hfile (hp.wraps hfile), hu1]
  · rw [hptr, hcount]
    exact hu2

theorem SegmentBytes.filled (h : SegmentBytes f e ph u u') (hin : ph.InFile e.size) :
    Filled (f.content e) u'.mem ph := by
  refine ⟨fun j hj => ⟨_, content_get ?_, h.file j (by rwa [hin.all])⟩, h.zeros⟩
  rcases hin with hnone | hin <;> omega

theorem SegmentBytes.keeps (h : SegmentBytes f e ph u u') (hp : ph.Proper) :
    Keeps u.mem ph.request.Spans u'.mem := by
  refine ⟨h.current, fun x hx hout => h.kept x hx ?_⟩
  by_contra hnot
  have hspans : ph.request.Spans (ph.virtualAddress + (x - ph.virtualAddress)) := hp.spans (by omega)
  rw [Nat.add_sub_cancel' (by omega)] at hspans
  exact hout hspans

structure Segment (f : File) (e : TarEntry) (rs : List Request) (ph : Phead) (u u' : UserMem) : Prop where
  granted : Granted u'.mem rs
  keeps : Keeps u.mem ph.request.Spans u'.mem
  filled : ph.InFile e.size → Filled (f.content e) u'.mem ph
  stores : ∀ x ∈ u'.stores, x ∈ u.stores ∨ ph.request.Spans x

theorem segment_filled {rs : List Request} (h : Granted u.mem rs) (hfile : FileIn f.archive f.tar e)
    (hp : ph.Proper) (hr : ph.request ∈ rs) :
    ∃ u', (if ph.memSize = 0 then .ok u
      else do
        let u ← vfsReadUser f u ph.virtualAddress ph.fileSize ph.offset
        memset u (wrap (ph.virtualAddress + ph.fileSize)) (wrap (ph.memSize + 2 ^ 32 - ph.fileSize))) =
        .ok u' ∧ Segment f e rs ph u u' := by
  by_cases hempty : ph.memSize = 0
  · have hsize := hp.size
    rw [if_pos hempty]
    exact ⟨u, rfl, h, ⟨rfl, fun _ _ _ => rfl⟩, fun _ => ⟨fun j hj => by omega, fun j hj => by omega⟩,
      fun _ => .inl⟩
  · rw [if_neg hempty]
    obtain ⟨u', hu', hg, hfill⟩ := copies_granted h hfile hp hr
    refine ⟨u', hu', hg, hfill.keeps hp, hfill.filled, fun x hx => (hfill.stores x hx).imp_right fun hx => ?_⟩
    have hspans : ph.request.Spans (ph.virtualAddress + (x - ph.virtualAddress)) := hp.spans (by omega)
    rwa [Nat.add_sub_cancel' hx.1] at hspans

theorem loadElfSegment_granted (h : Granted u.mem (done.map Phead.request)) (hfile : FileIn f.archive f.tar e)
    (hp : ph.Proper) (hclear : ∀ q ∈ done, ph.request.Clear q.request) :
    Yields (loadElfSegment f u ph) (· = .outOfMemory) (Segment f e ((done ++ [ph]).map Phead.request) ph u) := by
  have hrequests : (done ++ [ph]).map Phead.request = done.map Phead.request ++ [ph.request] := by simp
  have hnew := h.newArea hp.fits fun r hr => by
    obtain ⟨q, hq, rfl⟩ := List.mem_map.mp hr
    exact hclear q hq
  rw [hrequests]
  refine hnew.bind fun v hv => .of_ok ?_
  obtain ⟨u', hu', hs⟩ := @segment_filled f e { u with mem := v.2 } ph _ hv.1 hfile hp (by simp)
  exact ⟨u', hu', hs.granted, ⟨hs.keeps.current.trans hv.2.current, fun x hx hout =>
    (hs.keeps.bytes x hx hout).trans (hv.2.bytes x hx hout)⟩, hs.filled, hs.stores⟩

-- ---------------------------------------------------------------------------
-- All segments
-- ---------------------------------------------------------------------------

/-- What `load_elf` has come to with the segments loaded so far. -/
structure Image (f : File) (e : TarEntry) (base : List Nat) (done : List Phead) (s : Loader) : Prop where
  granted : Granted s.mem (done.map Phead.request)
  filled : ∀ ph ∈ done, ph.InFile e.size → Filled (f.content e) s.mem ph
  stores : ∀ x ∈ s.stores, x ∈ base ∨ ∃ ph ∈ done, ph.request.Spans x
  extent : Extent done s.codeStart s.codeEnd
  none : done = [] → s.codeStart = 2 ^ 32 - 1 ∧ s.codeEnd = 0

theorem Emptied.granted (h : Emptied w) : Granted w [] where
  lists := h.lists
  living := h.living
  loaded := h.loaded
  spaces := h.spaces
  own := .of_unmapped h.unmapped
  low _ hr := absurd hr List.not_mem_nil
  areas _ hr := absurd hr List.not_mem_nil
  only x a ha := by
    rw [At, h.empty] at ha
    exact absurd ha.1 List.not_mem_nil
  ends a ha := by
    rw [h.empty] at ha
    exact absurd ha List.not_mem_nil
  nonempty hne := absurd rfl hne
  mapped _ hr := absurd hr List.not_mem_nil
  unmapped x hx _ := h.unmapped x hx

theorem emptied_of_removeAll {v v' : World} (h : v.Fitted) (hs : v.step .removeAll = some v') :
    Emptied v'.mem := by
  have h' : v'.Fitted := h.step (a := .removeAll) (fun _ hreq => by cases hreq) hs
  have hunmapped := h.unmaps v' hs
  have hloaded := h'.fit.loaded
  refine ⟨h'.kept.sound.lists, h'.kept.living, ?_, hloaded, ?_, fun x hx => ?_⟩
  · obtain ⟨w, hremove, hs⟩ := bind_ok.mp (World.step_some.mp hs)
    obtain rfl := Except.ok.inj hs
    obtain ⟨hr, hempty⟩ := procmmRemoveall_reworks h.kept.sound.lists hremove
    change w.mem w.current = []
    rw [hr.frame.current]
    exact hempty
  · exact h'.fit.spaces.mono fun d hd => ⟨v'.current, h'.kept.living, hd ▸ hloaded.symm⟩
  · rw [hloaded]
    exact hunmapped x hx

theorem Emptied.image (h : Emptied s.mem) :
    Image f e s.stores [] { s with codeStart := 2 ^ 32 - 1, codeEnd := 0 } where
  granted := h.granted
  filled := by simp
  stores _ := .inl
  extent := ⟨by simp, by simp, by simp, by simp⟩
  none _ := ⟨rfl, rfl⟩

theorem Image.extent_next (h : Image f e base done s) (hp : ph.Proper) : Extent (done ++ [ph])
    (if ph.virtualAddress < s.codeStart then ph.virtualAddress else s.codeStart)
    (if ph.end > s.codeEnd then ph.end else s.codeEnd) := by
  have hbelow := hp.below
  unfold userStackTop at hbelow
  have hend := hp.end_eq
  refine ⟨fun q hq => ?_, fun q hq => ?_, fun _ => ?_, fun _ => ?_⟩
  · rcases List.mem_append.mp hq with hq | hq
    · have hle := h.extent.le q hq
      split <;> omega
    · obtain rfl := List.mem_singleton.mp hq
      split <;> omega
  · rcases List.mem_append.mp hq with hq | hq
    · have hge := h.extent.ge q hq
      split <;> omega
    · obtain rfl := List.mem_singleton.mp hq
      split <;> omega
  · split
    · exact ⟨ph, by simp, rfl⟩
    · next hstart =>
      by_cases hnil : done = []
      · have hnone := (h.none hnil).1
        omega
      · obtain ⟨q, hq, heq⟩ := h.extent.least hnil
        exact ⟨q, List.mem_append_left _ hq, heq⟩
  · split
    · exact ⟨ph, by simp, hend.symm⟩
    · next hstop =>
      by_cases hnil : done = []
      · have hnone := (h.none hnil).2
        exact ⟨ph, by simp, by omega⟩
      · obtain ⟨q, hq, heq⟩ := h.extent.greatest hnil
        exact ⟨q, List.mem_append_left _ hq, heq⟩

theorem Filled.kept {c : List Byte} (h : Filled c w q) (hp : q.Proper) (hclear : ph.request.Clear q.request)
    (hkeep : Keeps w ph.request.Spans w') : Filled c w' q := by
  have hsame : ∀ j < q.memSize, w'.byteAt (q.virtualAddress + j) = w.byteAt (q.virtualAddress + j) := by
    intro j hj
    have hspans := hp.spans hj
    refine hkeep.bytes _ (hspans.2.trans_le hp.fits.low) fun hin => ?_
    exact hclear _ (pageMask_pageMask _) hin.page.1 hin.page.2.le hspans.page
  have hsize := hp.size
  refine ⟨fun j hj => ?_, fun j hj h0 => ?_⟩
  · rw [hsame j (by omega)]
    exact h.file j hj
  · rw [hsame j hj]
    exact h.zeros j hj h0

theorem Image.loadPhead (h : Image f e base done s) (hfile : FileIn f.archive f.tar e) (htype : ph.type = elfPtLoad)
    (hdone : ∀ q ∈ done, q.Proper) (hp : ph.Proper) (hclear : ∀ q ∈ done, ph.request.Clear q.request) :
    Yields (Elf.loadPhead f s ph) (· = .outOfMemory) (Image f e base (done ++ [ph])) := by
  rw [Elf.loadPhead, if_pos htype]
  refine (loadElfSegment_granted h.granted hfile hp hclear).bind fun u hu => ?_
  refine ⟨hu.granted, fun q hq hin => ?_, fun x hx => ?_, h.extent_next hp, by simp⟩
  · rcases List.mem_append.mp hq with hq | hq
    · exact (h.filled q hq hin).kept (hdone q hq) (hclear q hq) hu.keeps
    · obtain rfl := List.mem_singleton.mp hq
      exact hu.filled hin
  · rcases hu.stores x hx with hx | hx
    · exact (h.stores x hx).imp_right fun ⟨q, hq, hspans⟩ => ⟨q, List.mem_append_left _ hq, hspans⟩
    · exact .inr ⟨ph, by simp, hx⟩

theorem Image.hangs (h : Image f e base done s) (htype : ph.type = elfPtLoad) (hq : q ∈ done)
    (hclear : ¬ph.request.Clear q.request) : Elf.loadPhead f s ph = .error .hang := by
  have hgrant := h.granted.hangs (List.mem_map_of_mem hq) hclear
  have hsegment : loadElfSegment f s.toUserMem ph = .error .hang := by
    unfold loadElfSegment
    rw [show newArea s.mem s.mem.current ph.virtualAddress ph.end ph.mmFlags mmTypeData = .error .hang from hgrant]
    rfl
  rw [Elf.loadPhead, if_pos htype, hsegment]
  rfl

theorem Image.load (h : Image f e base done s) (hfile : FileIn f.archive f.tar e)
    (htype : ∀ ph ∈ segments, ph.type = elfPtLoad) (hproper : ∀ ph ∈ done ++ segments, ph.Proper)
    (hclear : (done ++ segments).Pairwise fun q ph => ph.request.Clear q.request) :
    Yields (segments.foldlM (Elf.loadPhead f) s) (· = .outOfMemory) (Image f e base (done ++ segments)) := by
  induction segments generalizing done s with
  | nil =>
    rw [List.append_nil]
    exact h
  | cons ph segments ih =>
    have hall : done ++ ph :: segments = done ++ [ph] ++ segments := by simp
    rw [List.foldlM_cons]
    have hfirst : ∀ q ∈ done, ph.request.Clear q.request := fun q hq =>
      (List.pairwise_append.mp hclear).2.2 q hq ph List.mem_cons_self
    refine (h.loadPhead hfile (htype ph List.mem_cons_self)
      (fun q hq => hproper q (List.mem_append_left _ hq)) (hproper ph (by simp)) hfirst).bind fun s1 h1 => ?_
    rw [hall] at hproper hclear ⊢
    exact ih h1 (fun q hq => htype q (List.mem_cons_of_mem _ hq)) hproper hclear

theorem Image.apart (h : Image f e base done s) (hfile : FileIn f.archive f.tar e)
    (htype : ∀ ph ∈ segments, ph.type = elfPtLoad) (hproper : ∀ ph ∈ done ++ segments, ph.Proper)
    (hclear : done.Pairwise fun q ph => ph.request.Clear q.request)
    (hok : segments.foldlM (Elf.loadPhead f) s = .ok s') :
    (done ++ segments).Pairwise fun q ph => ph.request.Clear q.request := by
  induction segments generalizing done s with
  | nil =>
    rw [List.append_nil]
    exact hclear
  | cons ph segments ih =>
    have hall : done ++ ph :: segments = done ++ [ph] ++ segments := by simp
    rw [List.foldlM_cons] at hok
    obtain ⟨s1, hs1, hok⟩ := bind_ok.mp hok
    have htype1 := htype ph List.mem_cons_self
    have hfirst : ∀ q ∈ done, ph.request.Clear q.request := by
      intro q hq
      by_contra hnot
      rw [h.hangs htype1 hq hnot] at hs1
      cases hs1
    have h1 := (h.loadPhead hfile htype1 (fun q hq => hproper q (List.mem_append_left _ hq))
      (hproper ph (by simp)) hfirst).of_eq_ok hs1
    rw [hall] at hproper ⊢
    refine ih h1 (fun q hq => htype q (List.mem_cons_of_mem _ hq)) hproper ?_ hok
    exact List.pairwise_append.mpr ⟨hclear, List.pairwise_singleton _ _, fun q hq r hr => by
      rw [List.mem_singleton.mp hr]
      exact hfirst q hq⟩

-- ---------------------------------------------------------------------------
-- The headers
-- ---------------------------------------------------------------------------

theorem half_congr {mem mem' : Memory} {a : Nat} (h : Agree a (a + 2) mem mem') : half mem' a = half mem a := by
  rw [half, half, h a (by omega) (by omega), h (a + 1) (by omega) (by omega)]

theorem header_congr {mem mem' : Memory} (h : Agree 0 headerSize mem mem') :
    isElfHeader mem' = isElfHeader mem ∧ phOffset mem' = phOffset mem ∧ phNum mem' = phNum mem ∧
      entry mem' = entry mem := by
  refine ⟨?_, word_congr (h.mono (Nat.zero_le _) (by decide)), half_congr (h.mono (Nat.zero_le _) (by decide)),
    word_congr (h.mono (Nat.zero_le _) (by decide))⟩
  rw [isElfHeader, isElfHeader, half_congr (h.mono (Nat.zero_le _) (by decide)), h 0 (by decide) (by decide),
    h 1 (by decide) (by decide), h 2 (by decide) (by decide), h 3 (by decide) (by decide)]

theorem phead_congr {mem mem' : Memory} {i n : Nat} (h : Agree 0 (pheadSize * n) mem mem') (hi : i < n) :
    phead mem' i = phead mem i := by
  have hword : ∀ k, k + 4 ≤ pheadSize → word mem' (pheadSize * i + k) = word mem (pheadSize * i + k) := by
    intro k hk
    refine word_congr (h.mono (Nat.zero_le _) ?_)
    have hle : pheadSize * (i + 1) ≤ pheadSize * n := Nat.mul_le_mul_left _ hi
    rw [Nat.mul_succ] at hle
    omega
  have h0 := hword 0 (by decide)
  rw [Nat.add_zero] at h0
  simp only [phead, h0, hword 4 (by decide), hword 8 (by decide), hword 16 (by decide), hword 20 (by decide),
    hword 24 (by decide)]

theorem loadPheads_filter (l : List Phead) : l.foldlM (loadPhead f) s =
    (l.filter fun ph => ph.type = elfPtLoad).foldlM (loadPhead f) s := by
  induction l generalizing s with
  | nil => rfl
  | cons ph l ih =>
    by_cases htype : ph.type = elfPtLoad
    · rw [List.filter_cons_of_pos (by simpa using htype), List.foldlM_cons, List.foldlM_cons]
      exact congrArg _ (funext fun s' => ih)
    · have hskip : loadPhead f s ph = .ok s := by rw [loadPhead, if_neg htype]
      rw [List.filter_cons_of_neg (by simpa using htype), List.foldlM_cons, hskip]
      exact ih

theorem Headers.loadElf_eq {header : Memory} (h : Headers f elf pheads header segments)
    (helf : isElfHeader header = elfTypeExecutable) : loadElf f elf pheads s = (do
    let s ← segments.foldlM (loadPhead f) { s with codeStart := 2 ^ 32 - 1, codeEnd := 0 }
    return (0, { s with dataEnd := s.codeEnd, codeEntry := entry header })) := by
  obtain ⟨n, hread⟩ := h.read
  obtain ⟨k, table, htable, rfl⟩ := h.table
  unfold loadElf
  rw [hread]
  change (if isElfHeader header ≠ elfTypeExecutable then _ else _) = _
  rw [helf, if_neg (not_not.mpr rfl), htable]
  change (((List.range (phNum header)).map (phead table)).foldlM (loadPhead f) _ >>= _) = _
  rw [loadPheads_filter]

theorem Executable.headers (h : Executable f e) (elf pheads : Buffer) : ∃ header,
    Headers f elf pheads header f.segments ∧ isElfHeader header = elfTypeExecutable ∧
      entry header = entry f.image := by
  have hsize := h.file.size_le
  have hheader := h.header
  have hpheads := h.pheads
  have hread1 := @vfsRead_eq f e elf headerSize 0 h.file (by rintro ⟨-, h2, -⟩; omega)
  have hread2 := @vfsRead_eq f e pheads (pheadSize * phNum f.image) (phOffset f.image) h.file
    (by rintro ⟨-, h2, -⟩; omega)
  rw [Nat.sub_zero, Nat.min_eq_left hheader] at hread1
  rw [Nat.min_eq_left (by omega)] at hread2
  generalize hbuffer1 : (fun i => if i < headerSize then f.image (0 + i) else elf i) = buffer1 at hread1
  have hagree1 : Agree 0 headerSize f.image buffer1 := fun i _ hi => by
    rw [← hbuffer1]
    simp only [if_pos hi, Nat.zero_add]
  generalize hbuffer2 : (fun i => if i < pheadSize * phNum f.image then f.image (phOffset f.image + i)
    else pheads i) = buffer2 at hread2
  have hagree2 : Agree 0 (pheadSize * phNum f.image) (fun i => f.image (phOffset f.image + i)) buffer2 :=
    fun i _ hi => by
      rw [← hbuffer2]
      simp only [if_pos hi]
  obtain ⟨helf, hoff, hnum, hentry⟩ := header_congr hagree1
  have htable : (List.range (phNum f.image)).map (phead buffer2) =
      (List.range (phNum f.image)).map (phead fun i => f.image (phOffset f.image + i)) :=
    List.map_congr_left fun i hi => phead_congr hagree2 (List.mem_range.mp hi)
  refine ⟨buffer1, ⟨⟨_, hread1⟩, pheadSize * phNum f.image, buffer2, ?_, ?_⟩, helf.trans h.elf, hentry⟩
  · rw [hnum, hoff]
    exact hread2
  · rw [hnum, htable]
    rfl

theorem Executable.loadElf_eq (h : Executable f e) : loadElf f elf pheads s = (do
    let s ← f.segments.foldlM (loadPhead f) { s with codeStart := 2 ^ 32 - 1, codeEnd := 0 }
    return (0, { s with dataEnd := s.codeEnd, codeEntry := entry f.image })) := by
  obtain ⟨header, hheaders, helf, hentry⟩ := h.headers elf pheads
  rw [hheaders.loadElf_eq helf, hentry]

-- ---------------------------------------------------------------------------
-- The whole program
-- ---------------------------------------------------------------------------

theorem pairwise_clear_iff {l : List Phead} (hproper : ∀ ph ∈ l, ph.Proper) (horder : l.Pairwise Phead.Before) :
    (l.Pairwise fun q ph => ph.request.Clear q.request) ↔ l.Pairwise Phead.PagesBefore := by
  constructor
  · intro h
    refine (List.Pairwise.and horder h).imp_of_mem fun _ hph hboth => ?_
    exact (clear_iff (hproper _ hph) hboth.1).mp hboth.2
  · intro h
    refine (List.Pairwise.and horder h).imp_of_mem fun _ hph hboth => ?_
    exact (clear_iff (hproper _ hph) hboth.1).mpr hboth.2

end

-- ---------------------------------------------------------------------------
-- Programs of two segments
-- ---------------------------------------------------------------------------

def halfBytes (v : Nat) : List UInt8 := [UInt8.ofNat v, UInt8.ofNat (v / 0x100)]

def headerBytes (count : Nat) : List UInt8 :=
  [0x7f, 69, 76, 70] ++ List.replicate 12 0 ++ halfBytes 2 ++ halfBytes 3 ++ wordBytes 1 ++ wordBytes 0x1000 ++
    wordBytes headerSize ++ wordBytes 0 ++ wordBytes 0 ++ halfBytes headerSize ++ halfBytes pheadSize ++
    halfBytes count ++ List.replicate 6 0

def pheadBytes (ph : Phead) : List UInt8 :=
  wordBytes ph.type ++ wordBytes ph.offset ++ wordBytes ph.virtualAddress ++ wordBytes ph.virtualAddress ++
    wordBytes ph.fileSize ++ wordBytes ph.memSize ++ wordBytes ph.flags ++ wordBytes 0x1000

def textAndData (data : Nat) : List Phead :=
  [⟨⟨elfPtLoad, 0x1000, 4, 5⟩, 116, 4⟩, ⟨⟨elfPtLoad, data, 8, 6⟩, 120, 4⟩]

def programBytes (data : Nat) : List UInt8 :=
  headerBytes 2 ++ (textAndData data).flatMap pheadBytes ++ [0x90, 0x90, 0xcd, 0x80, 1, 2, 3, 4]

def programEntry : TarEntry := ⟨[97], 124, 48⟩

def programArchive (data : Nat) : Memory := fun i =>
  Tarfs.load (Tarfs.headerBlock programEntry ++ (programBytes data ++ List.replicate 900 0)) (i - Tarfs.loadedAt)

def programFile (data : Nat) : File where
  archive := programArchive data
  tree := Tarfs.rootTree [97] Tarfs.loadedAt Tarfs.rootNode
  node := ⟨[97], .file, 124, 0⟩

def firstLoader : Loader := ⟨⟨World.firstProcess.mem, []⟩, 0, 0, 0, 0⟩

theorem programEntry_fits : programEntry.Fits := ⟨by decide, by decide, by decide, by decide⟩

theorem programArchive_header (data : Nat) :
    Tarfs.HeaderAt (programArchive data) Tarfs.loadedAt programEntry := by
  have hblock := Tarfs.headerBlock_at programEntry_fits [] (programBytes data ++ List.replicate 900 0)
  rw [List.nil_append] at hblock
  have hshift := hblock.shift Tarfs.loadedAt
  rw [List.length_nil, Nat.add_zero] at hshift
  exact hshift

theorem programFile_tar (data : Nat) : (programFile data).tar = Tarfs.loadedAt := rfl

theorem programFile_in (data : Nat) : FileIn (programFile data).archive (programFile data).tar programEntry := by
  have harchive : (programFile data).archive = programArchive data := by simp only [programFile]
  rw [programFile_tar, harchive]
  exact ⟨programArchive_header data, by decide, by decide⟩

theorem programFile_executable {data : Nat} (helf : isElfHeader (programFile data).image = elfTypeExecutable)
    (hpheads : phOffset (programFile data).image + pheadSize * phNum (programFile data).image ≤ 124) :
    Executable (programFile data) programEntry where
  file := programFile_in data
  header := by decide
  elf := helf
  pheads := hpheads

def stopOf {α : Type} : Except Stop α → Option Stop
  | .ok _ => none
  | .error e => some e

instance (ph : Phead) : Decidable ph.Proper :=
  decidable_of_iff (ph.fileSize ≤ ph.memSize ∧ ph.virtualAddress + ph.memSize ≤ userStackTop)
    ⟨fun h => ⟨h.1, h.2⟩, fun h => ⟨h.size, h.below⟩⟩

instance (ph ph' : Phead) : Decidable (ph.Before ph') := inferInstanceAs (Decidable (_ ≤ _))
instance (ph ph' : Phead) : Decidable (ph.PagesBefore ph') := inferInstanceAs (Decidable (_ ≤ _))
instance (ph : Phead) (size : Nat) : Decidable (ph.InFile size) := inferInstanceAs (Decidable (_ ∨ _))

theorem twoPages_segments : (programFile 0x2000).segments = textAndData 0x2000 := by decide +kernel
end Os5.Elf
