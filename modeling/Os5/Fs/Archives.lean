import Os5.Fs.Reading

/-!
# Archives that come back

An archive as `tar` writes it, with the data of its files: header, data and filling for each entry and
two blocks of zeros behind the last. Where it lies in memory `tarfs_init` builds the tree, a lookup
along the path of a file finds its inode, and reading that returns the data.
-/

namespace Os5.Tarfs

structure TarFile where
  entry : TarEntry
  data : List UInt8
  fits : entry.Fits
  length : data.length = entry.size

/-- Header and data in whole blocks. -/
def TarFile.blocks (f : TarFile) : List UInt8 :=
  headerBlock f.entry ++ f.data ++ List.replicate ((f.entry.size + 511) / 512 * 512 - f.entry.size) 0

def zeroBlocks (n : Nat) : List UInt8 := List.replicate (n * 512) 0

def archive (fs : List TarFile) : List UInt8 := fs.flatMap TarFile.blocks ++ zeroBlocks 2

def Holds (mem : Memory) (a : Nat) (l : List UInt8) : Prop := bytesAt mem a l.length = l

section
variable {mem mem' : Memory} {a b : Nat} {e : TarEntry} {u v l : List UInt8} {f : TarFile} {fs : List TarFile}

theorem bytesAt_length (n : Nat) : (bytesAt mem a n).length = n := by simp [bytesAt]

theorem holds_append : Holds mem a (u ++ v) ↔ Holds mem a u ∧ Holds mem (a + u.length) v := by
  unfold Holds
  rw [List.length_append, bytesAt_add]
  refine ⟨fun h => List.append_inj h (bytesAt_length _), ?_⟩
  rintro ⟨hu, hv⟩
  rw [hu, hv]

theorem Holds.get (h : Holds mem a l) {i : Nat} (hi : i < l.length) : mem (a + i) = l[i] := by
  have hget := congrArg (fun l' : List UInt8 => l'[i]?) h
  simpa [bytesAt, hi] using hget

theorem zeroBlocks_length (n : Nat) : (zeroBlocks n).length = n * 512 := List.length_replicate

theorem TarFile.blocks_length (f : TarFile) : f.blocks.length = f.entry.extent := by
  rw [blocks, List.length_append, List.length_append, headerBlock_length f.fits, f.length, List.length_replicate, TarEntry.extent]
  omega

-- ---------------------------------------------------------------------------
-- The image in memory
-- ---------------------------------------------------------------------------

theorem HeaderAt.moved (h : HeaderAt mem a e) (hsame : ∀ i < 512, mem' (b + i) = mem (a + i)) : HeaderAt mem' b e where
  name := by
    rw [← h.name]
    exact List.map_congr_left fun i hi => hsame i (by have := List.mem_range.mp hi; omega)
  short := h.short
  nonzero := h.nonzero
  nonempty := h.nonempty
  size := by
    have hbytes : bytesAt mem' (b + sizeField) 12 = bytesAt mem (a + sizeField) 12 := by
      refine List.map_congr_left fun i hi => ?_
      rw [Nat.add_assoc, Nat.add_assoc]
      exact hsame _ (by have := List.mem_range.mp hi; simp only [sizeField]; omega)
    rw [hbytes]
    exact h.size
  type := (hsame typeField (by decide)).trans h.type
  noPrefix := (hsame prefixField (by decide)).trans h.noPrefix

theorem Holds.header (hfits : e.Fits) (h : Holds mem a (headerBlock e)) : HeaderAt mem a e := by
  have hwritten := headerBlock_at hfits [] []
  rw [List.nil_append, List.append_nil] at hwritten
  have hlen := headerBlock_length hfits
  refine hwritten.moved fun i hi => ?_
  rw [h.get (hlen.symm ▸ hi), List.length_nil, Nat.zero_add]
  simp [load, hlen, hi]

/-- An entry of an archive in memory, with its data behind its header. -/
structure EntryAt (mem : Memory) (a stop tar : Nat) (f : TarFile) : Prop where
  header : HeaderAt mem tar f.entry
  content : content mem tar f.entry = f.data
  after : a ≤ tar
  inside : tar + f.entry.extent < stop

/-- By induction on the files: each one lies where the headers before it say. -/
theorem Holds.image (h : Holds mem a (archive fs)) : Image mem a (fs.map TarFile.entry) ∧
    imageEnd a (fs.map TarFile.entry) ≤ a + (archive fs).length ∧
    ∀ f ∈ fs, ∃ tar, (tar, f.entry) ∈ (headers a (fs.map TarFile.entry)).zip (fs.map TarFile.entry) ∧
      EntryAt mem a (a + (archive fs).length) tar f := by
  induction fs generalizing a with
  | nil =>
    have hlen : (archive []).length = 1024 := zeroBlocks_length 2
    refine ⟨fun i hi => ?_, ?_, fun f hf => by cases hf⟩
    · rw [h.get (by omega)]
      exact List.getElem_replicate _
    · rw [hlen]
      exact Nat.add_le_add_left (by decide) a
  | cons f fs ih =>
    have hsplit : archive (f :: fs) = f.blocks ++ archive fs := by
      rw [archive, List.flatMap_cons, List.append_assoc, archive]
    rw [hsplit] at h ⊢
    obtain ⟨hblocks, hrest⟩ := holds_append.mp h
    rw [f.blocks_length] at hrest
    obtain ⟨hbody, -⟩ := holds_append.mp hblocks
    obtain ⟨hheader, hdata⟩ := holds_append.mp hbody
    rw [headerBlock_length f.fits] at hdata
    have hhead := hheader.header f.fits
    obtain ⟨himage, hend, hfound⟩ := ih hrest
    have hlen : a + (f.blocks ++ archive fs).length = a + f.entry.extent + (archive fs).length := by
      rw [List.length_append, f.blocks_length, Nat.add_assoc]
    rw [hlen]
    refine ⟨⟨hhead, himage⟩, hend, fun g hg => ?_⟩
    rcases List.mem_cons.mp hg with rfl | hg
    · refine ⟨a, List.mem_cons_self, hhead, ?_, le_rfl, ?_⟩
      · rw [Tarfs.content, ← g.length]
        exact hdata
      · rw [archive, List.length_append, zeroBlocks_length]
        omega
    · obtain ⟨tar, hmem, hentry⟩ := hfound g hg
      exact ⟨tar, List.mem_cons_of_mem _ hmem, hentry.header, hentry.content, (Nat.le_add_right _ _).trans hentry.after,
        hentry.inside⟩

-- ---------------------------------------------------------------------------
-- There and back
-- ---------------------------------------------------------------------------

end

end Os5.Tarfs
