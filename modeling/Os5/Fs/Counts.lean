import Os5.Fs.Files

/-!
# The counts of users

A slot holds a reference to its descriptor and, through it, to an inode. The
calls are followed with what they hold themselves between taking a count and
filling in the slot, or the other way round.
-/

namespace Os5

open Cells Transition

def Pipe.attached (p : Pipe) : PipeEnd → Nat
  | .read => p.readers
  | .write => p.writers

namespace Files

def cells (s : Files) : Finset (Pid × Nat) := s.live ×ˢ Finset.range numFiledes

def slotDesc (s : Files) (x : Pid × Nat) : Option DescId := s.fd x.1 x.2
def slotIno (s : Files) (x : Pid × Nat) : Option Ino := ((s.slotDesc x).bind s.desc).bind FileDesc.ino

/-- How many slots point to a descriptor, and to an inode. -/
def refs (s : Files) (d : DescId) : Nat := count s.cells s.slotDesc d
def slots (s : Files) (ino : Ino) : Nat := count s.cells s.slotIno ino

/-- The counts are those of the slots and of what is held besides, `h` for inodes and
`hd` for descriptors. -/
structure Balanced (s : Files) (h : Ino → Nat) (hd : DescId → Nat) : Prop where
  users : ∀ {ino n}, s.inode ino = some n → n.users = s.slots ino + h ino
  alloc : ∀ {ino}, 0 < s.slots ino + h ino → ∃ n, s.inode ino = some n
  ends : ∀ {ino n k e}, s.inode ino = some n → n.driver = .pipe k e → (s.pipe k).attached e = n.users
  endsUnique : ∀ {i j n m k e}, s.inode i = some n → s.inode j = some m → n.driver = .pipe k e →
    m.driver = .pipe k e → i = j
  desc : ∀ {d}, 0 < s.refs d + hd d → ∃ f, s.desc d = some f ∧ s.refs d + hd d ≤ f.users
  buffer : ∀ {ino n e}, s.inode ino = some n → n.driver = .tarfs e → (s.entry e).buffer = some ino
  entry : ∀ {ino e}, (s.entry e).buffer = some ino → ∃ n, s.inode ino = some n ∧ n.driver = .tarfs e
  freshDesc : ∀ {d}, s.nextDesc ≤ d → s.desc d = none
  freshIno : ∀ {i}, s.nextIno ≤ i → s.inode i = none
  freshPipe : ∀ {ino n k e}, s.inode ino = some n → n.driver = .pipe k e → k < s.nextPipe
  freshPid : ∀ {p}, p ∈ s.live → p < s.nextPid

structure SameFds (s s' : Files) : Prop where
  live : s'.live = s.live
  nextPid : s'.nextPid = s.nextPid
  fd : s'.fd = s.fd
  desc : s'.desc = s.desc
  nextDesc : s'.nextDesc = s.nextDesc
  kept : s'.kept = s.kept

section
variable {s s' s'' : Files} {h h' : Ino → Nat} {hd hd' : DescId → Nat} {ino i j : Ino} {n : Inode}
  {d : DescId} {f : FileDesc} {p : Pid} {r : Int} {x : Pid × Nat}

theorem Balanced.congr (hb : Balanced s h hd) (h1 : ∀ i, h' i = h i) (h2 : ∀ d, hd' d = hd d) :
    Balanced s h' hd' := by
  obtain rfl : h' = h := funext h1
  obtain rfl : hd' = hd := funext h2
  exact hb

theorem SameFds.refl : SameFds s s := ⟨rfl, rfl, rfl, rfl, rfl, rfl⟩

theorem SameFds.trans (h1 : SameFds s s') (h2 : SameFds s' s'') : SameFds s s'' :=
  ⟨h2.live.trans h1.live, h2.nextPid.trans h1.nextPid, h2.fd.trans h1.fd, h2.desc.trans h1.desc,
    h2.nextDesc.trans h1.nextDesc, h2.kept.trans h1.kept⟩

theorem SameFds.cells (hs : SameFds s s') : s'.cells = s.cells := by rw [Files.cells, Files.cells, hs.live]

theorem SameFds.slotDesc (hs : SameFds s s') : s'.slotDesc = s.slotDesc := by
  funext x
  rw [Files.slotDesc, Files.slotDesc, hs.fd]

theorem SameFds.slotIno (hs : SameFds s s') : s'.slotIno = s.slotIno := by
  funext x
  rw [Files.slotIno, Files.slotIno, hs.slotDesc, hs.desc]

theorem SameFds.slots (hs : SameFds s s') : s'.slots = s.slots := by
  funext i
  rw [Files.slots, Files.slots, hs.cells, hs.slotIno]

theorem SameFds.refs (hs : SameFds s s') : s'.refs = s.refs := by
  funext d
  rw [Files.refs, Files.refs, hs.cells, hs.slotDesc]

theorem mem_cells {i : Nat} : (p, i) ∈ s.cells ↔ p ∈ s.live ∧ i < numFiledes := by
  simp [cells]

theorem Balanced.slot_desc (hb : Balanced s h hd) (hx : x ∈ s.cells) (hs : s.slotDesc x = some d) :
    ∃ f, s.desc d = some f ∧ s.refs d + hd d ≤ f.users :=
  hb.desc (Nat.add_pos_left (count_pos hx hs) _)

theorem slotIno_of_desc (hs : s.slotDesc x = some d) (hf : s.desc d = some f) : s.slotIno x = f.ino := by
  rw [slotIno, hs, Option.bind_some, hf, Option.bind_some]

-- ---------------------------------------------------------------------------
-- Operations on inodes
-- ---------------------------------------------------------------------------

structure Recounts (s : Files) (ino : Ino) (g : Nat → Nat) (s' : Files) : Prop where
  same : SameFds s s'
  nextIno : s'.nextIno = s.nextIno
  nextPipe : s'.nextPipe = s.nextPipe
  entry : s'.entry = s.entry
  inode : ∃ n, s.inode ino = some n ∧
    s'.inode = Function.update s.inode ino (some { n with users := g n.users }) ∧
    ∀ k e, (s'.pipe k).attached e =
      if n.driver = .pipe k e then g ((s.pipe k).attached e) else (s.pipe k).attached e

theorem driverOpen_pipes (dr : Driver) : ∃ pipe', s.driverOpen dr = (0, { s with pipe := pipe' }) ∧
    ∀ k e, (pipe' k).attached e =
      if dr = .pipe k e then (s.pipe k).attached e + 1 else (s.pipe k).attached e := by
  cases dr with
  | tarfs e => exact ⟨s.pipe, rfl, fun k e => by simp⟩
  | debug => exact ⟨s.pipe, rfl, fun k e => by simp⟩
  | pipe k e =>
    refine ⟨_, rfl, fun k' e' => ?_⟩
    by_cases hk : k' = k
    · subst hk
      cases e <;> cases e' <;> simp [pipeOpen, Pipe.attached]
    · simp [hk, Ne.symm hk]

theorem driverClose_pipes (dr : Driver) : ∃ pipe', s.driverClose dr = (0, { s with pipe := pipe' }) ∧
    ∀ k e, (pipe' k).attached e =
      if dr = .pipe k e then decr ((s.pipe k).attached e) else (s.pipe k).attached e := by
  cases dr with
  | tarfs e => exact ⟨s.pipe, rfl, fun k e => by simp⟩
  | debug => exact ⟨s.pipe, rfl, fun k e => by simp⟩
  | pipe k e =>
    refine ⟨_, rfl, fun k' e' => ?_⟩
    by_cases hk : k' = k
    · subst hk
      cases e <;> cases e' <;> simp [pipeClose, Pipe.attached]
    · simp [hk, Ne.symm hk]

theorem vfsOpen_recounts (hs : s.vfsOpen ino = some (r, s')) : Recounts s ino (· + 1) s' ∧ r = 0 := by
  obtain ⟨n, hn, hs⟩ := Option.bind_eq_some_iff.mp hs
  obtain ⟨pipe', hp, hcount⟩ :=
    (s.setInode ino (some { n with users := n.users + 1 })).driverOpen_pipes n.driver
  rw [hp] at hs
  obtain ⟨rfl, rfl⟩ := Prod.mk.inj (Option.some.inj hs)
  exact ⟨⟨⟨rfl, rfl, rfl, rfl, rfl, rfl⟩, rfl, rfl, rfl, n, hn, rfl, hcount⟩, rfl⟩

theorem vfsClose_recounts (hs : s.vfsClose ino = some (r, s')) : Recounts s ino decr s' ∧ r = 0 := by
  obtain ⟨n, hn, hs⟩ := Option.bind_eq_some_iff.mp hs
  obtain ⟨pipe', hp, hcount⟩ :=
    (s.setInode ino (some { n with users := decr n.users })).driverClose_pipes n.driver
  rw [hp] at hs
  obtain ⟨rfl, rfl⟩ := Prod.mk.inj (Option.some.inj hs)
  exact ⟨⟨⟨rfl, rfl, rfl, rfl, rfl, rfl⟩, rfl, rfl, rfl, n, hn, rfl, hcount⟩, rfl⟩

theorem Balanced.recount {g : Nat → Nat} (hb : Balanced s h hd) (hr : Recounts s ino g s')
    (hg : g (s.slots ino + h ino) = s.slots ino + h' ino) (hother : ∀ i, i ≠ ino → h' i = h i) :
    Balanced s' h' hd := by
  obtain ⟨n, hn, hinode, hpipe⟩ := hr.inode
  have hat : s'.inode ino = some { n with users := g n.users } := by
    rw [hinode, Function.update_self]
  have hne : ∀ {i}, i ≠ ino → s'.inode i = s.inode i := by
    intro i hi
    rw [hinode, Function.update_of_ne hi]
  -- every inode was there with the same driver
  have hold : ∀ {i m}, s'.inode i = some m → ∃ m', s.inode i = some m' ∧ m'.driver = m.driver := by
    intro i m hm
    by_cases hi : i = ino
    · subst hi
      rw [hat] at hm
      obtain rfl := Option.some.inj hm
      exact ⟨n, hn, rfl⟩
    · exact ⟨m, hne hi ▸ hm, rfl⟩
  refine ⟨?_, ?_, ?_, ?_, ?_, ?_, ?_, ?_, ?_, ?_, ?_⟩
  · intro i m hm
    rw [hr.same.slots]
    by_cases hi : i = ino
    · subst hi
      rw [hat] at hm
      obtain rfl := Option.some.inj hm
      rw [← hg, ← hb.users hn]
    · rw [hother i hi]
      exact hb.users (hne hi ▸ hm)
  · intro i hpos
    rw [hr.same.slots] at hpos
    by_cases hi : i = ino
    · subst hi
      exact ⟨_, hat⟩
    · rw [hne hi]
      rw [hother i hi] at hpos
      exact hb.alloc hpos
  · intro i m k e hm hk
    obtain ⟨m', hm', hd'⟩ := hold hm
    have hcount := hb.ends hm' (hd'.trans hk)
    by_cases hi : i = ino
    · subst hi
      rw [hat] at hm
      obtain rfl := Option.some.inj hm
      obtain rfl : n = m' := Option.some.inj (hn.symm.trans hm')
      rw [hpipe, if_pos hk, hcount]
    · have hk' : n.driver ≠ .pipe k e := fun hnk => hi (hb.endsUnique hm' hn (hd'.trans hk) hnk)
      obtain rfl : m' = m := Option.some.inj (hm'.symm.trans (hne hi ▸ hm))
      rw [hpipe, if_neg hk', hcount]
  · intro i j m m' k e hm hm' hk hk'
    obtain ⟨a, ha, had⟩ := hold hm
    obtain ⟨b, hb', hbd⟩ := hold hm'
    exact hb.endsUnique ha hb' (had.trans hk) (hbd.trans hk')
  · intro d hpos
    rw [hr.same.refs] at hpos ⊢
    rw [hr.same.desc]
    exact hb.desc hpos
  · intro i m e hm he
    obtain ⟨a, ha, had⟩ := hold hm
    rw [hr.entry]
    exact hb.buffer ha (had.trans he)
  · intro i e he
    rw [hr.entry] at he
    obtain ⟨m, hm, hmd⟩ := hb.entry he
    by_cases hi : i = ino
    · subst hi
      obtain rfl : n = m := Option.some.inj (hn.symm.trans hm)
      exact ⟨_, hat, hmd⟩
    · exact ⟨m, (hne hi).trans hm, hmd⟩
  · intro d hd
    rw [hr.same.desc]
    exact hb.freshDesc (hr.same.nextDesc ▸ hd)
  · intro i hi
    have hnone := hb.freshIno (hr.nextIno ▸ hi)
    rw [hne]
    · exact hnone
    · rintro rfl
      rw [hnone] at hn
      cases hn
  · intro i m k e hm hk
    obtain ⟨a, ha, had⟩ := hold hm
    rw [hr.nextPipe]
    exact hb.freshPipe ha (had.trans hk)
  · intro p hp
    rw [hr.same.nextPid]
    exact hb.freshPid (hr.same.live ▸ hp)

theorem Balanced.vfsOpen (hb : Balanced s h hd) (hs : s.vfsOpen ino = some (r, s')) :
    Balanced s' (h + ones (some ino)) hd ∧ SameFds s s' ∧ r = 0 := by
  obtain ⟨hr, hr0⟩ := vfsOpen_recounts hs
  refine ⟨hb.recount hr ?_ fun i hi => ?_, hr.same, hr0⟩
  · simp [Nat.add_assoc]
  · simp [ones_of_ne hi]

theorem Balanced.vfsClose (hb : Balanced s (h + ones (some ino)) hd) (hs : s.vfsClose ino = some (r, s')) :
    Balanced s' h hd ∧ SameFds s s' := by
  obtain ⟨hr, -⟩ := vfsClose_recounts hs
  refine ⟨hb.recount hr ?_ fun i hi => ?_, hr.same⟩
  · simp [decr]
  · simp [ones_of_ne hi]

theorem Balanced.entries (hb : Balanced s h hd) {t : EntryId → TarfsEntry}
    (ht : ∀ e, (t e).buffer = (s.entry e).buffer) : Balanced { s with entry := t } h hd :=
  { hb with
    buffer := fun hn he => (ht _).trans (hb.buffer hn he)
    entry := fun he => hb.entry ((ht _).symm.trans he) }

/-- An inode nobody uses is freed, and the entry it is the buffer of forgets it. -/
theorem Balanced.release (hb : Balanced s h hd) (hn : s.inode ino = some n) (h0 : n.users = 0)
    {t : EntryId → TarfsEntry}
    (ht : ∀ e, (t e).buffer = if (s.entry e).buffer = some ino then none else (s.entry e).buffer) :
    Balanced { s with inode := Function.update s.inode ino none, entry := t } h hd := by
  have hzero : s.slots ino + h ino = 0 := by rw [← hb.users hn, h0]
  have hold : ∀ {i m}, Function.update s.inode ino none i = some m → i ≠ ino ∧ s.inode i = some m := by
    intro i m hm
    by_cases hi : i = ino
    · rw [hi, Function.update_self] at hm
      cases hm
    · rw [Function.update_of_ne hi] at hm
      exact ⟨hi, hm⟩
  refine { hb with users := ?_, alloc := ?_, ends := ?_, endsUnique := ?_, buffer := ?_, entry := ?_,
                   freshIno := ?_, freshPipe := ?_ }
  · exact fun hm => hb.users (hold hm).2
  · intro i hpos
    have hi : i ≠ ino := by
      rintro rfl
      exact absurd hzero (Nat.ne_of_gt hpos)
    obtain ⟨m, hm⟩ := hb.alloc hpos
    exact ⟨m, (Function.update_of_ne hi _ _).trans hm⟩
  · exact fun hm => hb.ends (hold hm).2
  · exact fun hm hm' => hb.endsUnique (hold hm).2 (hold hm').2
  · intro i m e hm he
    obtain ⟨hi, hm⟩ := hold hm
    have hbuf := hb.buffer hm he
    rw [ht, if_neg]
    · exact hbuf
    · rw [hbuf]
      rintro ⟨⟩
      exact hi rfl
  · intro i e he
    rw [ht] at he
    split at he
    · cases he
    · next hne =>
      obtain ⟨m, hm, hmd⟩ := hb.entry he
      have hi : i ≠ ino := by
        rintro rfl
        exact hne he
      exact ⟨m, (Function.update_of_ne hi _ _).trans hm, hmd⟩
  · intro i hi
    by_cases heq : i = ino
    · exact heq ▸ Function.update_self ..
    · exact (Function.update_of_ne heq _ _).trans (hb.freshIno hi)
  · exact fun hm => hb.freshPipe (hold hm).2

theorem Balanced.flushTar {e : EntryId} (hb : Balanced s h hd) (hn : s.inode ino = some n)
    (h0 : n.users = 0) (he : n.driver = .tarfs e) :
    Balanced (s.flushTar e) h hd ∧ SameFds s (s.flushTar e) := by
  have hbuf := hb.buffer hn he
  unfold Files.flushTar
  by_cases hz : decr (s.entry e).users = 0
  · simp only [hz, if_true, hbuf]
    refine ⟨hb.release hn h0 fun e' => ?_, ⟨rfl, rfl, rfl, rfl, rfl, rfl⟩⟩
    by_cases hee : e' = e
    · simp [hee, hbuf]
    · have hne : (s.entry e').buffer ≠ some ino := by
        intro hbuf'
        obtain ⟨m, hm, hmd⟩ := hb.entry hbuf'
        obtain rfl : n = m := Option.some.inj (hn.symm.trans hm)
        rw [he] at hmd
        cases hmd
        exact hee rfl
      simp [hee, hne, setInode]
  · simp only [hz, if_false]
    refine ⟨hb.entries fun e' => ?_, ⟨rfl, rfl, rfl, rfl, rfl, rfl⟩⟩
    by_cases hee : e' = e
    · simp [hee]
    · simp [hee]

theorem Balanced.vfsFree (hb : Balanced s h hd) (hs : s.vfsFree ino = some s') :
    Balanced s' h hd ∧ SameFds s s' := by
  obtain ⟨n, hn, hs⟩ := Option.bind_eq_some_iff.mp hs
  split at hs
  · obtain rfl := Option.some.inj hs
    exact ⟨hb, .refl⟩
  split at hs
  · obtain rfl := Option.some.inj hs
    exact ⟨hb, .refl⟩
  next h0 =>
  have h0 : n.users = 0 := by omega
  have hother : (∀ e, n.driver ≠ .tarfs e) → Balanced (s.setInode ino none) h hd ∧
      SameFds s (s.setInode ino none) := by
    intro hne
    refine ⟨hb.release (t := s.entry) hn h0 fun e => ?_, ⟨rfl, rfl, rfl, rfl, rfl, rfl⟩⟩
    rw [if_neg]
    intro hbuf
    obtain ⟨m, hm, hmd⟩ := hb.entry hbuf
    obtain rfl : n = m := Option.some.inj (hn.symm.trans hm)
    exact hne e hmd
  cases hd : n.driver with
  | tarfs e =>
    rw [hd] at hs
    obtain rfl := Option.some.inj hs
    exact hb.flushTar hn h0 hd
  | pipe k e =>
    rw [hd] at hs
    obtain rfl := Option.some.inj hs
    exact hother (by simp [hd])
  | debug =>
    rw [hd] at hs
    obtain rfl := Option.some.inj hs
    exact hother (by simp [hd])

theorem Balanced.fresh (hb : Balanced s h hd) {v : Driver} {t : EntryId → TarfsEntry}
    (ht : ∀ e, (t e).buffer = if v = .tarfs e then some s.nextIno else (s.entry e).buffer)
    (hbuf : ∀ e, v = .tarfs e → (s.entry e).buffer = none)
    (hpipe : ∀ k e, v = .pipe k e → (s.pipe k).attached e = 0 ∧ k < s.nextPipe ∧
      ∀ {i n}, s.inode i = some n → n.driver ≠ .pipe k e) :
    Balanced { s with inode := Function.update s.inode s.nextIno (some ⟨v, false, 0⟩)
                      nextIno := s.nextIno + 1, entry := t } h hd := by
  have hnone : s.inode s.nextIno = none := hb.freshIno le_rfl
  have hzero : s.slots s.nextIno + h s.nextIno = 0 := by
    by_contra hpos
    obtain ⟨m, hm⟩ := hb.alloc (Nat.pos_of_ne_zero hpos)
    rw [hnone] at hm
    cases hm
  have hcase : ∀ {i m}, Function.update s.inode s.nextIno (some ⟨v, false, 0⟩) i = some m →
      (i = s.nextIno ∧ m = ⟨v, false, 0⟩) ∨ (i ≠ s.nextIno ∧ s.inode i = some m) := by
    intro i m hm
    by_cases hi : i = s.nextIno
    · rw [hi, Function.update_self] at hm
      exact .inl ⟨hi, (Option.some.inj hm).symm⟩
    · rw [Function.update_of_ne hi] at hm
      exact .inr ⟨hi, hm⟩
  refine { hb with users := ?_, alloc := ?_, ends := ?_, endsUnique := ?_, buffer := ?_, entry := ?_,
                   freshIno := ?_, freshPipe := ?_ }
  · intro i m hm
    rcases hcase hm with ⟨rfl, rfl⟩ | ⟨-, hm⟩
    · exact hzero.symm
    · exact hb.users hm
  · intro i hpos
    have hi : i ≠ s.nextIno := by
      rintro rfl
      exact absurd hzero (Nat.ne_of_gt hpos)
    obtain ⟨m, hm⟩ := hb.alloc hpos
    exact ⟨m, (Function.update_of_ne hi _ _).trans hm⟩
  · intro i m k e hm hk
    rcases hcase hm with ⟨rfl, rfl⟩ | ⟨-, hm⟩
    · exact (hpipe k e hk).1
    · exact hb.ends hm hk
  · intro i j m m' k e hm hm' hk hk'
    rcases hcase hm with ⟨rfl, rfl⟩ | ⟨-, hm⟩ <;> rcases hcase hm' with ⟨rfl, rfl⟩ | ⟨-, hm'⟩
    · rfl
    · exact absurd hk' ((hpipe k e hk).2.2 hm')
    · exact absurd hk ((hpipe k e hk').2.2 hm)
    · exact hb.endsUnique hm hm' hk hk'
  · intro i m e hm he
    refine (ht e).trans ?_
    rcases hcase hm with ⟨rfl, rfl⟩ | ⟨-, hm⟩
    · exact if_pos he
    · have hbuf' := hb.buffer hm he
      rw [if_neg, hbuf']
      intro hdr
      rw [hbuf e hdr] at hbuf'
      cases hbuf'
  · intro i e he
    have he := (ht e).symm.trans he
    split at he
    · next hdr =>
      obtain rfl := Option.some.inj he
      exact ⟨_, Function.update_self .., hdr⟩
    · next hdr =>
      obtain ⟨m, hm, hmd⟩ := hb.entry he
      have hi : i ≠ s.nextIno := by
        rintro rfl
        rw [hnone] at hm
        cases hm
      exact ⟨m, (Function.update_of_ne hi _ _).trans hm, hmd⟩
  · intro i hi
    have hi : s.nextIno + 1 ≤ i := hi
    exact (Function.update_of_ne (Nat.ne_of_gt hi) _ _).trans (hb.freshIno (Nat.le_of_succ_le hi))
  · intro i m k e hm hk
    rcases hcase hm with ⟨rfl, rfl⟩ | ⟨-, hm⟩
    · exact (hpipe k e hk).2.1
    · exact hb.freshPipe hm hk

theorem Balanced.tarGetInode (hb : Balanced s h hd) (e : EntryId) :
    Balanced (s.tarGetInode e).2 h hd ∧ SameFds s (s.tarGetInode e).2 := by
  unfold Files.tarGetInode
  cases hbuf : (s.entry e).buffer with
  | some b =>
    refine ⟨hb.entries fun e' => ?_, ⟨rfl, rfl, rfl, rfl, rfl, rfl⟩⟩
    by_cases hee : e' = e
    · simp [hee]
    · simp [hee]
  | none =>
    refine ⟨hb.fresh (v := .tarfs e) (fun e' => ?_) (fun e' he => ?_) (fun _ _ hk => ?_),
      ⟨rfl, rfl, rfl, rfl, rfl, rfl⟩⟩
    · by_cases hee : e' = e
      · simp [hee, setEntry]
      · simp [hee, Ne.symm hee, setEntry, setInode]
    · obtain rfl := Driver.tarfs.inj he
      exact hbuf
    · cases hk

theorem Balanced.newPipe (hb : Balanced s h hd) (size : Nat) :
    Balanced (s.newPipe size).2 h hd ∧ SameFds s (s.newPipe size).2 := by
  refine ⟨?_, ⟨rfl, rfl, rfl, rfl, rfl, rfl⟩⟩
  have hnew : ∀ {i n e}, s.inode i = some n → n.driver ≠ .pipe s.nextPipe e := fun hn hk =>
    absurd (hb.freshPipe hn hk) (Nat.lt_irrefl _)
  -- the pipe itself, then its two inodes
  have h1 : Balanced { s with pipe := Function.update s.pipe s.nextPipe (Os5.newPipe size fun _ => 0)
                              nextPipe := s.nextPipe + 1 } h hd := by
    refine { hb with ends := ?_, freshPipe := ?_ }
    · intro i n k e hn hk
      have hne : k ≠ s.nextPipe := by
        rintro rfl
        exact hnew hn hk
      have hends := hb.ends hn hk
      simpa [hne] using hends
    · exact fun hn hk => Nat.lt_succ_of_lt (hb.freshPipe hn hk)
  have h2 := h1.fresh (v := .pipe s.nextPipe .read) (t := s.entry) (fun _ => by simp) (fun _ hk => by cases hk)
    (fun k e hk => by
      cases hk
      exact ⟨by simp [Os5.newPipe, Pipe.attached], Nat.lt_succ_self _, hnew⟩)
  refine h2.fresh (v := .pipe s.nextPipe .write) (t := s.entry) (fun _ => by simp) (fun _ hk => by cases hk)
    (fun k e hk => ?_)
  cases hk
  refine ⟨by simp [Os5.newPipe, Pipe.attached], Nat.lt_succ_self _, fun {i n} hn => ?_⟩
  by_cases hi : i = s.nextIno
  · rw [hi] at hn
    simp only [Function.update_self, Option.some_inj] at hn
    rw [← hn]
    simp
  · exact hnew ((Function.update_of_ne hi _ _).symm.trans hn)

theorem Balanced.walk (hb : Balanced s h hd) {current : Ino} {missing : Bool} {hops : List Hop}
    {o : Option Ino} (hs : s.walk current missing hops = some (o, s')) : Balanced s' h hd ∧ SameFds s s' := by
  induction hops generalizing s current with
  | nil =>
    unfold Files.walk at hs
    split at hs
    · obtain ⟨s1, hfree, hs⟩ := Option.bind_eq_some_iff.mp hs
      obtain ⟨-, rfl⟩ := Prod.mk.inj (Option.some.inj hs)
      exact hb.vfsFree hfree
    · obtain ⟨-, rfl⟩ := Prod.mk.inj (Option.some.inj hs)
      exact ⟨hb, .refl⟩
  | cons hop hops ih =>
    obtain ⟨⟨next, s1⟩, hfind, hs⟩ := Option.bind_eq_some_iff.mp hs
    obtain ⟨s2, hfree, hs⟩ := Option.bind_eq_some_iff.mp hs
    have h1 : Balanced s1 h hd ∧ SameFds s s1 := by
      cases hop with
      | mounted ino =>
        obtain ⟨n, -, hfind⟩ := Option.bind_eq_some_iff.mp hfind
        split at hfind
        · obtain ⟨-, rfl⟩ := Prod.mk.inj (Option.some.inj hfind)
          exact ⟨hb, .refl⟩
        · cases hfind
      | entry e =>
        have := hb.tarGetInode e
        rwa [Option.some.inj hfind] at this
    obtain ⟨hb1, hs1⟩ := h1
    obtain ⟨hb2, hs2⟩ := hb1.vfsFree hfree
    obtain ⟨hb3, hs3⟩ := ih hb2 hs
    exact ⟨hb3, (hs1.trans hs2).trans hs3⟩

theorem Balanced.vfsNamei (hb : Balanced s h hd) {path : Path} {o : Option Ino}
    (hs : s.vfsNamei path = some (o, s')) : Balanced s' h hd ∧ SameFds s s' := by
  obtain ⟨⟨root, s1⟩, hfind, hs⟩ := Option.bind_eq_some_iff.mp hs
  obtain ⟨n, -, hfind⟩ := Option.bind_eq_some_iff.mp hfind
  split at hfind
  · obtain ⟨-, rfl⟩ := Prod.mk.inj (Option.some.inj hfind)
    exact hb.walk hs
  · cases hfind

-- ---------------------------------------------------------------------------
-- Operations on descriptors
-- ---------------------------------------------------------------------------

theorem Balanced.replaceDesc (hb : Balanced s h hd) {v : Option FileDesc} {k : DescId}
    (hk : s.nextDesc ≤ k) (hdk : d < k)
    (hino : ∀ x ∈ s.cells, s.slotDesc x = some d → v.bind FileDesc.ino = s.slotIno x)
    (huse : 0 < s.refs d + hd' d → ∃ f, v = some f ∧ s.refs d + hd' d ≤ f.users)
    (hother : ∀ d', d' ≠ d → hd' d' = hd d') :
    Balanced { s with desc := Function.update s.desc d v, nextDesc := k } h hd' := by
  set s' : Files := { s with desc := Function.update s.desc d v, nextDesc := k } with hs'
  have hslot : ∀ x ∈ s.cells, s'.slotIno x = s.slotIno x := by
    intro x hx
    show ((s.slotDesc x).bind (Function.update s.desc d v)).bind FileDesc.ino = s.slotIno x
    cases hdx : s.slotDesc x with
    | none => rw [slotIno, hdx]; rfl
    | some d' =>
      by_cases hdd : d' = d
      · rw [hdd] at hdx ⊢
        rw [Option.bind_some, Function.update_self]
        exact hino x hx hdx
      · rw [Option.bind_some, Function.update_of_ne hdd, slotIno, hdx, Option.bind_some]
  have hslots : s'.slots = s.slots := funext fun i => count_congr hslot
  refine { hb with users := ?_, alloc := ?_, desc := ?_, freshDesc := ?_ }
  · intro i m hm
    rw [hslots]
    exact hb.users hm
  · intro i hpos
    rw [hslots] at hpos
    exact hb.alloc hpos
  · intro d' hpos
    show ∃ f, Function.update s.desc d v d' = some f ∧ s.refs d' + hd' d' ≤ f.users
    by_cases hdd : d' = d
    · rw [hdd] at hpos ⊢
      rw [Function.update_self]
      exact huse hpos
    · rw [Function.update_of_ne hdd, hother d' hdd]
      exact hb.desc (hother d' hdd ▸ hpos)
  · intro d' hd'
    have hne : d' ≠ d := by
      rintro rfl
      exact absurd hdk (Nat.not_lt_of_le hd')
    exact (Function.update_of_ne hne _ _).trans (hb.freshDesc (Nat.le_trans hk hd'))

theorem Balanced.desc_lt (hb : Balanced s h hd) (hf : s.desc d = some f) : d < s.nextDesc := by
  by_contra hge
  rw [hb.freshDesc (Nat.not_lt.mp hge)] at hf
  cases hf

theorem Balanced.fdGet (hb : Balanced s h hd) (hs : s.fdGet d = some s') :
    Balanced s' h (hd + ones (some d)) ∧ ∃ f, s.desc d = some f ∧
      s' = s.setDesc d (some { f with users := f.users + 1 }) := by
  obtain ⟨f, hf, hs⟩ := Option.bind_eq_some_iff.mp hs
  obtain rfl := Option.some.inj hs
  refine ⟨hb.replaceDesc le_rfl (hb.desc_lt hf) ?_ ?_ fun d' hd' => ?_, f, hf, rfl⟩
  · intro x _ hx
    rw [slotIno_of_desc hx hf]
    rfl
  · intro _
    refine ⟨_, rfl, ?_⟩
    by_cases hpos : 0 < s.refs d + hd d
    · obtain ⟨f', hf', hle⟩ := hb.desc hpos
      obtain rfl := Option.some.inj (hf.symm.trans hf')
      simp only [Pi.add_apply, ones_self]
      omega
    · simp only [Pi.add_apply, ones_self]
      omega
  · simp [ones_of_ne hd']

/-- `fd_put` gives up a reference that is held; the last one frees the descriptor. -/
theorem Balanced.fdPut (hb : Balanced s h (hd + ones (some d))) (hs : s.fdPut d = some s') :
    Balanced s' h hd := by
  obtain ⟨f, hf, hs⟩ := Option.bind_eq_some_iff.mp hs
  obtain rfl := Option.some.inj hs
  obtain ⟨f', hf', hle⟩ := hb.desc (d := d) (by simp)
  obtain rfl := Option.some.inj (hf.symm.trans hf')
  simp only [Pi.add_apply, ones_self] at hle
  have hdecr : decr f.users + 1 = f.users := by
    unfold decr
    split <;> omega
  refine hb.replaceDesc le_rfl (hb.desc_lt hf) ?_ ?_ fun d' hd' => ?_
  · intro x hx hd
    have hpos : 0 < s.refs d := count_pos hx hd
    rw [if_neg (by omega), slotIno_of_desc hd hf]
    rfl
  · intro hpos
    rw [if_neg (by omega)]
    exact ⟨_, rfl, by show s.refs d + hd d ≤ decr f.users; omega⟩
  · simp [ones_of_ne hd']

theorem Balanced.setFd (hb : Balanced s h hd) {i : Nat} (hx : (p, i) ∈ s.cells) {v : Option DescId}
    (hino : ∀ b, h' b + ones ((v.bind s.desc).bind FileDesc.ino) b = h b + ones (s.slotIno (p, i)) b)
    (hdesc : ∀ d, hd' d + ones v d ≤ hd d + ones (s.slotDesc (p, i)) d) :
    Balanced (s.setFd p i v) h' hd' := by
  have hat : (s.setFd p i v).slotDesc (p, i) = v := by
    simp [slotDesc, Files.setFd]
  have hne : ∀ y, y ≠ (p, i) → (s.setFd p i v).slotDesc y = s.slotDesc y := by
    rintro ⟨q, j⟩ hy
    by_cases hq : q = p
    · subst hq
      have hj : j ≠ i := fun hj => hy (by rw [hj])
      simp [slotDesc, Files.setFd, hj]
    · simp [slotDesc, Files.setFd, hq]
  have hslots : ∀ b, (s.setFd p i v).slots b + h' b = s.slots b + h b := by
    intro b
    have hcount := count_change (b := b) hx (f := s.slotIno) (g := (s.setFd p i v).slotIno)
      fun y _ hy => by
        rw [slotIno, slotIno, hne y hy]
        rfl
    have hnew : (s.setFd p i v).slotIno (p, i) = (v.bind s.desc).bind FileDesc.ino := by
      rw [slotIno, hat]
      rfl
    rw [hnew] at hcount
    have := hino b
    show count s.cells _ b + h' b = count s.cells _ b + h b
    omega
  have hrefs : ∀ d, (s.setFd p i v).refs d + hd' d ≤ s.refs d + hd d := by
    intro d
    have hcount := count_change (b := d) hx (f := s.slotDesc) (g := (s.setFd p i v).slotDesc)
      fun y _ hy => hne y hy
    rw [hat] at hcount
    have := hdesc d
    show count s.cells _ d + hd' d ≤ count s.cells _ d + hd d
    omega
  refine { hb with users := ?_, alloc := ?_, desc := ?_ }
  · intro b m hm
    rw [hslots]
    exact hb.users hm
  · intro b hpos
    rw [hslots] at hpos
    exact hb.alloc hpos
  · intro d hpos
    obtain ⟨f, hf, hle⟩ := hb.desc (Nat.lt_of_lt_of_le hpos (hrefs d))
    exact ⟨f, hf, (hrefs d).trans hle⟩

theorem Balanced.clearFd (hb : Balanced s h hd) {i : Nat} (hx : (p, i) ∈ s.cells) :
    Balanced (s.setFd p i none) (h + ones (s.slotIno (p, i))) (hd + ones (s.slotDesc (p, i))) :=
  hb.setFd hx (fun b => by simp) (fun d => by simp)

theorem Balanced.fillFd (hb : Balanced s h (hd + ones (some d))) {i : Nat} (hx : (p, i) ∈ s.cells)
    (hold : s.slotIno (p, i) = none) (hf : s.desc d = some f) (hfi : f.ino = none) :
    Balanced (s.setFd p i (some d)) h hd :=
  hb.setFd hx (fun b => by simp [hold, hf, hfi]) (fun d' => by simp)

theorem Balanced.allocFd (hb : Balanced s h hd) {i : Nat} (hx : (p, i) ∈ s.cells)
    (hempty : s.fd p i = none) : Balanced (s.allocFd p i).2 h hd := by
  have hnone : s.desc s.nextDesc = none := hb.freshDesc le_rfl
  have hzero : s.refs s.nextDesc + hd s.nextDesc = 0 := by
    by_contra hpos
    obtain ⟨f, hf, -⟩ := hb.desc (Nat.pos_of_ne_zero hpos)
    rw [hnone] at hf
    cases hf
  have h1 : Balanced { s with desc := Function.update s.desc s.nextDesc (some ⟨none, 0, 0, 1⟩)
                              nextDesc := s.nextDesc + 1 } h (hd + ones (some s.nextDesc)) :=
    hb.replaceDesc (Nat.le_succ _) (Nat.lt_succ_self _)
      (fun x hx hd => by
        have hpos : 0 < s.refs s.nextDesc := count_pos hx hd
        omega)
      (fun _ => ⟨_, rfl, by simp only [Pi.add_apply, ones_self]; omega⟩)
      (fun d' hd' => by simp [ones_of_ne hd'])
  have hold : s.slotDesc (p, i) = none := hempty
  refine h1.fillFd hx ?_ (Function.update_self ..) rfl
  show (((s.slotDesc (p, i)).bind _).bind _ : Option Ino) = none
  rw [hold]
  rfl

theorem Balanced.setIno (hb : Balanced s (h + ones (some ino)) hd) {i : Nat} (hx : (p, i) ∈ s.cells)
    (hslot : s.slotDesc (p, i) = some d) (hf : s.desc d = some f) (hfi : f.ino = none) (hone : f.users = 1)
    {k : FileDesc} (hf' : k.ino = some ino) (hone' : k.users = 1) :
    Balanced (s.setDesc d (some k)) h hd := by
  have hrefs : s.refs d + hd d ≤ 1 := by
    obtain ⟨g, hg, hle⟩ := hb.slot_desc hx hslot
    obtain rfl := Option.some.inj (hf.symm.trans hg)
    exact hone ▸ hle
  have honly : ∀ y ∈ s.cells, y ≠ (p, i) → s.slotDesc y ≠ some d := by
    have herase := count_erase (b := d) (f := s.slotDesc) hx
    rw [hslot, ones_self] at herase
    have hrefs' : count s.cells s.slotDesc d ≤ 1 := Nat.le_trans (Nat.le_add_right _ _) hrefs
    intro y hy hne
    exact count_eq_zero.mp (by omega) y (Finset.mem_erase.mpr ⟨hne, hy⟩)
  have hslots : ∀ b, (s.setDesc d (some k)).slots b = s.slots b + ones (some ino) b := by
    intro b
    have hcount := count_change (b := b) hx (f := s.slotIno)
      (g := (s.setDesc d (some k)).slotIno) fun y hy hne => by
        show ((s.slotDesc y).bind (Function.update s.desc d (some k))).bind FileDesc.ino = s.slotIno y
        cases hdy : s.slotDesc y with
        | none => rw [slotIno, hdy]; rfl
        | some d' =>
          have hdd : d' ≠ d := fun hdd => honly y hy hne (hdd ▸ hdy)
          rw [Option.bind_some, Function.update_of_ne hdd, slotIno, hdy, Option.bind_some]
    have hold : s.slotIno (p, i) = none := by rw [slotIno_of_desc hslot hf, hfi]
    have hnew : (s.setDesc d (some k)).slotIno (p, i) = some ino := by
      have hslot' : (s.setDesc d (some k)).slotDesc (p, i) = some d := hslot
      rw [slotIno_of_desc hslot' (Function.update_self ..), hf']
    rw [hold, hnew, ones_none, Nat.add_zero] at hcount
    exact hcount
  have hsum : ∀ b, (s.setDesc d (some k)).slots b + h b = s.slots b + (h + ones (some ino)) b := by
    intro b
    rw [hslots, Pi.add_apply]
    omega
  refine { hb with users := ?_, alloc := ?_, desc := ?_, freshDesc := ?_ }
  · intro b m hm
    rw [hsum]
    exact hb.users hm
  · intro b hpos
    rw [hsum] at hpos
    exact hb.alloc hpos
  · intro d' hpos
    show ∃ g, Function.update s.desc d (some k) d' = some g ∧ s.refs d' + hd d' ≤ g.users
    by_cases hdd : d' = d
    · rw [hdd, Function.update_self]
      exact ⟨k, rfl, hone' ▸ hrefs⟩
    · rw [Function.update_of_ne hdd]
      exact hb.desc hpos
  · intro d' hd'
    have hne : d' ≠ d := by
      rintro rfl
      exact absurd (hb.desc_lt hf) (Nat.not_lt_of_le hd')
    exact (Function.update_of_ne hne _ _).trans (hb.freshDesc hd')

-- ---------------------------------------------------------------------------
-- The calls
-- ---------------------------------------------------------------------------

def Consistent (s : Files) : Prop := Balanced s s.kept fun _ => 0

theorem freeFd_some {i : Nat} (hs : s.freeFd p = some i) : i < numFiledes ∧ s.fd p i = none :=
  ⟨List.mem_range.mp (List.mem_of_find?_eq_some hs), by simpa using List.find?_some hs⟩

theorem index_some {file : Int} {i : Nat} (hs : index file = some i) : i < numFiledes ∧ file = i := by
  unfold index at hs
  split at hs
  · next hr =>
    obtain rfl := Option.some.inj hs
    omega
  · cases hs

-- the table of slots is not looked at by these

theorem vfsClose_setFd {i : Nat} {v : Option DescId} (hs : s.vfsClose ino = some (r, s')) :
    (s.setFd p i v).vfsClose ino = some (r, s'.setFd p i v) := by
  obtain ⟨n, hn, hs⟩ := Option.bind_eq_some_iff.mp hs
  obtain ⟨rfl, rfl⟩ := Prod.mk.inj (Option.some.inj hs)
  refine Option.bind_eq_some_iff.mpr ⟨n, hn, ?_⟩
  cases n.driver <;> rfl

theorem flushTar_setFd {i : Nat} {v : Option DescId} {e : EntryId} :
    (s.setFd p i v).flushTar e = (s.flushTar e).setFd p i v := by
  cases hbuf : (s.entry e).buffer <;> by_cases hz : decr (s.entry e).users = 0 <;>
    simp [Files.flushTar, Files.setFd, setEntry, setInode, hbuf, hz]

theorem vfsFree_setFd {i : Nat} {v : Option DescId} (hs : s.vfsFree ino = some s') :
    (s.setFd p i v).vfsFree ino = some (s'.setFd p i v) := by
  obtain ⟨n, hn, hs⟩ := Option.bind_eq_some_iff.mp hs
  refine Option.bind_eq_some_iff.mpr ⟨n, hn, ?_⟩
  split at hs
  · next ht =>
    obtain rfl := Option.some.inj hs
    rw [if_pos ht]
    rfl
  next ht =>
  split at hs
  · next hu =>
    obtain rfl := Option.some.inj hs
    rw [if_neg ht, if_pos hu]
    rfl
  next hu =>
  rw [if_neg ht, if_neg hu]
  cases hd : n.driver <;> rw [hd] at hs
  · rw [← Option.some.inj hs]
    exact congrArg some flushTar_setFd
  · rw [← Option.some.inj hs]
    rfl
  · rw [← Option.some.inj hs]
    rfl

theorem fdPut_setFd {i : Nat} {v : Option DescId} (hs : s.fdPut d = some s') :
    (s.setFd p i v).fdPut d = some (s'.setFd p i v) := by
  obtain ⟨f, hf, hs⟩ := Option.bind_eq_some_iff.mp hs
  obtain rfl := Option.some.inj hs
  exact Option.bind_eq_some_iff.mpr ⟨f, hf, rfl⟩

theorem fdGet_setFd {i : Nat} {v : Option DescId} (hs : (s.setFd p i v).fdGet d = some s') :
    ∃ s1, s.fdGet d = some s1 ∧ s' = s1.setFd p i v := by
  obtain ⟨f, hf, hs⟩ := Option.bind_eq_some_iff.mp hs
  obtain rfl := Option.some.inj hs
  exact ⟨_, Option.bind_eq_some_iff.mpr ⟨f, hf, rfl⟩, rfl⟩

theorem driverOpen_setDesc {v : Option FileDesc} (dr : Driver) : (s.setDesc d v).driverOpen dr =
    ((s.driverOpen dr).1, (s.driverOpen dr).2.setDesc d v) := by
  cases dr <;> rfl

theorem vfsOpen_setDesc {v : Option FileDesc} (hs : (s.setDesc d v).vfsOpen ino = some (r, s')) :
    ∃ s2, s.vfsOpen ino = some (r, s2) ∧ s' = s2.setDesc d v := by
  obtain ⟨n, hn, hs⟩ := Option.bind_eq_some_iff.mp hs
  have hswap := driverOpen_setDesc (s := s.setInode ino (some { n with users := n.users + 1 })) (d := d)
    (v := v) n.driver
  obtain ⟨rfl, rfl⟩ := Prod.mk.inj (hswap.symm.trans (Option.some.inj hs))
  exact ⟨_, Option.bind_eq_some_iff.mpr ⟨n, hn, rfl⟩, rfl⟩

theorem Balanced.closeSlot {i : Nat} {rep : Reply} (hb : Balanced s h hd) (hx : (p, i) ∈ s.cells)
    (hs : s.closeSlot p i = some (rep, s')) :
    Balanced s' h hd ∧ s'.live = s.live ∧ s'.kept = s.kept ∧ s'.slotIno (p, i) = none ∧
      (∀ y, s'.slotDesc y = s.slotDesc y ∨ y = (p, i)) ∧
      ∀ e g, s'.desc e = some g → ∃ f, s.desc e = some f ∧ f.ino = g.ino := by
  obtain ⟨d, hd', hs⟩ := Option.bind_eq_some_iff.mp hs
  obtain ⟨f, hf, hs⟩ := Option.bind_eq_some_iff.mp hs
  have hslot : s.slotDesc (p, i) = some d := hd'
  have hino := slotIno_of_desc hslot hf
  cases hfi : f.ino with
  | none =>
    rw [hfi] at hs
    obtain ⟨-, rfl⟩ := Prod.mk.inj (Option.some.inj hs)
    exact ⟨hb, rfl, rfl, hino.trans hfi, fun y => .inl rfl, fun e g hg => ⟨g, hg, rfl⟩⟩
  | some ino =>
    rw [hfi] at hs hino
    obtain ⟨⟨r, s1⟩, h1, hs⟩ := Option.bind_eq_some_iff.mp hs
    obtain ⟨s2, h2, hs⟩ := Option.bind_eq_some_iff.mp hs
    obtain ⟨s3, h3, hs⟩ := Option.bind_eq_some_iff.mp hs
    obtain ⟨-, rfl⟩ := Prod.mk.inj (Option.some.inj hs)
    -- the slot might as well be emptied first
    have hclear := hb.clearFd hx
    rw [hino, hslot] at hclear
    obtain ⟨hb1, hsame1⟩ := hclear.vfsClose (vfsClose_setFd h1)
    obtain ⟨hb2, hsame2⟩ := hb1.vfsFree (vfsFree_setFd h2)
    have hb3 := hb2.fdPut (fdPut_setFd h3)
    have hsame := hsame1.trans hsame2
    have hdesc2 : s2.desc = s.desc := hsame.desc
    obtain ⟨g, hg, hs3⟩ := Option.bind_eq_some_iff.mp h3
    obtain rfl := Option.some.inj hs3
    have hfd : ∀ y, (s2.setFd p i none).slotDesc y = (s.setFd p i none).slotDesc y := fun y =>
      congrFun hsame.slotDesc y
    have hat : (s.setFd p i none).slotDesc (p, i) = none := by
      simp [slotDesc, Files.setFd]
    refine ⟨hb3, hsame.live, hsame.kept, ?_, fun y => ?_, fun e g' hg' => ?_⟩
    · show (((s2.setFd p i none).slotDesc (p, i)).bind _).bind _ = none
      rw [hfd, hat]
      rfl
    · by_cases hy : y = (p, i)
      · exact .inr hy
      · left
        show (s2.setFd p i none).slotDesc y = s.slotDesc y
        rw [hfd]
        obtain ⟨q, j⟩ := y
        by_cases hq : q = p
        · subst hq
          have hj : j ≠ i := fun hj => hy (by rw [hj])
          simp [slotDesc, Files.setFd, hj]
        · simp [slotDesc, Files.setFd, hq]
    · have hg' : Function.update s2.desc d _ e = some g' := hg'
      by_cases hed : e = d
      · rw [hed, Function.update_self] at hg'
        rw [hed]
        split at hg'
        · cases hg'
        · obtain rfl := Option.some.inj hg'
          exact ⟨g, hdesc2 ▸ hg, rfl⟩
      · rw [Function.update_of_ne hed, hdesc2] at hg'
        exact ⟨g', hg', rfl⟩

theorem Consistent.closeSlot {i : Nat} {rep : Reply} (hc : s.Consistent) (hx : (p, i) ∈ s.cells)
    (hs : s.closeSlot p i = some (rep, s')) : s'.Consistent := by
  obtain ⟨hb, -, hkept, -⟩ := Balanced.closeSlot hc hx hs
  exact hb.congr (fun _ => by rw [hkept]) fun _ => rfl

theorem Consistent.close {file : Int} {rep : Reply} (hc : s.Consistent) (hp : p ∈ s.live)
    (hs : s.close p file = some (rep, s')) : s'.Consistent := by
  obtain ⟨i, hi, hs⟩ := Option.bind_eq_some_iff.mp hs
  exact hc.closeSlot (mem_cells.mpr ⟨hp, (index_some hi).1⟩) hs

theorem Consistent.open {path : Path} {flags : Nat} {rep : Reply} (hc : s.Consistent) (hp : p ∈ s.live)
    (hs : s.open p path flags = some (rep, s')) : s'.Consistent := by
  unfold Files.open at hs
  cases hfree : s.freeFd p with
  | none =>
    rw [hfree] at hs
    obtain ⟨-, rfl⟩ := Prod.mk.inj (Option.some.inj hs)
    exact hc
  | some i =>
    rw [hfree] at hs
    obtain ⟨hi, hempty⟩ := freeFd_some hfree
    have hx : (p, i) ∈ s.cells := mem_cells.mpr ⟨hp, hi⟩
    have hb := Balanced.allocFd hc hx hempty
    set s1 := (s.allocFd p i).2 with hs1
    have hslot : s1.slotDesc (p, i) = some s.nextDesc := by
      simp [hs1, Files.allocFd, slotDesc, Files.setFd]
    have hdesc : s1.desc s.nextDesc = some ⟨none, 0, 0, 1⟩ := by
      simp [hs1, Files.allocFd, Files.setFd, Files.setDesc]
    obtain ⟨⟨node, s2⟩, hnamei, hs⟩ := Option.bind_eq_some_iff.mp hs
    obtain ⟨hb2, hsame2⟩ := hb.vfsNamei hnamei
    have hkept2 : s2.kept = s.kept := hsame2.kept
    have hx2 : (p, i) ∈ s2.cells := hsame2.cells ▸ hx
    have hslot2 : s2.slotDesc (p, i) = some s.nextDesc := hsame2.slotDesc ▸ hslot
    have hdesc2 : s2.desc s.nextDesc = some ⟨none, 0, 0, 1⟩ := hsame2.desc ▸ hdesc
    cases node with
    | none =>
      obtain ⟨s3, hput, hs⟩ := Option.bind_eq_some_iff.mp hs
      obtain ⟨-, rfl⟩ := Prod.mk.inj (Option.some.inj hs)
      have hclear := hb2.clearFd hx2
      rw [slotIno_of_desc hslot2 hdesc2, hslot2] at hclear
      have hb3 := hclear.fdPut (fdPut_setFd hput)
      obtain ⟨f, -, hs3⟩ := Option.bind_eq_some_iff.mp hput
      obtain rfl := Option.some.inj hs3
      exact hb3.congr (fun b => by simp [setFd, setDesc, hkept2]) fun _ => rfl
    | some node =>
      obtain ⟨⟨r, s3⟩, hopen, hs⟩ := Option.bind_eq_some_iff.mp hs
      obtain ⟨hb3, hsame3, hr⟩ := hb2.vfsOpen hopen
      -- no driver refuses
      change (if r < 0 then _ else _) = _ at hs
      rw [if_neg (by omega)] at hs
      obtain ⟨f, hf, hs⟩ := Option.bind_eq_some_iff.mp hs
      obtain ⟨-, rfl⟩ := Prod.mk.inj (Option.some.inj hs)
      have hdesc3 : s3.desc s.nextDesc = some ⟨none, 0, 0, 1⟩ := hsame3.desc ▸ hdesc2
      obtain rfl := Option.some.inj (hdesc3.symm.trans hf)
      have hb4 := hb3.setIno (hsame3.cells ▸ hx2) (hsame3.slotDesc ▸ hslot2) hdesc3 rfl rfl
        (k := ⟨some node, 0, flags, 1⟩) rfl rfl
      exact hb4.congr (fun b => by simp [setDesc, hsame3.kept, hkept2]) fun _ => rfl

theorem Consistent.share {i j : Nat} (hc : s.Consistent) (hj : (p, j) ∈ s.cells)
    (hslot : s.slotDesc (p, i) = some d) (hino : s.slotIno (p, i) = none) (hold : s.slotIno (p, j) = none)
    (hs : (s.setFd p j (some d)).fdGet d = some s') : s'.Consistent := by
  obtain ⟨s1, hget, rfl⟩ := fdGet_setFd hs
  obtain ⟨hb, f, hf, rfl⟩ := Balanced.fdGet hc hget
  have hfi : f.ino = none := by rwa [slotIno_of_desc hslot hf] at hino
  have hold1 : (s.setDesc d (some { f with users := f.users + 1 })).slotIno (p, j) = none := by
    show ((s.slotDesc (p, j)).bind (Function.update s.desc d _)).bind FileDesc.ino = none
    cases hdj : s.slotDesc (p, j) with
    | none => rfl
    | some e =>
      by_cases hed : e = d
      · rw [Option.bind_some, hed, Function.update_self]
        exact hfi
      · rw [Option.bind_some, Function.update_of_ne hed]
        rw [slotIno, hdj, Option.bind_some] at hold
        exact hold
  exact hb.fillFd hj hold1 (Function.update_self ..) hfi

theorem Consistent.dup {fildes : Int} {rep : Reply} (hc : s.Consistent) (hp : p ∈ s.live)
    (hok : ∀ i, index fildes = some i → s.slotIno (p, i) = none ∨ s.freeFd p = none)
    (hs : s.dup p fildes = some (rep, s')) : s'.Consistent := by
  obtain ⟨i, hi, hs⟩ := Option.bind_eq_some_iff.mp hs
  cases hd : s.fd p i with
  | none =>
    rw [hd] at hs
    obtain ⟨-, rfl⟩ := Prod.mk.inj (Option.some.inj hs)
    exact hc
  | some d =>
    rw [hd] at hs
    cases hfree : s.freeFd p with
    | none =>
      rw [hfree] at hs
      obtain ⟨-, rfl⟩ := Prod.mk.inj (Option.some.inj hs)
      exact hc
    | some j =>
      rw [hfree] at hs
      obtain ⟨s1, hget, hs⟩ := Option.bind_eq_some_iff.mp hs
      obtain ⟨-, rfl⟩ := Prod.mk.inj (Option.some.inj hs)
      obtain ⟨hj, hempty⟩ := freeFd_some hfree
      have hino : s.slotIno (p, i) = none := (hok i hi).resolve_right (by simp [hfree])
      have hold : s.slotIno (p, j) = none := by
        rw [slotIno, show s.slotDesc (p, j) = none from hempty]
        rfl
      exact hc.share (mem_cells.mpr ⟨hp, hj⟩) hd hino hold hget

theorem Consistent.dup2 {fildes1 fildes2 : Int} {rep : Reply} (hc : s.Consistent) (hp : p ∈ s.live)
    (hok : ∀ i, index fildes1 = some i → s.slotIno (p, i) = none ∨ index fildes2 = none ∨ fildes1 = fildes2)
    (hs : s.dup2 p fildes1 fildes2 = some (rep, s')) : s'.Consistent := by
  obtain ⟨i, hi, hs⟩ := Option.bind_eq_some_iff.mp hs
  cases hd : s.fd p i with
  | none =>
    rw [hd] at hs
    obtain ⟨-, rfl⟩ := Prod.mk.inj (Option.some.inj hs)
    exact hc
  | some d =>
    rw [hd] at hs
    dsimp only at hs
    split at hs
    · obtain ⟨-, rfl⟩ := Prod.mk.inj (Option.some.inj hs)
      exact hc
    next h0 =>
    split at hs
    · obtain ⟨-, rfl⟩ := Prod.mk.inj (Option.some.inj hs)
      exact hc
    next h256 =>
    split at hs
    · obtain ⟨-, rfl⟩ := Prod.mk.inj (Option.some.inj hs)
      exact hc
    next hne =>
    have hj : index fildes2 = some fildes2.toNat := if_pos (by omega)
    have hino : s.slotIno (p, i) = none := by
      rcases hok i hi with h | h | h
      · exact h
      · rw [hj] at h
        cases h
      · exact absurd h hne
    have hxi : (p, i) ∈ s.cells := mem_cells.mpr ⟨hp, (index_some hi).1⟩
    have hxj : (p, fildes2.toNat) ∈ s.cells := mem_cells.mpr ⟨hp, (index_some hj).1⟩
    have hij : i ≠ fildes2.toNat := by
      intro hij
      have := (index_some hi).2
      have := (index_some hj).2
      omega
    by_cases hsome : (s.fd p fildes2.toNat).isSome = true
    · rw [if_pos hsome] at hs
      obtain ⟨⟨rep', s3⟩, hclose, hs⟩ := Option.bind_eq_some_iff.mp hs
      change ((s3.setFd p fildes2.toNat (some d)).fdGet d).bind _ = _ at hs
      obtain ⟨s4, hget, hs⟩ := Option.bind_eq_some_iff.mp hs
      obtain ⟨-, rfl⟩ := Prod.mk.inj (Option.some.inj hs)
      obtain ⟨hb, hlive, hkept, hempty, hsame, hdesc⟩ := Balanced.closeSlot hc hxj hclose
      have hc3 : s3.Consistent := hc.closeSlot hxj hclose
      have hcells : s3.cells = s.cells := by rw [cells, cells, hlive]
      have hslot3 : s3.slotDesc (p, i) = some d := by
        rcases hsame (p, i) with h | h
        · exact h.trans hd
        · cases h
          exact absurd rfl hij
      have hino3 : s3.slotIno (p, i) = none := by
        obtain ⟨g, hg, -⟩ := hc3.slot_desc (hcells ▸ hxi) hslot3
        obtain ⟨f, hf, hfg⟩ := hdesc d g hg
        have hd' : s.slotDesc (p, i) = some d := hd
        rw [slotIno_of_desc hslot3 hg, ← hfg, ← slotIno_of_desc hd' hf]
        exact hino
      exact hc3.share (hcells ▸ hxj) hslot3 hino3 hempty hget
    · rw [if_neg hsome] at hs
      change ((s.setFd p fildes2.toNat (some d)).fdGet d).bind _ = _ at hs
      obtain ⟨s4, hget, hs⟩ := Option.bind_eq_some_iff.mp hs
      obtain ⟨-, rfl⟩ := Prod.mk.inj (Option.some.inj hs)
      have hold : s.slotIno (p, fildes2.toNat) = none := by
        rw [slotIno, show s.slotDesc (p, fildes2.toNat) = none by simpa [slotDesc] using hsome]
        rfl
      exact hc.share hxj hd hino hold hget

theorem Balanced.setupFd {i : Nat} {flags : Nat} (hb : Balanced s h hd) (hx : (p, i) ∈ s.cells)
    (hslot : s.slotDesc (p, i) = some d) (hf : s.desc d = some f) (hfi : f.ino = none) (hone : f.users = 1)
    (hs : s.setupFd d ino flags = some s') :
    Balanced s' h hd ∧ s'.live = s.live ∧ s'.kept = s.kept ∧ s'.slotDesc = s.slotDesc ∧
      ∀ e, e ≠ d → s'.desc e = s.desc e := by
  obtain ⟨f', hf', hs⟩ := Option.bind_eq_some_iff.mp hs
  obtain rfl := Option.some.inj (hf.symm.trans hf')
  obtain ⟨⟨r, s1⟩, hopen, hs⟩ := Option.bind_eq_some_iff.mp hs
  obtain rfl := Option.some.inj hs
  obtain ⟨s2, hopen2, rfl⟩ := vfsOpen_setDesc hopen
  obtain ⟨hb2, hsame, -⟩ := hb.vfsOpen hopen2
  refine ⟨hb2.setIno (hsame.cells ▸ hx) (hsame.slotDesc ▸ hslot) (hsame.desc ▸ hf) hfi hone rfl hone,
    hsame.live, hsame.kept, hsame.slotDesc, fun e he => ?_⟩
  exact (Function.update_of_ne he _ _).trans (congrFun hsame.desc e)

theorem Consistent.pipeCall {rep : Reply} (hc : s.Consistent) (hp : p ∈ s.live)
    (hs : s.pipeCall p = some (rep, s')) : s'.Consistent := by
  unfold Files.pipeCall at hs
  cases hfree : s.freeFd p with
  | none =>
    rw [hfree] at hs
    obtain ⟨-, rfl⟩ := Prod.mk.inj (Option.some.inj hs)
    exact hc
  | some i =>
    rw [hfree] at hs
    obtain ⟨hi, hempty⟩ := freeFd_some hfree
    have hxi : (p, i) ∈ s.cells := mem_cells.mpr ⟨hp, hi⟩
    have hb1 := Balanced.allocFd hc hxi hempty
    have hslot1 : (s.allocFd p i).2.slotDesc (p, i) = some s.nextDesc := by
      simp [Files.allocFd, slotDesc, Files.setFd]
    have hdesc1 : (s.allocFd p i).2.desc s.nextDesc = some ⟨none, 0, 0, 1⟩ := by
      simp [Files.allocFd, Files.setFd, Files.setDesc]
    have hlive1 : (s.allocFd p i).2.live = s.live := rfl
    have hkept1 : (s.allocFd p i).2.kept = s.kept := rfl
    have hid1 : (s.allocFd p i).1 = s.nextDesc := rfl
    have hnext1 : (s.allocFd p i).2.nextDesc = s.nextDesc + 1 := rfl
    dsimp only at hs
    generalize s.allocFd p i = a1 at hs hb1 hslot1 hdesc1 hlive1 hkept1 hid1 hnext1
    obtain ⟨d, s1⟩ := a1
    obtain rfl : d = s.nextDesc := hid1
    dsimp only at hs hb1 hslot1 hdesc1 hlive1 hkept1 hnext1
    cases hfree1 : s1.freeFd p with
    | none =>
      rw [hfree1] at hs
      obtain ⟨-, rfl⟩ := Prod.mk.inj (Option.some.inj hs)
      exact hb1.congr (fun _ => by rw [hkept1]) fun _ => rfl
    | some j =>
      rw [hfree1] at hs
      obtain ⟨hj, hempty1⟩ := freeFd_some hfree1
      have hij : i ≠ j := by
        rintro rfl
        rw [show s1.fd p i = some s.nextDesc from hslot1] at hempty1
        cases hempty1
      have hxj : (p, j) ∈ s1.cells := mem_cells.mpr ⟨hlive1 ▸ hp, hj⟩
      have hb2 := hb1.allocFd hxj hempty1
      have hslot2 : (s1.allocFd p j).2.slotDesc (p, j) = some s1.nextDesc := by
        simp [Files.allocFd, slotDesc, Files.setFd]
      have hslot2i : (s1.allocFd p j).2.slotDesc (p, i) = some s.nextDesc := by
        have : (s1.allocFd p j).2.slotDesc (p, i) = s1.slotDesc (p, i) := by
          simp [Files.allocFd, slotDesc, Files.setFd, Files.setDesc, hij]
        rw [this, hslot1]
      have hdesc2 : (s1.allocFd p j).2.desc s1.nextDesc = some ⟨none, 0, 0, 1⟩ := by
        simp [Files.allocFd, Files.setFd, Files.setDesc]
      have hdesc2i : (s1.allocFd p j).2.desc s.nextDesc = some ⟨none, 0, 0, 1⟩ := by
        have hne : s.nextDesc ≠ s1.nextDesc := by rw [hnext1]; exact Nat.ne_of_lt (Nat.lt_succ_self _)
        have : (s1.allocFd p j).2.desc s.nextDesc = s1.desc s.nextDesc := by
          simp [Files.allocFd, Files.setFd, Files.setDesc, hne]
        rw [this, hdesc1]
      have hlive2 : (s1.allocFd p j).2.live = s.live := hlive1
      have hkept2 : (s1.allocFd p j).2.kept = s.kept := hkept1
      have hid2 : (s1.allocFd p j).1 = s1.nextDesc := rfl
      dsimp only at hs
      generalize s1.allocFd p j = a2 at hs hb2 hslot2 hslot2i hdesc2 hdesc2i hlive2 hkept2 hid2
      obtain ⟨e, s2⟩ := a2
      obtain rfl : e = s1.nextDesc := hid2
      dsimp only at hs hb2 hslot2 hslot2i hdesc2 hdesc2i hlive2 hkept2
      obtain ⟨hb3, hsame3⟩ := hb2.newPipe 512
      generalize s2.newPipe 512 = a3 at hs hb3 hsame3
      obtain ⟨⟨r, w⟩, s3⟩ := a3
      dsimp only at hs hb3 hsame3
      obtain ⟨s4, hset, hs⟩ := Option.bind_eq_some_iff.mp hs
      obtain ⟨s5, hset', hs⟩ := Option.bind_eq_some_iff.mp hs
      obtain ⟨-, rfl⟩ := Prod.mk.inj (Option.some.inj hs)
      have hx3 : ∀ {k}, k < numFiledes → (p, k) ∈ s3.cells := fun hk =>
        mem_cells.mpr ⟨by rw [hsame3.live, hlive2]; exact hp, hk⟩
      obtain ⟨hb4, hlive4, hkept4, hslot4, hdesc4⟩ := hb3.setupFd (hx3 hi) (hsame3.slotDesc ▸ hslot2i)
        (hsame3.desc ▸ hdesc2i) rfl rfl hset
      have hx4 : (p, j) ∈ s4.cells := mem_cells.mpr ⟨by rw [hlive4, hsame3.live, hlive2]; exact hp, hj⟩
      have hne : s1.nextDesc ≠ s.nextDesc := by rw [hnext1]; exact Nat.succ_ne_self _
      obtain ⟨hb5, hlive5, hkept5, -, -⟩ := hb4.setupFd hx4 (hslot4 ▸ hsame3.slotDesc ▸ hslot2)
        ((hdesc4 _ hne).trans (hsame3.desc ▸ hdesc2)) rfl rfl hset'
      exact hb5.congr (fun _ => by rw [hkept5, hkept4, hsame3.kept, hkept2]) fun _ => rfl

/-- The state of the loop of `fork_process` when the slots in `done` have been counted,
for a child that is not listed yet. -/
structure Forking (s₀ : Files) (child : Pid) (done : Finset Nat) (s : Files) : Prop where
  balanced : Balanced s (s₀.kept + count ({child} ×ˢ done) s.slotIno) (count ({child} ×ˢ done) s.slotDesc)
  live : s.live = s₀.live
  nextPid : s.nextPid = s₀.nextPid + 1
  kept : s.kept = s₀.kept

theorem count_done {β : Type} [DecidableEq β] {child : Pid} {done : Finset Nat} {i : Nat}
    {holds : Pid × Nat → Option β} {b : β} (hi : i ∉ done) :
    count ({child} ×ˢ insert i done) holds b = count ({child} ×ˢ done) holds b + ones (holds (child, i)) b := by
  have hins : ({child} : Finset Pid) ×ˢ insert i done = insert (child, i) ({child} ×ˢ done) := by
    ext ⟨q, j⟩
    simp only [Finset.mem_product, Finset.mem_insert, Finset.mem_singleton, Prod.mk.injEq]
    tauto
  rw [hins, count_insert (by simp [hi])]

theorem Forking.step {s₀ : Files} {child : Pid} {done : Finset Nat} {i : Nat}
    (hf : Forking s₀ child done s) (hi : i ∉ done) (hs : forkFd child s i = some s') :
    Forking s₀ child (insert i done) s' := by
  unfold forkFd at hs
  cases hd : s.fd child i with
  | none =>
    rw [hd] at hs
    obtain rfl := Option.some.inj hs
    have hdesc : s.slotDesc (child, i) = none := hd
    have hino : s.slotIno (child, i) = none := by rw [slotIno, hdesc]; rfl
    refine ⟨hf.balanced.congr (fun b => ?_) fun d => ?_, hf.live, hf.nextPid, hf.kept⟩
    · rw [Pi.add_apply, Pi.add_apply, count_done hi, hino, ones_none, Nat.add_zero]
    · rw [count_done hi, hdesc, ones_none, Nat.add_zero]
  | some d =>
    rw [hd] at hs
    obtain ⟨s1, hget, hs⟩ := Option.bind_eq_some_iff.mp hs
    obtain ⟨f, hf1, hs⟩ := Option.bind_eq_some_iff.mp hs
    obtain ⟨ino, hfi, hs⟩ := Option.bind_eq_some_iff.mp hs
    obtain ⟨⟨r, s2⟩, hopen, hs⟩ := Option.bind_eq_some_iff.mp hs
    obtain rfl := Option.some.inj hs
    obtain ⟨hb1, f0, hf0, rfl⟩ := hf.balanced.fdGet hget
    obtain rfl : ({ f0 with users := f0.users + 1 } : FileDesc) = f := by
      have : (s.setDesc d (some { f0 with users := f0.users + 1 })).desc d =
          some { f0 with users := f0.users + 1 } := Function.update_self ..
      exact Option.some.inj (this.symm.trans hf1)
    have hslot : (s.setDesc d (some { f0 with users := f0.users + 1 })).slotIno = s.slotIno := by
      funext x
      show ((s.slotDesc x).bind (Function.update s.desc d _)).bind FileDesc.ino = s.slotIno x
      cases hdx : s.slotDesc x with
      | none => rw [slotIno, hdx]; rfl
      | some e =>
        rw [slotIno, hdx, Option.bind_some, Option.bind_some]
        by_cases hed : e = d
        · rw [hed, Function.update_self, hf0]
          rfl
        · rw [Function.update_of_ne hed]
    obtain ⟨hb2, hsame, -⟩ := hb1.vfsOpen hopen
    have hdesc : s.slotDesc (child, i) = some d := hd
    have hino : s.slotIno (child, i) = some ino := (slotIno_of_desc hdesc hf0).trans hfi
    refine ⟨?_, hsame.live.trans hf.live, hsame.nextPid.trans hf.nextPid, hsame.kept.trans hf.kept⟩
    rw [hsame.slotIno, hslot, hsame.slotDesc]
    refine hb2.congr (fun b => ?_) fun e => ?_
    · simp only [Pi.add_apply, count_done hi, hino]
      omega
    · show count _ s.slotDesc e = _
      simp only [Pi.add_apply, count_done hi, hdesc]

theorem Forking.loop {s₀ : Files} {child : Pid} {todo : List Nat} {done : Finset Nat}
    (hf : Forking s₀ child done s) (hnd : todo.Nodup) (hdisj : ∀ i ∈ todo, i ∉ done)
    (hs : todo.foldlM (forkFd child) s = some s') : Forking s₀ child (todo.toFinset ∪ done) s' := by
  induction todo generalizing s done with
  | nil =>
    obtain rfl := Option.some.inj hs
    simpa using hf
  | cons i todo ih =>
    rw [List.foldlM_cons] at hs
    obtain ⟨s1, hstep, hs⟩ := Option.bind_eq_some_iff.mp hs
    obtain ⟨hi, hnd⟩ := List.nodup_cons.mp hnd
    have hnext := ih (hf.step (hdisj i (by simp)) hstep) hnd (fun j hj => by
      simp only [Finset.mem_insert, not_or]
      exact ⟨fun e => hi (e ▸ hj), hdisj j (by simp [hj])⟩) hs
    simpa [Finset.insert_union_comm] using hnext

theorem Consistent.forkProcess {rep : Reply} (hc : s.Consistent)
    (hs : s.forkProcess p = some (rep, s')) : s'.Consistent := by
  obtain ⟨s1, hloop, hs⟩ := Option.bind_eq_some_iff.mp hs
  obtain ⟨-, rfl⟩ := Prod.mk.inj (Option.some.inj hs)
  set child := s.nextPid with hchild
  have hnew : child ∉ s.live := fun hm => absurd (Balanced.freshPid hc hm) (Nat.lt_irrefl _)
  set s0 : Files := { s with nextPid := child + 1, fd := Function.update s.fd child (s.fd p) } with hs0
  have hdesc0 : ∀ x ∈ s.cells, s0.slotDesc x = s.slotDesc x := by
    rintro ⟨q, j⟩ hx
    have hq : q ≠ child := by
      rintro rfl
      exact hnew (mem_cells.mp hx).1
    simp [slotDesc, hs0, hq]
  have hino0 : ∀ x ∈ s.cells, s0.slotIno x = s.slotIno x := by
    intro x hx
    rw [slotIno, slotIno, hdesc0 x hx]
  have hslots : s0.slots = s.slots := funext fun b => count_congr hino0
  have hrefs : s0.refs = s.refs := funext fun d => count_congr hdesc0
  have hb : Balanced s0 s.kept fun _ => 0 := by
    refine { hc with users := ?_, alloc := ?_, desc := ?_, freshPid := ?_ }
    · intro b m hm
      rw [hslots]
      exact Balanced.users hc hm
    · intro b hpos
      rw [hslots] at hpos
      exact Balanced.alloc hc hpos
    · intro d hpos
      rw [hrefs] at hpos ⊢
      exact Balanced.desc hc hpos
    · exact fun hq => Nat.lt_succ_of_lt (Balanced.freshPid hc hq)
  have hstart : Forking s child ∅ s0 :=
    ⟨hb.congr (fun b => by simp [count]) fun d => by simp [count], rfl, rfl, rfl⟩
  have hend := hstart.loop List.nodup_range (by simp) hloop
  rw [Finset.union_empty, List.toFinset_range] at hend
  obtain ⟨hb1, hlive, hnext, hkept⟩ := hend
  -- the child is listed, with all its slots counted
  have hcells : ({ s1 with live := insert child s1.live } : Files).cells =
      s1.cells ∪ {child} ×ˢ Finset.range numFiledes := by
    rw [cells, cells, Finset.insert_eq, Finset.union_product, Finset.union_comm]
  have hdisj : Disjoint s1.cells ({child} ×ˢ Finset.range numFiledes) := by
    rw [cells, Finset.disjoint_product]
    left
    rw [Finset.disjoint_singleton_right, hlive]
    exact hnew
  have hslots1 : ∀ b, ({ s1 with live := insert child s1.live } : Files).slots b =
      s1.slots b + count ({child} ×ˢ Finset.range numFiledes) s1.slotIno b := by
    intro b
    rw [slots, hcells, slots]
    exact count_union hdisj
  have hrefs1 : ∀ d, ({ s1 with live := insert child s1.live } : Files).refs d =
      s1.refs d + count ({child} ×ˢ Finset.range numFiledes) s1.slotDesc d := by
    intro d
    rw [refs, hcells, refs]
    exact count_union hdisj
  refine { hb1 with users := ?_, alloc := ?_, desc := ?_, freshPid := ?_ }
  · intro b m hm
    have := hb1.users hm
    rw [Pi.add_apply] at this
    rw [hslots1, show ({ s1 with live := insert child s1.live } : Files).kept = s.kept from hkept]
    omega
  · intro b hpos
    refine hb1.alloc ?_
    rw [hslots1, show ({ s1 with live := insert child s1.live } : Files).kept = s.kept from hkept] at hpos
    rw [Pi.add_apply]
    omega
  · intro d hpos
    rw [hrefs1] at hpos ⊢
    exact hb1.desc hpos
  · intro q hq
    rw [show ({ s1 with live := insert child s1.live } : Files).nextPid = child + 1 from hnext]
    rcases Finset.mem_insert.mp hq with rfl | hq
    · exact Nat.lt_succ_self _
    · rw [hlive] at hq
      exact Nat.lt_succ_of_lt (Balanced.freshPid hc hq)

theorem Consistent.exitLoop {todo : List Nat} (hc : s.Consistent) (hp : p ∈ s.live)
    (htodo : ∀ i ∈ todo, i < numFiledes) (hs : todo.foldlM (exitFd p) s = some s') :
    s'.Consistent ∧ s'.live = s.live ∧ (∀ i ∈ todo, s'.slotIno (p, i) = none) ∧
      ∀ i, i < numFiledes → s.slotIno (p, i) = none → s'.slotIno (p, i) = none := by
  induction todo generalizing s with
  | nil =>
    obtain rfl := Option.some.inj hs
    exact ⟨hc, rfl, by simp, fun _ _ h => h⟩
  | cons i todo ih =>
    rw [List.foldlM_cons] at hs
    obtain ⟨s1, hstep, hs⟩ := Option.bind_eq_some_iff.mp hs
    have hi : i < numFiledes := htodo i (by simp)
    -- what one turn does
    obtain ⟨hc1, hlive1, hat1, hkeep1⟩ : s1.Consistent ∧ s1.live = s.live ∧ s1.slotIno (p, i) = none ∧
        ∀ j, j < numFiledes → s.slotIno (p, j) = none → s1.slotIno (p, j) = none := by
      unfold exitFd at hstep
      cases hd : s.fd p i with
      | none =>
        rw [hd] at hstep
        obtain rfl := Option.some.inj hstep
        refine ⟨hc, rfl, ?_, fun _ _ h => h⟩
        rw [slotIno, show s.slotDesc (p, i) = none from hd]
        rfl
      | some d =>
        rw [hd] at hstep
        obtain ⟨⟨rep, s2⟩, hclose, hstep⟩ := Option.bind_eq_some_iff.mp hstep
        obtain rfl := Option.some.inj hstep
        have hx : (p, i) ∈ s.cells := mem_cells.mpr ⟨hp, hi⟩
        obtain ⟨-, hlive, -, hempty, hsame, hdesc⟩ := Balanced.closeSlot hc hx hclose
        refine ⟨hc.closeSlot hx hclose, hlive, hempty, fun j hj hnone => ?_⟩
        rcases hsame (p, j) with hslot | hji
        · rw [slotIno, hslot]
          cases hdj : s.slotDesc (p, j) with
          | none => rfl
          | some e =>
            rw [Option.bind_some]
            cases hde : s2.desc e with
            | none => rfl
            | some g =>
              obtain ⟨f, hf, hfg⟩ := hdesc e g hde
              rw [Option.bind_some, ← hfg, ← slotIno_of_desc hdj hf]
              exact hnone
        · rw [hji]
          exact hempty
    obtain ⟨hc2, hlive2, hat2, hkeep2⟩ := ih hc1 (hlive1 ▸ hp) (fun j hj => htodo j (by simp [hj])) hs
    refine ⟨hc2, hlive2.trans hlive1, fun j hj => ?_, fun j hj hnone => hkeep2 j hj (hkeep1 j hj hnone)⟩
    rcases List.mem_cons.mp hj with rfl | hj
    · exact hkeep2 j hi hat1
    · exact hat2 j hj

theorem Consistent.exit {rep : Reply} (hc : s.Consistent) (hp : p ∈ s.live)
    (hs : s.exit p = some (rep, s')) : s'.Consistent := by
  obtain ⟨s1, hloop, hs⟩ := Option.bind_eq_some_iff.mp hs
  obtain ⟨-, rfl⟩ := Prod.mk.inj (Option.some.inj hs)
  obtain ⟨hc1, -, hempty, -⟩ := hc.exitLoop hp (fun i hi => List.mem_range.mp hi) hloop
  have hcells : ({ s1 with live := s1.live.erase p } : Files).cells ⊆ s1.cells :=
    Finset.product_subset_product_left (Finset.erase_subset _ _)
  have hslots : ∀ b, ({ s1 with live := s1.live.erase p } : Files).slots b = s1.slots b := by
    intro b
    unfold slots count
    congr 1
    ext ⟨q, j⟩
    simp only [Finset.mem_filter, mem_cells, Finset.mem_erase]
    constructor
    · rintro ⟨⟨⟨-, hq⟩, hj⟩, hb⟩
      exact ⟨⟨hq, hj⟩, hb⟩
    · rintro ⟨⟨hq, hj⟩, hb⟩
      refine ⟨⟨⟨?_, hq⟩, hj⟩, hb⟩
      rintro rfl
      rw [hempty j (List.mem_range.mpr hj)] at hb
      cases hb
  have hrefs : ∀ d, ({ s1 with live := s1.live.erase p } : Files).refs d ≤ s1.refs d := fun d =>
    count_mono hcells
  refine { hc1 with users := ?_, alloc := ?_, desc := ?_, freshPid := ?_ }
  · intro b m hm
    rw [hslots]
    exact Balanced.users hc1 hm
  · intro b hpos
    rw [hslots] at hpos
    exact Balanced.alloc hc1 hpos
  · intro d hpos
    obtain ⟨f, hf, hle⟩ := Balanced.desc hc1 (Nat.lt_of_lt_of_le hpos (hrefs d))
    exact ⟨f, hf, (hrefs d).trans hle⟩
  · exact fun hq => Balanced.freshPid hc1 (Finset.mem_of_mem_erase hq)

-- ---------------------------------------------------------------------------
-- The counts are the slots
-- ---------------------------------------------------------------------------

/-- No `dup` or `dup2` makes a second slot for a descriptor that has an inode. -/
def Unshared (s : Files) : Pid × FileCall → Prop
  | (p, .dup fildes) => ∀ i, index fildes = some i → s.slotIno (p, i) = none ∨ s.freeFd p = none
  | (p, .dup2 fildes1 fildes2) => ∀ i, index fildes1 = some i →
      s.slotIno (p, i) = none ∨ index fildes2 = none ∨ fildes1 = fildes2
  | _ => True

/-- The users of an inode are the slots that lead to it, and those of drivers; so are the
readers or writers of a pipe for its end; and a slot leads to an inode that is there. -/
structure Counted (s : Files) : Prop where
  users : ∀ {ino n}, s.inode ino = some n → n.users = s.slots ino + s.kept ino
  ends : ∀ {ino n k e}, s.inode ino = some n → n.driver = .pipe k e →
    (s.pipe k).attached e = s.slots ino + s.kept ino
  alloc : ∀ {p i ino}, p ∈ s.live → i < numFiledes → s.slotIno (p, i) = some ino →
    ∃ n, s.inode ino = some n

theorem Consistent.counted (hc : s.Consistent) : s.Counted where
  users := Balanced.users hc
  ends hn hk := (Balanced.ends hc hn hk).trans (Balanced.users hc hn)
  alloc hp hi hs := Balanced.alloc hc (Nat.add_pos_left (count_pos (mem_cells.mpr ⟨hp, hi⟩) hs) _)

theorem Consistent.step {a : Pid × FileCall} (hc : s.Consistent) (hok : Unshared s a)
    (hs : s.step a = some s') : s'.Consistent := by
  obtain ⟨p, call⟩ := a
  unfold Files.step at hs
  split at hs
  swap
  · cases hs
  next hp =>
  obtain ⟨⟨rep, s1⟩, hcall, rfl⟩ := Option.map_eq_some_iff.mp hs
  cases call with
  | «open» path flags => exact hc.open hp hcall
  | close file => exact hc.close hp hcall
  | dup fildes => exact hc.dup hp hok hcall
  | dup2 fildes1 fildes2 => exact hc.dup2 hp hok hcall
  | pipe => exact hc.pipeCall hp hcall
  | fork => exact hc.forkProcess hcall
  | exit => exact hc.exit hp hcall

/-- Whatever the processes do, the counts stay right, as long as no call makes a second
slot for a descriptor. -/
theorem counted_of_unshared (h : Reach Files.step Unshared Consistent s) : s.Counted :=
  (h.invariant (fun _ hc => hc) fun _ _ _ hc hok hs => Consistent.step hc hok hs).counted

end

/-- The first process, without descriptors, and a mount tree of two nodes: the root of
the archive and `/dev/debug`. -/
def mounted : Files where
  live := {1}
  nextPid := 2
  fd := fun _ _ => none
  desc := fun _ => none
  nextDesc := 0
  inode
    | 0 => some ⟨.tarfs 0, true, 0⟩
    | 1 => some ⟨.debug, true, 0⟩
    | _ => none
  nextIno := 2
  entry
    | 0 => ⟨some 0, 1⟩
    | _ => ⟨none, 0⟩
  pipe := fun _ => Os5.newPipe 512 fun _ => 0
  nextPipe := 0
  kept := fun _ => 0

theorem mounted_consistent : mounted.Consistent := by
  have hslots : ∀ ino, mounted.slots ino = 0 := fun ino => count_eq_zero.mpr fun _ _ => by
    simp [slotIno, slotDesc, mounted]
  have hrefs : ∀ d, mounted.refs d = 0 := fun d => count_eq_zero.mpr fun _ _ => by
    simp [slotDesc, mounted]
  refine ⟨?_, ?_, ?_, ?_, ?_, ?_, ?_, fun _ => rfl, ?_, ?_, ?_⟩
  · intro ino n hn
    rw [hslots]
    match ino, hn with
    | 0, rfl => rfl
    | 1, rfl => rfl
  · intro ino hpos
    rw [hslots] at hpos
    exact absurd hpos (Nat.lt_irrefl 0)
  · intro ino n k e hn hk
    match ino, hn with
    | 0, rfl => cases hk
    | 1, rfl => cases hk
  · intro i j n m k e hn _ hk _
    match i, hn with
    | 0, rfl => cases hk
    | 1, rfl => cases hk
  · intro d hpos
    rw [hrefs] at hpos
    exact absurd hpos (Nat.lt_irrefl 0)
  · intro ino n e hn he
    match ino, hn with
    | 0, rfl =>
      obtain rfl := Driver.tarfs.inj he
      rfl
    | 1, rfl => cases he
  · intro ino e he
    match e, he with
    | 0, rfl => exact ⟨_, rfl, rfl⟩
  · intro i hi
    match i, hi with
    | i + 2, _ => rfl
  · intro ino n k e hn hk
    match ino, hn with
    | 0, rfl => cases hk
    | 1, rfl => cases hk
  · intro p hp
    rw [Finset.mem_singleton.mp hp]
    exact Nat.lt_succ_self 1

theorem counted_of_unshared_pipe : ∃ s, exec Files.step mounted
      [(1, .pipe), (1, .fork), (1, .close 0), (2, .close 1), (2, .open ⟨0, [.entry 1], false⟩ 0)] = some s ∧
    s.Counted := by
  obtain ⟨s, hs⟩ : ∃ s, exec Files.step mounted
      [(1, .pipe), (1, .fork), (1, .close 0), (2, .close 1), (2, .open ⟨0, [.entry 1], false⟩ 0)] = some s :=
    Option.isSome_iff_exists.mp (by decide +kernel)
  refine ⟨s, hs, counted_of_unshared ((Reach.start mounted_consistent).along ?_ hs)⟩
  exact ⟨trivial, fun _ _ => ⟨trivial, fun _ _ => ⟨trivial, fun _ _ => ⟨trivial, fun _ _ =>
    ⟨trivial, fun _ _ => trivial⟩⟩⟩⟩⟩

/-- Closing one of two slots that `dup` made frees the inode under the other, and a reader
is told that nobody writes. -/
theorem dup_uncounted : ∃ s, Reach Files.step Any Consistent s ∧ 1 ∈ s.live ∧
    s.slotIno (1, 2) = some 3 ∧ s.inode 3 = none ∧ (s.pipe 0).writers = 0 ∧ ¬ s.Counted := by
  obtain ⟨s, hs⟩ : ∃ s, exec Files.step mounted [(1, .pipe), (1, .dup 1), (1, .close 1)] = some s :=
    Option.isSome_iff_exists.mp (by decide +kernel)
  have hseen : (exec Files.step mounted [(1, .pipe), (1, .dup 1), (1, .close 1)]).map
      (fun s => (s.live, s.slotIno (1, 2), s.inode 3, (s.pipe 0).writers)) =
      some ({1}, some 3, none, 0) := by decide +kernel
  rw [hs, Option.map_some, Option.some_inj, Prod.mk.injEq, Prod.mk.injEq, Prod.mk.injEq] at hseen
  obtain ⟨hlive, hslot, hino, hpipe⟩ := hseen
  refine ⟨s, (Reach.start mounted_consistent).exec hs, by simp [hlive], hslot, hino, hpipe, fun hc => ?_⟩
  obtain ⟨n, hn⟩ := hc.alloc (p := 1) (i := 2) (by simp [hlive]) (by decide) hslot
  rw [hino] at hn
  cases hn

end Files

end Os5
