import Os5.Fs.Failures

/-!
# The buffers of the archive

The inode of an entry of the archive is allocated when a lookup first reaches it, and freed
when `flush_tar` has been called as often as `tar_get_inode`. The lookups count in the entry,
the descriptors in the inode; `vfs_free` gives back what a lookup took only if the inode has
no users.
-/

namespace Os5

open Cells Transition

inductive LookCall
  | open (name : Nat) (path : Files.Path) (flags : Nat)
  | close (file : Int)
  | stat (name st : Nat) (path : Files.Path)
  | readdir (file : Int) (what : Listing)

def Listing.entries : Listing → List EntryId
  | .nothing => []
  | .mounted _ => []
  | .entry e => [e]
  | .covered e _ => [e]

namespace Files

def Path.entries (path : Path) : List EntryId :=
  path.hops.filterMap fun
    | .mounted _ => none
    | .entry e => some e

/-- A path that leads nowhere is a null pointer, which `vfs_stat` follows. -/
def stat (s : Files) (k : Backing) (name st : Nat) (path : Path) : Option (Answer × Files) :=
  if k.kernelBooted ∧ k.procmmCheckAddress name = 0 then some ((-1, some .EFAULT), s)
  else if k.kernelBooted ∧ k.procmmCheckAddress st ≤ 1 then some ((-1, some .EFAULT), s)
  else do
    let (node, s) ← s.vfsNamei path
    let node ← node
    let n ← s.inode node
    let s ← s.vfsFree node
    match vfsStat n.driver with
    | .ok _ => return ((0, none), s)
    | .error e => return ((-1, some e), s)

def lookCall (s : Files) (k : Backing) (p : Pid) : LookCall → Option Files
  | .open name path flags => (s.openName k p name path flags).map (·.2)
  | .close file => (s.close p file).map (·.2)
  | .stat name st path => (s.stat k name st path).map (·.2)
  | .readdir file what => (s.readdir p file what).map (·.2)

def lookStep (k : Backing) (s : Files) (a : Pid × LookCall) : Option Files :=
  if a.1 ∈ s.live then s.lookCall k a.1 a.2 else none

-- ---------------------------------------------------------------------------
-- What is to hold
-- ---------------------------------------------------------------------------

def looks (s : Files) (k : Backing) (p : Pid) : LookCall → List EntryId
  | .open name path _ =>
    if k.kernelBooted ∧ k.procmmCheckAddress name = 0 then [] else if (s.freeFd p).isNone then [] else path.entries
  | .close _ => []
  | .stat name st path =>
    if k.kernelBooted ∧ k.procmmCheckAddress name = 0 then []
    else if k.kernelBooted ∧ k.procmmCheckAddress st ≤ 1 then [] else path.entries
  | .readdir file what => if ((s.slot p file).bind (·.2.ino)).isSome then what.entries else []

/-- The inode of the entry, if there is one, is a node of the mount tree or not open. -/
def Shut (s : Files) (e : EntryId) : Prop :=
  ∀ n ∈ (s.entry e).buffer.bind s.inode, n.inTree = true ∨ n.users = 0

def Shuts (k : Backing) (s : Files) (a : Pid × LookCall) : Prop := ∀ e ∈ s.looks k a.1 a.2, s.Shut e

/-- No inode of the archive is in use, apart from those of the mount tree. -/
structure Quiet (s : Files) : Prop where
  consistent : s.Consistent
  entries : ∀ e, s.entry e = ⟨none, 0⟩ ∨
    ∃ b n, (s.entry e).buffer = some b ∧ s.inode b = some n ∧ n.inTree = true

def Leads (s : Files) (path : Path) : Prop :=
  ∀ i, .mounted i ∈ .mounted path.mount :: path.hops → ∃ n, s.inode i = some n ∧ n.inTree = true

/-- An entry that no descriptor refers to is as it was at first, unless its inode is a node of
the mount tree; the inode of a descriptor, and that of a lookup, is there. -/
structure Released (s : Files) : Prop where
  unused : ∀ e, (∀ b, (s.entry e).buffer = some b → s.slots b + s.kept b = 0 ∧
    ∀ n, s.inode b = some n → n.inTree = false) → s.entry e = ⟨none, 0⟩
  slot : ∀ {p i ino}, p ∈ s.live → i < numFiledes → s.slotIno (p, i) = some ino → ∃ n, s.inode ino = some n
  lookup : ∀ {path ino s'}, (∀ e ∈ path.entries, s.Shut e) → s.vfsNamei path = some (some ino, s') →
    ∃ n, s'.inode ino = some n
  found : ∀ {path}, (∀ e ∈ path.entries, s.Shut e) → s.Leads path → ∃ r, s.vfsNamei path = some r

/-- An entry counts the lookups that hold its inode, and one for all descriptors. -/
structure Ledger (s : Files) (held : Ino → Nat) : Prop where
  entry : ∀ {e b}, (s.entry e).buffer = some b → ∃ n, s.inode b = some n ∧ n.driver = .tarfs e
  idle : ∀ {e}, (s.entry e).buffer = none → (s.entry e).users = 0
  busy : ∀ {e b n}, (s.entry e).buffer = some b → s.inode b = some n → n.inTree = false →
    (s.entry e).users = (if n.users = 0 then 0 else 1) + held b ∧ 0 < (s.entry e).users
  alloc : ∀ {i}, 0 < held i → ∃ n, s.inode i = some n

def Loose (s : Files) (ino : Ino) : Prop :=
  ∃ n, s.inode ino = some n ∧ (n.inTree = true ∨ n.users = 0 ∧ ∃ e, n.driver = .tarfs e)

def Older (s s' : Files) : Prop := ∀ b n, s'.inode b = some n → 0 < n.users → s.inode b = some n

section
variable {s s' s'' : Files} {held : Ino → Nat} {ino cur : Ino} {n : Inode} {e : EntryId} {p : Pid} {r : Int}
  {rep : Reply}

theorem Older.refl : Older s s := fun _ _ h _ => h

theorem Older.trans (h1 : Older s s') (h2 : Older s' s'') : Older s s'' :=
  fun b n hn hpos => h1 b n (h2 b n hn hpos) hpos

theorem Ledger.congr (h : Ledger s held) (hinode : s'.inode = s.inode) (hentry : s'.entry = s.entry) :
    Ledger s' held := by
  refine ⟨?_, ?_, ?_, ?_⟩
  · rw [hinode, hentry]
    exact h.entry
  · rw [hentry]
    exact h.idle
  · rw [hinode, hentry]
    exact h.busy
  · rw [hinode]
    exact h.alloc

theorem Ledger.heldCongr {held' : Ino → Nat} (h : Ledger s held) (heq : ∀ i, held' i = held i) : Ledger s held' := by
  obtain rfl : held' = held := funext heq
  exact h

theorem Shut.older (hi : s.Intact) (h' : Ledger s' held) (ho : Older s s') (h : s.Shut e) : s'.Shut e := by
  intro n hn
  obtain ⟨b, hb, hn⟩ := Option.bind_eq_some_iff.mp hn
  obtain ⟨m, hm, hme⟩ := h'.entry hb
  obtain rfl := Option.some.inj (hn.symm.trans hm)
  rcases Nat.eq_zero_or_pos n.users with h0 | hpos
  · exact .inr h0
  · have hold := ho b n hn hpos
    exact h n (Option.bind_eq_some_iff.mpr ⟨b, hi.buffer hold hme, hold⟩)

-- ---------------------------------------------------------------------------
-- Getting an inode and giving it back
-- ---------------------------------------------------------------------------

theorem Ledger.again {b : Ino} (h : Ledger s held) (hb : (s.entry e).buffer = some b) (hinode : s'.inode = s.inode)
    (hentry : s'.entry e = { s.entry e with users := (s.entry e).users + 1 })
    (hother : ∀ e', e' ≠ e → s'.entry e' = s.entry e') : Ledger s' (held + ones (some b)) := by
  obtain ⟨n, hn, hne⟩ := h.entry hb
  have hbuffer : ∀ e', (s'.entry e').buffer = (s.entry e').buffer := by
    intro e'
    by_cases hee : e' = e
    · rw [hee, hentry]
    · rw [hother e' hee]
  refine ⟨fun {e' b'} hb' => ?_, fun {e'} hb' => ?_, fun {e' b' m} hb' hm ht => ?_, fun {i} hpos => ?_⟩
  · rw [hbuffer] at hb'
    rw [hinode]
    exact h.entry hb'
  · rw [hbuffer] at hb'
    have hee : e' ≠ e := by
      rintro rfl
      cases hb.symm.trans hb'
    rw [hother e' hee]
    exact h.idle hb'
  · rw [hbuffer] at hb'
    rw [hinode] at hm
    obtain ⟨husers, hpos⟩ := h.busy hb' hm ht
    by_cases hee : e' = e
    · subst hee
      obtain rfl := Option.some.inj (hb.symm.trans hb')
      rw [hentry, Pi.add_apply, ones_self, ← Nat.add_assoc, ← husers]
      exact ⟨rfl, Nat.succ_pos _⟩
    · have hbb : b' ≠ b := by
        rintro rfl
        obtain ⟨m', hm', hme'⟩ := h.entry hb'
        obtain rfl := Option.some.inj (hn.symm.trans hm')
        exact hee (Driver.tarfs.inj (hme'.symm.trans hne))
      rw [hother e' hee, Pi.add_apply, ones_of_ne hbb]
      exact ⟨husers, hpos⟩
  · rw [hinode]
    by_cases hib : i = b
    · exact ⟨n, hib ▸ hn⟩
    · rw [Pi.add_apply, ones_of_ne hib] at hpos
      exact h.alloc hpos

theorem Ledger.first (hi : s.Intact) (h : Ledger s held)
    (hnew : s'.inode s.nextIno = some ⟨.tarfs e, false, 0⟩) (hsame : ∀ i, i ≠ s.nextIno → s'.inode i = s.inode i)
    (hentry : s'.entry e = ⟨some s.nextIno, 1⟩) (hother : ∀ e', e' ≠ e → s'.entry e' = s.entry e') :
    Ledger s' (held + ones (some s.nextIno)) := by
  have hfresh := hi.freshIno (le_refl s.nextIno)
  have hheld : held s.nextIno = 0 := by
    by_contra hpos
    obtain ⟨n, hn⟩ := h.alloc (Nat.pos_of_ne_zero hpos)
    cases hfresh.symm.trans hn
  have hold : ∀ {e' b}, (s.entry e').buffer = some b → b ≠ s.nextIno := by
    rintro e' b hb' rfl
    obtain ⟨m, hm, -⟩ := h.entry hb'
    cases hfresh.symm.trans hm
  refine ⟨fun {e' b} hb' => ?_, fun {e'} hb' => ?_, fun {e' b m} hb' hm ht => ?_, fun {i} hpos => ?_⟩
  · by_cases hee : e' = e
    · subst hee
      rw [hentry] at hb'
      obtain rfl := Option.some.inj hb'
      exact ⟨_, hnew, rfl⟩
    · rw [hother e' hee] at hb'
      rw [hsame b (hold hb')]
      exact h.entry hb'
  · by_cases hee : e' = e
    · subst hee
      rw [hentry] at hb'
      cases hb'
    · rw [hother e' hee] at hb' ⊢
      exact h.idle hb'
  · by_cases hee : e' = e
    · subst hee
      rw [hentry] at hb' ⊢
      obtain rfl := Option.some.inj hb'
      obtain rfl := Option.some.inj (hnew.symm.trans hm)
      rw [Pi.add_apply, hheld, ones_self]
      exact ⟨rfl, Nat.one_pos⟩
    · rw [hother e' hee] at hb' ⊢
      have hbn := hold hb'
      rw [hsame b hbn] at hm
      rw [Pi.add_apply, ones_of_ne hbn]
      exact h.busy hb' hm ht
  · by_cases hin : i = s.nextIno
    · exact ⟨_, hin ▸ hnew⟩
    · rw [Pi.add_apply, ones_of_ne hin] at hpos
      rw [hsame i hin]
      exact h.alloc hpos

theorem Ledger.tarGetInode (hi : s.Intact) (h : Ledger s held) (e : EntryId) :
    Ledger (s.tarGetInode e).2 (held + ones (some (s.tarGetInode e).1)) ∧ Older s (s.tarGetInode e).2 ∧
      (s.Shut e → (s.tarGetInode e).2.Loose (s.tarGetInode e).1) := by
  unfold Files.tarGetInode
  cases hbuf : (s.entry e).buffer with
  | some b =>
    obtain ⟨n, hn, hne⟩ := h.entry hbuf
    refine ⟨h.again hbuf rfl ?_ fun e' hee => ?_, .refl, fun hshut => ⟨n, hn, ?_⟩⟩
    · simp [setEntry, hbuf]
    · simp [setEntry, hee]
    · exact (hshut n (Option.bind_eq_some_iff.mpr ⟨b, hbuf, hn⟩)).imp id fun h0 => ⟨h0, e, hne⟩
  | none =>
    have hnew : (s.setInode s.nextIno (some ⟨.tarfs e, false, 0⟩)).inode s.nextIno = some ⟨.tarfs e, false, 0⟩ :=
      Function.update_self ..
    have hsame : ∀ i, i ≠ s.nextIno → (s.setInode s.nextIno (some ⟨.tarfs e, false, 0⟩)).inode i = s.inode i :=
      fun i hne => Function.update_of_ne hne _ _
    refine ⟨h.first hi hnew hsame ?_ fun e' hee => ?_, fun b m hm hpos => ?_, fun _ => ⟨_, hnew, ?_⟩⟩
    · simp [setEntry]
    · simp [setEntry, setInode, hee]
    · have hm : (s.setInode s.nextIno (some ⟨.tarfs e, false, 0⟩)).inode b = some m := hm
      rwa [hsame] at hm
      rintro rfl
      obtain rfl := Option.some.inj (hnew.symm.trans hm)
      exact Nat.lt_irrefl 0 hpos
    · exact .inr ⟨rfl, e, rfl⟩

theorem Ledger.letGo (hi : s.Intact) (h : Ledger s (held + ones (some ino))) (hn : s.inode ino = some n)
    (h0 : n.users = 0) (he : n.driver = .tarfs e)
    (hinode : ∀ i, i ≠ ino → s'.inode i = s.inode i)
    (hino : s'.inode ino = if held ino = 0 then none else some n)
    (hentry : s'.entry e = if held ino = 0 then ⟨none, 0⟩ else ⟨some ino, held ino⟩)
    (hother : ∀ e', e' ≠ e → s'.entry e' = s.entry e') : Ledger s' held := by
  have hbuf := hi.buffer hn he
  have hbufne : ∀ {e' b}, e' ≠ e → (s.entry e').buffer = some b → b ≠ ino := by
    rintro e' b hee hb rfl
    obtain ⟨m, hm, hme⟩ := h.entry hb
    obtain rfl := Option.some.inj (hn.symm.trans hm)
    exact hee (Driver.tarfs.inj (hme.symm.trans he))
  have hheld : ∀ {i}, i ≠ ino → (held + ones (some ino)) i = held i := by
    intro i hne
    rw [Pi.add_apply, ones_of_ne hne, Nat.add_zero]
  refine ⟨fun {e' b} hb => ?_, fun {e'} hb => ?_, fun {e' b m} hb hm hmt => ?_, fun {i} hpos => ?_⟩
  · by_cases hee : e' = e
    · subst hee
      rw [hentry] at hb
      split at hb
      · cases hb
      · next hne =>
        obtain rfl := Option.some.inj hb
        exact ⟨n, hino.trans (if_neg hne), he⟩
    · rw [hother e' hee] at hb
      rw [hinode b (hbufne hee hb)]
      exact h.entry hb
  · by_cases hee : e' = e
    · subst hee
      rw [hentry] at hb ⊢
      split at hb
      · next hz => rw [if_pos hz]
      · cases hb
    · rw [hother e' hee] at hb ⊢
      exact h.idle hb
  · by_cases hee : e' = e
    · subst hee
      rw [hentry] at hb ⊢
      split at hb
      · cases hb
      · next hne =>
        obtain rfl := Option.some.inj hb
        obtain rfl := Option.some.inj ((hino.trans (if_neg hne)).symm.trans hm)
        rw [if_neg hne, if_pos h0, Nat.zero_add]
        exact ⟨rfl, Nat.pos_of_ne_zero hne⟩
    · rw [hother e' hee] at hb ⊢
      have hbi := hbufne hee hb
      rw [hinode b hbi] at hm
      rw [← hheld hbi]
      exact h.busy hb hm hmt
  · by_cases hii : i = ino
    · subst hii
      exact ⟨n, hino.trans (if_neg (Nat.ne_of_gt hpos))⟩
    · rw [hinode i hii]
      exact h.alloc ((hheld hii).symm ▸ hpos)

theorem Ledger.tree (hn : s.inode ino = some n) (ht : n.inTree = true) :
    Ledger s (held + ones (some ino)) ↔ Ledger s held := by
  have hheld : ∀ {i m}, s.inode i = some m → m.inTree = false → (held + ones (some ino)) i = held i := by
    intro i m hm hmt
    have hne : i ≠ ino := by
      rintro rfl
      obtain rfl := Option.some.inj (hn.symm.trans hm)
      cases ht.symm.trans hmt
    rw [Pi.add_apply, ones_of_ne hne, Nat.add_zero]
  refine ⟨fun h => ⟨h.entry, h.idle, fun hb hm hmt => ?_, fun {i} hpos => ?_⟩,
    fun h => ⟨h.entry, h.idle, fun hb hm hmt => ?_, fun {i} hpos => ?_⟩⟩
  · rw [← hheld hm hmt]
    exact h.busy hb hm hmt
  · exact h.alloc (Nat.add_pos_left hpos _)
  · rw [hheld hm hmt]
    exact h.busy hb hm hmt
  · by_cases hii : i = ino
    · exact ⟨n, hii ▸ hn⟩
    · rw [Pi.add_apply, ones_of_ne hii] at hpos
      exact h.alloc hpos

theorem Ledger.flushTar (hi : s.Intact) (h : Ledger s (held + ones (some ino))) (hn : s.inode ino = some n)
    (ht : n.inTree = false) (h0 : n.users = 0) (he : n.driver = .tarfs e) :
    Ledger (s.flushTar e) held ∧ ∀ i, (s.flushTar e).inode i = none ∨ (s.flushTar e).inode i = s.inode i := by
  have hbuf := hi.buffer hn he
  have husers := (h.busy hbuf hn ht).1
  rw [if_pos h0, Pi.add_apply, ones_self, Nat.zero_add] at husers
  have hdecr : decr (s.entry e).users = held ino := by
    rw [husers, decr, if_neg (Nat.succ_ne_zero _), Nat.add_sub_cancel]
  unfold Files.flushTar
  by_cases hz : held ino = 0
  · simp only [hdecr, hz, if_true, hbuf]
    refine ⟨h.letGo hi hn h0 he (fun i hne => ?_) ?_ ?_ fun e' hee => ?_, fun i => ?_⟩
    · simp [setEntry, setInode, hne]
    · simp [setEntry, setInode, hz]
    · simp [setEntry, hz]
    · simp [setEntry, setInode, hee]
    · by_cases hii : i = ino
      · exact .inl (by simp [setEntry, setInode, hii])
      · exact .inr (by simp [setEntry, setInode, hii])
  · simp only [hdecr, hz, if_false, hbuf]
    refine ⟨h.letGo hi hn h0 he (fun i hne => rfl) ?_ ?_ fun e' hee => ?_, fun i => .inr rfl⟩
    · simp [setEntry, hz, hn]
    · simp [setEntry, hz]
    · simp [setEntry, hee]

theorem Older.of_freed (h : ∀ i, s'.inode i = none ∨ s'.inode i = s.inode i) : Older s s' := by
  intro b n hn _
  rcases h b with hnone | hsame
  · cases hnone.symm.trans hn
  · exact hsame ▸ hn

theorem Ledger.vfsFree (hi : s.Intact) (h : Ledger s (held + ones (some ino))) (hloose : s.Loose ino)
    (hs : s.vfsFree ino = some s') : Ledger s' held ∧ ∀ i, s'.inode i = none ∨ s'.inode i = s.inode i := by
  obtain ⟨n, hn, hloose⟩ := hloose
  obtain ⟨n', hn', hs⟩ := Option.bind_eq_some_iff.mp hs
  obtain rfl := Option.some.inj (hn.symm.trans hn')
  cases ht : n.inTree with
  | true =>
    rw [if_pos ht] at hs
    obtain rfl := Option.some.inj hs
    exact ⟨(Ledger.tree hn ht).mp h, fun _ => .inr rfl⟩
  | false =>
    obtain ⟨h0, e, he⟩ := hloose.resolve_left (by simp [ht])
    rw [if_neg (by simp [ht]), if_neg (by omega), he] at hs
    obtain rfl := Option.some.inj hs
    exact h.flushTar hi hn ht h0 he

-- ---------------------------------------------------------------------------
-- Lookups
-- ---------------------------------------------------------------------------

/-- What has been freed is not what a lookup still holds. -/
theorem Loose.freed (h' : Ledger s' (held + ones (some ino))) (hfreed : ∀ i, s'.inode i = none ∨ s'.inode i = s.inode i)
    (hloose : s.Loose ino) : s'.Loose ino := by
  obtain ⟨n, hn, hor⟩ := hloose
  obtain ⟨m, hm⟩ := h'.alloc (i := ino) (by rw [Pi.add_apply, ones_self]; exact Nat.succ_pos _)
  rcases hfreed ino with hnone | hsame
  · cases hnone.symm.trans hm
  · exact ⟨n, hsame.trans hn, hor⟩

theorem Ledger.vfsFinddir {hop : Hop} (hi : s.Intact) (h : Ledger s held)
    (hshut : ∀ e, hop = .entry e → s.Shut e) (hs : s.vfsFinddir hop = some (ino, s')) :
    s'.Intact ∧ Ledger s' (held + ones (some ino)) ∧ Older s s' ∧ s'.Loose ino := by
  cases hop with
  | mounted i =>
    obtain ⟨n, hn, hs⟩ := Option.bind_eq_some_iff.mp hs
    split at hs
    · next ht =>
      obtain ⟨rfl, rfl⟩ := Prod.mk.inj (Option.some.inj hs)
      exact ⟨hi, (Ledger.tree hn ht).mpr h, .refl, n, hn, .inl ht⟩
    · cases hs
  | entry e =>
    obtain ⟨rfl, rfl⟩ := Prod.mk.inj (Option.some.inj hs)
    obtain ⟨h1, ho, hloose⟩ := h.tarGetInode hi e
    exact ⟨(hi.tarGetInode e).1, h1, ho, hloose (hshut e rfl)⟩

theorem tarGetInode_inode {i : Ino} (hi : s.Intact) (hn : s.inode i = some n) (e : EntryId) :
    (s.tarGetInode e).2.inode i = some n := by
  unfold Files.tarGetInode
  cases (s.entry e).buffer with
  | some b => exact hn
  | none =>
    have hne : i ≠ s.nextIno := by
      rintro rfl
      cases (hi.freshIno le_rfl).symm.trans hn
    exact (Function.update_of_ne hne _ _).trans hn

theorem vfsFinddir_inode {hop : Hop} {i : Ino} (hi : s.Intact) (hn : s.inode i = some n)
    (hs : s.vfsFinddir hop = some (ino, s')) : s'.inode i = some n := by
  cases hop with
  | mounted j =>
    obtain ⟨m, -, hs⟩ := Option.bind_eq_some_iff.mp hs
    split at hs
    · obtain ⟨-, rfl⟩ := Prod.mk.inj (Option.some.inj hs)
      exact hn
    · cases hs
  | entry e =>
    have hs := (Prod.mk.inj (Option.some.inj hs)).2
    exact hs ▸ tarGetInode_inode hi hn e

theorem Ledger.hop {hop : Hop} {next : Ino} (hi : s.Intact) (h : Ledger s (held + ones (some cur))) (hloose : s.Loose cur)
    (hshut : ∀ e, hop = .entry e → s.Shut e) (hfind : s.vfsFinddir hop = some (next, s'))
    (hfree : s'.vfsFree cur = some s'') :
    s''.Intact ∧ Ledger s'' (held + ones (some next)) ∧ Older s s'' ∧ s''.Loose next := by
  obtain ⟨hi1, h1, ho1, hloose1⟩ := h.vfsFinddir hi hshut hfind
  have hcur1 : s'.Loose cur := by
    obtain ⟨n, hn, hor⟩ := hloose
    exact ⟨n, vfsFinddir_inode hi hn hfind, hor⟩
  have h1' : Ledger s' (held + ones (some next) + ones (some cur)) :=
    h1.heldCongr fun i => by simp only [Pi.add_apply]; omega
  obtain ⟨h2, hfreed⟩ := h1'.vfsFree hi1 hcur1 hfree
  exact ⟨(hi1.vfsFree hfree).1, h2, ho1.trans (Older.of_freed hfreed), hloose1.freed h2 hfreed⟩

theorem Ledger.walk {missing : Bool} {hops : List Hop} {o : Option Ino} (hi : s.Intact)
    (h : Ledger s (held + ones (some cur))) (hloose : s.Loose cur)
    (hshut : ∀ e, Hop.entry e ∈ hops → s.Shut e) (hs : s.walk cur missing hops = some (o, s')) :
    s'.Intact ∧ Ledger s' (held + ones o) ∧ Older s s' ∧ ∀ i, o = some i → s'.Loose i := by
  induction hops generalizing s cur with
  | nil =>
    unfold Files.walk at hs
    split at hs
    · obtain ⟨s1, hfree, hs⟩ := Option.bind_eq_some_iff.mp hs
      obtain ⟨rfl, rfl⟩ := Prod.mk.inj (Option.some.inj hs)
      obtain ⟨h1, hfreed⟩ := h.vfsFree hi hloose hfree
      exact ⟨(hi.vfsFree hfree).1, h1.heldCongr fun i => by simp, .of_freed hfreed, fun _ hnone => by cases hnone⟩
    · obtain ⟨rfl, rfl⟩ := Prod.mk.inj (Option.some.inj hs)
      refine ⟨hi, h, .refl, fun i hcur => ?_⟩
      obtain rfl := Option.some.inj hcur
      exact hloose
  | cons hop hops ih =>
    obtain ⟨⟨next, s1⟩, hfind, hs⟩ := Option.bind_eq_some_iff.mp hs
    obtain ⟨s2, hfree, hs⟩ := Option.bind_eq_some_iff.mp hs
    obtain ⟨hi2, h2, ho2, hloose2⟩ := h.hop hi hloose (fun e he => hshut e (he ▸ List.mem_cons_self)) hfind hfree
    obtain ⟨hi3, h3, ho3, hloose3⟩ := ih hi2 h2 hloose2
      (fun e he => (hshut e (List.mem_cons_of_mem _ he)).older hi h2 ho2) hs
    exact ⟨hi3, h3, ho2.trans ho3, hloose3⟩

theorem Ledger.vfsNamei {path : Path} {o : Option Ino} (hi : s.Intact) (h : Ledger s held)
    (hshut : ∀ e ∈ path.entries, s.Shut e) (hs : s.vfsNamei path = some (o, s')) :
    s'.Intact ∧ Ledger s' (held + ones o) ∧ ∀ i, o = some i → s'.Loose i := by
  obtain ⟨⟨root, s1⟩, hfind, hs⟩ := Option.bind_eq_some_iff.mp hs
  obtain ⟨hi1, h1, ho1, hloose1⟩ := h.vfsFinddir hi (fun e he => by cases he) hfind
  have hshut1 : ∀ e, Hop.entry e ∈ path.hops → s1.Shut e := fun e he =>
    (hshut e (List.mem_filterMap.mpr ⟨_, he, rfl⟩)).older hi h1 ho1
  obtain ⟨hi2, h2, -, hloose2⟩ := h1.walk hi1 hloose1 hshut1 hs
  exact ⟨hi2, h2, hloose2⟩

theorem vfsFree_tree {i : Ino} {m : Inode} (hi : s.Intact) (hm : s.inode i = some m) (ht : m.inTree = true)
    (hs : s.vfsFree ino = some s') : s'.inode i = some m := by
  obtain ⟨n, hn, hs⟩ := Option.bind_eq_some_iff.mp hs
  split at hs
  · exact Option.some.inj hs ▸ hm
  · next hnt =>
    have hne : i ≠ ino := by
      rintro rfl
      obtain rfl := Option.some.inj (hn.symm.trans hm)
      exact hnt ht
    split at hs
    · exact Option.some.inj hs ▸ hm
    · split at hs
      · next e he =>
        rw [← Option.some.inj hs, Files.flushTar, hi.buffer hn he]
        split
        · exact (Function.update_of_ne hne _ _).trans hm
        · exact hm
      · exact Option.some.inj hs ▸ (Function.update_of_ne hne _ _).trans hm
      · exact Option.some.inj hs ▸ (Function.update_of_ne hne _ _).trans hm

theorem Loose.vfsFree (h : s.Loose ino) : ∃ s', s.vfsFree ino = some s' := by
  obtain ⟨n, hn, ht | ⟨h0, e, he⟩⟩ := h
  · exact ⟨s, by simp [Files.vfsFree, hn, ht]⟩
  · by_cases ht : n.inTree = true
    · exact ⟨s, by simp [Files.vfsFree, hn, ht]⟩
    · exact ⟨s.flushTar e, by simp [Files.vfsFree, hn, ht, h0, he]⟩

theorem vfsFinddir_some {hop : Hop} (h : ∀ i, hop = .mounted i → ∃ n, s.inode i = some n ∧ n.inTree = true) :
    ∃ r, s.vfsFinddir hop = some r := by
  cases hop with
  | mounted i =>
    obtain ⟨n, hn, ht⟩ := h i rfl
    exact ⟨(i, s), by simp [Files.vfsFinddir, hn, ht]⟩
  | entry e => exact ⟨s.tarGetInode e, rfl⟩

theorem Ledger.walk_some {missing : Bool} {hops : List Hop} (hi : s.Intact) (h : Ledger s (held + ones (some cur)))
    (hloose : s.Loose cur) (hshut : ∀ e, Hop.entry e ∈ hops → s.Shut e)
    (htree : ∀ i, Hop.mounted i ∈ hops → ∃ n, s.inode i = some n ∧ n.inTree = true) :
    ∃ r, s.walk cur missing hops = some r := by
  induction hops generalizing s cur with
  | nil =>
    obtain ⟨s1, hfree⟩ := hloose.vfsFree
    cases missing with
    | true => exact ⟨(none, s1), by simp [Files.walk, hfree]⟩
    | false => exact ⟨(some cur, s), rfl⟩
  | cons hop hops ih =>
    obtain ⟨⟨next, s1⟩, hfind⟩ := @vfsFinddir_some s hop fun i hhop => htree i (hhop ▸ List.mem_cons_self)
    have hcur1 : s1.Loose cur := by
      obtain ⟨n, hn, hor⟩ := hloose
      exact ⟨n, vfsFinddir_inode hi hn hfind, hor⟩
    obtain ⟨s2, hfree⟩ := hcur1.vfsFree
    have hi1 := (h.vfsFinddir hi (fun e he => hshut e (he ▸ List.mem_cons_self)) hfind).1
    obtain ⟨hi2, h2, ho2, hloose2⟩ := h.hop hi hloose (fun e he => hshut e (he ▸ List.mem_cons_self)) hfind hfree
    obtain ⟨r, hr⟩ := ih hi2 h2 hloose2 (fun e he => (hshut e (List.mem_cons_of_mem _ he)).older hi h2 ho2) fun i hhop => by
      obtain ⟨n, hn, ht⟩ := htree i (List.mem_cons_of_mem _ hhop)
      exact ⟨n, vfsFree_tree hi1 (vfsFinddir_inode hi hn hfind) ht hfree, ht⟩
    exact ⟨r, by simp [Files.walk, hfind, hfree, hr]⟩

theorem Ledger.vfsNamei_some {path : Path} (hi : s.Intact) (h : Ledger s held) (hshut : ∀ e ∈ path.entries, s.Shut e)
    (hleads : s.Leads path) : ∃ r, s.vfsNamei path = some r := by
  obtain ⟨n, hn, ht⟩ := hleads path.mount List.mem_cons_self
  have hfind : s.vfsFinddir (.mounted path.mount) = some (path.mount, s) := by simp [Files.vfsFinddir, hn, ht]
  obtain ⟨-, h1, -, hloose⟩ := h.vfsFinddir hi (fun e he => by cases he) hfind
  obtain ⟨r, hr⟩ : ∃ r, s.walk path.mount path.missing path.hops = some r :=
    h1.walk_some hi hloose (fun e he => hshut e (List.mem_filterMap.mpr ⟨_, he, rfl⟩)) fun i hhop =>
      hleads i (List.mem_cons_of_mem _ hhop)
  exact ⟨r, by rw [Files.vfsNamei, hfind]; exact hr⟩

-- ---------------------------------------------------------------------------
-- Calls
-- ---------------------------------------------------------------------------

theorem Ledger.vfsOpen (h : Ledger s (held + ones (some ino))) (hloose : s.Loose ino)
    (hs : s.vfsOpen ino = some (r, s')) : Ledger s' held := by
  have hr := (vfsOpen_recounts hs).1
  obtain ⟨n, hn, hor⟩ := hloose
  obtain ⟨n', hn', hinode, -⟩ := hr.inode
  obtain rfl := Option.some.inj (hn.symm.trans hn')
  refine ⟨fun {e b} hb => ?_, ?_, fun {e b m} hb hm hmt => ?_, fun {i} hpos => ?_⟩
  · rw [hr.entry] at hb
    rw [hinode]
    obtain ⟨m, hm, hme⟩ := h.entry hb
    by_cases hbi : b = ino
    · subst hbi
      obtain rfl := Option.some.inj (hn.symm.trans hm)
      exact ⟨_, Function.update_self .., hme⟩
    · exact ⟨m, (Function.update_of_ne hbi _ _).trans hm, hme⟩
  · rw [hr.entry]
    exact h.idle
  · rw [hr.entry] at hb ⊢
    rw [hinode] at hm
    by_cases hbi : b = ino
    · subst hbi
      rw [Function.update_self] at hm
      obtain rfl := Option.some.inj hm
      obtain ⟨husers, hpos⟩ := h.busy hb hn hmt
      have h0 : n.users = 0 := (hor.resolve_left (by simpa using hmt)).1
      rw [if_pos h0, Pi.add_apply, ones_self, Nat.zero_add] at husers
      rw [if_neg (Nat.succ_ne_zero _), Nat.add_comm 1]
      exact ⟨husers, hpos⟩
    · rw [Function.update_of_ne hbi] at hm
      have hbusy := h.busy hb hm hmt
      rwa [Pi.add_apply, ones_of_ne hbi] at hbusy
  · rw [hinode]
    by_cases hii : i = ino
    · rw [hii]
      exact ⟨_, Function.update_self ..⟩
    · rw [Function.update_of_ne hii]
      exact h.alloc (Nat.add_pos_left hpos _)

/-- The last descriptor that is closed leaves its reference to `vfs_free`. -/
theorem Ledger.vfsClose (h : Ledger s held) (hn : s.inode ino = some n) (hpos : 0 < n.users)
    (hs : s.vfsClose ino = some (r, s')) :
    s'.inode ino = some { n with users := n.users - 1 } ∧
      Ledger s' (held + if n.users = 1 then ones (some ino) else fun _ => 0) := by
  have hr := (vfsClose_recounts hs).1
  obtain ⟨n', hn', hinode, -⟩ := hr.inode
  obtain rfl := Option.some.inj (hn.symm.trans hn')
  have hdecr : decr n.users = n.users - 1 := if_neg (Nat.ne_of_gt hpos)
  rw [hdecr] at hinode
  have hother : ∀ {i}, i ≠ ino → (if n.users = 1 then ones (some ino) else fun _ => 0) i = 0 := by
    intro i hne
    split
    · exact ones_of_ne hne
    · rfl
  refine ⟨hinode ▸ Function.update_self .., fun {e b} hb => ?_, ?_, fun {e b m} hb hm hmt => ?_, fun {i} hipos => ?_⟩
  · rw [hr.entry] at hb
    rw [hinode]
    obtain ⟨m, hm, hme⟩ := h.entry hb
    by_cases hbi : b = ino
    · subst hbi
      obtain rfl := Option.some.inj (hn.symm.trans hm)
      exact ⟨_, Function.update_self .., hme⟩
    · exact ⟨m, (Function.update_of_ne hbi _ _).trans hm, hme⟩
  · rw [hr.entry]
    exact h.idle
  · rw [hr.entry] at hb ⊢
    rw [hinode] at hm
    by_cases hbi : b = ino
    · subst hbi
      rw [Function.update_self] at hm
      obtain rfl := Option.some.inj hm
      obtain ⟨husers, hupos⟩ := h.busy hb hn hmt
      refine ⟨?_, hupos⟩
      rw [husers, if_neg (Nat.ne_of_gt hpos), Pi.add_apply]
      by_cases h1 : n.users = 1
      · rw [if_pos (by simp [h1]), if_pos h1, ones_self, Nat.zero_add, Nat.add_comm]
      · have hne : n.users - 1 ≠ 0 := by omega
        rw [if_neg hne, if_neg h1, Nat.add_zero]
    · rw [Function.update_of_ne hbi] at hm
      rw [Pi.add_apply, hother hbi]
      exact h.busy hb hm hmt
  · rw [hinode]
    by_cases hii : i = ino
    · rw [hii]
      exact ⟨_, Function.update_self ..⟩
    · rw [Pi.add_apply, hother hii] at hipos
      rw [Function.update_of_ne hii]
      exact h.alloc hipos

theorem Ledger.other (h : Ledger s fun _ => 0) (hn : s.inode ino = some n) (hne : ∀ e, n.driver ≠ .tarfs e) :
    Ledger (s.setInode ino none) fun _ => 0 := by
  have hbuf : ∀ {e b}, (s.entry e).buffer = some b → b ≠ ino := by
    rintro e b hb rfl
    obtain ⟨m, hm, hme⟩ := h.entry hb
    obtain rfl := Option.some.inj (hn.symm.trans hm)
    exact hne e hme
  refine ⟨fun hb => ?_, h.idle, fun hb hm hmt => ?_, fun hpos => absurd hpos (Nat.lt_irrefl 0)⟩
  · obtain ⟨m, hm, hme⟩ := h.entry hb
    exact ⟨m, (Function.update_of_ne (hbuf hb) _ _).trans hm, hme⟩
  · exact h.busy hb ((Function.update_of_ne (hbuf hb) _ _).symm.trans hm) hmt

structure Settled (s : Files) : Prop where
  consistent : s.Consistent
  ledger : Ledger s fun _ => 0

theorem Consistent.intact (h : s.Consistent) : s.Intact :=
  ⟨Balanced.freshDesc h, Balanced.freshIno h, Balanced.buffer h⟩

theorem Consistent.same (hb : Balanced s' s.kept fun _ => 0) (hs : SameFds s s') : s'.Consistent :=
  hb.congr (fun _ => by rw [hs.kept]) fun _ => rfl

theorem Quiet.settled (h : s.Quiet) : s.Settled := by
  refine ⟨h.consistent, Balanced.entry h.consistent, fun {e} hb => ?_, fun {e b n} hb hn ht => ?_,
    fun hpos => absurd hpos (Nat.lt_irrefl 0)⟩
  · rcases h.entries e with hnone | ⟨b, n, hb', -⟩
    · rw [hnone]
    · cases hb.symm.trans hb'
  · rcases h.entries e with hnone | ⟨b', n', hb', hn', ht'⟩
    · rw [hnone] at hb
      cases hb
    · obtain rfl := Option.some.inj (hb.symm.trans hb')
      obtain rfl := Option.some.inj (hn.symm.trans hn')
      cases ht.symm.trans ht'

theorem Settled.released (h : s.Settled) : s.Released := by
  refine ⟨fun e hun => ?_, h.consistent.counted.alloc, fun {path ino s'} hshut hs => ?_,
    fun hshut hleads => h.ledger.vfsNamei_some h.consistent.intact hshut hleads⟩
  · cases hb : (s.entry e).buffer with
    | none =>
      have h0 := h.ledger.idle hb
      cases hentry : s.entry e with
      | mk b u =>
        rw [hentry] at hb h0
        rw [show b = none from hb, show u = 0 from h0]
    | some b =>
      obtain ⟨hzero, htree⟩ := hun b hb
      obtain ⟨n, hn, -⟩ := h.ledger.entry hb
      obtain ⟨husers, hpos⟩ := h.ledger.busy hb hn (htree n hn)
      rw [if_pos ((h.consistent.counted.users hn).trans hzero)] at husers
      omega
  · obtain ⟨-, -, hloose⟩ := h.ledger.vfsNamei h.consistent.intact hshut hs
    obtain ⟨n, hn, -⟩ := hloose ino rfl
    exact ⟨n, hn⟩

theorem Settled.open (h : s.Settled) {path : Path} {flags : Nat} (hp : p ∈ s.live)
    (hshut : (s.freeFd p).isNone = false → ∀ e ∈ path.entries, s.Shut e)
    (hs : s.open p path flags = some (rep, s')) : s'.Settled := by
  refine ⟨h.consistent.open hp hs, ?_⟩
  unfold Files.open at hs
  cases hfree : s.freeFd p with
  | none =>
    rw [hfree] at hs
    obtain ⟨-, rfl⟩ := Prod.mk.inj (Option.some.inj hs)
    exact h.ledger
  | some i =>
    rw [hfree] at hs
    obtain ⟨⟨node, s1⟩, hnamei, hs⟩ := Option.bind_eq_some_iff.mp hs
    have h0 : Ledger (s.allocFd p i).2 fun _ => 0 := h.ledger.congr rfl rfl
    obtain ⟨hi1, h1, hloose⟩ := h0.vfsNamei h.consistent.intact.allocFd (hshut (by simp [hfree])) hnamei
    cases node with
    | none =>
      obtain ⟨s2, hput, hs⟩ := Option.bind_eq_some_iff.mp hs
      obtain ⟨-, rfl⟩ := Prod.mk.inj (Option.some.inj hs)
      obtain ⟨f, -, hput⟩ := Option.bind_eq_some_iff.mp hput
      obtain rfl := Option.some.inj hput
      have h1 : Ledger s1 fun _ => 0 := h1.heldCongr fun i => by simp
      exact h1.congr rfl rfl
    | some node =>
      obtain ⟨⟨r, s2⟩, hopen, hs⟩ := Option.bind_eq_some_iff.mp hs
      have hr := (vfsOpen_recounts hopen).2
      change (if r < 0 then _ else _) = _ at hs
      rw [if_neg (by omega)] at hs
      obtain ⟨f, -, hs⟩ := Option.bind_eq_some_iff.mp hs
      obtain ⟨-, rfl⟩ := Prod.mk.inj (Option.some.inj hs)
      have h2 := h1.vfsOpen (hloose node rfl) hopen
      exact h2.congr rfl rfl

theorem Ledger.closeFree {s1 s2 : Files} (hi : s.Intact) (h : Ledger s fun _ => 0) (hn : s.inode ino = some n)
    (hpos : 0 < n.users) (hclose : s.vfsClose ino = some (r, s1)) (hfree : s1.vfsFree ino = some s2) :
    Ledger s2 fun _ => 0 := by
  obtain ⟨hn1, h1⟩ := h.vfsClose hn hpos hclose
  have hi1 := hi.recounts (vfsClose_recounts hclose).1
  obtain ⟨m, hm, hfree'⟩ := Option.bind_eq_some_iff.mp hfree
  obtain rfl := Option.some.inj (hn1.symm.trans hm)
  by_cases hlast : n.users = 1
  · rw [if_pos hlast] at h1
    by_cases htar : n.inTree = true ∨ ∃ e, n.driver = .tarfs e
    · refine (h1.vfsFree hi1 ⟨_, hn1, htar.imp id fun he => ⟨?_, he⟩⟩ hfree).1
      rw [hlast]
    · obtain ⟨ht, hne⟩ := not_or.mp htar
      have h1 : Ledger s1 fun _ => 0 := by
        refine ⟨h1.entry, h1.idle, fun {e b k} hb hk hkt => ?_, fun hpos => absurd hpos (Nat.lt_irrefl 0)⟩
        have hbi : b ≠ ino := by
          rintro rfl
          obtain ⟨k', hk', hke⟩ := h1.entry hb
          obtain rfl := Option.some.inj (hn1.symm.trans hk')
          exact hne ⟨e, hke⟩
        have hbusy := h1.busy hb hk hkt
        rwa [Pi.add_apply, ones_of_ne hbi] at hbusy
      have hfreed := h1.other hn1 fun e he => hne ⟨e, he⟩
      rw [if_neg ht, if_neg (by rw [hlast]; exact Nat.lt_irrefl 0)] at hfree'
      cases hd : n.driver with
      | tarfs e => exact absurd ⟨e, hd⟩ hne
      | pipe k e =>
        simp only [hd] at hfree'
        obtain rfl := Option.some.inj hfree'
        exact hfreed
      | debug =>
        simp only [hd] at hfree'
        obtain rfl := Option.some.inj hfree'
        exact hfreed
  · rw [if_neg hlast] at h1
    have hstill : 0 < n.users - 1 := by omega
    have hsame : s1 = s2 := by
      by_cases ht : n.inTree = true
      · rw [if_pos ht] at hfree'
        exact Option.some.inj hfree'
      · rw [if_neg ht, if_pos hstill] at hfree'
        exact Option.some.inj hfree'
    exact hsame ▸ h1

theorem Settled.close (h : s.Settled) {file : Int} (hp : p ∈ s.live) (hs : s.close p file = some (rep, s')) :
    s'.Settled := by
  refine ⟨h.consistent.close hp hs, ?_⟩
  obtain ⟨i, hi, hs⟩ := Option.bind_eq_some_iff.mp hs
  obtain ⟨d, hd, hs⟩ := Option.bind_eq_some_iff.mp hs
  obtain ⟨f, hf, hs⟩ := Option.bind_eq_some_iff.mp hs
  cases hfi : f.ino with
  | none =>
    rw [hfi] at hs
    obtain ⟨-, rfl⟩ := Prod.mk.inj (Option.some.inj hs)
    exact h.ledger
  | some ino =>
    rw [hfi] at hs
    obtain ⟨⟨r, s1⟩, hclose, hs⟩ := Option.bind_eq_some_iff.mp hs
    obtain ⟨s2, hfree, hs⟩ := Option.bind_eq_some_iff.mp hs
    obtain ⟨s3, hput, hs⟩ := Option.bind_eq_some_iff.mp hs
    obtain ⟨-, rfl⟩ := Prod.mk.inj (Option.some.inj hs)
    obtain ⟨g, -, hput⟩ := Option.bind_eq_some_iff.mp hput
    obtain rfl := Option.some.inj hput
    -- the slot that is closed counts
    have hslot : s.slotIno (p, i) = some ino := (slotIno_of_desc (x := (p, i)) hd hf).trans hfi
    have hcell : (p, i) ∈ s.cells := mem_cells.mpr ⟨hp, (index_some hi).1⟩
    obtain ⟨n, hn⟩ := h.consistent.counted.alloc hp (index_some hi).1 hslot
    have hpos : 0 < n.users := by
      rw [h.consistent.counted.users hn]
      exact Nat.add_pos_left (count_pos hcell hslot) _
    exact (h.ledger.closeFree h.consistent.intact hn hpos hclose hfree).congr rfl rfl

theorem Balanced.vfsFinddir {h : Ino → Nat} {hd : DescId → Nat} {hop : Hop} (hb : Balanced s h hd)
    (hs : s.vfsFinddir hop = some (ino, s')) : Balanced s' h hd ∧ SameFds s s' := by
  cases hop with
  | mounted i =>
    obtain ⟨n, -, hs⟩ := Option.bind_eq_some_iff.mp hs
    split at hs
    · obtain ⟨-, rfl⟩ := Prod.mk.inj (Option.some.inj hs)
      exact ⟨hb, .refl⟩
    · cases hs
  | entry e =>
    have hs := (Prod.mk.inj (Option.some.inj hs)).2
    exact hs ▸ hb.tarGetInode e

structure Holding (s : Files) (ino : Ino) : Prop where
  balanced : Balanced s s.kept fun _ => 0
  intact : s.Intact
  ledger : Ledger s ((fun _ => 0) + ones (some ino))
  loose : s.Loose ino

theorem Holding.vfsFree (h : s.Holding ino) (hs : s.vfsFree ino = some s') : s'.Settled := by
  obtain ⟨hb', hsame⟩ := h.balanced.vfsFree hs
  exact ⟨Consistent.same hb' hsame, (h.ledger.vfsFree h.intact h.loose hs).1⟩

theorem Settled.vfsFinddir {hop : Hop} (h : s.Settled) (hshut : ∀ e, hop = .entry e → s.Shut e)
    (hs : s.vfsFinddir hop = some (ino, s')) : s'.Holding ino := by
  obtain ⟨hb, hsame⟩ := Balanced.vfsFinddir h.consistent hs
  obtain ⟨hi, hl, -, hloose⟩ := h.ledger.vfsFinddir h.consistent.intact hshut hs
  exact ⟨hsame.kept ▸ hb, hi, hl, hloose⟩

theorem Settled.stat (h : s.Settled) {k : Backing} {name st : Nat} {path : Path} {a : Answer}
    (hshut : ¬(k.kernelBooted ∧ k.procmmCheckAddress name = 0) → ¬(k.kernelBooted ∧ k.procmmCheckAddress st ≤ 1) →
      ∀ e ∈ path.entries, s.Shut e)
    (hs : s.stat k name st path = some (a, s')) : s'.Settled := by
  unfold Files.stat at hs
  split at hs
  · obtain ⟨-, rfl⟩ := Prod.mk.inj (Option.some.inj hs)
    exact h
  next hname =>
  split at hs
  · obtain ⟨-, rfl⟩ := Prod.mk.inj (Option.some.inj hs)
    exact h
  next hst =>
  obtain ⟨⟨o, s1⟩, hnamei, hrest⟩ := Option.bind_eq_some_iff.mp hs
  obtain ⟨node, rfl, hfound⟩ := Option.bind_eq_some_iff.mp hrest
  obtain ⟨n, -, hfound⟩ := Option.bind_eq_some_iff.mp hfound
  obtain ⟨s2, hfree, hs⟩ := Option.bind_eq_some_iff.mp hfound
  obtain ⟨hi1, h1, hloose⟩ := h.ledger.vfsNamei h.consistent.intact (hshut hname hst) hnamei
  obtain ⟨hb1, hsame1⟩ := Balanced.vfsNamei h.consistent hnamei
  have hholding : s1.Holding node := ⟨hsame1.kept ▸ hb1, hi1, h1, hloose node rfl⟩
  have h2 := hholding.vfsFree hfree
  split at hs
  · obtain ⟨-, rfl⟩ := Prod.mk.inj (Option.some.inj hs)
    exact h2
  · obtain ⟨-, rfl⟩ := Prod.mk.inj (Option.some.inj hs)
    exact h2

theorem Settled.vfsReaddir (h : s.Settled) {what : Listing} {o : Option Ino} (hshut : ∀ e ∈ what.entries, s.Shut e)
    (hs : s.vfsReaddir what = some (o, s')) : (o = none ∧ s' = s) ∨ ∃ i, o = some i ∧ s'.Holding i := by
  have hentry : ∀ {e}, e ∈ what.entries → ∀ e', Hop.entry e = .entry e' → s.Shut e' := by
    rintro e he e' ⟨⟩
    exact hshut e he
  cases what with
  | nothing =>
    obtain ⟨rfl, rfl⟩ := Prod.mk.inj (Option.some.inj hs)
    exact .inl ⟨rfl, rfl⟩
  | mounted i =>
    obtain ⟨⟨j, s1⟩, hfind, hs⟩ := Option.bind_eq_some_iff.mp hs
    obtain ⟨rfl, rfl⟩ := Prod.mk.inj (Option.some.inj hs)
    exact .inr ⟨j, rfl, h.vfsFinddir (fun e he => by cases he) hfind⟩
  | entry e =>
    obtain ⟨rfl, rfl⟩ := Prod.mk.inj (Option.some.inj hs)
    have hget : s.vfsFinddir (.entry e) = some (s.tarGetInode e) := rfl
    exact .inr ⟨_, rfl, h.vfsFinddir (hentry List.mem_cons_self) hget⟩
  | covered e i =>
    obtain ⟨s2, hfree, hs⟩ := Option.bind_eq_some_iff.mp hs
    obtain ⟨⟨j, s3⟩, hfind, hs⟩ := Option.bind_eq_some_iff.mp hs
    obtain ⟨rfl, rfl⟩ := Prod.mk.inj (Option.some.inj hs)
    have hget : s.vfsFinddir (.entry e) = some (s.tarGetInode e) := rfl
    have h2 := (h.vfsFinddir (hentry List.mem_cons_self) hget).vfsFree hfree
    exact .inr ⟨j, rfl, h2.vfsFinddir (fun e he => by cases he) hfind⟩

theorem Settled.readdir (h : s.Settled) {file : Int} {what : Listing} {a : Answer}
    (hshut : ((s.slot p file).bind (·.2.ino)).isSome → ∀ e ∈ what.entries, s.Shut e)
    (hs : s.readdir p file what = some (a, s')) : s'.Settled := by
  obtain ⟨⟨d, f⟩, hslot, hs⟩ := Option.bind_eq_some_iff.mp hs
  cases hfi : f.ino with
  | none =>
    simp only [hfi] at hs
    obtain ⟨-, rfl⟩ := Prod.mk.inj (Option.some.inj hs)
    exact h
  | some node =>
    simp only [hfi] at hs
    obtain ⟨⟨de, s1⟩, hread, hrest⟩ := Option.bind_eq_some_iff.mp hs
    rcases h.vfsReaddir (hshut (by simp [hslot, hfi])) hread with ⟨rfl, hsame⟩ | ⟨ino, rfl, hholding⟩
    · obtain ⟨-, rfl⟩ := Prod.mk.inj (Option.some.inj hrest)
      exact hsame ▸ h
    · obtain ⟨s2, hfree, hs⟩ := Option.bind_eq_some_iff.mp hrest
      obtain ⟨-, rfl⟩ := Prod.mk.inj (Option.some.inj hs)
      exact hholding.vfsFree hfree

theorem Settled.step {k : Backing} {a : Pid × LookCall} (h : s.Settled) (hok : Shuts k s a)
    (hs : lookStep k s a = some s') : s'.Settled := by
  obtain ⟨p, c⟩ := a
  unfold lookStep at hs
  split at hs
  swap
  · cases hs
  next hp =>
  cases c with
  | «open» name path flags =>
    obtain ⟨⟨rep, s1⟩, hcall, rfl⟩ := Option.map_eq_some_iff.mp hs
    unfold openName at hcall
    split at hcall
    · obtain ⟨-, rfl⟩ := Prod.mk.inj (Option.some.inj hcall)
      exact h
    · next hname =>
      refine h.open hp (fun hfree e he => hok e ?_) hcall
      simp only [looks, if_neg hname, hfree]
      exact he
  | close file =>
    obtain ⟨⟨rep, s1⟩, hcall, rfl⟩ := Option.map_eq_some_iff.mp hs
    exact h.close hp hcall
  | stat name st path =>
    obtain ⟨⟨a, s1⟩, hcall, rfl⟩ := Option.map_eq_some_iff.mp hs
    refine h.stat (fun hname hst e he => hok e ?_) hcall
    simp only [looks, if_neg hname, if_neg hst]
    exact he
  | readdir file what =>
    obtain ⟨⟨a, s1⟩, hcall, rfl⟩ := Option.map_eq_some_iff.mp hs
    refine h.readdir (fun hopen e he => hok e ?_) hcall
    simp only [looks, if_pos hopen]
    exact he

/-- Whatever the processes open, close, stat and read, entries that are not in use are given
back, as long as no lookup reaches one that is open. -/
theorem released_of_shuts {k : Backing} (h : Reach (lookStep k) (Shuts k) Quiet s) : s.Released :=
  (h.invariant (fun _ h0 => h0.settled) fun _ _ _ hi hok hs => Settled.step hi hok hs).released

end

instance Shut.decidable (s : Files) (e : EntryId) : Decidable (s.Shut e) :=
  decidable_of_iff (∀ n ∈ (s.entry e).buffer.bind s.inode, n.inTree = true ∨ n.users = 0) Iff.rfl

instance Shuts.decidable (k : Backing) (s : Files) (a : Pid × LookCall) : Decidable (Shuts k s a) :=
  List.decidableBAll _ _

theorem mounted_quiet : mounted.Quiet where
  consistent := mounted_consistent
  entries
    | 0 => .inr ⟨0, _, rfl, rfl, rfl⟩
    | _ + 1 => .inl rfl

def lookRun : List (Pid × LookCall) :=
  [(1, .stat 0 0 ⟨0, [.entry 1, .entry 2], false⟩), (1, .open 0 ⟨0, [.entry 1, .entry 2], false⟩ 0), (1, .close 0)]

theorem released_of_shuts_lookRun : ∃ s, exec (lookStep serial) mounted lookRun = some s ∧ s.Released := by
  obtain ⟨s, hs⟩ : ∃ s, exec (lookStep serial) mounted lookRun = some s :=
    Option.isSome_iff_exists.mp (by decide +kernel)
  exact ⟨s, hs, released_of_shuts ((Reach.start mounted_quiet).along (by decide +kernel) hs)⟩

def statOpenRun : List (Pid × LookCall) :=
  [(1, .open 0 ⟨0, [.entry 1], false⟩ 0), (1, .stat 0 0 ⟨0, [.entry 1], false⟩), (1, .close 0)]

/-- The reference of the second lookup is never given back. -/
theorem entry_not_released : ∃ s, exec (lookStep serial) mounted statOpenRun = some s ∧ s.fd 1 0 = none ∧
    s.entry 1 = ⟨some 2, 1⟩ ∧ ¬s.Released := by
  obtain ⟨s, hs⟩ : ∃ s, exec (lookStep serial) mounted statOpenRun = some s :=
    Option.isSome_iff_exists.mp (by decide +kernel)
  have hseen : (exec (lookStep serial) mounted statOpenRun).map
      (fun s => (s.fd 1 0, s.entry 1, s.slots 2 + s.kept 2, s.inode 2)) =
      some (none, ⟨some 2, 1⟩, 0, some ⟨.tarfs 1, false, 0⟩) := by decide +kernel
  rw [hs, Option.map_some, Option.some_inj, Prod.mk.injEq, Prod.mk.injEq, Prod.mk.injEq] at hseen
  obtain ⟨hslot, hentry, hzero, hino⟩ := hseen
  refine ⟨s, hs, hslot, hentry, fun hrel => ?_⟩
  have hnone := hrel.unused 1 fun b hb => by
    rw [hentry] at hb
    obtain rfl := Option.some.inj hb
    refine ⟨hzero, fun n hn => ?_⟩
    obtain rfl := Option.some.inj (hino.symm.trans hn)
    rfl
  rw [hentry] at hnone
  cases hnone

end Files

end Os5
