import Os5.Mem.Eager
import Os5.Mem.NewArea
import Os5.Mem.Tables

/-!
# Read-only areas in a fork

`fork_process` enters the areas in the child before the child has a directory. An
area that `new_area` fills with pages at once is then filled through a window that
shows nothing.
-/

namespace Os5

open Machine Circular Outcome

/-- The first part of `share_area`: the area is marked and its pages are write protected. -/
def markShared (w : Mem) (ma : Nat) : Except Stop Mem := do
  let w := w.setArea ma { w.area ma with flags := { (w.area ma).flags with shared := true } }
  let a := w.area ma
  if a.flags.write ∨ a.flags.cow then do
    let w := w.setArea ma { a with flags := { a.flags with write := false, cow := true } }
    let m ← writeProtect w.machine (w.pd a.owner) a.start a.stop
    pure { w with machine := m }
  else pure w

def populatePage (write : Bool) (m : Machine) (i : Nat) : Except Stop Machine := do
  let (f, m) ← pmmAllocPage m
  vmmExpageSet m i (vmmPageVal f ⟨true, write, true⟩)

def clearWrite (e : Entry) : Entry := { e with write := false }

/-- `procmm_fork`, with the areas `todo` still to come, calls `vmm_expage_set` in the
machine `m`. -/
inductive ExpageSet (child : Nat) : Mem → List Nat → Machine → Prop
  | skip {w a todo m} : (w.area a).flags.noshare = true → ExpageSet child w todo m →
      ExpageSet child w (a :: todo) m
  | later {w w' a todo m} : (w.area a).flags.noshare = false → shareArea w child a = .ok w' →
      ExpageSet child w' todo m → ExpageSet child w (a :: todo) m
  | protect {w a todo m done i rest} : (w.area a).flags.noshare = false →
      (w.area a).flags.write ∨ (w.area a).flags.cow →
      pagesFrom (w.area a).start (w.area a).stop = done ++ i :: rest →
      rewritePages clearWrite (vmmExdirSet w.machine (w.pd (w.area a).owner)).2 done = .ok m →
      ExpageSet child w (a :: todo) m
  | populate {w w' a todo m m' f done i rest} : (w.area a).flags.noshare = false →
      markShared w a = .ok w' →
      scanHangs w' child (pageMask (w'.area a).start) (areaStop (w'.area a).stop) = false →
      (w'.area a).flags.populates = true →
      pagesFrom (pageMask (w'.area a).start) (areaStop (w'.area a).stop) = done ++ i :: rest →
      done.foldlM (populatePage (w'.area a).flags.write) (vmmExdirSet w'.machine (w'.pd child)).2 = .ok m →
      pmmAllocPage m = .ok (f, m') → ExpageSet child w (a :: todo) m'

def MmFlags.passedOn (f : MmFlags) : MmFlags :=
  if f.write ∨ f.cow then f.shareCow else { f with shared := true }

def MemArea.eager (a : MemArea) : Prop :=
  a.flags.noshare = false ∧ a.flags.write = false ∧ a.flags.cow = false ∧ a.flags.addonuse = false ∧
    a.start < a.stop

/-- One turn of the loop of `procmm_fork` over the areas of the parent. -/
def passOn (child : Nat) (w : Mem) (ma : Nat) : Except Stop Mem :=
  if (w.area ma).flags.noshare then .ok w else shareArea w child ma

def forkStart (w : Mem) : Mem :=
  let w' := (allocProcess w).2
  w'.setProc w.nextPid { w'.proc w.nextPid with stackLimit := (w'.proc w.current).stackLimit, mem := [] }

theorem markShared_eq {w : Mem} {ma : Nat} : markShared w ma =
    (if (w.area ma).flags.write ∨ (w.area ma).flags.cow then
        writeProtect w.machine (w.pd (w.area ma).owner) (w.area ma).start (w.area ma).stop
      else .ok w.machine).bind fun m =>
        .ok { w.setArea ma { w.area ma with flags := (w.area ma).flags.passedOn } with machine := m } := by
  unfold markShared MmFlags.passedOn
  simp only [setArea_self, setArea_setArea]
  split <;> rfl

theorem shareArea_eq {w : Mem} {copy ma : Nat} : shareArea w copy ma = (markShared w ma).bind fun w =>
    (newArea w copy (w.area ma).start (w.area ma).stop (w.area ma).flags (w.area ma).type).bind fun r =>
      .ok { r.2 with copies := Circular.append r.2.copies ma r.1 } := by
  unfold shareArea markShared
  simp only [setArea_self, setArea_setArea]
  split
  · cases writeProtect (w.setArea ma _).machine _ _ _ <;> rfl
  · rfl

theorem populate_eq {m : Machine} {pd : Frame} {start stop : Nat} {write : Bool} :
    populate m pd start stop write = ((pagesFrom start stop).foldlM (populatePage write) (vmmExdirSet m pd).2).bind
      fun m' => .ok (vmmExdirSet m' (vmmExdirSet m pd).1).2 := rfl

theorem forkProcess_eq {w : Mem} : forkProcess w =
    (((forkStart w).mem w.current).foldlM (passOn w.nextPid) (forkStart w)).bind fun w1 =>
      (vmmClonePd w1.machine).bind fun r => .ok (w.nextPid,
        ({ w1 with machine := r.2 } : Mem).setProc w.nextPid { w1.proc w.nextPid with pd := r.1 }) := by
  rfl

-- ---------------------------------------------------------------------------
-- Entries for pages that may be missing
-- ---------------------------------------------------------------------------

/-- From `m` to `m'` the entries of pages of directory `d` were rewritten, all in tables that
were there. -/
structure Rewrites (dirs : Frame → Prop) (d : Frame) (pages : List Nat) (m m' : Machine) : Prop where
  cr3 : m'.cr3 = m.cr3
  byte : m'.byte = m.byte
  free : m'.free = m.free
  spaces : Spaces m' dirs
  dir : ∀ {e i}, dirs e → i < 768 → m'.table e i = m.table e i
  leaf : ∀ {e y}, dirs e → y < kernelOffset → e ≠ d ∨ (∀ x ∈ pages, pageMask y ≠ pageMask x) →
    m'.leaf e y = m.leaf e y

section
variable {dirs : Frame → Prop} {d e : Frame} {m m1 m' : Machine} {x y start stop : Nat} {v : Entry}
  {pages : List Nat}

theorem Rewrites.refl (hs : Spaces m dirs) : Rewrites dirs d [] m m :=
  ⟨rfl, rfl, rfl, hs, fun _ _ => rfl, fun _ _ _ => rfl⟩

theorem Rewrites.cons (hd : dirs d) (hs : Spaces m dirs) (hx : x < kernelOffset)
    (hp : (m.pde d x).present = true) (h : Rewrites dirs d pages (m.setTable (m.pde d x).frame (tableIdx x) v) m') :
    Rewrites dirs d (x :: pages) m m' := by
  have hset := Sets.of_present (v := v) hs hd hx hp
  have hr := hs.setPte hd hx hp v
  refine ⟨h.cr3, h.byte, h.free, h.spaces, fun he hi => (h.dir he hi).trans (hr.dir he hi), ?_⟩
  intro e y he hy hout
  rw [h.leaf he hy (hout.imp_right fun hall z hz => hall z (List.mem_cons_of_mem _ hz)), hset.leaf he hy,
    if_neg]
  rintro ⟨hed, hpage⟩
  rcases hout with hne | hall
  · exact hne hed
  · exact hall x List.mem_cons_self hpage

theorem vmmExpageGet_missing (hl : Loaded m d) (hp : (m.pde d x).present = false) :
    vmmExpageGet m x = Entry.zero := by
  have he : m.exdir.frame = d := by rw [hl]
  simp only [Machine.pde] at hp
  simp [vmmExpageGet, hl.ne_zero, expageDirectory, he, dirIdx_pageMask, hp]

theorem clearWrite_ok (hs : Spaces m dirs) (hc : dirs m.cr3) (hd : dirs d) (hl : Loaded m d)
    (hpages : ∀ x ∈ pages, x < kernelOffset) (h : rewritePages clearWrite m pages = .ok m') :
    Rewrites dirs d pages m m' ∧ Loaded m' d ∧ ∀ x ∈ pages, (m.pde d x).present = true := by
  induction pages generalizing m with
  | nil =>
    obtain rfl := Except.ok.inj h
    exact ⟨.refl hs, hl, by simp⟩
  | cons x pages ih =>
    obtain ⟨m1, hset, h⟩ := bind_ok.mp (show (vmmExpageSet m x _ >>= fun m1 => _) = _ from h)
    have hx := hpages x List.mem_cons_self
    have hp : (m.pde d x).present = true := by
      by_contra hmissing
      have hmissing : (m.pde d x).present = false := by simpa using hmissing
      have hmade := ((Sets.through_exdir hs hc hd hl hx hset).1.made hmissing).1
      rw [vmmExpageGet_missing hl hmissing] at hmade
      cases hmade
    rw [vmmExpageSet_loaded hl hp] at hset
    obtain rfl := Except.ok.inj hset
    have hr := hs.setPte hd hx hp (clearWrite (vmmExpageGet m x))
    obtain ⟨h1, h2, h3⟩ := ih (hs.remaps hr) hc (hl.setPte hs hc hd hx hp _)
      (fun y hy => hpages y (List.mem_cons_of_mem _ hy)) h
    refine ⟨.cons hd hs hx hp h1, h2, fun y hy => ?_⟩
    rcases List.mem_cons.mp hy with rfl | hy
    · exact hp
    · rw [← hr.pde hd (hpages y (List.mem_cons_of_mem _ hy))]
      exact h3 y hy

theorem clearWrite_present (hs : Spaces m dirs) (hc : dirs m.cr3) (hd : dirs d) (hl : Loaded m d)
    (hpages : ∀ x ∈ pages, x < kernelOffset ∧ (m.pde d x).present = true) :
    ∃ m', rewritePages clearWrite m pages = .ok m' := by
  induction pages generalizing m with
  | nil => exact ⟨m, rfl⟩
  | cons x pages ih =>
    obtain ⟨hx, hp⟩ := hpages x List.mem_cons_self
    have hr := hs.setPte hd hx hp (clearWrite (vmmExpageGet m x))
    obtain ⟨m', hm'⟩ := ih (hs.remaps hr) hc (hl.setPte hs hc hd hx hp _) fun y hy => by
      obtain ⟨hy1, hy2⟩ := hpages y (List.mem_cons_of_mem _ hy)
      exact ⟨hy1, (hr.pde hd hy1).symm ▸ hy2⟩
    refine ⟨m', ?_⟩
    rw [rewritePages, List.foldlM_cons, vmmExpageSet_loaded hl hp]
    exact hm'

theorem Rewrites.unload {k k' : Frame} (hs : Spaces m dirs) (hc : dirs m.cr3)
    (h : Rewrites dirs d pages (vmmExdirSet m k).2 m') : Rewrites dirs d pages m (vmmExdirSet m' k').2 := by
  have hc' : dirs m'.cr3 := by
    rw [h.cr3]
    exact hc
  refine ⟨h.cr3, h.byte, h.free, h.spaces.remaps (h.spaces.exdirSet (d := d) hc' k'), ?_, ?_⟩
  · intro e i he hi
    rw [exdirSet_dir h.spaces hc' he hi, h.dir he hi, exdirSet_dir hs hc he hi]
  · intro e y he hy hout
    rw [exdirSet_leaf h.spaces hc' he hy, h.leaf he hy hout, exdirSet_leaf hs hc he hy]

theorem writeProtect_ok (hs : Spaces m dirs) (hc : dirs m.cr3) (hd : dirs d) (hstart : pageMask start = start)
    (hstop : stop ≤ kernelOffset) (h : writeProtect m d start stop = .ok m') :
    Rewrites dirs d (pagesFrom start stop) m m' ∧ ∀ x ∈ pagesFrom start stop, (m.pde d x).present = true := by
  have hpages : ∀ x ∈ pagesFrom start stop, x < kernelOffset := fun x hx =>
    Nat.lt_of_lt_of_le ((mem_pagesFrom hstart).mp hx).2.1 hstop
  obtain ⟨m2, hloop, h⟩ := bind_ok.mp (show ((rewritePages clearWrite _ _) >>= _) = _ from h)
  obtain rfl := Except.ok.inj h
  obtain ⟨h1, -, h3⟩ := clearWrite_ok (hs.remaps (hs.exdirSet (d := d) hc d)) hc hd
    (vmmExdirSet_loaded (hs.nonzero hd)) hpages hloop
  refine ⟨h1.unload hs hc, fun x hx => ?_⟩
  rw [Machine.pde, ← exdirSet_dir hs hc hd (dirIdx_lt (hpages x hx))]
  exact h3 x hx

theorem writeProtect_present (hs : Spaces m dirs) (hc : dirs m.cr3) (hd : dirs d)
    (hstart : pageMask start = start) (hstop : stop ≤ kernelOffset)
    (hp : ∀ x ∈ pagesFrom start stop, (m.pde d x).present = true) : ∃ m', writeProtect m d start stop = .ok m' := by
  obtain ⟨m1, hm1⟩ : ∃ m1, rewritePages clearWrite (vmmExdirSet m d).2 (pagesFrom start stop) = .ok m1 :=
    clearWrite_present (hs.remaps (hs.exdirSet (d := d) hc d)) hc hd (vmmExdirSet_loaded (hs.nonzero hd))
      fun x hx => by
      have hlow := Nat.lt_of_lt_of_le ((mem_pagesFrom hstart).mp hx).2.1 hstop
      rw [Machine.pde, exdirSet_dir hs hc hd (dirIdx_lt hlow)]
      exact ⟨hlow, hp x hx⟩
  exact ⟨_, bind_ok.mpr ⟨m1, hm1, rfl⟩⟩

end

-- ---------------------------------------------------------------------------
-- The list of the child
-- ---------------------------------------------------------------------------

/-- The areas of `p` are areas made from number `base` on, and none reaches beyond `lim`. -/
def Below (w : Mem) (p base lim : Nat) : Prop :=
  ∀ b ∈ w.mem p, (w.area b).owner = p ∧ base ≤ b ∧ b < w.nextArea ∧ (w.area b).stop ≤ lim

section
variable {w w' : Mem} {p q base lim lim' a b n start stop type : Nat} {flags : MmFlags} {m : Machine}

theorem Below.withArea (h : Below w p base lim) (hbase : base ≤ w.nextArea) (hle : lim ≤ stop) :
    Below (withArea w m p start stop flags type) p base stop := by
  intro b hb
  rw [withArea_mem, if_pos rfl, mem_insertSorted] at hb
  rw [withArea_area]
  rcases hb with rfl | hb
  · rw [if_pos rfl]
    exact ⟨rfl, hbase, Nat.lt_succ_self _, Nat.le_refl _⟩
  · obtain ⟨h1, h2, h3, h4⟩ := h b hb
    rw [if_neg (Nat.ne_of_lt h3)]
    exact ⟨h1, h2, h3.trans (Nat.lt_succ_self _), h4.trans hle⟩

theorem Below.join {c e : Nat} (h : Below w p base lim) (ha : a ∈ w.mem p) (he : e ≤ lim) :
    Below (freeArea (w.setArea a { w.area a with stop := e }) c) p base lim := by
  intro b hb
  have hmem : b ∈ w.mem p := by
    rw [freeArea_mem] at hb
    split at hb
    · exact List.mem_of_mem_erase hb
    · exact hb
  obtain ⟨h1, h2, h3, h4⟩ := h b hmem
  change ((w.setArea a _).area b).owner = p ∧ _ ∧ _ ∧ ((w.setArea a _).area b).stop ≤ lim
  rw [setArea_area]
  split
  · next hba =>
    subst hba
    exact ⟨h1, h2, h3, he⟩
  · exact ⟨h1, h2, h3, h4⟩

theorem Below.glueLeft (h : Below w p base lim) (ha : a ∈ w.mem p) :
    Below (glueLeft w p a).2 p base lim ∧ (glueLeft w p a).1 ∈ (glueLeft w p a).2.mem p := by
  unfold Os5.glueLeft
  split
  · next c hc =>
    have hmem := List.mem_of_find?_eq_some hc
    have hglue : c ≠ a := by
      have := List.find?_some hc
      simp only [glues, Bool.and_eq_true, decide_eq_true_eq, ne_eq] at this
      exact this.2.1.1
    refine ⟨h.join hmem (h a ha).2.2.2, ?_⟩
    rw [freeArea_mem]
    split
    · exact (List.mem_erase_of_ne hglue).mpr hmem
    · exact hmem
  · exact ⟨h, ha⟩

theorem Below.glueRight (h : Below w p base lim) (ha : a ∈ w.mem p) : Below (glueRight w p a).2 p base lim := by
  unfold Os5.glueRight
  split
  · next c hc => exact h.join ha (h c (List.mem_of_find?_eq_some hc)).2.2.2
  · exact h

theorem Below.glueArea (h : Below w p base lim) (ha : a ∈ w.mem p) : Below (glueArea w a).2 p base lim := by
  rw [glueArea_eq, (h a ha).1]
  split
  · exact (h.glueLeft ha).1.glueRight (h.glueLeft ha).2
  · exact h

theorem join_old {c : Nat} {v : MemArea} (hb : b ≠ a) : (freeArea (w.setArea a v) c).area b = w.area b := by
  change (w.setArea a v).area b = _
  rw [setArea_area, if_neg hb]

theorem Below.glueArea_old (h : Below w p base lim) (ha : a ∈ w.mem p) (hb : b < base) :
    (Os5.glueArea w a).2.area b = w.area b := by
  have hleft : (Os5.glueLeft w p a).2.area b = w.area b := by
    unfold Os5.glueLeft
    split
    · next c hc => exact join_old (Nat.ne_of_lt (Nat.lt_of_lt_of_le hb (h c (List.mem_of_find?_eq_some hc)).2.1))
    · rfl
  rw [glueArea_eq, (h a ha).1]
  split
  · refine Eq.trans ?_ hleft
    unfold Os5.glueRight
    split
    · obtain ⟨-, hbase, -⟩ := (h.glueLeft ha).1 _ (h.glueLeft ha).2
      exact join_old (Nat.ne_of_lt (Nat.lt_of_lt_of_le hb hbase))
    · rfl
  · rfl

theorem Below.newArea (h : Below w p base lim) (hbase : base ≤ w.nextArea) (hstart : pageMask start = start)
    (hstop : pageMask stop = stop) (hlim : lim ≤ stop)
    (hn : newArea w p start stop flags type = .ok (n, w')) :
    Below w' p base stop ∧ w.nextArea ≤ w'.nextArea ∧ ∀ b, b < base → w'.area b = w.area b := by
  obtain ⟨-, m, -, hglue⟩ := newArea_ok hn
  rw [hstart, areaStop_eq hstop] at hglue
  have hwith : Below (Os5.withArea w m p start stop flags type) p base stop := h.withArea hbase hlim
  have hmem : w.nextArea ∈ (Os5.withArea w m p start stop flags type).mem p := by
    rw [withArea_mem, if_pos rfl, mem_insertSorted]
    exact .inl rfl
  have hw' : w' = (Os5.glueArea (Os5.withArea w m p start stop flags type) w.nextArea).2 := by rw [hglue]
  rw [hw']
  refine ⟨hwith.glueArea hmem, ?_, fun b hb => ?_⟩
  · rw [glueArea_nextArea]
    exact Nat.le_succ _
  · rw [hwith.glueArea_old hmem hb, withArea_area, if_neg (Nat.ne_of_lt (Nat.lt_of_lt_of_le hb hbase))]

theorem Below.scan (h : Below w p base lim) (hstart : pageMask start = start) (hlim : lim ≤ start)
    (hstop : stop ≤ kernelOffset) : scanHangs w p start stop = false := by
  have hlast : ¬ lastPage ≤ stop := by
    unfold lastPage
    unfold kernelOffset at hstop
    omega
  rw [scanHangs, Bool.or_eq_false_iff, decide_eq_false_iff_not, List.any_eq_false]
  refine ⟨hlast, fun i hi => ?_⟩
  have hle := ((mem_pagesFrom hstart).mp hi).1
  rw [Bool.not_eq_true, Option.isSome_eq_false_iff, Option.isNone_iff_eq_none, findIncluding_eq_none]
  rintro b ⟨hb, hcov⟩
  have hlt := (MemArea.covers_iff.mp hcov).2
  have hstop := (h b hb).2.2.2
  omega

end

-- ---------------------------------------------------------------------------
-- The areas that are passed on
-- ---------------------------------------------------------------------------

/-- The running process has its directory loaded, its areas are in order, and the frames
mapped in it are not free. -/
structure Forkable (w : Mem) : Prop where
  loaded : w.machine.cr3 = w.pd w.current
  spaces : Spaces w.machine (· = w.machine.cr3)
  living : w.living w.current = true
  owner : ∀ a ∈ w.mem w.current, (w.area a).owner = w.current
  nodup : (w.mem w.current).Nodup
  fresh : ∀ a ∈ w.mem w.current, a < w.nextArea
  wf : ∀ a ∈ w.mem w.current, (w.area a).Wf
  ordered : Ordered w w.current
  used : ∀ x, x < kernelOffset → (w.machine.leaf w.machine.cr3 x).present = true →
    (w.machine.leaf w.machine.cr3 x).frame ∉ w.machine.free

/-- `new_area` gets to fill an area of the child: the areas before it are passed on, and
there is a frame for its first page. -/
def FillsUnloaded (w : Mem) : Prop :=
  ∃ done a rest, w.mem w.current = done ++ a :: rest ∧ (w.area a).eager ∧
    (∀ b ∈ done, (w.area b).flags.noshare = false → (w.area b).flags.write ∨ (w.area b).flags.cow →
      ∀ x, (w.area b).covers x = true → (w.machine.pde w.machine.cr3 x).present = true) ∧
    w.machine.free ≠ []

/-- `fork_process` sets entries only while a directory is loaded, and then the child finds in
the read-only areas what the parent does. -/
def PassesReadOnly (w : Mem) : Prop :=
  (∀ m, ExpageSet w.nextPid (forkStart w) ((forkStart w).mem w.current) m → m.exdir ≠ Entry.zero) ∧
    ∀ child w', forkProcess w = .ok (child, w') → ∀ a ∈ w.mem w.current,
      (w.area a).flags.write = false → (w.area a).flags.cow = false → ∀ x, (w.area a).covers x = true →
      w'.machine.leaf (w'.pd child) x = w.machine.leaf (w.pd w.current) x ∧
        w'.machine.userRead (w'.pd child) x = w.machine.userRead (w.pd w.current) x

structure Passing (w₀ : Mem) (todo : List Nat) (w : Mem) : Prop where
  pd : w.pd w₀.current = w₀.machine.cr3
  pdChild : w.pd w₀.nextPid = 0
  rest : todo <:+ w₀.mem w₀.current
  area : ∀ a ∈ todo, w.area a = w₀.area a
  nextArea : w₀.nextArea ≤ w.nextArea
  below : ∃ lim, Below w w₀.nextPid w₀.nextArea lim ∧ ∀ a ∈ todo, lim ≤ (w₀.area a).start
  cr3 : w.machine.cr3 = w₀.machine.cr3
  byte : w.machine.byte = w₀.machine.byte
  free : w.machine.free = w₀.machine.free
  spaces : Spaces w.machine (· = w₀.machine.cr3)
  dir : ∀ {i}, i < 768 → w.machine.table w₀.machine.cr3 i = w₀.machine.table w₀.machine.cr3 i
  leaf : ∀ {y}, y < kernelOffset → (∀ a ∈ w₀.mem w₀.current, (w₀.area a).covers y = true →
      (w₀.area a).flags.write = false ∧ (w₀.area a).flags.cow = false) →
    w.machine.leaf w₀.machine.cr3 y = w₀.machine.leaf w₀.machine.cr3 y

section
variable {w₀ w w' : Mem} {m m' : Machine} {todo : List Nat} {a x start stop : Nat} {write : Bool}

theorem vmmExdirSet_zero : (vmmExdirSet m 0).2.exdir = Entry.zero := by
  simp [vmmExdirSet, exdir, setPageDirectory, setTable_table]

theorem populatePage_unloaded (hz : m.exdir = Entry.zero) : populatePage write m x ≠ .ok m' := by
  intro h
  obtain ⟨⟨f, m1⟩, halloc, hset⟩ := bind_ok.mp h
  have hz1 : m1.exdir = Entry.zero := by
    unfold pmmAllocPage at halloc
    split at halloc
    · cases halloc
    · cases halloc
      exact hz
  have htouch : vmmExpageTouch m1 (pageMask x) ⟨true, write, true⟩ = .ok m1 := by
    unfold vmmExpageTouch
    rw [if_pos hz1]
    rfl
  unfold vmmExpageSet at hset
  simp only [vmmPageVal, htouch, bind, Except.bind, if_pos hz1] at hset
  cases hset

/-- With no directory the loop of `new_area` gets through only if there is nothing to do. -/
theorem populate_unloaded (h : populate m 0 start stop write = .ok m') :
    pagesFrom start stop = [] ∧ m' = (vmmExdirSet (vmmExdirSet m 0).2 m.exdir.frame).2 := by
  rw [populate_eq] at h
  cases hpages : pagesFrom start stop with
  | nil =>
    rw [hpages] at h
    exact ⟨rfl, (Except.ok.inj h).symm⟩
  | cons x pages =>
    rw [hpages, List.foldlM_cons] at h
    obtain ⟨m2, hloop, -⟩ := bind_ok.mp h
    obtain ⟨m1, hfirst, -⟩ := bind_ok.mp hloop
    exact absurd hfirst (populatePage_unloaded vmmExdirSet_zero)

theorem pagesFrom_ne_nil : pagesFrom start stop ≠ [] ↔ start < stop := by
  unfold pagesFrom
  rw [Ne, List.map_eq_nil_iff, List.range_eq_nil]
  omega

theorem Passing.skip (h : Passing w₀ (a :: todo) w) : Passing w₀ todo w := by
  obtain ⟨lim, hbelow, hlim⟩ := h.below
  exact { h with
    rest := (List.suffix_cons a todo).trans h.rest
    area := fun b hb => h.area b (List.mem_cons_of_mem _ hb)
    below := ⟨lim, hbelow, fun b hb => hlim b (List.mem_cons_of_mem _ hb)⟩ }

theorem MmFlags.passedOn_populates {f : MmFlags} :
    f.passedOn.populates = true ↔ f.write = false ∧ f.cow = false ∧ f.addonuse = false := by
  obtain ⟨r, wr, s, n, c, g, au, ad⟩ := f
  cases wr <;> cases c <;> cases ad <;> simp [MmFlags.passedOn, MmFlags.populates, MmFlags.shareCow]

theorem Passing.mark_machine (h : Passing w₀ (a :: todo) w) (hf : Forkable w₀)
    (hmark : markShared w a = .ok w') : ∃ m pages,
      w' = { w.setArea a { w₀.area a with flags := (w₀.area a).flags.passedOn } with machine := m } ∧
      Rewrites (· = w₀.machine.cr3) w₀.machine.cr3 pages w.machine m ∧
      (∀ x ∈ pages, (w₀.area a).covers x = true ∧ ((w₀.area a).flags.write ∨ (w₀.area a).flags.cow)) ∧
      ((w₀.area a).flags.write ∨ (w₀.area a).flags.cow → ∀ x, (w₀.area a).covers x = true →
        (w₀.machine.pde w₀.machine.cr3 x).present = true) := by
  have ha : a ∈ w₀.mem w₀.current := h.rest.subset List.mem_cons_self
  have hwf := hf.wf a ha
  rw [markShared_eq, h.area a List.mem_cons_self, hf.owner a ha, h.pd] at hmark
  obtain ⟨m, hm, hw'⟩ := bind_ok.mp hmark
  obtain rfl := Except.ok.inj hw'
  refine ⟨m, if (w₀.area a).flags.write ∨ (w₀.area a).flags.cow then
    pagesFrom (w₀.area a).start (w₀.area a).stop else [], rfl, ?_⟩
  split at hm
  · next hwrite =>
    obtain ⟨hr, htables⟩ := writeProtect_ok h.spaces h.cr3 rfl hwf.start hwf.below hm
    rw [if_pos hwrite]
    refine ⟨hr, fun x hx => ?_, fun _ x hx => ?_⟩
    · obtain ⟨h1, h2, -⟩ := (mem_pagesFrom hwf.start).mp hx
      exact ⟨MemArea.covers_iff.mpr ⟨h1, h2⟩, hwrite⟩
    · have hpage := htables (pageMask x) ((pageMask_mem_pagesFrom hwf.start hwf.stop).mpr (MemArea.covers_iff.mp hx))
      rw [Machine.pde, dirIdx_pageMask, h.dir (dirIdx_lt (hwf.lt hx))] at hpage
      exact hpage
  · next hwrite =>
    obtain rfl := Except.ok.inj hm
    rw [if_neg hwrite]
    exact ⟨.refl h.spaces, by simp, fun hcontra => absurd hcontra hwrite⟩

theorem Passing.mark (h : Passing w₀ (a :: todo) w) (hf : Forkable w₀) (hmark : markShared w a = .ok w') :
    Passing w₀ todo w' ∧ w'.area a = { w₀.area a with flags := (w₀.area a).flags.passedOn } ∧
      (∃ lim, Below w' w₀.nextPid w₀.nextArea lim ∧ lim ≤ (w₀.area a).start) ∧
      ((w₀.area a).flags.write ∨ (w₀.area a).flags.cow → ∀ x, (w₀.area a).covers x = true →
        (w₀.machine.pde w₀.machine.cr3 x).present = true) := by
  obtain ⟨m, pages, rfl, hr, hpages, htables⟩ := h.mark_machine hf hmark
  have ha : a ∈ w₀.mem w₀.current := h.rest.subset List.mem_cons_self
  have hnodup := hf.nodup.sublist h.rest.sublist
  have hother : ∀ b, b ≠ a →
      (w.setArea a { w₀.area a with flags := (w₀.area a).flags.passedOn }).area b = w.area b := by
    intro b hb
    rw [setArea_area, if_neg hb]
  obtain ⟨lim, hbelow, hlim⟩ := h.below
  have hbelow' : Below { w.setArea a { w₀.area a with flags := (w₀.area a).flags.passedOn } with machine := m }
      w₀.nextPid w₀.nextArea lim := by
    intro b hb
    have hb' := hbelow b hb
    have hne : b ≠ a := fun hba => Nat.lt_irrefl _ (Nat.lt_of_lt_of_le (hba ▸ hf.fresh a ha) hb'.2.1)
    change ((w.setArea a _).area b).owner = _ ∧ _ ∧ _ ∧ ((w.setArea a _).area b).stop ≤ lim
    rw [hother b hne]
    exact hb'
  refine ⟨?_, setArea_self _ _ _, ⟨lim, hbelow', hlim a List.mem_cons_self⟩, htables⟩
  refine ⟨h.pd, h.pdChild, (List.suffix_cons a todo).trans h.rest, fun b hb => ?_, h.nextArea,
    ⟨lim, hbelow', fun b hb => hlim b (List.mem_cons_of_mem _ hb)⟩, hr.cr3.trans h.cr3, hr.byte.trans h.byte,
    hr.free.trans h.free, hr.spaces, fun hi => (hr.dir rfl hi).trans (h.dir hi), fun hy hro => ?_⟩
  · have hne : b ≠ a := fun hba => (List.nodup_cons.mp hnodup).1 (hba ▸ hb)
    rw [← h.area b (List.mem_cons_of_mem _ hb)]
    exact hother b hne
  · refine (hr.leaf rfl hy (.inr fun x hx hpage => ?_)).trans (h.leaf hy hro)
    obtain ⟨hcov, hwrite⟩ := hpages x hx
    obtain ⟨h1, h2⟩ := hro a ha (((hf.wf a ha).covers_page hpage).trans hcov)
    simp [h1, h2] at hwrite

theorem Passing.shareArea (h : Passing w₀ (a :: todo) w) (hf : Forkable w₀)
    (hshare : Os5.shareArea w w₀.nextPid a = .ok w') :
    Passing w₀ todo w' ∧ ¬ (w₀.area a).eager ∧
      ((w₀.area a).flags.write ∨ (w₀.area a).flags.cow → ∀ x, (w₀.area a).covers x = true →
        (w₀.machine.pde w₀.machine.cr3 x).present = true) := by
  have ha : a ∈ w₀.mem w₀.current := h.rest.subset List.mem_cons_self
  have hwf := hf.wf a ha
  rw [shareArea_eq] at hshare
  obtain ⟨w1, hmark, hshare⟩ := bind_ok.mp hshare
  obtain ⟨⟨n, w2⟩, hnew, hw'⟩ := bind_ok.mp hshare
  obtain rfl := Except.ok.inj hw'
  obtain ⟨h1, harea, ⟨lim, hbelow, hlim⟩, htables⟩ := h.mark hf hmark
  rw [harea] at hnew
  obtain ⟨hframe, hmach⟩ := newArea_frame hnew
  rw [hwf.start, areaStop_eq hwf.stop, h1.pdChild] at hmach
  obtain ⟨hb2, hnext, hold⟩ := hbelow.newArea h1.nextArea hwf.start hwf.stop (hlim.trans hwf.le) hnew
  -- the machine is the one before, up to the slot of the external directory
  have hsame : ¬ (w₀.area a).eager ∧ Rewrites (· = w₀.machine.cr3) w₀.machine.cr3 [] w1.machine w2.machine := by
    split at hmach
    · next hpop =>
      obtain ⟨hnil, hm2⟩ := populate_unloaded hmach
      rw [hm2]
      refine ⟨fun heager => ?_, (Rewrites.refl ?_).unload h1.spaces h1.cr3⟩
      · exact pagesFrom_ne_nil.mpr heager.2.2.2.2 hnil
      · exact h1.spaces.remaps (h1.spaces.exdirSet (d := w₀.machine.cr3) h1.cr3 0)
    · next hpop =>
      rw [← Except.ok.inj hmach]
      refine ⟨fun heager => hpop ?_, .refl h1.spaces⟩
      obtain ⟨-, hw, hc, had, -⟩ := heager
      exact MmFlags.passedOn_populates.mpr ⟨hw, hc, had⟩
  obtain ⟨heager, hr⟩ := hsame
  refine ⟨?_, heager, htables⟩
  refine ⟨(hframe.pd _).trans h1.pd, (hframe.pd _).trans h1.pdChild, h1.rest, fun b hb => ?_, h1.nextArea.trans hnext,
    ⟨_, hb2, fun b hb => ?_⟩, hr.cr3.trans h1.cr3, hr.byte.trans h1.byte, hr.free.trans h1.free, hr.spaces,
    fun hi => (hr.dir rfl hi).trans (h1.dir hi), fun hy hro => (hr.leaf rfl hy (.inr (by simp))).trans (h1.leaf hy hro)⟩
  · have hfresh := hf.fresh b (h1.rest.subset hb)
    exact (hold b hfresh).trans (h1.area b hb)
  · have hord := (List.pairwise_cons.mp (hf.ordered.sublist h.rest.sublist)).1
    exact hord b hb

theorem Passing.mark_present (h : Passing w₀ (a :: todo) w) (hf : Forkable w₀)
    (htables : (w₀.area a).flags.write ∨ (w₀.area a).flags.cow → ∀ x, (w₀.area a).covers x = true →
      (w₀.machine.pde w₀.machine.cr3 x).present = true) : ∃ w', markShared w a = .ok w' := by
  have ha : a ∈ w₀.mem w₀.current := h.rest.subset List.mem_cons_self
  have hwf := hf.wf a ha
  rw [markShared_eq, h.area a List.mem_cons_self, hf.owner a ha, h.pd]
  split
  · next hwrite =>
    obtain ⟨m', hm'⟩ := writeProtect_present h.spaces h.cr3 rfl hwf.start hwf.below fun x hx => by
      obtain ⟨h1, h2, -⟩ := (mem_pagesFrom hwf.start).mp hx
      have hcov : (w₀.area a).covers x = true := MemArea.covers_iff.mpr ⟨h1, h2⟩
      rw [Machine.pde, h.dir (dirIdx_lt (hwf.lt hcov))]
      exact htables hwrite x hcov
    exact ⟨_, bind_ok.mpr ⟨m', hm', rfl⟩⟩
  · exact ⟨_, rfl⟩

theorem Passing.shareArea_present (h : Passing w₀ (a :: todo) w) (hf : Forkable w₀)
    (hshared : (w₀.area a).flags.noshare = false) (hlazy : ¬ (w₀.area a).eager)
    (htables : (w₀.area a).flags.write ∨ (w₀.area a).flags.cow → ∀ x, (w₀.area a).covers x = true →
      (w₀.machine.pde w₀.machine.cr3 x).present = true) : ∃ w', Os5.shareArea w w₀.nextPid a = .ok w' := by
  have hwf := hf.wf a (h.rest.subset List.mem_cons_self)
  obtain ⟨w1, hmark⟩ := h.mark_present hf htables
  obtain ⟨h1, harea, ⟨lim, hbelow, hlim⟩, -⟩ := h.mark hf hmark
  have hnew : ∃ r, newArea w1 w₀.nextPid (w₀.area a).start (w₀.area a).stop (w₀.area a).flags.passedOn
      (w₀.area a).type = .ok r := by
    rw [newArea_eq, hwf.start, areaStop_eq hwf.stop, hbelow.scan hwf.start hlim hwf.below, h1.pdChild]
    rw [if_neg Bool.false_ne_true]
    split
    · next hpop =>
      obtain ⟨hw, hc, had⟩ := MmFlags.passedOn_populates.mp hpop
      have hempty : ¬ (w₀.area a).start < (w₀.area a).stop := fun hlt => hlazy ⟨hshared, hw, hc, had, hlt⟩
      have hnil : pagesFrom (w₀.area a).start (w₀.area a).stop = [] :=
        not_not.mp (mt pagesFrom_ne_nil.mp hempty)
      rw [populate_eq, hnil]
      exact ⟨_, rfl⟩
    · exact ⟨_, rfl⟩
  obtain ⟨r, hr⟩ := hnew
  rw [shareArea_eq]
  refine ⟨_, bind_ok.mpr ⟨w1, hmark, bind_ok.mpr ⟨r, ?_, rfl⟩⟩⟩
  rw [harea]
  exact hr

-- ---------------------------------------------------------------------------
-- Which entries are set
-- ---------------------------------------------------------------------------

theorem populateLoop_unloaded {done : List Nat} (hz : m.exdir = Entry.zero)
    (h : done.foldlM (populatePage write) m = .ok m') : done = [] ∧ m' = m := by
  cases done with
  | nil => exact ⟨rfl, (Except.ok.inj h).symm⟩
  | cons x done =>
    rw [List.foldlM_cons] at h
    obtain ⟨m1, hfirst, -⟩ := bind_ok.mp h
    exact absurd hfirst (populatePage_unloaded hz)

theorem Passing.of_unloaded (h : Passing w₀ todo w) (hf : Forkable w₀) (hset : ExpageSet w₀.nextPid w todo m)
    (hz : m.exdir = Entry.zero) :
    ∃ done a rest, todo = done ++ a :: rest ∧ (w₀.area a).eager ∧
      (∀ b ∈ done, (w₀.area b).flags.noshare = false → (w₀.area b).flags.write ∨ (w₀.area b).flags.cow →
        ∀ x, (w₀.area b).covers x = true → (w₀.machine.pde w₀.machine.cr3 x).present = true) ∧
      w₀.machine.free ≠ [] := by
  induction hset with
  | @skip w a todo m hno _ ih =>
    have harea := h.area a List.mem_cons_self
    obtain ⟨done, c, rest, rfl, heager, htables, hfree⟩ := ih h.skip hz
    refine ⟨a :: done, c, rest, rfl, heager, fun b hb hshared => ?_, hfree⟩
    rcases List.mem_cons.mp hb with rfl | hb
    · rw [← harea, hno] at hshared
      cases hshared
    · exact htables b hb hshared
  | @later w w' a todo m hshared hshare _ ih =>
    obtain ⟨h', -, hfirst⟩ := h.shareArea hf hshare
    obtain ⟨done, c, rest, rfl, heager, htables, hfree⟩ := ih h' hz
    refine ⟨a :: done, c, rest, rfl, heager, fun b hb hshared => ?_, hfree⟩
    rcases List.mem_cons.mp hb with rfl | hb
    · exact hfirst
    · exact htables b hb hshared
  | @protect w a todo m done i rest hshared hwrite hpages hloop =>
    have ha : a ∈ w₀.mem w₀.current := h.rest.subset List.mem_cons_self
    have hwf := hf.wf a ha
    have harea := h.area a List.mem_cons_self
    rw [harea, hf.owner a ha, h.pd] at hloop
    rw [harea] at hpages
    have hlow : ∀ x ∈ done, x < kernelOffset := fun x hx => by
      have hmem : x ∈ pagesFrom (w₀.area a).start (w₀.area a).stop := hpages ▸ List.mem_append_left _ hx
      exact Nat.lt_of_lt_of_le ((mem_pagesFrom hwf.start).mp hmem).2.1 hwf.below
    have hloaded := (clearWrite_ok (h.spaces.remaps (h.spaces.exdirSet (d := w₀.machine.cr3) h.cr3 _)) h.cr3 rfl
      (vmmExdirSet_loaded (h.spaces.nonzero rfl)) hlow hloop).2.1
    exact absurd hz hloaded.ne_zero
  | @populate w w' a todo m m' f done i rest hshared hmark hscan hpop hpages hloop halloc =>
    obtain ⟨h1, harea, -, -⟩ := h.mark hf hmark
    have hwf := hf.wf a (h.rest.subset List.mem_cons_self)
    rw [h.area a List.mem_cons_self] at hshared
    rw [harea] at hpop hpages
    obtain ⟨hw, hc, had⟩ := MmFlags.passedOn_populates.mp hpop
    rw [hwf.start, areaStop_eq hwf.stop] at hpages
    refine ⟨[], a, todo, rfl, ⟨hshared, hw, hc, had, pagesFrom_ne_nil.mp ?_⟩, by simp, ?_⟩
    · rw [hpages]
      simp
    · rw [h1.pdChild] at hloop
      obtain ⟨-, rfl⟩ := populateLoop_unloaded vmmExdirSet_zero hloop
      intro hnil
      have hfree : (vmmExdirSet w'.machine 0).2.free = [] := h1.free.trans hnil
      unfold pmmAllocPage at halloc
      rw [hfree] at halloc
      cases halloc

theorem Passing.unloaded (h : Passing w₀ (a :: todo) w) (hf : Forkable w₀) (heager : (w₀.area a).eager)
    (hfree : w₀.machine.free ≠ []) :
    ∃ m, ExpageSet w₀.nextPid w (a :: todo) m ∧ m.exdir = Entry.zero := by
  have hwf := hf.wf a (h.rest.subset List.mem_cons_self)
  obtain ⟨hshared, hw, hc, had, hlt⟩ := heager
  obtain ⟨w1, hmark⟩ := h.mark_present hf fun hwrite => by simp [hw, hc] at hwrite
  obtain ⟨h1, harea, ⟨lim, hbelow, hlim⟩, -⟩ := h.mark hf hmark
  obtain ⟨i, pages, hpages⟩ := List.exists_cons_of_ne_nil (pagesFrom_ne_nil.mpr hlt)
  obtain ⟨f, rest, hf'⟩ := List.exists_cons_of_ne_nil (h1.free ▸ hfree)
  have halloc : pmmAllocPage (vmmExdirSet w1.machine (w1.pd w₀.nextPid)).2 =
      .ok (f, { (vmmExdirSet w1.machine (w1.pd w₀.nextPid)).2 with free := rest }) := by
    have hfree' : (vmmExdirSet w1.machine (w1.pd w₀.nextPid)).2.free = f :: rest := hf'
    unfold pmmAllocPage
    rw [hfree']
  have hscan : scanHangs w1 w₀.nextPid (pageMask (w1.area a).start) (areaStop (w1.area a).stop) = false := by
    rw [harea]
    simp only [hwf.start, areaStop_eq hwf.stop]
    exact hbelow.scan hwf.start hlim hwf.below
  have hpop : (w1.area a).flags.populates = true := by
    rw [harea]
    exact MmFlags.passedOn_populates.mpr ⟨hw, hc, had⟩
  have hfirst : pagesFrom (pageMask (w1.area a).start) (areaStop (w1.area a).stop) = [] ++ i :: pages := by
    rw [harea]
    simp only [hwf.start, areaStop_eq hwf.stop]
    exact hpages
  refine ⟨_, .populate ?_ hmark hscan hpop hfirst rfl halloc, ?_⟩
  · rw [h.area a List.mem_cons_self]
    exact hshared
  · rw [h1.pdChild]
    exact vmmExdirSet_zero (m := w1.machine)

theorem Passing.reaches {done rest : List Nat} (h : Passing w₀ (done ++ a :: rest) w) (hf : Forkable w₀)
    (heager : (w₀.area a).eager)
    (htables : ∀ b ∈ done, (w₀.area b).flags.noshare = false → (w₀.area b).flags.write ∨ (w₀.area b).flags.cow →
      ∀ x, (w₀.area b).covers x = true → (w₀.machine.pde w₀.machine.cr3 x).present = true)
    (hfree : w₀.machine.free ≠ []) :
    ∃ m, ExpageSet w₀.nextPid w (done ++ a :: rest) m ∧ m.exdir = Entry.zero := by
  induction done generalizing w with
  | nil => exact h.unloaded hf heager hfree
  | cons b done ih =>
    have hlater : ∀ c ∈ done, _ := fun c hc => htables c (List.mem_cons_of_mem _ hc)
    have harea := h.area b List.mem_cons_self
    by_cases hfirst : (w₀.area b).eager
    · exact h.unloaded hf hfirst hfree
    · cases hno : (w₀.area b).flags.noshare with
      | true =>
        obtain ⟨m, hset, hz⟩ := ih h.skip hlater
        exact ⟨m, .skip (harea ▸ hno) hset, hz⟩
      | false =>
        obtain ⟨w', hshare⟩ := h.shareArea_present hf hno hfirst (htables b List.mem_cons_self hno)
        obtain ⟨m, hset, hz⟩ := ih (h.shareArea hf hshare).1 hlater
        exact ⟨m, .later (harea ▸ hno) hshare hset, hz⟩

theorem Passing.loop (h : Passing w₀ todo w) (hf : Forkable w₀)
    (hloop : todo.foldlM (passOn w₀.nextPid) w = .ok w') : Passing w₀ [] w' := by
  induction todo generalizing w with
  | nil =>
    obtain rfl := Except.ok.inj hloop
    exact h
  | cons a todo ih =>
    rw [List.foldlM_cons] at hloop
    obtain ⟨w1, hstep, hloop⟩ := bind_ok.mp hloop
    unfold passOn at hstep
    split at hstep
    · obtain rfl := Except.ok.inj hstep
      exact ih h.skip hloop
    · exact ih (h.shareArea hf hstep).1 hloop

end

section
variable {w w' : Mem} {m₀ m : Machine} {a x child : Nat}

theorem Forkable.at_unique (hf : Forkable w) {b : Nat} (hb : At w w.current x b) (ha : At w w.current x a) :
    b = a := by
  obtain ⟨h1, h2⟩ := MemArea.covers_iff.mp ha.2
  obtain ⟨h3, h4⟩ := MemArea.covers_iff.mp hb.2
  by_contra hne
  have hapart := hf.ordered.apart hb.1 ha.1 hne
  omega

theorem forkStart_mem (hf : Forkable w) : (forkStart w).mem w.current = w.mem w.current := by
  have hne : w.current ≠ w.nextPid := by
    have := hf.living
    simp only [Mem.living, Bool.and_eq_true, decide_eq_true_eq] at this
    exact Nat.ne_of_lt this.2
  simp [forkStart, allocProcess, Mem.mem, Mem.setProc, hne]

theorem Forkable.passing (hf : Forkable w) : Passing w (w.mem w.current) (forkStart w) := by
  have hne : w.current ≠ w.nextPid := by
    have := hf.living
    simp only [Mem.living, Bool.and_eq_true, decide_eq_true_eq] at this
    exact Nat.ne_of_lt this.2
  refine ⟨?_, ?_, List.suffix_rfl, fun _ _ => rfl, Nat.le_refl _, ⟨0, ?_, fun _ _ => Nat.zero_le _⟩, rfl, rfl, rfl,
    hf.spaces, fun _ => rfl, fun _ _ => rfl⟩
  · rw [hf.loaded]
    simp [forkStart, allocProcess, Mem.pd, Mem.setProc, hne]
  · simp [forkStart, allocProcess, Mem.pd, Mem.setProc]
  · intro b hb
    simp [forkStart, allocProcess, Mem.mem, Mem.setProc] at hb

theorem Cloned.leaf {dirs : Frame → Prop} {pd : Frame} (h : Cloned dirs m₀ pd m) (hx : x < kernelOffset) :
    m.leaf pd x = m₀.leaf m₀.cr3 x ∧ (m.pde pd x).toPageFlags = (m₀.pde m₀.cr3 x).toPageFlags := by
  have hi := dirIdx_lt hx
  have hflags : (m.pde pd x).toPageFlags = (m₀.pde m₀.cr3 x).toPageFlags := h.flags hi
  refine ⟨?_, hflags⟩
  unfold Machine.leaf
  rw [hflags]
  split
  · next hp => exact h.entries hi (by rw [← Machine.pde, hflags]; exact hp) _
  · rfl

theorem userRead_leaf {d : Frame} : m.userRead d x =
    if (m.pde d x).present && (m.pde d x).user && (m.leaf d x).present && (m.leaf d x).user then
      some (m.byte (m.leaf d x).frame (pageFlagMask x))
    else none := by
  unfold Machine.userRead Machine.leaf
  cases hp : (m.pde d x).present with
  | false => simp [hp]
  | true => simp only [hp, if_true]

theorem forkProcess_readOnly (hf : Forkable w) (hfork : forkProcess w = .ok (child, w'))
    (ha : a ∈ w.mem w.current) (hw : (w.area a).flags.write = false) (hc : (w.area a).flags.cow = false)
    (hx : (w.area a).covers x = true) :
    w'.machine.leaf (w'.pd child) x = w.machine.leaf (w.pd w.current) x ∧
      w'.machine.userRead (w'.pd child) x = w.machine.userRead (w.pd w.current) x := by
  rw [forkProcess_eq, forkStart_mem hf] at hfork
  obtain ⟨w1, hloop, hfork⟩ := bind_ok.mp hfork
  obtain ⟨⟨pd, m⟩, hclone, hfork⟩ := bind_ok.mp hfork
  obtain ⟨rfl, rfl⟩ := Prod.mk.inj (Except.ok.inj hfork)
  have hpass := hf.passing.loop hf hloop
  have hcr3 := hpass.cr3
  have hspaces : Spaces w1.machine (· = w1.machine.cr3) := hcr3 ▸ hpass.spaces
  have hcloned : Cloned (· = w1.machine.cr3) w1.machine pd m :=
    (vmmClonePd_spec hspaces rfl).of_eq_ok hclone
  have hlow := (hf.wf a ha).lt hx
  obtain ⟨hleaf, hflags⟩ := hcloned.leaf hlow
  rw [hcr3] at hleaf hflags
  have hold : w1.machine.leaf w.machine.cr3 x = w.machine.leaf w.machine.cr3 x := by
    refine hpass.leaf hlow fun b hb hcov => ?_
    rw [hf.at_unique ⟨hb, hcov⟩ ⟨ha, hx⟩]
    exact ⟨hw, hc⟩
  have hpde : w1.machine.pde w.machine.cr3 x = w.machine.pde w.machine.cr3 x := hpass.dir (dirIdx_lt hlow)
  have hpd : (({ w1 with machine := m } : Mem).setProc w.nextPid
      { w1.proc w.nextPid with pd := pd }).pd w.nextPid = pd := by
    simp [Mem.pd, Mem.setProc]
  have hsame : m.leaf pd x = w.machine.leaf w.machine.cr3 x := hleaf.trans hold
  rw [← hf.loaded, hpd]
  refine ⟨hsame, ?_⟩
  change m.userRead pd x = _
  rw [userRead_leaf, userRead_leaf, hsame, hflags, hpde]
  split
  · next hall =>
    simp only [Bool.and_eq_true] at hall
    rw [hcloned.byte (hpass.free ▸ hf.used x hlow hall.1.2), hpass.byte]
  · rfl

/-- The read-only areas are passed on exactly if there is none that `new_area` fills at once. -/
theorem passesReadOnly_iff (hf : Forkable w) : PassesReadOnly w ↔ ¬ FillsUnloaded w := by
  unfold PassesReadOnly
  rw [forkStart_mem hf]
  constructor
  · rintro ⟨hset, -⟩ ⟨done, a, rest, hmem, heager, htables, hfree⟩
    obtain ⟨m, hm, hz⟩ := (hmem ▸ hf.passing).reaches hf heager htables hfree
    exact hset m (hmem ▸ hm) hz
  · intro hnone
    refine ⟨fun m hm hz => hnone (hf.passing.of_unloaded hf hm hz), fun child w' hfork a ha hw hc x hx => ?_⟩
    exact forkProcess_readOnly hf hfork ha hw hc hx

end

def onePageWith (flags : MmFlags) : Mem := { onePage with area := fun _ => ⟨0x1000, 0x2000, flags, 1, 1⟩ }

def textFlags : MmFlags := ⟨true, false, false, false, false, false, false, false⟩

theorem onePageMachine_leaf {x : Nat} (h : (onePageMachine.leaf 1 x).present = true) :
    (onePageMachine.leaf 1 x).frame = 3 := by
  revert h
  unfold Machine.leaf Machine.pte Machine.pde
  simp only [onePageMachine]
  split_ifs <;> simp_all [Entry.zero]

theorem onePageWith_forkable (flags : MmFlags) : Forkable (onePageWith flags) where
  loaded := rfl
  spaces := onePage_start.spaces.mono fun d hd => ⟨1, onePage_living.mpr rfl, hd.symm⟩
  living := onePage_living.mpr rfl
  owner _ _ := rfl
  nodup := onePage_start.nodup 1
  fresh _ ha := onePage_start.fresh ha
  wf _ _ := by
    change MemArea.Wf ⟨0x1000, 0x2000, flags, 1, 1⟩
    exact ⟨by norm_num [pageMask], by norm_num [pageMask], by norm_num, by norm_num⟩
  ordered := onePage_ordered 1
  used x _ hp := by
    change (onePageMachine.leaf 1 x).frame ∉ List.range' 4 1000
    rw [onePageMachine_leaf hp, List.mem_range'_1]
    omega

/-- Pages of a read-only area that come with their first use are passed on. -/
theorem passesReadOnly_lazyText : PassesReadOnly (onePageWith { textFlags with addonuse := true }) := by
  refine (passesReadOnly_iff (onePageWith_forkable _)).mpr ?_
  rintro ⟨done, a, rest, -, heager, -⟩
  cases heager.2.2.2.1

/-- The text of a program gets its pages at once. -/
theorem text_not_passed : ¬ PassesReadOnly (onePageWith textFlags) ∧
    (match forkProcess (onePageWith textFlags) with
      | .error .fault => true
      | _ => false) = true := by
  have hf := onePageWith_forkable textFlags
  refine ⟨fun h => ?_, by decide +kernel⟩
  obtain ⟨m, hset, hz⟩ := hf.passing.unloaded hf ⟨rfl, rfl, rfl, rfl, by decide⟩ (List.cons_ne_nil _ _)
  exact h.1 m hset hz

end Os5
