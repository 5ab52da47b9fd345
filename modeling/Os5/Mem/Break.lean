import Os5.Mem.Collision
import Os5.Mem.KernelHeap

/-!
# The break

`usr_sbrk` moves the byte `data_end`, and gets its memory in pages from `new_area`. In a
run in which every call of `new_area` finds room, a call of `usr_sbrk` does what it should
if its sum does not wrap around, no byte that is asked for lies in a read-only area, its
range meets no area that is itself part of the heap, and a call that asks for nothing moves
no border. Where memory does not run out, it does so only then.
-/

namespace Os5

open Machine Outcome Transition

namespace World

def withBreak (s : World) (incr : Int) (w : Mem) : World :=
  { s with mem := w, dataEnd := Function.update s.dataEnd s.current (s.brk incr) }

/-- `usr_sbrk`, with what it returns and the error number. -/
def sbrkCall (s : World) (incr : Int) : Except Stop ((Nat × SbrkErrno) × World) :=
  let p := s.current
  if s.brk incr > kernelOffset then .ok ((2 ^ 32 - 1, .ENOMEM), s)
  else do
    let w ← s.sbrkArea incr
    let s := s.withBreak incr w
    return ((addInt (s.dataEnd p) (-incr), .SYSCALL_OK), s)

def Words (s : World) : Prop := ∀ p, s.codeEnd p < 2 ^ 32 ∧ s.dataEnd p < 2 ^ 32

def covered (s : World) (p x : Nat) : Bool := (findIncluding s.mem p x).isSome

end World

/-- A world, and the addresses that calls of `usr_sbrk` got for its processes. -/
structure Heaps where
  world : World
  made : Nat → Nat → Bool

namespace Heaps

def origin (h : Heaps) (a : MemAct) (q : Nat) : Nat :=
  match a with
  | .fork => if q = h.world.mem.nextPid then h.world.current else q
  | _ => q

def obtains (h : Heaps) (a : MemAct) (q x : Nat) : Bool :=
  match a with
  | .sbrk _ => q = h.world.current && !h.world.covered q x
  | _ => false

def step (h : Heaps) (a : MemAct) : Option Heaps :=
  (h.world.step a).map fun s =>
    ⟨s, fun q x => s.covered q x && (h.made (h.origin a q) x || h.obtains a q x)⟩

def FindsRoom (h : Heaps) (a : MemAct) : Prop := h.world.FindsRoom a

instance (h : Heaps) (a : MemAct) : Decidable (h.FindsRoom a) := inferInstanceAs (Decidable (h.world.FindsRoom a))

structure Fresh (h : Heaps) : Prop where
  world : h.world.Fresh
  words : h.world.Words
  made : ∀ p x, h.made p x = false

end Heaps

-- ---------------------------------------------------------------------------
-- What a call has to do
-- ---------------------------------------------------------------------------

def MmFlags.writes (f : MmFlags) : Bool := f.write || f.cow

/-- The break moved, and every other area that covers something is as it was. -/
structure Moved (s s' : World) (incr : Int) (ret : Nat) : Prop where
  ret : ret = s.dataEnd s.current
  sum : (s'.dataEnd s.current : Int) = s.dataEnd s.current + incr
  below : s'.dataEnd s.current ≤ kernelOffset
  granted : ∀ x : Nat, s.dataEnd s.current ≤ x → (x : Int) < s.dataEnd s.current + incr →
    ∃ a, At s'.mem s.current x a ∧ (s'.mem.area a).flags.writes = true
  others : ∀ q x a, At s.mem q x a →
    (∃ y : Nat, s.dataEnd s.current ≤ y ∧ (y : Int) < s.dataEnd s.current + incr ∧ At s'.mem s.current y a) ∨
      a ∈ s'.mem.mem q ∧ (s'.mem.area a).start = (s.mem.area a).start ∧
        (s'.mem.area a).stop = (s.mem.area a).stop ∧ (s'.mem.area a).flags = (s.mem.area a).flags

namespace Heaps

/-- The areas that have a page in the range, or where it ends, were made by calls of `usr_sbrk`. -/
def OnlyHeapIn (h : Heaps) (r : Request) : Prop :=
  ∀ x a, pageMask r.start ≤ x → x ≤ areaStop r.stop → At h.world.mem h.world.current x a → h.made h.world.current x = true

/-- A call that returns -1 changed nothing, any other that comes back moved the break, and
only an area in its way that is not part of the heap keeps one from coming back. -/
structure SbrkRight (h : Heaps) (incr : Int) : Prop where
  refused : ∀ errno s', h.world.sbrkCall incr = .ok ((2 ^ 32 - 1, errno), s') → s' = h.world
  moved : ∀ ret errno s', h.world.sbrkCall incr = .ok ((ret, errno), s') → ret ≠ 2 ^ 32 - 1 →
    Moved h.world s' incr ret
  hangs : h.world.sbrkCall incr = .error .hang → ∃ r, h.world.sbrkRequest incr = some r ∧ ¬h.OnlyHeapIn r

end Heaps

namespace World

/-- The sum does not wrap around, and what is asked for begins in no read-only area. -/
structure Plain (s : World) (incr : Int) : Prop where
  valid : s.dataEnd s.current ≠ 2 ^ 32 - 1
  sum : (s.brk incr : Int) = s.dataEnd s.current + incr
  writes : 0 < incr → ∀ a, findIncluding s.mem s.current (s.dataEnd s.current) = some a →
    (s.mem.area a).flags.writes = true

def Meets (s : World) (r : Request) : Prop :=
  ∃ x a, pageMask r.start ≤ x ∧ x ≤ areaStop r.stop ∧ At s.mem s.current x a

structure LeavesBorders (s : World) (r : Request) : Prop where
  left : ∀ a x, leftOf s.mem s.current (pageMask r.start) r.flags r.type = some a → At s.mem s.current x a →
    areaStop r.stop = pageMask r.start
  right : ∀ a x, rightOf s.mem s.current (pageMask r.start) (areaStop r.stop) r.flags r.type = some a →
    ¬At s.mem s.current x a

end World

namespace Heaps

/-- The condition under which a call does what it should. -/
def SbrkFits (h : Heaps) (incr : Int) : Prop :=
  h.world.brk incr > kernelOffset ∨
    match h.world.sbrkRequest incr with
    | none => h.world.Plain incr
    | some r => ¬h.OnlyHeapIn r ∨
        (¬h.world.Meets r ∧ h.world.Plain incr ∧ (incr ≤ 0 → h.world.LeavesBorders r))

end Heaps

-- ---------------------------------------------------------------------------
-- A call and its request
-- ---------------------------------------------------------------------------

section
variable {s s' : World} {w w' : Mem} {incr : Int} {r : Request} {p q a b c x start stop type : Nat}
  {flags : MmFlags}

namespace World

def sbrkResult (s : World) (incr : Int) (w : Mem) : (Nat × SbrkErrno) × World :=
  ((addInt (s.brk incr) (-incr), .SYSCALL_OK), s.withBreak incr w)

theorem sbrkCall_refused (h : s.brk incr > kernelOffset) :
    s.sbrkCall incr = .ok ((2 ^ 32 - 1, .ENOMEM), s) := if_pos h

theorem sbrkCall_area (h : ¬s.brk incr > kernelOffset) :
    s.sbrkCall incr = (s.sbrkArea incr).map (sbrkResult s incr) := by
  rw [sbrkCall, if_neg h]
  cases s.sbrkArea incr with
  | error e => rfl
  | ok w => simp [Except.map, Bind.bind, Except.bind, Pure.pure, Except.pure, sbrkResult, withBreak]

theorem sbrkRequest_none (h : ¬s.brk incr > kernelOffset) (hreq : s.sbrkRequest incr = none) :
    s.sbrkArea incr = .ok s.mem ∧ ∃ a, findIncluding s.mem s.current (s.dataEnd s.current) = some a ∧
      s.brk incr < (s.mem.area a).stop := by
  rw [sbrkRequest, if_neg h] at hreq
  unfold sbrkArea
  cases hinc : findIncluding s.mem s.current (s.dataEnd s.current) with
  | none =>
    rw [hinc] at hreq
    cases hreq
  | some a =>
    simp only [hinc] at hreq ⊢
    split at hreq
    · next henough =>
      exact ⟨if_pos henough, a, rfl, henough⟩
    · cases hreq

theorem sbrkRequest_some (h : ¬s.brk incr > kernelOffset) (hreq : s.sbrkRequest incr = some r) :
    s.sbrkArea incr = (newArea s.mem s.current r.start r.stop r.flags r.type).map Prod.snd ∧
      r.stop = s.brk incr ∧ r.flags = heapFlags ∧
      ((∃ a, findIncluding s.mem s.current (s.dataEnd s.current) = some a ∧
          r.start = (s.mem.area a).stop ∧ r.start ≤ r.stop) ∨
        findIncluding s.mem s.current (s.dataEnd s.current) = none ∧ r.start = s.dataEnd s.current) := by
  rw [sbrkRequest, if_neg h] at hreq
  unfold sbrkArea
  cases hinc : findIncluding s.mem s.current (s.dataEnd s.current) with
  | none =>
    rw [hinc] at hreq
    obtain rfl := Option.some.inj hreq
    refine ⟨?_, rfl, rfl, .inr ⟨rfl, rfl⟩⟩
    simp only []
    cases newArea s.mem s.current (s.dataEnd s.current) (s.brk incr) heapFlags mmTypeData <;> rfl
  | some a =>
    simp only [hinc] at hreq ⊢
    split at hreq
    · cases hreq
    · next hmore =>
      obtain rfl := Option.some.inj hreq
      refine ⟨?_, rfl, rfl, .inl ⟨a, rfl, rfl, Nat.le_of_not_lt hmore⟩⟩
      rw [if_neg hmore]
      cases newArea s.mem s.current (s.mem.area a).stop (s.brk incr) heapFlags mmTypeData <;> rfl

end World

-- ---------------------------------------------------------------------------
-- The call of `new_area`
-- ---------------------------------------------------------------------------

theorem vmmExpageTouch_yields (m : Machine) (page : Nat) (f : PageFlags) :
    Yields (vmmExpageTouch m page f) (· ≠ .hang) fun _ => True := by
  simp only [vmmExpageTouch]
  split
  · exact trivial
  split
  · exact trivial
  refine ((HeapRun.pmmAllocPage_yields m).mono (fun _ h => h) fun e he => ?_).bind fun fm _ => ?_
  · rw [he]
    exact fun h => by cases h
  · rw [Machine.clearTable]
    split
    · exact trivial
    · exact fun h => by cases h

theorem populatePage_yields (write : Bool) (m : Machine) (i : Nat) :
    Yields (populatePage write m i) (· ≠ .hang) fun _ => True := by
  refine ((HeapRun.pmmAllocPage_yields m).mono (fun _ h => h) fun e he => ?_).bind fun fm _ => ?_
  · rw [he]
    exact nofun
  · refine (vmmExpageTouch_yields _ _ _).bind fun m' _ => ?_
    split
    · exact nofun
    · exact trivial

theorem populate_yields (m : Machine) (pd : Frame) (start stop : Nat) (write : Bool) :
    Yields (populate m pd start stop write) (· ≠ .hang) fun _ => True := by
  rw [populate_eq]
  have hloop : Yields ((pagesFrom start stop).foldlM (populatePage write) (vmmExdirSet m pd).2) (· ≠ .hang)
      fun _ => True := Yields.foldlM (fun _ _ => True) (fun i _ m _ => populatePage_yields write m i) trivial
  exact hloop.bind fun _ _ => trivial

theorem newArea_not_hang (hscan : scanHangs w p (pageMask start) (areaStop stop) = false) :
    newArea w p start stop flags type ≠ .error .hang := by
  rw [newArea_eq, if_neg (by rw [hscan]; exact Bool.false_ne_true)]
  intro herr
  by_cases hpop : flags.populates = true
  · rw [if_pos hpop] at herr
    have hfill := populate_yields w.machine (w.pd p) (pageMask start) (areaStop stop) flags.write
    cases hm : populate w.machine (w.pd p) (pageMask start) (areaStop stop) flags.write with
    | ok m =>
      rw [hm] at herr
      cases herr
    | error e =>
      rw [hm] at herr hfill
      exact hfill (Except.error.inj herr)
  · rw [if_neg hpop] at herr
    cases herr

theorem World.meets_iff (hl : Lists s.mem) (hstop : r.stop ≤ kernelOffset) :
    scanHangs s.mem s.current (pageMask r.start) (areaStop r.stop) = true ↔ s.Meets r := by
  constructor
  · intro hscan
    have hlast : ¬lastPage ≤ areaStop r.stop := by
      unfold areaStop pageMask pageFlagMask wrap pageSize lastPage
      unfold kernelOffset at hstop
      split <;> omega
    rw [scanHangs, Bool.or_eq_true, decide_eq_true_eq, List.any_eq_true] at hscan
    obtain ⟨x, hx, hsome⟩ := hscan.resolve_left hlast
    obtain ⟨h1, h2, -⟩ := (mem_pagesFrom (pageMask_pageMask r.start)).mp hx
    obtain ⟨a, ha⟩ := Option.isSome_iff_exists.mp hsome
    exact ⟨x, a, h1, Nat.le_of_lt_succ h2, at_of_findIncluding ha⟩
  · rintro ⟨x, a, h1, h2, ha⟩
    by_contra hscan
    have hx := MemArea.covers_iff.mp ha.2
    have hal := (hl.wf ha.1).start
    have hpage : At s.mem s.current (pageMask x) a := by
      refine ⟨ha.1, MemArea.covers_iff.mpr ⟨?_, (pageMask_le x).trans_lt hx.2⟩⟩
      unfold pageMask at *
      omega
    refine scan_free (Bool.eq_false_iff.mpr hscan) (pageMask_pageMask r.start) (pageMask_pageMask x) ?_
      ((pageMask_le x).trans h2) hpage
    unfold pageMask at *
    omega

-- ---------------------------------------------------------------------------
-- Where the condition holds
-- ---------------------------------------------------------------------------

theorem addInt_brk (h : s.dataEnd s.current < 2 ^ 32) : addInt (s.brk incr) (-incr) = s.dataEnd s.current := by
  have hmod : 0 ≤ ((s.dataEnd s.current : Int) + incr) % 2 ^ 32 := Int.emod_nonneg _ (by decide)
  have hbrk : (s.brk incr : Int) = ((s.dataEnd s.current : Int) + incr) % 2 ^ 32 := Int.toNat_of_nonneg hmod
  rw [addInt, hbrk, Int.emod_add_emod, Int.add_neg_cancel_right]
  omega

theorem withBreak_dataEnd : (s.withBreak incr w).dataEnd s.current = s.brk incr := Function.update_self ..

theorem World.Plain.enough (h : s.Plain incr) (hn : ¬s.brk incr > kernelOffset)
    (hinc : findIncluding s.mem s.current (s.dataEnd s.current) = some a)
    (hlt : s.brk incr < (s.mem.area a).stop) : Moved s (s.withBreak incr s.mem) incr (s.dataEnd s.current) where
  ret := rfl
  sum := by rw [withBreak_dataEnd, h.sum]
  below := by
    rw [withBreak_dataEnd]
    exact Nat.le_of_not_lt hn
  granted x h1 h2 := by
    have hsum := h.sum
    have hat := at_of_findIncluding hinc
    have hcov := MemArea.covers_iff.mp hat.2
    refine ⟨a, ⟨hat.1, MemArea.covers_iff.mpr ⟨hcov.1.trans h1, ?_⟩⟩, h.writes (by omega) a hinc⟩
    change x < (s.mem.area a).stop
    omega
  others _ _ _ hb := .inr ⟨hb.1, rfl, rfl, rfl⟩

theorem World.sbrkRequest_range (hl : Lists s.mem) (hn : ¬s.brk incr > kernelOffset)
    (hreq : s.sbrkRequest incr = some r) : s.dataEnd s.current ≤ r.start ∧ r.stop = s.brk incr ∧
      r.flags = heapFlags ∧ r.stop ≤ areaStop r.stop ∧
      (s.dataEnd s.current ≤ r.stop → r.start ≤ r.stop) ∧
      (r.start = s.dataEnd s.current ∨ pageMask r.start = r.start) ∧
      ∀ x, s.dataEnd s.current ≤ x → x < r.start →
        ∃ a, findIncluding s.mem s.current (s.dataEnd s.current) = some a ∧ At s.mem s.current x a := by
  obtain ⟨-, hstop, hflags, hcases⟩ := sbrkRequest_some hn hreq
  have hlast : r.stop ≤ lastPage := by
    unfold lastPage
    unfold kernelOffset at hn
    omega
  have hround := (areaStop_ge hlast).1
  rcases hcases with ⟨a, hinc, hstart, hle⟩ | ⟨-, hstart⟩
  · have hat := at_of_findIncluding hinc
    have hcov := MemArea.covers_iff.mp hat.2
    refine ⟨hstart ▸ hcov.2.le, hstop, hflags, hround, fun _ => hle, .inr (hstart ▸ (hl.wf hat.1).stop),
      fun x h1 h2 => ⟨a, hinc, hat.1, ?_⟩⟩
    exact MemArea.covers_iff.mpr ⟨hcov.1.trans h1, hstart ▸ h2⟩
  · refine ⟨hstart.ge, hstop, hflags, hround, fun h => hstart ▸ h, .inl hstart, fun x h1 h2 => ?_⟩
    exact absurd h1 (Nat.not_le_of_lt (hstart ▸ h2))

theorem rightOf_stop (hl : Lists s.mem)
    (h : ∀ a x, rightOf s.mem s.current (pageMask r.start) (areaStop r.stop) r.flags r.type = some a →
      ¬At s.mem s.current x a)
    (hc : rightOf s.mem s.current (pageMask r.start) (areaStop r.stop) r.flags r.type = some c) :
    (s.mem.area c).stop = areaStop r.stop := by
  obtain ⟨-, hmem, hstart, -⟩ := rightOf_some hc
  refine Nat.le_antisymm ?_ (hstart ▸ (hl.wf hmem).le)
  by_contra hlt
  refine h c (s.mem.area c).start hc ⟨hmem, MemArea.covers_iff.mpr ⟨le_rfl, ?_⟩⟩
  omega

structure Got (s : World) (incr : Int) (r : Request) (w : Mem) : Prop where
  lists : Lists s.mem
  le : ¬s.brk incr > kernelOffset
  request : s.sbrkRequest incr = some r
  scan : scanHangs s.mem s.current (pageMask r.start) (areaStop r.stop) = false
  entered : Entered s.mem s.current (pageMask r.start) (areaStop r.stop) r.flags r.type w

theorem Got.forward (h : Got s incr r w) (hle : s.dataEnd s.current ≤ r.stop) :
    pageMask r.start ≤ areaStop r.stop := by
  obtain ⟨-, -, -, hround, hforward, -⟩ := World.sbrkRequest_range h.lists h.le h.request
  exact (pageMask_le r.start).trans ((hforward hle).trans hround)

theorem Got.granted (h : Got s incr r w) (hp : s.Plain incr) (h1 : s.dataEnd s.current ≤ x)
    (h2 : (x : Int) < s.dataEnd s.current + incr) : ∃ a, At w s.current x a ∧ (w.area a).flags.writes = true := by
  obtain ⟨-, hstop, hflags, hround, -, -, hbelow⟩ := World.sbrkRequest_range h.lists h.le h.request
  have hsum := hp.sum
  have hx : x < r.stop := by omega
  have hle := h.forward (h1.trans hx.le)
  have hstart := pageMask_pageMask r.start
  rcases Nat.lt_or_ge x r.start with hold | hnew
  · obtain ⟨a, hinc, hat⟩ := hbelow x h1 hold
    obtain ⟨b, hb, hsame, -⟩ := h.entered.at_kept h.lists h.scan hstart hle hat
    exact ⟨b, hb, hsame ▸ hp.writes (by omega) a hinc⟩
  · have hat := h.entered.at_new h.lists h.scan hstart hle
      ⟨(pageMask_le r.start).trans hnew, hx.trans_le hround⟩
    refine ⟨_, hat, ?_⟩
    rw [h.entered.entered, hflags]
    rfl

theorem Got.right_stop (h : Got s incr r w) (hp : s.Plain incr) (hb : incr ≤ 0 → s.LeavesBorders r)
    (hc : rightOf s.mem s.current (pageMask r.start) (areaStop r.stop) r.flags r.type = some c) :
    (s.mem.area c).stop = areaStop r.stop := by
  rcases le_or_gt incr 0 with hneg | hpos
  · exact rightOf_stop h.lists (hb hneg).right hc
  · obtain ⟨-, hstop, -⟩ := World.sbrkRequest_range h.lists h.le h.request
    have hsum := hp.sum
    obtain ⟨-, hmem, hstart, -⟩ := rightOf_some hc
    have hle := h.forward (by omega)
    exact (scan_inside h.scan (pageMask_pageMask r.start) hmem (h.lists.wf hmem) (hstart ▸ hle) hstart.le).trans
      hstart

theorem Got.left (h : Got s incr r w) (hp : s.Plain incr) (hb : incr ≤ 0 → s.LeavesBorders r)
    (hleft : leftOf s.mem s.current (pageMask r.start) r.flags r.type = some a) (ha : At s.mem s.current x a) :
    (s.dataEnd s.current ≤ r.start ∧ (r.start : Int) < s.dataEnd s.current + incr ∧ At w s.current r.start a) ∨
      areaStop r.stop = pageMask r.start := by
  obtain ⟨hge, hstop, -, hround, hforward, hstart, -⟩ := World.sbrkRequest_range h.lists h.le h.request
  have hsum := hp.sum
  rcases le_or_gt incr 0 with hneg | hpos
  · exact .inr ((hb hneg).left a x hleft ha)
  · have hle : r.start ≤ r.stop := hforward (by omega)
    rcases hle.lt_or_eq with hlt | heq
    · have hat := h.entered.at_new h.lists h.scan (pageMask_pageMask r.start) (h.forward (by omega))
        (x := r.start) ⟨pageMask_le r.start, hlt.trans_le hround⟩
      rw [enteredAs_some hleft] at hat
      exact .inl ⟨hge, by omega, hat⟩
    · have hpage : pageMask r.start = r.start := hstart.resolve_left (by omega)
      rw [hpage, ← heq, areaStop_eq hpage]
      exact .inr rfl

theorem Got.moved (h : Got s incr r w) (hp : s.Plain incr) (hb : incr ≤ 0 → s.LeavesBorders r) :
    Moved s (s.withBreak incr w) incr (s.dataEnd s.current) where
  ret := rfl
  sum := by rw [withBreak_dataEnd, hp.sum]
  below := by
    rw [withBreak_dataEnd]
    exact Nat.le_of_not_lt h.le
  granted x h1 h2 := h.granted hp h1 h2
  others q x a ha := by
    have hl := h.lists.toLinked
    have hrange := h.entered.range fun c hc => h.right_stop hp hb hc
    by_cases hinto : a = enteredAs s.mem s.current (pageMask r.start) r.flags r.type
    · cases hleft : leftOf s.mem s.current (pageMask r.start) r.flags r.type with
      | none => exact absurd (hinto.trans (enteredAs_alone hleft)) (hl.mem_ne ha.1)
      | some b =>
        obtain rfl : a = b := hinto.trans (enteredAs_some hleft)
        obtain ⟨-, hmem, hstop, hflags, -⟩ := leftOf_some hleft
        obtain rfl : q = s.current := (hl.owner ha.1).symm.trans (hl.owner hmem)
        refine (h.left hp hb hleft ha).imp (fun hnew => ⟨r.start, hnew⟩) fun hsame => ?_
        rw [← hinto, hleft] at hrange
        have hflags' : (w.area a).flags = r.flags := by
          conv_lhs => rw [hinto]
          rw [h.entered.entered]
        refine ⟨?_, hrange.1, hrange.2.trans (hsame.trans hstop.symm), hflags'.trans hflags.symm⟩
        rw [hinto]
        exact h.entered.entered_mem hl
    · refine .inr ?_
      have hkept : a ∈ w.mem q ∧ w.area a = s.mem.area a := by
        by_cases hq : q = s.current
        · subst hq
          have hright : rightOf s.mem s.current (pageMask r.start) (areaStop r.stop) r.flags r.type ≠ some a := by
            intro hc
            have hstop := h.right_stop hp hb hc
            have hstart := (rightOf_some hc).2.2.1
            have hcov := MemArea.covers_iff.mp ha.2
            omega
          have hmem := (h.entered.mem_iff hl).mpr ⟨.inl ha.1, hright⟩
          exact ⟨hmem, (h.entered.area_old hl hmem hinto).1⟩
        · exact ⟨h.entered.memOther hq ▸ ha.1, h.entered.area (hl.fresh ha.1) hinto⟩
      refine ⟨hkept.1, ?_⟩
      change (w.area a).start = _ ∧ (w.area a).stop = _ ∧ (w.area a).flags = _
      rw [hkept.2]
      exact ⟨rfl, rfl, rfl⟩

-- ---------------------------------------------------------------------------
-- Where a call went right
-- ---------------------------------------------------------------------------

theorem Got.writes (h : Got s incr r w) (ho : Ordered s.mem s.current)
    (hm : Moved s (s.withBreak incr w) incr (s.dataEnd s.current)) (hpos : 0 < incr)
    (hinc : findIncluding s.mem s.current (s.dataEnd s.current) = some a) :
    (s.mem.area a).flags.writes = true := by
  have hat := at_of_findIncluding hinc
  have hl := h.lists.toLinked
  obtain ⟨b, hb, hwrites⟩ := hm.granted (s.dataEnd s.current) le_rfl (by omega)
  have hb : At w s.current (s.dataEnd s.current) b := hb
  have hwrites : (w.area b).flags.writes = true := hwrites
  by_cases hinto : b = enteredAs s.mem s.current (pageMask r.start) r.flags r.type
  · obtain ⟨-, -, hflags, hcases⟩ := World.sbrkRequest_some h.le h.request
    have hstart : pageMask r.start = (s.mem.area a).stop := by
      rcases hcases with ⟨c, hc, hstart, -⟩ | ⟨hnone, -⟩
      · obtain rfl := Option.some.inj (hinc.symm.trans hc)
        rw [hstart]
        exact (h.lists.wf hat.1).stop
      · rw [hinc] at hnone
        cases hnone
    have hafter := (MemArea.covers_iff.mp hb.2).1
    have hbefore := (MemArea.covers_iff.mp hat.2).2
    rw [hinto, h.entered.entered] at hafter
    cases hleft : leftOf s.mem s.current (pageMask r.start) r.flags r.type with
    | none =>
      rw [hleft] at hafter
      have hge : pageMask r.start ≤ s.dataEnd s.current := hafter
      omega
    | some c =>
      rw [hleft] at hafter
      obtain ⟨-, hmem, hstop, hsame, -⟩ := leftOf_some hleft
      have hc : At s.mem s.current (s.dataEnd s.current) c := by
        refine ⟨hmem, MemArea.covers_iff.mpr ⟨hafter, ?_⟩⟩
        rw [hstop, hstart]
        exact hbefore
      obtain rfl := ho.at_unique hat hc
      rw [hsame, hflags]
      rfl
  · have hold := h.entered.area_old hl hb.1 hinto
    have hsame : At s.mem s.current (s.dataEnd s.current) b := ⟨hold.2, hold.1 ▸ hb.2⟩
    obtain rfl := ho.at_unique hat hsame
    rwa [hold.1] at hwrites

theorem Got.borders (h : Got s incr r w)
    (hm : Moved s (s.withBreak incr w) incr (s.dataEnd s.current)) (hneg : incr ≤ 0) : s.LeavesBorders r := by
  have hl := h.lists.toLinked
  have hkept : ∀ {a x}, At s.mem s.current x a → a ∈ w.mem s.current ∧ (w.area a).stop = (s.mem.area a).stop := by
    intro a x ha
    rcases hm.others _ x a ha with ⟨y, h1, h2, -⟩ | ⟨hmem, -, hstop, -⟩
    · omega
    · exact ⟨hmem, hstop⟩
  have hright : ∀ a x, rightOf s.mem s.current (pageMask r.start) (areaStop r.stop) r.flags r.type = some a →
      ¬At s.mem s.current x a := fun a x hc ha => ((h.entered.mem_iff hl).mp (hkept ha).1).2 hc
  refine ⟨fun a x hleft ha => ?_, hright⟩
  have hstop := (hkept ha).2
  rw [(leftOf_some hleft).2.2.1] at hstop
  have hrange := h.entered.range fun c hc => rightOf_stop h.lists hright hc
  rw [enteredAs_some hleft] at hrange
  exact hrange.2.symm.trans hstop

end

section
variable {h : Heaps} {s : World} {w : Mem} {incr : Int} {r : Request} {e : Stop} {ret : Nat} {errno : SbrkErrno}

namespace Heaps

theorem right_refused (hn : h.world.brk incr > kernelOffset) : h.SbrkRight incr := by
  have hcall := World.sbrkCall_refused hn
  refine ⟨fun errno s' hs => ?_, fun ret errno s' hs hret => ?_, fun hs => ?_⟩
  · rw [hcall] at hs
    exact (Prod.mk.inj (Except.ok.inj hs)).2.symm
  · rw [hcall] at hs
    exact absurd (Prod.mk.inj (Prod.mk.inj (Except.ok.inj hs)).1).1.symm hret
  · rw [hcall] at hs
    cases hs

theorem call_ok (hn : ¬h.world.brk incr > kernelOffset) (hw : h.world.dataEnd h.world.current < 2 ^ 32)
    (harea : h.world.sbrkArea incr = .ok w) : h.world.sbrkCall incr =
      .ok ((h.world.dataEnd h.world.current, .SYSCALL_OK), h.world.withBreak incr w) := by
  rw [World.sbrkCall_area hn, harea, Except.map, World.sbrkResult, addInt_brk hw]

theorem call_error (hn : ¬h.world.brk incr > kernelOffset) (harea : h.world.sbrkArea incr = .error e) :
    h.world.sbrkCall incr = .error e := by
  rw [World.sbrkCall_area hn, harea, Except.map]

theorem right_ok (hcall : h.world.sbrkCall incr = .ok ((ret, errno), s)) (hret : ret ≠ 2 ^ 32 - 1)
    (hm : Moved h.world s incr ret) : h.SbrkRight incr := by
  refine ⟨fun errno' s' hs => ?_, fun ret' errno' s' hs _ => ?_, fun hs => ?_⟩
  · rw [hcall] at hs
    exact absurd (Prod.mk.inj (Prod.mk.inj (Except.ok.inj hs)).1).1 hret
  · obtain ⟨hfst, rfl⟩ := Prod.mk.inj (Except.ok.inj (hcall.symm.trans hs))
    obtain ⟨rfl, -⟩ := Prod.mk.inj hfst
    exact hm
  · rw [hcall] at hs
    cases hs

theorem right_error (hcall : h.world.sbrkCall incr = .error e)
    (he : e = .hang → ∃ r, h.world.sbrkRequest incr = some r ∧ ¬h.OnlyHeapIn r) : h.SbrkRight incr := by
  refine ⟨fun errno s' hs => ?_, fun ret errno s' hs _ => ?_, fun hs => ?_⟩
  · rw [hcall] at hs
    cases hs
  · rw [hcall] at hs
    cases hs
  · exact he (Except.error.inj (hcall.symm.trans hs))

theorem area_cases (hl : Lists h.world.mem) (hn : ¬h.world.brk incr > kernelOffset)
    (hreq : h.world.sbrkRequest incr = some r) :
    (h.world.Meets r ∧ h.world.sbrkArea incr = .error .hang) ∨
      (¬h.world.Meets r ∧ ((∃ e, e ≠ .hang ∧ h.world.sbrkArea incr = .error e) ∨
        ∃ w, h.world.sbrkArea incr = .ok w ∧ Got h.world incr r w)) := by
  obtain ⟨harea, hstop, -⟩ := World.sbrkRequest_some hn hreq
  have hmeets := World.meets_iff (r := r) hl (hstop ▸ Nat.le_of_not_lt hn)
  rw [harea]
  cases hscan : scanHangs h.world.mem h.world.current (pageMask r.start) (areaStop r.stop) with
  | true =>
    refine .inl ⟨hmeets.mp hscan, ?_⟩
    rw [newArea_eq, if_pos hscan]
    rfl
  | false =>
    refine .inr ⟨fun hm => Bool.false_ne_true (hscan.symm.trans (hmeets.mpr hm)), ?_⟩
    cases hnew : newArea h.world.mem h.world.current r.start r.stop r.flags r.type with
    | error e =>
      refine .inl ⟨e, ?_, rfl⟩
      rintro rfl
      exact newArea_not_hang hscan hnew
    | ok x => exact .inr ⟨x.2, rfl, hl, hn, hreq, hscan, (hl.toLinked.newArea_entered hnew).2⟩

theorem meets_of_not_onlyHeapIn (hnot : ¬h.OnlyHeapIn r) : h.world.Meets r := by
  by_contra hmeets
  exact hnot fun x a h1 h2 ha => absurd ⟨x, a, h1, h2, ha⟩ hmeets

theorem SbrkFits.right (hl : Lists h.world.mem) (hw : h.world.dataEnd h.world.current < 2 ^ 32)
    (hfits : h.SbrkFits incr) : h.SbrkRight incr := by
  rcases hfits with hbig | hfits
  · exact right_refused hbig
  by_cases hn : h.world.brk incr > kernelOffset
  · exact right_refused hn
  cases hreq : h.world.sbrkRequest incr with
  | none =>
    rw [hreq] at hfits
    obtain ⟨harea, a, hinc, hlt⟩ := World.sbrkRequest_none hn hreq
    exact right_ok (call_ok hn hw harea) hfits.valid (hfits.enough hn hinc hlt)
  | some r =>
    rw [hreq] at hfits
    rcases area_cases hl hn hreq with ⟨hm, harea⟩ | ⟨hm, ⟨e, he, harea⟩ | ⟨w, harea, hgot⟩⟩
    · exact right_error (call_error hn harea) fun _ => ⟨r, hreq, hfits.resolve_right fun hfit => hfit.1 hm⟩
    · exact right_error (call_error hn harea) fun hhang => absurd hhang he
    · obtain ⟨-, hplain, hborders⟩ := hfits.resolve_left fun hnot => hm (meets_of_not_onlyHeapIn hnot)
      exact right_ok (call_ok hn hw harea) hplain.valid (hgot.moved hplain hborders)

-- ---------------------------------------------------------------------------
-- Only there
-- ---------------------------------------------------------------------------

theorem SbrkRight.came_back (hn : ¬h.world.brk incr > kernelOffset)
    (hw : h.world.dataEnd h.world.current < 2 ^ 32) (harea : h.world.sbrkArea incr = .ok w)
    (hr : h.SbrkRight incr) : h.world.dataEnd h.world.current ≠ 2 ^ 32 - 1 ∧
      Moved h.world (h.world.withBreak incr w) incr (h.world.dataEnd h.world.current) := by
  have hcall := call_ok hn hw harea
  have hvalid : h.world.dataEnd h.world.current ≠ 2 ^ 32 - 1 := by
    intro hlast
    rw [hlast] at hcall
    have hbrk : h.world.brk incr = h.world.dataEnd h.world.current := by
      rw [← withBreak_dataEnd (w := w), hr.refused _ _ hcall]
    rw [hbrk, hlast] at hn
    exact hn (by decide)
  exact ⟨hvalid, hr.moved _ _ _ hcall hvalid⟩

theorem SbrkRight.fits (hl : Lists h.world.mem) (ho : Ordered h.world.mem h.world.current)
    (hw : h.world.dataEnd h.world.current < 2 ^ 32)
    (henough : ∀ e, h.world.sbrkCall incr = .error e → e = .hang) (hr : h.SbrkRight incr) :
    h.SbrkFits incr := by
  by_cases hn : h.world.brk incr > kernelOffset
  · exact .inl hn
  refine .inr ?_
  cases hreq : h.world.sbrkRequest incr with
  | none =>
    obtain ⟨harea, a, hinc, hlt⟩ := World.sbrkRequest_none hn hreq
    obtain ⟨hvalid, hm⟩ := hr.came_back hn hw harea
    refine ⟨hvalid, by rw [← hm.sum, withBreak_dataEnd], fun hpos b hb => ?_⟩
    obtain ⟨c, hc, hwrites⟩ := hm.granted (h.world.dataEnd h.world.current) le_rfl (by omega)
    rwa [ho.at_unique (at_of_findIncluding hb) hc]
  | some r =>
    rcases area_cases hl hn hreq with ⟨hmeets, harea⟩ | ⟨hmeets, ⟨e, he, harea⟩ | ⟨w, harea, hgot⟩⟩
    · obtain ⟨r', hreq', hnot⟩ := hr.hangs (call_error hn harea)
      exact .inl (Option.some.inj (hreq.symm.trans hreq') ▸ hnot)
    · exact absurd (henough e (call_error hn harea)) he
    · obtain ⟨hvalid, hm⟩ := hr.came_back hn hw harea
      refine .inr ⟨hmeets, ⟨hvalid, by rw [← hm.sum, withBreak_dataEnd], fun hpos a ha => ?_⟩, hgot.borders hm⟩
      exact hgot.writes ho hm hpos ha

end Heaps

end

-- ---------------------------------------------------------------------------
-- Runs
-- ---------------------------------------------------------------------------

section
variable {h : Heaps} {s s' : World} {a : MemAct} {incr : Int}

namespace World

theorem brk_lt (s : World) (incr : Int) : s.brk incr < 2 ^ 32 := by
  unfold brk
  omega

theorem update_lt {f : Nat → Nat} {n v q : Nat} (hf : ∀ p, f p < n) (hv : v < n) (p : Nat) :
    Function.update f q v p < n := by
  rw [Function.update_apply]
  split
  · exact hv
  · exact hf p

theorem Words.usrSbrk (hw : s.Words) (hs : s.usrSbrk incr = .ok s') : s'.Words := by
  unfold World.usrSbrk at hs
  split at hs
  · exact Except.ok.inj hs ▸ hw
  · obtain ⟨w, -, hs⟩ := bind_ok.mp hs
    obtain rfl := Except.ok.inj hs
    exact fun p => ⟨(hw p).1, update_lt (fun q => (hw q).2) (s.brk_lt incr) p⟩

theorem Words.step (hw : s.Words) (hs : s.step a = some s') : s'.Words := by
  have hs := step_some.mp hs
  cases a with
  | schedule p =>
    simp only [carryOut] at hs
    split at hs
    · exact Except.ok.inj hs ▸ hw
    · cases hs
  | removeAll =>
    obtain ⟨w, -, hs⟩ := bind_ok.mp hs
    exact Except.ok.inj hs ▸ hw
  | beginLoad =>
    obtain ⟨-, hs⟩ := whenLoading_ok hs
    obtain rfl := Except.ok.inj hs
    exact fun p => ⟨update_lt (fun q => (hw q).1) (by decide) p, (hw p).2⟩
  | loadSegment ph =>
    simp only [carryOut] at hs
    split at hs
    · obtain ⟨-, hs⟩ := whenLoading_ok hs
      obtain ⟨⟨b, w⟩, -, hs⟩ := bind_ok.mp hs
      obtain rfl := Except.ok.inj hs
      have hend : ph.end < 2 ^ 32 := Nat.mod_lt _ (by decide)
      refine fun p => ⟨update_lt (fun q => (hw q).1) ?_ p, (hw p).2⟩
      split
      · exact hend
      · exact (hw s.current).1
    · cases hs
  | endLoad =>
    obtain ⟨-, hs⟩ := whenLoading_ok hs
    obtain rfl := Except.ok.inj hs
    exact fun p => ⟨(hw p).1, update_lt (fun q => (hw q).2) (hw s.current).1 p⟩
  | newStack =>
    obtain ⟨-, hs⟩ := whenLoading_ok hs
    obtain ⟨⟨b, w⟩, -, hs⟩ := bind_ok.mp hs
    exact Except.ok.inj hs ▸ hw
  | sbrk incr =>
    simp only [carryOut] at hs
    split at hs
    · exact hw.usrSbrk (whenRunning_ok hs).2
    · cases hs
  | vidmem =>
    obtain ⟨-, hs⟩ := whenRunning_ok hs
    obtain ⟨⟨b, w⟩, -, hs⟩ := bind_ok.mp hs
    obtain ⟨m, -, hs⟩ := bind_ok.mp hs
    exact Except.ok.inj hs ▸ hw
  | fault f =>
    simp only [carryOut] at hs
    split at hs
    · obtain ⟨⟨r, w⟩, -, hs⟩ := bind_ok.mp hs
      exact Except.ok.inj hs ▸ hw
    · cases hs
  | fork =>
    obtain ⟨-, hs⟩ := whenRunning_ok hs
    obtain ⟨⟨child, w⟩, -, hs⟩ := bind_ok.mp hs
    obtain rfl := Except.ok.inj hs
    exact fun p => ⟨update_lt (fun q => (hw q).1) (hw s.current).1 p,
      update_lt (fun q => (hw q).2) (hw s.current).2 p⟩
  | exit p =>
    simp only [carryOut] at hs
    split at hs
    · exact Except.ok.inj hs ▸ hw
    · cases hs

end World

namespace Heaps

end Heaps

end

-- ---------------------------------------------------------------------------
-- One program
-- ---------------------------------------------------------------------------

instance World.decidablePlain (s : World) (incr : Int) : Decidable (s.Plain incr) :=
  decidable_of_iff (s.dataEnd s.current ≠ 2 ^ 32 - 1 ∧ (s.brk incr : Int) = s.dataEnd s.current + incr ∧
    (0 < incr → ∀ a ∈ findIncluding s.mem s.current (s.dataEnd s.current), (s.mem.area a).flags.writes = true))
    ⟨fun h => ⟨h.1, h.2.1, h.2.2⟩, fun h => ⟨h.valid, h.sum, h.writes⟩⟩

namespace Heaps

def first : Heaps := ⟨World.firstProcess, fun _ _ => false⟩

end Heaps

end Os5
