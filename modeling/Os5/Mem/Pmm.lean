import Os5.Lib.Transition
import Os5.Mem.Machine

/-!
# The physical memory manager

Free frames are kept on a stack at `PMM_PAGE_STACK`. The memory of the stack is made
of free frames too: one that is freed when the stack is full becomes its next page,
and one page is handed out again when the stack has become short enough.
-/

namespace Os5

open Transition

abbrev stackEntriesPerPage : Nat := 0x400

/-- Frames are given by their numbers, the two pointers by the entries below them on the
stack. The pages of the stack are those of the page table at `PMM_PAGE_STACK`. -/
structure Pmm where
  running : Bool
  pos : Frame
  stackMax : Nat
  stackPtr : Nat
  table : Option Frame
  /-- The frames mapped at the pages of the stack. -/
  stackPage : Nat → Option Frame
  word : Frame → Nat → Frame

namespace Pmm

def pageAt (s : Pmm) (k : Nat) : Frame := (s.stackPage k).getD 0

def allocPage (s : Pmm) : Except Stop (Frame × Pmm) :=
  if ¬ s.running then .ok (s.pos, { s with pos := s.pos + 1 })
  else if s.stackPtr = 0 then .error .outOfMemory
  else if s.stackPtr + stackEntriesPerPage < s.stackMax then
    let top := s.stackMax - stackEntriesPerPage
    let page := top / stackEntriesPerPage
    .ok (s.pageAt page, { s with stackMax := top, stackPage := Function.update s.stackPage page none })
  else
    let ptr := s.stackPtr - 1
    match s.stackPage (ptr / stackEntriesPerPage) with
    | some f => .ok (s.word f (ptr % stackEntriesPerPage), { s with stackPtr := ptr })
    | none => .error .fault

/-- `vmm_page_touch` for a page of the stack. It is called with the semaphore of the
manager locked, so an allocation gets through only while that is not yet running. -/
def touch (s : Pmm) : Except Stop Pmm :=
  match s.table with
  | some _ => .ok s
  | none =>
    if ¬ s.running then .ok { s with table := some s.pos, pos := s.pos + 1 }
    else if s.stackPtr = 0 then .error .outOfMemory
    else .error .hang

def freePage (s : Pmm) (page : Frame) : Except Stop Pmm :=
  if page < s.pos + 1 then .ok s
  else do
    let s ←
      if s.stackMax ≤ s.stackPtr then do
        let s ← s.touch
        pure { s with stackPage := Function.update s.stackPage (s.stackMax / stackEntriesPerPage) (some page)
                      stackMax := s.stackMax + stackEntriesPerPage }
      else
        match s.stackPage (s.stackPtr / stackEntriesPerPage) with
        | some f => pure { s with word := Function.update s.word f
                                    (Function.update (s.word f) (s.stackPtr % stackEntriesPerPage) page)
                                  stackPtr := s.stackPtr + 1 }
        | none => throw .fault
    return { s with running := true }

/-- The frames that hold the stack, from its base on. -/
def backing (s : Pmm) : List Frame := (List.range (s.stackMax / stackEntriesPerPage)).map s.pageAt

def entry (s : Pmm) (i : Nat) : Frame :=
  s.word (s.pageAt (i / stackEntriesPerPage)) (i % stackEntriesPerPage)

def stack (s : Pmm) : List Frame := (List.range s.stackPtr).map s.entry

def free (s : Pmm) : List Frame := s.backing ++ s.stack

end Pmm

structure PmmRun where
  pmm : Pmm
  held : List Frame

inductive PmmAct
  | alloc
  | free (page : Frame)
  | store (page : Frame) (i : Nat) (value : Frame)

/-- After start-up callers get frames; they free frames above the first two. -/
def PmmRun.step (s : PmmRun) : PmmAct → Option PmmRun
  | .alloc =>
    if s.pmm.running then
      match s.pmm.allocPage with
      | .ok (f, pmm) => some ⟨pmm, f :: s.held⟩
      | .error _ => none
    else none
  | .free page =>
    if page ∈ s.held ∧ s.pmm.pos + 1 ≤ page then
      match s.pmm.freePage page with
      | .ok pmm => some ⟨pmm, s.held.erase page⟩
      | .error _ => none
    else none
  | .store page i value =>
    if page ∈ s.held then
      some { s with pmm := { s.pmm with word := Function.update s.pmm.word page
                                          (Function.update (s.pmm.word page) i value) } }
    else none

/-- `pmm_init`, before any frame is freed; `memory` is what the memory map calls free. -/
structure FreshMemory (memory : List Frame) (s : PmmRun) : Prop where
  running : s.pmm.running = false
  stackMax : s.pmm.stackMax = 0
  stackPtr : s.pmm.stackPtr = 0
  table : s.pmm.table = none
  held : s.held = memory
  nodup : memory.Nodup
  above : ∀ f ∈ memory, s.pmm.pos + 1 ≤ f
  below : ∀ f ∈ memory, f < 0x100000

-- ---------------------------------------------------------------------------
-- The stack
-- ---------------------------------------------------------------------------

/-- The stack has at most one page more than it needs. -/
structure Pmm.Ok (s : Pmm) : Prop where
  whole : stackEntriesPerPage ∣ s.stackMax
  le : s.stackPtr ≤ s.stackMax
  short : s.stackMax ≤ s.stackPtr + stackEntriesPerPage + 1
  mapped : ∀ k, k < s.stackMax / stackEntriesPerPage → (s.stackPage k).isSome = true
  running : s.running = true ↔ 0 < s.stackMax
  table : s.running = true → s.table.isSome = true

namespace Pmm

section
variable {s s' : Pmm} {f page : Frame} {k i : Nat}

theorem Ok.page_lt (h : s.Ok) (hi : i < s.stackMax) :
    i / stackEntriesPerPage < s.stackMax / stackEntriesPerPage := by
  obtain ⟨n, hn⟩ := h.whole
  have := h.le
  unfold stackEntriesPerPage at *
  omega

theorem Ok.mapped_eq (h : s.Ok) (hk : k < s.stackMax / stackEntriesPerPage) :
    s.stackPage k = some (s.pageAt k) := by
  obtain ⟨f, hf⟩ := Option.isSome_iff_exists.mp (h.mapped k hk)
  rw [pageAt, hf, Option.getD_some]

theorem pageAt_mem (hk : k < s.stackMax / stackEntriesPerPage) : s.pageAt k ∈ s.backing :=
  List.mem_map.mpr ⟨k, List.mem_range.mpr hk, rfl⟩

theorem pageAt_inj {j : Nat} (hnodup : s.backing.Nodup) (hk : k < s.stackMax / stackEntriesPerPage)
    (hj : j < s.stackMax / stackEntriesPerPage) (h : s.pageAt k = s.pageAt j) : k = j :=
  List.inj_on_of_nodup_map hnodup (List.mem_range.mpr hk) (List.mem_range.mpr hj) h

@[simp] theorem length_backing : s.backing.length = s.stackMax / stackEntriesPerPage := by simp [backing]

@[simp] theorem length_stack : s.stack.length = s.stackPtr := by simp [stack]

theorem stack_eq (hptr : s'.stackPtr = s.stackPtr)
    (hpage : ∀ i, i < s.stackPtr → s'.pageAt (i / stackEntriesPerPage) = s.pageAt (i / stackEntriesPerPage))
    (hword : ∀ i, i < s.stackPtr → s'.word (s.pageAt (i / stackEntriesPerPage)) =
      s.word (s.pageAt (i / stackEntriesPerPage))) : s'.stack = s.stack := by
  unfold stack
  rw [hptr]
  refine List.map_congr_left fun i hi => ?_
  have hlt := List.mem_range.mp hi
  rw [entry, hpage i hlt, hword i hlt, entry]

theorem stack_store (h : s.Ok) {g : Nat → Frame} (hf : f ∉ s.backing) :
    stack { s with word := Function.update s.word f g } = s.stack := by
  refine stack_eq rfl (fun _ _ => rfl) fun i hi => Function.update_of_ne ?_ _ _
  rintro rfl
  exact hf (pageAt_mem (h.page_lt (Nat.lt_of_lt_of_le hi h.le)))

-- ---------------------------------------------------------------------------
-- The four moves
-- ---------------------------------------------------------------------------

def pushPage (s : Pmm) (page : Frame) : Pmm :=
  { s with stackPage := Function.update s.stackPage (s.stackMax / stackEntriesPerPage) (some page)
           stackMax := s.stackMax + stackEntriesPerPage
           running := true }

def pushEntry (s : Pmm) (page : Frame) : Pmm :=
  let f := s.pageAt (s.stackPtr / stackEntriesPerPage)
  { s with word := Function.update s.word f
                     (Function.update (s.word f) (s.stackPtr % stackEntriesPerPage) page)
           stackPtr := s.stackPtr + 1
           running := true }

def popPage (s : Pmm) : Pmm :=
  { s with stackMax := s.stackMax - stackEntriesPerPage
           stackPage := Function.update s.stackPage
             ((s.stackMax - stackEntriesPerPage) / stackEntriesPerPage) none }

def popEntry (s : Pmm) : Pmm := { s with stackPtr := s.stackPtr - 1 }

theorem backing_succ {n : Nat} (hn : s'.stackMax / stackEntriesPerPage = n + 1)
    (hmax : s.stackMax / stackEntriesPerPage = n) (h : ∀ k, k < n → s'.pageAt k = s.pageAt k) :
    s'.backing = s.backing ++ [s'.pageAt n] := by
  unfold backing
  rw [hn, hmax, List.range_succ, List.map_append]
  congr 1
  exact List.map_congr_left fun k hk => h k (List.mem_range.mp hk)

theorem pushPage_backing : (s.pushPage page).backing = s.backing ++ [page] := by
  have hn : (s.stackMax + stackEntriesPerPage) / stackEntriesPerPage =
      s.stackMax / stackEntriesPerPage + 1 := Nat.add_div_right _ (by decide)
  rw [backing_succ (s := s) hn rfl]
  · simp [pushPage, pageAt]
  · intro k hk
    simp [pushPage, pageAt, Function.update_of_ne hk.ne]

theorem pushPage_stack (h : s.Ok) : (s.pushPage page).stack = s.stack := by
  refine stack_eq rfl (fun i hi => ?_) fun _ _ => rfl
  have := h.page_lt (Nat.lt_of_lt_of_le hi h.le)
  simp [pushPage, pageAt, Function.update_of_ne this.ne]

theorem pushEntry_stack (h : s.Ok) (hlt : s.stackPtr < s.stackMax) (hnodup : s.backing.Nodup) :
    (s.pushEntry page).stack = s.stack ++ [page] := by
  unfold stack
  rw [show (s.pushEntry page).stackPtr = s.stackPtr + 1 from rfl, List.range_succ, List.map_append]
  congr 1
  · refine List.map_congr_left fun i hi => ?_
    have hi := List.mem_range.mp hi
    simp only [entry, pushEntry]
    change Function.update s.word _ _ (s.pageAt _) _ = _
    by_cases hp : i / stackEntriesPerPage = s.stackPtr / stackEntriesPerPage
    · have hne : i % stackEntriesPerPage ≠ s.stackPtr % stackEntriesPerPage := by
        intro he
        rw [← Nat.div_add_mod i stackEntriesPerPage, hp, he, Nat.div_add_mod] at hi
        exact hi.false
      rw [hp, Function.update_self, Function.update_of_ne hne]
    · have hne : s.pageAt (i / stackEntriesPerPage) ≠ s.pageAt (s.stackPtr / stackEntriesPerPage) :=
        fun he => hp (pageAt_inj hnodup (h.page_lt (hi.trans hlt)) (h.page_lt hlt) he)
      rw [Function.update_of_ne hne]
  · simp only [List.map_cons, List.map_nil, entry, pushEntry]
    change [Function.update s.word _ _ (s.pageAt _) _] = _
    rw [Function.update_self, Function.update_self]

theorem popPage_pages (hlt : s.stackPtr + stackEntriesPerPage < s.stackMax) :
    s.stackMax / stackEntriesPerPage = (s.stackMax - stackEntriesPerPage) / stackEntriesPerPage + 1 := by
  rw [← Nat.add_div_right _ (by decide), Nat.sub_add_cancel (by omega)]

theorem popPage_backing (hlt : s.stackPtr + stackEntriesPerPage < s.stackMax) :
    s.backing = s.popPage.backing ++ [s.pageAt ((s.stackMax - stackEntriesPerPage) / stackEntriesPerPage)] := by
  rw [backing_succ (s := s.popPage) (popPage_pages hlt) (by simp only [popPage])]
  intro k hk
  simp only [popPage, pageAt, Function.update_of_ne hk.ne]

theorem popPage_stack (h : s.Ok) (hlt : s.stackPtr + stackEntriesPerPage < s.stackMax) :
    s.popPage.stack = s.stack := by
  refine stack_eq (by simp only [popPage]) (fun i hi => ?_) fun _ _ => by simp only [popPage]
  have hne : i / stackEntriesPerPage ≠ (s.stackMax - stackEntriesPerPage) / stackEntriesPerPage := by
    obtain ⟨n, hn⟩ := h.whole
    unfold stackEntriesPerPage at *
    omega
  simp [popPage, pageAt, Function.update_of_ne hne]

theorem popEntry_stack (hpos : s.stackPtr ≠ 0) :
    s.stack = s.popEntry.stack ++ [s.entry (s.stackPtr - 1)] := by
  obtain ⟨n, hn⟩ := Nat.exists_eq_succ_of_ne_zero hpos
  unfold stack
  rw [show s.popEntry.stackPtr = n by simp [popEntry, hn], hn, List.range_succ, List.map_append]
  rfl

theorem pushPage_ok (h : s.Ok) (hmax : s.stackMax ≤ s.stackPtr) (ht : s.table.isSome = true) :
    (s.pushPage page).Ok where
  whole := (Nat.dvd_add_right h.whole).mpr (Nat.dvd_refl _)
  le := h.le.trans (Nat.le_add_right _ _)
  short := by
    simp only [pushPage]
    omega
  mapped k hk := by
    have hn : (s.stackMax + stackEntriesPerPage) / stackEntriesPerPage =
        s.stackMax / stackEntriesPerPage + 1 := Nat.add_div_right _ (by decide)
    simp only [pushPage, hn] at hk ⊢
    rcases Nat.lt_succ_iff_lt_or_eq.mp hk with hk | rfl
    · rw [Function.update_of_ne hk.ne]
      exact h.mapped k hk
    · rw [Function.update_self]
      rfl
  running := by simp [pushPage]
  table _ := ht

theorem pushEntry_ok (h : s.Ok) (hlt : s.stackPtr < s.stackMax) : (s.pushEntry page).Ok where
  whole := h.whole
  le := hlt
  short := by
    have := h.short
    simp only [pushEntry]
    omega
  mapped := h.mapped
  running := by simp [pushEntry, Nat.zero_lt_of_lt hlt]
  table _ := h.table (h.running.mpr (Nat.zero_lt_of_lt hlt))

theorem popPage_ok (h : s.Ok)
    (hlt : s.stackPtr + stackEntriesPerPage < s.stackMax) : s.popPage.Ok where
  whole := by
    simp only [popPage]
    exact Nat.dvd_sub h.whole (Nat.dvd_refl _)
  le := by
    simp only [popPage]
    omega
  short := by
    have := h.short
    simp only [popPage]
    omega
  mapped k hk := by
    have hn := popPage_pages hlt
    simp only [popPage] at hk ⊢
    rw [Function.update_of_ne hk.ne]
    exact h.mapped k (by omega)
  running := by
    have hrun := h.running.mpr (by omega)
    simp only [popPage, hrun, true_iff]
    omega
  table := by
    simp only [popPage]
    exact h.table

theorem popEntry_ok (h : s.Ok) (hle : ¬ s.stackPtr + stackEntriesPerPage < s.stackMax) :
    s.popEntry.Ok where
  whole := h.whole
  le := (Nat.sub_le _ _).trans h.le
  short := by
    simp only [popEntry]
    omega
  mapped := h.mapped
  running := h.running
  table := h.table

-- ---------------------------------------------------------------------------
-- Allocation and release
-- ---------------------------------------------------------------------------

theorem allocPage_eq (h : s.Ok) (hrun : s.running = true) (hpos : s.stackPtr ≠ 0) :
    s.allocPage = .ok (if s.stackPtr + stackEntriesPerPage < s.stackMax then
        (s.pageAt ((s.stackMax - stackEntriesPerPage) / stackEntriesPerPage), s.popPage)
      else (s.entry (s.stackPtr - 1), s.popEntry)) := by
  unfold allocPage
  rw [if_neg (by simp [hrun]), if_neg hpos]
  split
  · rfl
  · have hlt : s.stackPtr - 1 < s.stackMax := by
      have := h.le
      omega
    simp only [h.mapped_eq (h.page_lt hlt)]
    rfl

theorem allocPage_spec (h : s.Ok) (hrun : s.running = true) (hpos : s.stackPtr ≠ 0) :
    ∃ f s', s.allocPage = .ok (f, s') ∧ s'.Ok ∧ s'.table = s.table ∧ s'.pos = s.pos ∧
      s.free.Perm (f :: s'.free) := by
  rw [allocPage_eq h hrun hpos]
  by_cases hlt : s.stackPtr + stackEntriesPerPage < s.stackMax
  · refine ⟨_, _, by rw [if_pos hlt], popPage_ok h hlt, by simp only [popPage], by simp only [popPage], ?_⟩
    unfold free
    rw [popPage_backing hlt, popPage_stack h hlt, List.append_assoc]
    exact List.perm_middle
  · refine ⟨_, _, by rw [if_neg hlt], popEntry_ok h hlt, by simp only [popEntry], by simp only [popEntry], ?_⟩
    unfold free
    rw [popEntry_stack hpos, ← List.append_assoc]
    exact List.perm_append_singleton _ _

theorem allocPage_error {e : Stop} (h : s.Ok) (hrun : s.running = true) (he : s.allocPage = .error e) :
    e = .outOfMemory ∧ s.stackPtr = 0 := by
  by_cases hpos : s.stackPtr = 0
  · unfold allocPage at he
    rw [if_neg (by simp [hrun]), if_pos hpos] at he
    exact ⟨(Except.error.inj he).symm, hpos⟩
  · obtain ⟨f, s', hok, -⟩ := allocPage_spec h hrun hpos
    rw [hok] at he
    cases he

/-- The page table of the stack is the first frame the manager uses up. -/
theorem touch_spec (h : s.Ok) : ∃ s', s.touch = .ok s' ∧ s'.table.isSome = true ∧
    ((s.table = none ∧ s.running = false ∧ s' = { s with table := some s.pos, pos := s.pos + 1 }) ∨
      s' = s) := by
  unfold touch
  cases ht : s.table with
  | some t => exact ⟨s, rfl, by simp [ht], .inr rfl⟩
  | none =>
    have hrun : s.running = false := by
      cases hrun : s.running with
      | false => rfl
      | true => exact absurd (h.table hrun) (by simp [ht])
    exact ⟨_, by simp only [hrun]; rfl, rfl, .inl ⟨rfl, hrun, rfl⟩⟩

theorem freePage_spec (h : s.Ok) (hpage : s.pos + 1 ≤ page) :
    ∃ s', s.freePage page = .ok s' ∧ s'.Ok ∧ s'.running = true ∧
      (s.backing.Nodup → s'.free.Perm (page :: s.free)) ∧
      (s'.table = s.table ∧ s'.pos = s.pos ∨
        s.table = none ∧ s'.table = some s.pos ∧ s'.pos = s.pos + 1) := by
  unfold freePage
  rw [if_neg (Nat.not_lt.mpr hpage)]
  by_cases hmax : s.stackMax ≤ s.stackPtr
  · obtain ⟨t, ht, hsome, hcase⟩ := touch_spec h
    have hok : t.Ok ∧ t.stackMax ≤ t.stackPtr ∧ t.free = s.free := by
      rcases hcase with ⟨-, hrun, rfl⟩ | rfl
      · exact ⟨⟨h.whole, h.le, h.short, h.mapped, h.running, fun _ => rfl⟩, hmax, rfl⟩
      · exact ⟨h, hmax, rfl⟩
    refine ⟨t.pushPage page, by simp only [if_pos hmax, ht]; rfl, pushPage_ok hok.1 hok.2.1 hsome, rfl, ?_, ?_⟩
    · intro _
      rw [← hok.2.2]
      unfold free
      rw [pushPage_backing, pushPage_stack hok.1, List.append_assoc]
      exact List.perm_middle
    · rcases hcase with ⟨hnone, -, rfl⟩ | rfl
      · exact .inr ⟨hnone, rfl, rfl⟩
      · exact .inl ⟨rfl, rfl⟩
  · have hlt := Nat.lt_of_not_le hmax
    refine ⟨s.pushEntry page, ?_, pushEntry_ok h hlt, rfl, ?_, .inl ⟨rfl, rfl⟩⟩
    · simp only [if_neg hmax, h.mapped_eq (h.page_lt hlt)]
      rfl
    · intro hnodup
      unfold free
      rw [pushEntry_stack h hlt hnodup, ← List.append_assoc]
      exact List.perm_append_singleton _ _

end

end Pmm

-- ---------------------------------------------------------------------------
-- Runs
-- ---------------------------------------------------------------------------

/-- Every frame of the memory has one place: with a caller, on the stack or below it. -/
structure PmmRun.Ok (memory : List Frame) (s : PmmRun) : Prop where
  pmm : s.pmm.Ok
  nodup : memory.Nodup
  below : ∀ f ∈ memory, f < 0x100000
  all : (s.held ++ s.pmm.free).Perm memory
  unused : ∀ f ∈ memory, s.pmm.pos ≤ f
  table : ∀ t, s.pmm.table = some t → t < s.pmm.pos
  booting : s.pmm.running = false → s.pmm.table = none → ∀ f ∈ memory, s.pmm.pos + 1 ≤ f

namespace PmmRun

variable {memory : List Frame} {s s' : PmmRun} {a : PmmAct}

theorem Ok.nodup_all (h : s.Ok memory) : (s.held ++ s.pmm.free).Nodup := h.all.nodup_iff.mpr h.nodup

theorem Ok.nodup_backing (h : s.Ok memory) : s.pmm.backing.Nodup :=
  (List.nodup_append.mp (List.nodup_append.mp h.nodup_all).2.1).1

theorem FreshMemory.ok (h : FreshMemory memory s) : s.Ok memory where
  pmm := by
    refine ⟨?_, ?_, ?_, ?_, ?_, ?_⟩ <;> simp [h.running, h.stackMax, h.stackPtr]
  nodup := h.nodup
  below := h.below
  all := by simp [Pmm.free, Pmm.backing, Pmm.stack, h.stackMax, h.stackPtr, h.held]
  unused f hf := (Nat.le_succ _).trans (h.above f hf)
  table t ht := by simp [h.table] at ht
  booting _ _ := h.above

theorem Ok.store {page : Frame} {g : Nat → Frame} (h : s.Ok memory) (hp : page ∈ s.held) :
    Ok memory { s with pmm := { s.pmm with word := Function.update s.pmm.word page g } } where
  pmm := ⟨h.pmm.whole, h.pmm.le, h.pmm.short, h.pmm.mapped, h.pmm.running, h.pmm.table⟩
  nodup := h.nodup
  below := h.below
  all := by
    have hf : page ∉ s.pmm.backing := fun hb =>
      (List.nodup_append.mp h.nodup_all).2.2 page hp page (List.mem_append_left _ hb) rfl
    have hfree : Pmm.free { s.pmm with word := Function.update s.pmm.word page g } = s.pmm.free := by
      unfold Pmm.free
      rw [Pmm.stack_store h.pmm hf]
      rfl
    rw [hfree]
    exact h.all
  unused := h.unused
  table := h.table
  booting := h.booting

theorem Ok.step (h : s.Ok memory) (hs : s.step a = some s') : s'.Ok memory := by
  cases a with
  | alloc =>
    simp only [PmmRun.step] at hs
    split at hs
    case isFalse => cases hs
    case isTrue hrun =>
    split at hs
    case h_2 => cases hs
    case h_1 f pmm hf =>
    cases hs
    have hpos : s.pmm.stackPtr ≠ 0 := by
      intro hz
      rw [Pmm.allocPage, if_neg (by simp [hrun]), if_pos hz] at hf
      cases hf
    obtain ⟨g, t, ht, hok, htable, hpos, hperm⟩ := Pmm.allocPage_spec h.pmm hrun hpos
    obtain ⟨rfl, rfl⟩ := Prod.mk.inj (Except.ok.inj (hf.symm.trans ht))
    refine ⟨hok, h.nodup, h.below, ?_, hpos ▸ h.unused, htable ▸ hpos ▸ h.table, fun _ hnone => ?_⟩
    · exact (List.perm_middle.symm.trans (hperm.symm.append_left _)).trans h.all
    · have hsome := h.pmm.table hrun
      rw [← htable, hnone] at hsome
      cases hsome
  | free page =>
    simp only [PmmRun.step] at hs
    split at hs
    case isFalse => cases hs
    case isTrue hp =>
    obtain ⟨t, ht, hok, hrun, hperm, htable⟩ := Pmm.freePage_spec h.pmm hp.2
    replace hperm := hperm h.nodup_backing
    rw [ht] at hs
    cases hs
    have hall : (s.held.erase page ++ t.free).Perm memory := by
      refine .trans ?_ h.all
      refine (hperm.append_left _).trans (List.perm_middle.trans ?_)
      exact ((List.perm_cons_erase hp.1).append_right _).symm
    rcases htable with ⟨htable, hpos⟩ | ⟨hnone, htable, hpos⟩
    · refine ⟨hok, h.nodup, h.below, hall, hpos ▸ h.unused, htable ▸ hpos ▸ h.table, fun hstart => ?_⟩
      cases hrun.symm.trans hstart
    · have hstart : s.pmm.running = false := by
        by_contra hrun
        simpa [hnone] using h.pmm.table (by simpa using hrun)
      refine ⟨hok, h.nodup, h.below, hall, hpos ▸ h.booting hstart hnone, ?_, fun _ hn => ?_⟩
      · rintro u hu
        cases htable.symm.trans hu
        rw [hpos]
        exact Nat.lt_succ_self _
      · cases htable.symm.trans hn
  | store page i value =>
    simp only [PmmRun.step] at hs
    split at hs
    case isFalse => cases hs
    case isTrue hp =>
    cases hs
    exact h.store hp

theorem Ok.of_reach (h : Reach PmmRun.step Any (FreshMemory memory) s) : s.Ok memory :=
  h.invariant (fun _ h => FreshMemory.ok h) fun _ _ _ hi _ hs => hi.step hs

theorem Ok.stackMax_le (h : s.Ok memory) : s.pmm.stackMax / stackEntriesPerPage ≤ stackEntriesPerPage := by
  have hlen : s.pmm.free.length ≤ 0x100000 := by
    have hsub : s.pmm.free ⊆ List.range 0x100000 := fun f hf =>
      List.mem_range.mpr (h.below f (h.all.subset (List.mem_append_right _ hf)))
    have := ((List.nodup_append.mp h.nodup_all).2.1.subperm hsub).length_le
    rwa [List.length_range] at this
  simp only [Pmm.free, List.length_append, Pmm.length_backing, Pmm.length_stack] at hlen
  have := h.pmm.short
  unfold stackEntriesPerPage at *
  omega

end PmmRun

/-- Frames that are freed by those who hold them are in one place each, and none is lost.
The manager panics when there is no free frame but the one below the stack. -/
theorem frames_conserved {memory : List Frame} {s : PmmRun}
    (h : Reach PmmRun.step Any (FreshMemory memory) s) :
    (s.held ++ s.pmm.backing ++ s.pmm.stack).Nodup ∧
      (s.held ++ s.pmm.backing ++ s.pmm.stack).Perm memory ∧
      (∀ t, s.pmm.table = some t → t ∉ s.held ++ s.pmm.backing ++ s.pmm.stack) ∧
      s.pmm.stackPtr ≤ s.pmm.stackMax ∧
      stackEntriesPerPage ∣ s.pmm.stackMax ∧
      s.pmm.stackMax / stackEntriesPerPage ≤ stackEntriesPerPage ∧
      (s.pmm.running = true → ∀ e, s.pmm.allocPage = .error e →
        e = .outOfMemory ∧ s.pmm.stack = [] ∧ s.pmm.backing.length ≤ 1) ∧
      ∀ page ∈ s.held, s.pmm.pos + 1 ≤ page → ∃ pmm, s.pmm.freePage page = .ok pmm := by
  have hok := PmmRun.Ok.of_reach h
  rw [List.append_assoc]
  refine ⟨hok.nodup_all, hok.all, fun t ht hmem => ?_, hok.pmm.le, hok.pmm.whole, hok.stackMax_le,
    fun hrun e he => ?_, fun page _ hpage => ?_⟩
  · have hlt := hok.table t ht
    have hle := hok.unused t (hok.all.subset hmem)
    exact absurd hlt (Nat.not_lt.mpr hle)
  · obtain ⟨rfl, hptr⟩ := Pmm.allocPage_error hok.pmm hrun he
    refine ⟨rfl, List.length_eq_zero_iff.mp (Pmm.length_stack.trans hptr), ?_⟩
    have := hok.pmm.short
    rw [Pmm.length_backing]
    unfold stackEntriesPerPage at *
    omega
  · obtain ⟨s', hs', -⟩ := Pmm.freePage_spec hok.pmm hpage
    exact ⟨s', hs'⟩

def bootPmm : Pmm where
  running := false
  pos := 0x100
  stackMax := 0
  stackPtr := 0
  table := none
  stackPage _ := none
  word _ _ := 0

/-- Three frames are freed, one of them becomes the first page of the stack. -/
theorem frames_conserved_threeFrames : ∃ s,
    exec PmmRun.step ⟨bootPmm, [0x110, 0x111, 0x112]⟩
      [.free 0x110, .free 0x111, .free 0x112, .alloc, .store 0x112 0 0x111] = some s ∧
    (s.held ++ s.pmm.backing ++ s.pmm.stack).Perm [0x110, 0x111, 0x112] := by
  obtain ⟨s, hs⟩ : ∃ s, exec PmmRun.step ⟨bootPmm, [0x110, 0x111, 0x112]⟩
      [.free 0x110, .free 0x111, .free 0x112, .alloc, .store 0x112 0 0x111] = some s :=
    Option.isSome_iff_exists.mp (by decide +kernel)
  have hfresh : FreshMemory [0x110, 0x111, 0x112] ⟨bootPmm, [0x110, 0x111, 0x112]⟩ :=
    ⟨rfl, rfl, rfl, rfl, rfl, by decide, by decide, by decide⟩
  exact ⟨s, hs, (frames_conserved ((Reach.start hfresh).exec hs)).2.1⟩

end Os5
