import Os5.Mem.Split

/-!
# What `new_area` does

`new_area` in four parts: the rounding of the range, the scan for a collision, the
pages it fills at once, and the list with the new area before `glue_area`.
-/

namespace Os5

open Machine Circular Outcome

/-- The end of an area is rounded up, in 32 bits. -/
def areaStop (stop : Nat) : Nat :=
  pageMask (if pageFlagMask stop ≠ 0 then wrap (stop + pageSize) else stop)

/-- The scan of `new_area` does not get through. -/
def scanHangs (w : Mem) (p start stop : Nat) : Bool :=
  lastPage ≤ stop || (pagesFrom start (stop + 1)).any fun i => (findIncluding w p i).isSome

def MmFlags.populates (f : MmFlags) : Bool := !f.addonuse && !f.cow

def withArea (w : Mem) (m : Machine) (p start stop : Nat) (flags : MmFlags) (type : Nat) : Mem :=
  let w' := { (allocArea w start stop flags type p).2 with machine := m }
  w'.setMem p (insertSorted w' stop w.nextArea (w.mem p))

/-- The two loops of `glue_area` over the list of the owner. -/
def glueLeft (w : Mem) (owner ma : Nat) : Nat × Mem :=
  match (w.mem owner).find? fun a => (w.area a).stop = (w.area ma).start && glues w a ma with
  | some a => (a, freeArea (w.setArea a { w.area a with stop := (w.area ma).stop }) ma)
  | none => (ma, w)

def glueRight (w : Mem) (owner ma : Nat) : Nat × Mem :=
  match (w.mem owner).find? fun a => (w.area a).start = (w.area ma).stop && glues w a ma with
  | some a => (ma, freeArea (w.setArea ma { w.area ma with stop := (w.area a).stop }) a)
  | none => (ma, w)

section
variable {w w' : Mem} {p start stop type a x : Nat} {flags : MmFlags}

theorem pageMask_of_flag (h : pageFlagMask x = 0) : pageMask x = x := by
  unfold pageFlagMask at h
  unfold pageMask
  omega

theorem pageFlag_of_mask (h : pageMask x = x) : pageFlagMask x = 0 := by
  unfold pageMask at h
  unfold pageFlagMask
  omega

@[simp] theorem pageMask_areaStop : pageMask (areaStop stop) = areaStop stop := pageMask_pageMask _

theorem areaStop_eq (h : pageMask stop = stop) : areaStop stop = stop := by
  unfold areaStop
  rw [if_neg (fun hne => hne (pageFlag_of_mask h)), h]

theorem newArea_eq : newArea w p start stop flags type =
    if scanHangs w p (pageMask start) (areaStop stop) then .error .hang
    else (if flags.populates then
        populate w.machine (w.pd p) (pageMask start) (areaStop stop) flags.write
      else .ok w.machine).bind fun m =>
        .ok (glueArea (withArea w m p (pageMask start) (areaStop stop) flags type) w.nextArea) := by
  have hstop : pageMask (if pageFlagMask stop ≠ 0 then wrap (stop + pageSize) else stop) = areaStop stop :=
    rfl
  unfold newArea MmFlags.populates
  simp only [hstop]
  by_cases hscan : scanHangs w p (pageMask start) (areaStop stop) = true
  · have hscan' := hscan
    simp only [scanHangs, Bool.or_eq_true, decide_eq_true_eq] at hscan'
    rw [if_pos hscan', if_pos hscan]
    rfl
  · have hscan' := hscan
    simp only [scanHangs, Bool.or_eq_true, decide_eq_true_eq] at hscan'
    rw [if_neg hscan', if_neg hscan]
    cases flags.addonuse <;> cases flags.cow
    · simp only [Bool.false_eq_true, not_false_eq_true, and_self, if_true, Bool.not_false, Bool.and_self]
      rfl
    · rfl
    · rfl
    · rfl

/-- Everything but the areas, their lists and rings. -/
structure SameFrame (w w' : Mem) : Prop where
  nextPid : w'.nextPid = w.nextPid
  current : w'.current = w.current
  pd : ∀ q, w'.pd q = w.pd q
  stackLimit : ∀ q, (w'.proc q).stackLimit = (w.proc q).stackLimit

theorem SameFrame.refl : SameFrame w w := ⟨rfl, rfl, fun _ => rfl, fun _ => rfl⟩

theorem SameFrame.trans {w'' : Mem} (h1 : SameFrame w w') (h2 : SameFrame w' w'') : SameFrame w w'' :=
  ⟨h2.nextPid.trans h1.nextPid, h2.current.trans h1.current, fun q => (h2.pd q).trans (h1.pd q),
    fun q => (h2.stackLimit q).trans (h1.stackLimit q)⟩

theorem setMem_frame {l : List Nat} : SameFrame w (w.setMem p l) :=
  ⟨rfl, rfl, fun q => setMem_pd w p q l, fun q => setMem_stackLimit w p q l⟩

theorem freeArea_frame : SameFrame w (freeArea w a) ∧ (freeArea w a).machine = w.machine := by
  obtain ⟨h1, h2, h3, h4⟩ := setMem_frame (w := w) (p := (w.area a).owner)
    (l := (w.mem (w.area a).owner).erase a)
  exact ⟨⟨h1, h2, h3, h4⟩, rfl⟩

theorem glueArea_eq : glueArea w a =
    if Circular.isEmpty w.copies a = true ∧ (w.area a).flags.cow = false then
      glueRight (glueLeft w (w.area a).owner a).2 (w.area a).owner (glueLeft w (w.area a).owner a).1
    else (a, w) := by
  unfold glueArea
  by_cases hempty : isEmpty w.copies a = true
  · by_cases hcow : (w.area a).flags.cow = true
    · simp [hempty, hcow]
    · rw [if_neg (not_not.mpr hempty), if_neg hcow, if_pos ⟨hempty, by simpa using hcow⟩]
      rfl
  · simp [hempty]

theorem setArea_frame {v : MemArea} : SameFrame w (w.setArea a v) := ⟨rfl, rfl, fun _ => rfl, fun _ => rfl⟩

theorem glueLeft_frame : SameFrame w (glueLeft w p a).2 ∧ (glueLeft w p a).2.machine = w.machine := by
  unfold glueLeft
  split
  · exact ⟨setArea_frame.trans freeArea_frame.1, freeArea_frame.2⟩
  · exact ⟨.refl, rfl⟩

theorem glueRight_frame : SameFrame w (glueRight w p a).2 ∧ (glueRight w p a).2.machine = w.machine := by
  unfold glueRight
  split
  · exact ⟨setArea_frame.trans freeArea_frame.1, freeArea_frame.2⟩
  · exact ⟨.refl, rfl⟩

theorem glueArea_frame : SameFrame w (glueArea w a).2 ∧ (glueArea w a).2.machine = w.machine := by
  rw [glueArea_eq]
  split
  · exact ⟨glueLeft_frame.1.trans glueRight_frame.1, glueRight_frame.2.trans glueLeft_frame.2⟩
  · exact ⟨.refl, rfl⟩

theorem withArea_frame {m : Machine} : SameFrame w (withArea w m p start stop flags type) := by
  have hnew : SameFrame w { (allocArea w start stop flags type p).2 with machine := m } :=
    ⟨rfl, rfl, fun _ => rfl, fun _ => rfl⟩
  exact hnew.trans setMem_frame

theorem setArea_self (w : Mem) (a : Nat) (v : MemArea) : (w.setArea a v).area a = v := by
  simp [Mem.setArea]

theorem setArea_setArea (w : Mem) (a : Nat) (u v : MemArea) : (w.setArea a u).setArea a v = w.setArea a v := by
  simp [Mem.setArea]

theorem withArea_mem {m : Machine} {q : Nat} : (withArea w m p start stop flags type).mem q =
    if q = p then insertSorted { (allocArea w start stop flags type p).2 with machine := m } stop w.nextArea
      (w.mem p) else w.mem q := setMem_mem _ _ _ _

theorem withArea_area {m : Machine} {b : Nat} : (withArea w m p start stop flags type).area b =
    if b = w.nextArea then ⟨start, stop, flags, type, p⟩ else w.area b := by
  change Function.update w.area w.nextArea _ b = _
  rw [Function.update_apply]

theorem freeArea_mem {q : Nat} : (freeArea w a).mem q =
    if q = (w.area a).owner then (w.mem q).erase a else w.mem q := by
  refine (setMem_mem _ _ _ _).trans ?_
  split
  · next h => rw [h]
  · rfl

theorem glueArea_nextArea : (glueArea w a).2.nextArea = w.nextArea := by
  have hleft : ∀ q, (glueLeft w q a).2.nextArea = w.nextArea := by
    intro q
    unfold glueLeft
    split <;> rfl
  rw [glueArea_eq]
  split
  · refine Eq.trans ?_ (hleft (w.area a).owner)
    unfold glueRight
    split <;> rfl
  · rfl

theorem newArea_ok (h : newArea w p start stop flags type = .ok (a, w')) :
    scanHangs w p (pageMask start) (areaStop stop) = false ∧ ∃ m,
      (if flags.populates then populate w.machine (w.pd p) (pageMask start) (areaStop stop) flags.write
        else .ok w.machine) = .ok m ∧
      glueArea (withArea w m p (pageMask start) (areaStop stop) flags type) w.nextArea = (a, w') := by
  rw [newArea_eq] at h
  split at h
  · cases h
  · next hscan =>
    obtain ⟨m, hm, hglue⟩ := bind_ok.mp h
    exact ⟨by simpa using hscan, m, hm, Except.ok.inj hglue⟩

theorem newArea_frame (h : newArea w p start stop flags type = .ok (a, w')) : SameFrame w w' ∧
    (if flags.populates then populate w.machine (w.pd p) (pageMask start) (areaStop stop) flags.write
      else .ok w.machine) = .ok w'.machine := by
  obtain ⟨-, m, hm, hglue⟩ := newArea_ok h
  have hframe := glueArea_frame (w := withArea w m p (pageMask start) (areaStop stop) flags type)
    (a := w.nextArea)
  rw [hglue] at hframe
  refine ⟨withArea_frame.trans hframe.1, ?_⟩
  rw [hm, hframe.2]
  rfl

end

end Os5
