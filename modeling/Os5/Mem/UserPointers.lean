import Os5.Mem.Eager

/-!
# Pointers from user programs

What the system calls of files do with the addresses a program hands them: the
check by `procmm_check_address`, and the stores of the kernel through them.
-/

namespace Os5

open Machine Circular Outcome

-- ---------------------------------------------------------------------------
-- The check
-- ---------------------------------------------------------------------------

/-- The system calls that check a pointer, with their pointers. -/
inductive UserCall
  | read (ptr : Nat)
  | write (ptr : Nat)
  | fstat (st : Nat)
  | stat (file st : Nat)
  | open (name : Nat)

/-- The call fails with `EFAULT`; before the kernel has booted nothing is checked.
`fstat` is the one on a descriptor with an inode. -/
def efault (kernelBooted : Bool) (w : Mem) : UserCall → Bool
  | .read ptr => kernelBooted && procmmCheckAddress w ptr ≤ 1
  | .write ptr => kernelBooted && procmmCheckAddress w ptr = 0
  | .fstat st => kernelBooted && procmmCheckAddress w st ≤ 1
  | .stat file st =>
    kernelBooted && procmmCheckAddress w file = 0 || kernelBooted && procmmCheckAddress w st ≤ 1
  | .open name => kernelBooted && procmmCheckAddress w name = 0

def UserCall.uses (address : Nat) : UserCall → Prop
  | .read ptr | .write ptr | .fstat ptr | .open ptr => ptr = address
  | .stat file st => file = address ∨ st = address

section
variable {w : Mem} {p address a : Nat} {l : List Nat}

theorem findAboveWalk_reverse (h : ∀ a ∈ l.dropLast, (w.area a).stop < address) :
    findAboveWalk w address l.reverse = if l.length < 2 then none else l.getLast? := by
  rcases List.eq_nil_or_concat l with rfl | ⟨init, a, rfl⟩
  · rfl
  rcases List.eq_nil_or_concat init with rfl | ⟨init, b, rfl⟩
  · rfl
  have hb : (w.area b).stop < address := h b (by simp)
  simp [findAboveWalk, hb]

theorem efault_iff : (procmmCheckAddress w address = 0 ∧
      ∀ call, UserCall.uses address call → efault true w call = true) ↔
    procmmCheckAddress w address = 0 := by
  refine and_iff_left_of_imp fun h0 call hcall => ?_
  cases call with
  | stat file st => rcases hcall with rfl | rfl <;> simp [efault, h0]
  | _ => obtain rfl := hcall; simp [efault, h0]

/-- An address of the kernel is refused by every call unless the process has several
areas and the last of them grows down. -/
theorem kernelAddress_refused_iff
    (hbelow : ∀ a ∈ w.mem w.current, (w.area a).start < kernelOffset ∧ (w.area a).stop ≤ kernelOffset)
    (hord : Ordered w w.current) (haddr : kernelOffset ≤ address) :
    (procmmCheckAddress w address = 0 ∧
      ∀ call, UserCall.uses address call → efault true w call = true) ↔
    (w.mem w.current).length < 2 ∨
      ∀ a, (w.mem w.current).getLast? = some a → (w.area a).flags.growsdown = false := by
  rw [efault_iff]
  have hnone : findIncluding w w.current address = none := by
    refine findIncluding_eq_none.mpr fun a ha => ?_
    have h1 := (MemArea.covers_iff.mp ha.2).2
    have h2 := (hbelow a ha.1).2
    omega
  have hbefore : ∀ a ∈ (w.mem w.current).dropLast, (w.area a).stop < address := by
    intro a ha
    rcases List.eq_nil_or_concat (w.mem w.current) with hl | ⟨init, b, hl⟩
    · simp [hl] at ha
    · rw [List.concat_eq_append] at hl
      rw [hl, List.dropLast_concat] at ha
      have h1 := hord
      unfold Ordered at h1
      rw [hl] at h1
      have h2 := (List.pairwise_append.mp h1).2.2 a ha b (by simp)
      have h3 := (hbelow b (by simp [hl])).1
      omega
  unfold procmmCheckAddress findAbove
  rw [hnone]
  simp only
  rw [findAboveWalk_reverse hbefore]
  by_cases hlen : (w.mem w.current).length < 2
  · simp [hlen]
  · simp only [hlen, if_false, false_or]
    cases hlast : (w.mem w.current).getLast? with
    | none => simp
    | some a => cases hg : (w.area a).flags.growsdown <;> simp [hg]

end

def codeAndStack : Mem where
  machine := onePageMachine
  proc p := if p = 1 then ⟨1, 0xB0000000, [0, 1, 2]⟩ else ⟨0, 0, []⟩
  nextPid := 2
  current := 1
  area a :=
    if a = 0 then ⟨0x1000, 0x2000, dataFlags, 1, 1⟩
    else if a = 1 then ⟨0x3000, 0x5000, dataFlags, 1, 1⟩
    else ⟨0xBFFFE000, 0xBFFFF000, { dataFlags with read := false, growsdown := true, addonuse := true }, 6, 1⟩
  nextArea := 3
  copies := ⟨id, id⟩

theorem kernelAddress_accepted :
    (∀ a ∈ codeAndStack.mem codeAndStack.current, (codeAndStack.area a).start < kernelOffset ∧
      (codeAndStack.area a).stop ≤ kernelOffset) ∧ Ordered codeAndStack codeAndStack.current ∧
    kernelOffset ≤ 0xD0000000 ∧ procmmCheckAddress codeAndStack 0xD0000000 = 2 ∧
    efault true codeAndStack (.read 0xD0000000) = false := by
  unfold Ordered
  decide

theorem kernelAddress_refused_iff_codeAndStack :
    (procmmCheckAddress codeAndStack 0xD0000000 = 0 ∧
      ∀ call, UserCall.uses 0xD0000000 call → efault true codeAndStack call = true) ↔
    (codeAndStack.mem codeAndStack.current).length < 2 ∨
      ∀ a, (codeAndStack.mem codeAndStack.current).getLast? = some a →
        (codeAndStack.area a).flags.growsdown = false :=
  kernelAddress_refused_iff (by decide) (by unfold Ordered; decide) (by decide)

-- ---------------------------------------------------------------------------
-- The stores
-- ---------------------------------------------------------------------------

/-- `read` and `fstat` with the bytes they have for the caller: the check of the
buffer and the copy through it. The result says whether the buffer was accepted. -/
def sysRead (w : Mem) (ptr : Nat) (data : List Byte) : Except Stop (Bool × Mem) :=
  if efault true w (.read ptr) then .ok (false, w)
  else do
    let w ← copyOut w ptr data
    return (true, w)

section
variable {w w₀ w' : Mem} {p q a b x y ptr : Nat} {img : Nat → Nat → Option Cell} {data : List Byte}

/-- Where all pages are mapped the copy changes bytes only; a byte seen at address `y`
through frame `f` is replaced if the caller sees its own `y` in that frame. -/
theorem copyOut_mapped (w : Mem) (ptr : Nat) (data : List Byte)
    (hmap : ∀ i < data.length, w.machine.mapped w.machine.cr3 (ptr + i) = true) :
    ∃ m, copyOut w ptr data = .ok { w with machine := m } ∧ m.table = w.machine.table ∧
      ∀ f y, (∀ i < data.length, (w.machine.pte w.machine.cr3 (ptr + i)).frame = f →
          pageFlagMask (ptr + i) = pageFlagMask y → ptr + i = y) →
        m.byte f (pageFlagMask y) =
          if ptr ≤ y ∧ (w.machine.pte w.machine.cr3 y).frame = f then
            (data[y - ptr]?).getD (w.machine.byte f (pageFlagMask y))
          else w.machine.byte f (pageFlagMask y) := by
  induction data generalizing w ptr with
  | nil => exact ⟨w.machine, rfl, rfl, by simp⟩
  | cons v data ih =>
    have h0 : w.machine.mapped w.machine.cr3 ptr = true := hmap 0 (by simp)
    set w1 : Mem := { w with machine := w.machine.store w.machine.cr3 ptr v } with hw1
    have hstore : kernelStore ptr v maxRestarts w = .ok w1 := by
      rw [kernelStore, if_pos h0]
    have hpte : ∀ z, w1.machine.pte w1.machine.cr3 z = w.machine.pte w.machine.cr3 z := fun _ => rfl
    have hmapped : ∀ z, w1.machine.mapped w1.machine.cr3 z = w.machine.mapped w.machine.cr3 z :=
      fun _ => rfl
    obtain ⟨m, hm, ht, hb⟩ := ih w1 (ptr + 1) fun i hi => by
      rw [hmapped, Nat.add_assoc, Nat.add_comm 1 i]
      exact hmap (i + 1) (by simpa using hi)
    refine ⟨m, by rw [copyOut, hstore]; exact hm, ht, fun f y hkey => ?_⟩
    have hk0 := hkey 0 (by simp)
    rw [Nat.add_zero] at hk0
    have hbyte : w1.machine.byte f (pageFlagMask y) =
        if f = (w.machine.pte w.machine.cr3 ptr).frame ∧ pageFlagMask y = pageFlagMask ptr then v
        else w.machine.byte f (pageFlagMask y) := setByte_byte _ _ _ _ _ _
    rw [hb f y (fun i hi => by
      rw [hpte, Nat.add_assoc, Nat.add_comm 1 i]
      exact hkey (i + 1) (by simpa using hi)), hpte, hbyte]
    by_cases hy : y = ptr
    · subst hy
      by_cases hf : (w.machine.pte w.machine.cr3 y).frame = f
      · simp [hf]
      · simp [hf, Ne.symm hf]
    · have hne : ¬ (f = (w.machine.pte w.machine.cr3 ptr).frame ∧ pageFlagMask y = pageFlagMask ptr) :=
        fun hh => hy (hk0 hh.1.symm hh.2.symm).symm
      rw [if_neg hne]
      by_cases hle : ptr + 1 ≤ y
      · have hsub : y - ptr = (y - (ptr + 1)) + 1 := by omega
        have hle' : ptr ≤ y := by omega
        simp [hle, hle', hsub]
      · have hle' : ¬ ptr ≤ y := by omega
        simp [hle, hle']

theorem checkAddress_eq_three (hl : Layout w) (hc : w.current = p) (h : procmmCheckAddress w x = 3) :
    ∃ a, At w p x a := by
  unfold procmmCheckAddress at h
  rw [hc] at h
  cases hf : findIncluding w p x with
  | some a => exact ⟨a, (findIncluding_eq_some hl).mp hf⟩
  | none =>
    rw [hf] at h
    simp only at h
    split at h
    · split at h <;> cases h
    · cases h

theorem checkAddress_at (hl : Layout w) (hc : w.current = p) (h : At w p x a) :
    procmmCheckAddress w x = 3 := by
  have hfl := hl.flags h.1
  unfold procmmCheckAddress
  rw [hc, (findIncluding_eq_some hl).mpr h]
  cases hcow : (w.area a).flags.cow <;> simp [hfl, hcow]

theorem Inv.sharer (h : Inv w img) (ha : At w p x a) (hne : isEmpty w.copies a = false) :
    ∃ q b, q ≠ p ∧ At w q x b ∧ w.frame w.pd q x = w.frame w.pd p x := by
  have hnot : ¬ ∀ b, SameRing w.copies a b → b = a := by
    rw [← h.layout.isEmpty_iff ha.1, hne]
    simp
  push Not at hnot
  obtain ⟨b, hs, hba⟩ := hnot
  have hb := h.layout.at_ring ha hs
  refine ⟨_, b, ?_, hb, (h.backed.same ha hb hs).symm⟩
  intro hq
  rw [hq] at hb
  exact hba (h.layout.apart hb ha)

theorem sysRead_reads (ptr : Nat) (data : List Byte) (h : Inv w img) (hrun : Running w p)
    (hptr : ∀ i < data.length, procmmCheckAddress w (ptr + i) = 3) :
    ∃ r, sysRead w ptr data = .ok r ∧ (∀ q y, findIncluding r.2 q y = findIncluding w q y) ∧
      ∀ {q y b}, At w q y b → r.2.reads q y =
        some (if ptr ≤ y ∧ w.frame w.pd p y = w.frame w.pd q y then
            (data[y - ptr]?).getD (w.machine.byte (w.frame w.pd q y) (pageFlagMask y))
          else w.machine.byte (w.frame w.pd q y) (pageFlagMask y)) := by
  have hin : ∀ i < data.length, ∃ a, At w p (ptr + i) a :=
    fun i hi => checkAddress_eq_three h.layout hrun.current (hptr i hi)
  unfold sysRead
  by_cases hf : efault true w (.read ptr) = true
  · -- only an empty buffer can be refused here
    have hnil : data = [] := by
      cases data with
      | nil => rfl
      | cons v data =>
        have := hptr 0 (by simp)
        rw [Nat.add_zero] at this
        simp [efault, this] at hf
    rw [if_pos hf, hnil]
    refine ⟨_, rfl, fun _ _ => rfl, fun {q y b} hy => ?_⟩
    show w.reads q y = _
    rw [h.reads, h.agrees hy]
    simp [Mem.cell]
  · rw [if_neg hf]
    obtain ⟨m, hm, ht, hb⟩ := copyOut_mapped w ptr data fun i hi => by
      obtain ⟨a, ha⟩ := hin i hi
      rw [hrun.cr3, Machine.mapped, h.backed.pde_present ha, h.backed.pte_present ha]
      rfl
    rw [hm]
    refine ⟨_, rfl, fun _ _ => rfl, fun {q y b} hy => ?_⟩
    have hby := hb (w.frame w.pd q y) y fun i hi hfr hoff => by
      obtain ⟨a, ha⟩ := hin i hi
      rw [hrun.cr3] at hfr
      exact eq_of_page (h.backed.shared ha hy hfr).1 hoff
    rw [hrun.cr3] at hby
    have hpde : ∀ d z, m.pde d z = w.machine.pde d z := fun d z => by rw [Machine.pde, ht]; rfl
    have hpte : ∀ d z, m.pte d z = w.machine.pte d z := fun d z => by
      rw [Machine.pte, hpde, ht]
      rfl
    have hread : m.userRead (w.pd q) y = some (m.byte (w.frame w.pd q y) (pageFlagMask y)) := by
      have h1 := h.backed.pde hy
      have h2 := h.backed.pte hy
      simp only [Machine.userRead, hpde, hpte, h1, h2, Bool.and_self, if_true]
      rfl
    show (findIncluding w q y).bind (fun _ => m.userRead (w.pd q) y) = _
    rw [(findIncluding_eq_some h.layout).mpr hy, Option.bind_some, hread, hby]
    rfl

/-- In every state that forks, stores and removals lead to, the copy of a system call
to a buffer inside the caller's areas leaves all other processes alone, whatever the
bytes, exactly if no area it touches has copies left. -/
theorem sysRead_private_iff (h : Start w₀) {ops : List Op} (hw : w₀.run ops = .ok w)
    (hp : w.living p = true) (ptr n : Nat)
    (hptr : ∀ i < n, procmmCheckAddress (switchProcess w p) (ptr + i) = 3) :
    (∀ data, data.length = n → ∃ r, sysRead (switchProcess w p) ptr data = .ok r ∧
      ∀ q, q ≠ p → ∀ x, r.2.reads q x = w.reads q x) ↔
    ∀ i < n, ∀ a, findIncluding w p (ptr + i) = some a → isEmpty w.copies a = true := by
  obtain ⟨e, -, hs⟩ := h.simulates hw
  obtain ⟨hi, hrun⟩ := hs.inv.switchProcess hp
  set v := switchProcess w p with hv
  have hreads : ∀ q x, v.reads q x = w.reads q x := fun _ _ => rfl
  have hfind : ∀ q x, findIncluding v q x = findIncluding w q x := fun _ _ => rfl
  have hcell : ∀ {q y b}, At v q y b →
      w.reads q y = some (v.machine.byte (v.frame v.pd q y) (pageFlagMask y)) := by
    intro q y b hy
    rw [← hreads, hi.reads, hi.agrees hy]
    rfl
  constructor
  · intro hall i hin a ha
    rw [← hfind] at ha
    have ha := (findIncluding_eq_some hi.layout).mp ha
    by_contra hne
    rw [Bool.not_eq_true] at hne
    obtain ⟨q, b, hqp, hb, hfr⟩ := hi.sharer ha hne
    -- a byte that the other process does not have at this address
    obtain ⟨c, hc⟩ : ∃ c : Byte, c ≠ v.machine.byte (v.frame v.pd q (ptr + i)) (pageFlagMask (ptr + i)) := by
      by_cases h0 : v.machine.byte (v.frame v.pd q (ptr + i)) (pageFlagMask (ptr + i)) = 0
      · exact ⟨1, by rw [h0]; decide⟩
      · exact ⟨0, Ne.symm h0⟩
    obtain ⟨r, hr, hsame⟩ := hall (List.replicate n c) (by simp)
    obtain ⟨r', hr', -, hread⟩ := sysRead_reads ptr (List.replicate n c) hi hrun (by simpa using hptr)
    obtain rfl : r = r' := by
      rw [hr] at hr'
      exact Except.ok.inj hr'
    have hread := hread hb
    rw [hsame q hqp, hcell hb] at hread
    simp only [Nat.le_add_right, hfr, and_self, if_true, Nat.add_sub_cancel_left] at hread
    rw [List.getElem?_replicate, if_pos hin] at hread
    exact hc (by simpa [hfr] using hread.symm)
  · intro hall data hlen
    obtain ⟨r, hr, hfr, hread⟩ := sysRead_reads ptr data hi hrun (by rwa [hlen])
    refine ⟨r, hr, fun q hqp x => ?_⟩
    cases hf : findIncluding v q x with
    | none => simp only [Mem.reads, hfr, ← hfind, hf, Option.bind_none]
    | some b =>
      have hb := (findIncluding_eq_some hi.layout).mp hf
      rw [hread hb, hcell hb]
      split
      · next hc =>
        obtain ⟨hle, hframe⟩ := hc
        by_cases hlt : x - ptr < n
        · -- the caller would see its own byte in the same frame
          have hx : ptr + (x - ptr) = x := by omega
          have h3 := hptr _ hlt
          rw [hx] at h3
          obtain ⟨a, ha⟩ := checkAddress_eq_three hi.layout hrun.current h3
          have hempty := hall _ hlt a (by
            rw [hx, ← hfind]
            exact (findIncluding_eq_some hi.layout).mpr ha)
          have hba := (hi.layout.isEmpty_iff ha.1).mp hempty b (hi.backed.shared ha hb hframe).2
          subst hba
          exact absurd (hi.layout.at_eq hb ha) hqp
        · rw [List.getElem?_eq_none (by omega)]
          rfl
      · rfl

theorem onePage_fork : ∃ w b, onePage.run [⟨1, .fork⟩] = .ok w ∧ w.living 2 = true ∧
    (∀ x, 0x1000 ≤ x → x < 0x2000 → At w 1 x 0 ∧ At w 2 x b) ∧ SameRing w.copies 0 b := by
  have hlen : onePage.machine.free.length = 1000 := List.length_range'
  obtain ⟨w, hw, hl, hn, hshare⟩ := onePage_start.inv.fork_step (p := 1) (onePage_living.mpr rfl)
    (by omega) (onePage_ordered 1)
  have hpage : ∀ x, 0x1000 ≤ x → x < 0x2000 → At w 1 x 0 ∧ ∃ b, At w 2 x b ∧ SameRing w.copies 0 b :=
    fun x hx hx' => hshare (onePage_at.mpr ⟨rfl, rfl, hx, hx'⟩) rfl
  obtain ⟨-, b, hb, hs⟩ := hpage 0x1000 (by decide) (by decide)
  refine ⟨w, b, ?_, ?_, fun x hx hx' => ?_, hs⟩
  · simp only [Mem.run, List.foldlM_cons, hw]
    rfl
  · rw [Mem.living, hn]
    rfl
  · obtain ⟨hx0, -⟩ := hpage x hx hx'
    refine ⟨hx0, ?_⟩
    have := hl.at_ring hx0 hs
    rwa [hl.at_owner hb] at this

theorem sysRead_private_iff_onePage : ∃ w, onePage.run [⟨1, .fork⟩] = .ok w ∧
    ((∀ data, data.length = 4 → ∃ r, sysRead (switchProcess w 2) 0x1000 data = .ok r ∧
      ∀ q, q ≠ 2 → ∀ x, r.2.reads q x = w.reads q x) ↔
    ∀ i < 4, ∀ a, findIncluding w 2 (0x1000 + i) = some a → isEmpty w.copies a = true) := by
  obtain ⟨w, b, hw, hp, hat, -⟩ := onePage_fork
  obtain ⟨_, -, hs⟩ := onePage_start.simulates hw
  obtain ⟨hi, hrun⟩ := hs.inv.switchProcess hp
  exact ⟨w, hw, sysRead_private_iff onePage_start hw hp 0x1000 4 fun i hlt =>
    checkAddress_at hi.layout hrun.current (hat _ (by omega) (by omega)).2⟩

/-- A byte read into the child's buffer turns up in the parent. -/
theorem sysRead_shared : ∃ w r, onePage.run [⟨1, .fork⟩] = .ok w ∧
    procmmCheckAddress (switchProcess w 2) 0x1000 = 3 ∧
    sysRead (switchProcess w 2) 0x1000 [1] = .ok r ∧
    w.reads 1 0x1000 = some 0 ∧ r.2.reads 1 0x1000 = some 1 := by
  obtain ⟨w, b, hw, hp, hat, hs⟩ := onePage_fork
  obtain ⟨e, he, hsim⟩ := onePage_start.simulates hw
  obtain ⟨hi, hrun⟩ := hsim.inv.switchProcess hp
  obtain ⟨h1, h2⟩ := hat 0x1000 (by decide) (by decide)
  have h1 : At (switchProcess w 2) 1 0x1000 0 := h1
  have h2 : At (switchProcess w 2) 2 0x1000 b := h2
  have hcheck := checkAddress_at hi.layout hrun.current h2
  obtain ⟨r, hr, -, hread⟩ := sysRead_reads 0x1000 [1] hi hrun (by simpa using hcheck)
  have hframe := hi.backed.same h1 h2 hs
  refine ⟨w, r, hw, hcheck, hr, ?_, ?_⟩
  · rw [hsim.inv.reads]
    cases he
    rfl
  · rw [hread h1, if_pos ⟨le_rfl, hframe.symm⟩]
    rfl

end

end Os5
