import Os5.Mem.StartOver
import Os5.Proc.Arguments
import Os5.Proc.LoadElf

/-!
# Replacing a program

`execve` takes all memory from the running process before it looks at the segments of the
file, and stores the segments and the arguments wherever the headers say. What it is to do
for any file, and the condition under which it does so.
-/

namespace Os5.Elf

open Bytes Machine Outcome Transition
open Tarfs (TarEntry Buffer FileIn)

inductive ExecErrno
  | ENOENT
  | ENOEXEC
  deriving DecidableEq, Repr

structure ExecProcess extends Loader where
  cmdline : CString
  signalHandler : Nat → Nat
  signalBlocked : Nat → Nat
  signalQueue : List Nat
  eax : Nat
  ebx : Nat
  ecx : Nat
  edx : Nat
  useresp : Nat
  ebp : Nat

def isElf (f : File) (elf : Buffer) : Except Stop Int := do
  let (_, elf) ← vfsRead f elf headerSize 0
  return isElfHeader elf

def pushStrings (array : Nat) : Nat → List CString → Nat → UserMem → Except Stop (Nat × UserMem)
  | _, [], pos, u => .ok (pos, u)
  | i, s :: strs, pos, u => do
    let pos := back (back pos (s.length / 4)) 2
    let u ← u.copy pos (s ++ [0])
    let u ← u.copy (wrap (array + 4 * i)) (wordBytes pos)
    pushStrings array (i + 1) strs pos u

def pushArray (temp : Option (List CString)) (n pos : Nat) (u : UserMem) : Except Stop (Nat × Nat × UserMem) :=
  match temp with
  | none => .ok (0, pos, u)
  | some strs => do
    let array := back (back pos (wrap (n * 4) / 4)) 1
    let (pos, u) ← pushStrings array 0 strs array u
    let u ← u.copy (wrap (array + 4 * (n - 1))) (wordBytes 0)
    return (array, pos, u)

def pushBlock (tempEnv tempArgv : Option (List CString) × Nat) (u : UserMem) : Except Stop (Nat × UserMem) := do
  let (env, pos, u) ← pushArray tempEnv.1 tempEnv.2 stackTop u
  let (argv, pos, u) ← pushArray tempArgv.1 tempArgv.2 pos u
  let pos := back pos 3
  let u ← u.copy pos (wordBytes (wrap (tempArgv.2 + (2 ^ 32 - 1))))
  let u ← u.copy (wrap (pos + 4)) (wordBytes argv)
  let u ← u.copy (wrap (pos + 8)) (wordBytes env)
  return (pos, u)

/-- An array without an end is read for ever. -/
def saved (user : Memory) (array : Nat) : Except Stop (Option (List CString) × Nat) :=
  match saveStrings user array with
  | some temp => .ok temp
  | none => .error .hang

/-- `execve`. The file is the one `vfs_namei` finds, `user` the memory as the program sees it,
and the three buffers are what the memory from `malloc` held before. -/
def execve (file : Option File) (name : CString) (argv env : Nat) (user : Memory) (elf elf' pheads : Buffer)
    (s : ExecProcess) : Except Stop ((Int × Option ExecErrno) × ExecProcess) :=
  match file with
  | none => .ok ((-1, some .ENOENT), s)
  | some f => do
    let iself ← isElf f elf
    if iself ≠ elfTypeExecutable then return ((-1, some .ENOEXEC), s)
    let tempEnv ← saved user env
    let tempArgv ← saved user argv
    let w ← procmmRemoveall s.mem s.mem.current
    -- from here on there is no way back to the old program
    let s := { s with
      cmdline := name, mem := w
      signalHandler := fun _ => 0, signalBlocked := fun _ => 0, signalQueue := [] }
    let (_, image) ← loadElf f elf' pheads s.toLoader
    let (_, w) ← newArea image.mem image.mem.current userStackTop userStackTop stackFlags mmTypeStack
    let (pos, u) ← pushBlock tempEnv tempArgv { image.toUserMem with mem := w }
    return ((0, none), { s with
      toLoader := { image with toUserMem := u }
      eax := 0, ebx := 0, edx := 0, useresp := pos, ebp := pos, ecx := pos })

-- ---------------------------------------------------------------------------
-- What it has to do
-- ---------------------------------------------------------------------------

def Starts (f : File) (elf : Buffer) (s : ExecProcess) : Prop :=
  ∃ n header, vfsRead f elf headerSize 0 = .ok (n, header) ∧ isElfHeader header = elfTypeExecutable ∧
    s.codeEntry = entry header

/-- The call comes back, has stored only to areas of the new program, and has started it or
left the old one as it was. -/
def ExecveRight (f : File) (elf : Buffer) (s : ExecProcess)
    (r : Except Stop ((Int × Option ExecErrno) × ExecProcess)) : Prop :=
  ∃ ret s', r = .ok (ret, s') ∧ (∀ x ∈ s'.stores, x < kernelOffset ∧ ∃ a, At s'.mem s'.mem.current x a) ∧
    (ret.1 = 0 ∧ Starts f elf s' ∨ ret.1 = -1 ∧ s'.mem = s.mem ∧ s'.signalHandler = s.signalHandler)

/-- What is read and zeroed for a segment lies in pages that were asked for. -/
structure Phead.Lands (f : File) (rs : List Request) (ph : Phead) : Prop where
  file : ph.memSize ≠ 0 → ∃ r, vfsRead f (fun _ => 0) ph.fileSize ph.offset = .ok r ∧
    Inside rs ph.virtualAddress (stored r).length
  zeros : ph.memSize ≠ 0 →
    Inside rs (wrap (ph.virtualAddress + ph.fileSize)) (wrap (ph.memSize + 2 ^ 32 - ph.fileSize))

/-- Each segment keeps out of the pages asked for before, and lands in those and its own. -/
inductive Tidy (f : File) : List Request → List Phead → Prop
  | nil {rs} : Tidy f rs []
  | cons {rs ph segments} : (∀ q ∈ rs, ph.request.Clear q) → ph.Lands f (rs ++ [ph.request]) →
      Tidy f (rs ++ [ph.request]) segments → Tidy f rs (ph :: segments)

/-- No range of a segment runs backwards or gets to the first page of the stack, and the
arguments have room in that page. -/
structure Ordinary (segments : List Phead) (argv env : Option (List CString)) : Prop where
  fits : ∀ ph ∈ segments, ph.request.Fits
  below : ∀ ph ∈ segments, areaStop ph.end ≤ stackPage
  room : blockRoom argv env ≤ pageSize

/-- When `execve` does what it has to. -/
structure Replaceable (f : File) (header : Memory) (segments : List Phead) (w : Mem)
    (argv env : Option (List CString)) : Prop extends Ordinary segments argv env where
  tables : TablesThere w w.current
  executable : isElfHeader header = elfTypeExecutable
  nonempty : segments ≠ []
  tidy : Tidy f [] segments

section
variable {f : File} {e : TarEntry} {w w' : Mem} {u u' : UserMem} {s s' : Loader} {ph : Phead} {segments : List Phead}
  {rs : List Request} {header : Memory} {elf pheads : Buffer} {ptr pos array i n : Nat} {data : List Byte}
  {strs : List CString} {temp argv env : Option (List CString)}

-- ---------------------------------------------------------------------------
-- The segments
-- ---------------------------------------------------------------------------

structure Held (rs : List Request) (u : UserMem) : Prop where
  granted : Granted u.mem rs
  stores : ∀ x ∈ u.stores, ∃ r ∈ rs, r.Spans x
  limit : (u.mem.proc u.mem.current).stackLimit < stackPage

theorem Phead.plain (h : Plain rs) : Plain (rs ++ [ph.request]) := by
  intro r hr
  rcases List.mem_append.mp hr with hr | hr
  · exact h r hr
  · obtain rfl := List.mem_singleton.mp hr
    exact ⟨rfl, rfl⟩

theorem mem_copied {x : Nat} (hlow : ∀ x, ptr ≤ x → x < ptr + n → x < kernelOffset) :
    x ∈ (List.range n).map (fun i => wrap (ptr + i)) ↔ ptr ≤ x ∧ x < ptr + n := by
  have hwrap : ∀ i < n, wrap (ptr + i) = ptr + i := fun i hi => by
    have hlt := hlow (ptr + i) (Nat.le_add_right _ _) (Nat.add_lt_add_left hi _)
    unfold kernelOffset at hlt
    exact Nat.mod_eq_of_lt (by omega)
  rw [List.mem_map]
  constructor
  · rintro ⟨i, hi, rfl⟩
    have hi := List.mem_range.mp hi
    rw [hwrap i hi]
    omega
  · rintro ⟨h1, h2⟩
    refine ⟨x - ptr, List.mem_range.mpr (by omega), ?_⟩
    rw [hwrap _ (by omega)]
    omega

theorem Held.copy (h : Held rs u) (hplain : Plain rs) (hin : Inside rs ptr data.length) :
    ∃ u', u.copy ptr data = .ok u' ∧ Held rs u' := by
  obtain ⟨m, hm, hg⟩ := h.granted.copyOut_inside hplain hin
  refine ⟨_, bind_ok.mpr ⟨_, hm, rfl⟩, hg, fun x hx => ?_, h.limit⟩
  rcases List.mem_append.mp hx with hx | hx
  · exact h.stores x hx
  · obtain ⟨h1, h2⟩ := (mem_copied fun y h1 h2 => by
      obtain ⟨r, hr, hspans⟩ := hin y h1 h2
      exact hspans.2.trans_le (h.granted.low r hr)).mp hx
    exact hin x h1 h2

theorem Held.fill (h : Held rs u) (hplain : Plain rs) (hlands : ph.Lands f rs) : ∃ u', (if ph.memSize = 0 then .ok u
    else do
      let u ← vfsReadUser f u ph.virtualAddress ph.fileSize ph.offset
      memset u (wrap (ph.virtualAddress + ph.fileSize)) (wrap (ph.memSize + 2 ^ 32 - ph.fileSize))) = .ok u' ∧
      Held rs u' := by
  have hzeros := hlands.zeros
  generalize wrap (ph.virtualAddress + ph.fileSize) = ptr at *
  generalize wrap (ph.memSize + 2 ^ 32 - ph.fileSize) = n at *
  by_cases hsize : ph.memSize = 0
  · exact ⟨u, if_pos hsize, h⟩
  · obtain ⟨r, hread, hfile⟩ := hlands.file hsize
    obtain ⟨u1, hu1, h1⟩ := h.copy hplain hfile
    have hcount := hzeros hsize
    rw [← @List.length_replicate Byte n 0] at hcount
    obtain ⟨u2, hu2, h2⟩ := h1.copy hplain hcount
    refine ⟨u2, (if_neg hsize).trans (bind_ok.mpr ⟨u1, ?_, hu2⟩), h2⟩
    rw [vfsReadUser, hread]
    exact hu1

theorem Held.grant {v : Nat × Mem} (h : Held rs u) (hfits : ph.request.Fits)
    (hclear : ∀ q ∈ rs, ph.request.Clear q) (hv : u.mem.grant ph.request = .ok v) :
    Held (rs ++ [ph.request]) { u with mem := v.2 } := by
  have hframe := (newArea_frame hv).1
  refine ⟨(h.granted.newArea_ok hfits hclear hv).1, fun x hx => ?_, ?_⟩
  · obtain ⟨r, hr, hspans⟩ := h.stores x hx
    exact ⟨r, List.mem_append_left _ hr, hspans⟩
  · change (v.2.proc v.2.current).stackLimit < stackPage
    rw [hframe.current, hframe.stackLimit]
    exact h.limit

theorem Held.segment (h : Held rs u) (hplain : Plain rs) (hfits : ph.request.Fits)
    (hclear : ∀ q ∈ rs, ph.request.Clear q) (hlands : ph.Lands f (rs ++ [ph.request])) :
    Yields (loadElfSegment f u ph) (· = .outOfMemory) (Held (rs ++ [ph.request])) := by
  have hgrant : Yields (u.mem.grant ph.request) (· = .outOfMemory)
      fun v => Held (rs ++ [ph.request]) { u with mem := v.2 } :=
    yields_iff.mpr ⟨fun v hv => h.grant hfits hclear hv, (yields_iff.mp (h.granted.newArea hfits hclear)).2⟩
  exact hgrant.bind fun v hv => .of_ok (hv.fill (Phead.plain hplain) hlands)

theorem Held.load (h : Held rs s.toUserMem) (hplain : Plain rs) (htype : ∀ ph ∈ segments, ph.type = elfPtLoad)
    (hfits : ∀ ph ∈ segments, ph.request.Fits) (htidy : Tidy f rs segments) :
    Yields (segments.foldlM (loadPhead f) s) (· = .outOfMemory)
      fun s' => Held (rs ++ segments.map Phead.request) s'.toUserMem := by
  induction htidy generalizing s with
  | nil =>
    rw [List.map_nil, List.append_nil]
    exact h
  | @cons rs ph segments hclear hlands _ ih =>
    have hstep : Yields (loadPhead f s ph) (· = .outOfMemory)
        fun s' => Held (rs ++ [ph.request]) s'.toUserMem := by
      rw [loadPhead, if_pos (htype ph List.mem_cons_self)]
      exact (h.segment hplain (hfits ph List.mem_cons_self) hclear hlands).bind fun u hu => hu
    rw [List.foldlM_cons]
    refine hstep.bind fun s' hs' => ?_
    have hrest := ih hs' (Phead.plain hplain) (fun q hq => htype q (List.mem_cons_of_mem _ hq))
      fun q hq => hfits q (List.mem_cons_of_mem _ hq)
    rwa [List.append_assoc] at hrest

theorem Phead.Proper.lands (h : ph.Proper) (hfile : FileIn f.archive f.tar e) (hr : ph.request ∈ rs) : ph.Lands f rs := by
  have hsize := h.size
  have hbelow := h.below
  unfold userStackTop at hbelow
  have hspans : ∀ x, ph.virtualAddress ≤ x → x < ph.virtualAddress + ph.memSize → ∃ r ∈ rs, r.Spans x :=
    fun x h1 h2 => ⟨_, hr, by
      have hin := @Phead.Proper.spans ph (x - ph.virtualAddress) h (by omega)
      rwa [Nat.add_sub_cancel' h1] at hin⟩
  refine ⟨fun _ => ?_, fun _ x h1 h2 => hspans x ?_ ?_⟩
  · obtain ⟨r, hread, hstored⟩ := vfsRead_bytes hfile (h.wraps hfile)
    refine ⟨r, hread, fun x h1 h2 => hspans x h1 ?_⟩
    rw [hstored, bytes_length] at h2
    omega
  · unfold wrap at h1
    omega
  · unfold wrap at h1 h2
    omega

theorem tidy_of_proper {done : List Phead} (hfile : FileIn f.archive f.tar e) (hproper : ∀ ph ∈ segments, ph.Proper)
    (hclear : (done ++ segments).Pairwise fun q ph => ph.request.Clear q.request) :
    Tidy f (done.map Phead.request) segments := by
  induction segments generalizing done with
  | nil => exact .nil
  | cons ph segments ih =>
    have hall : done ++ ph :: segments = done ++ [ph] ++ segments := by simp
    have hmap : (done ++ [ph]).map Phead.request = done.map Phead.request ++ [ph.request] := by simp
    have hrest := @ih (done ++ [ph]) (fun q hq => hproper q (List.mem_cons_of_mem _ hq)) (hall ▸ hclear)
    rw [hmap] at hrest
    refine .cons (fun r hr => ?_) ((hproper ph List.mem_cons_self).lands hfile (by simp)) hrest
    obtain ⟨q, hq, rfl⟩ := List.mem_map.mp hr
    exact (List.pairwise_append.mp hclear).2.2 q hq ph List.mem_cons_self

-- ---------------------------------------------------------------------------
-- What a load that comes back says
-- ---------------------------------------------------------------------------

theorem copy_stores (h : u.copy ptr data = .ok u') : ∀ x ∈ u.stores, x ∈ u'.stores := by
  obtain ⟨w, -, h⟩ := bind_ok.mp h
  obtain rfl := Except.ok.inj h
  exact fun x hx => List.mem_append_left _ hx

theorem Held.inside (h : Held rs u) (hplain : Plain rs) (hptr : ptr < 2 ^ 32) (hok : u.copy ptr data = .ok u')
    (hlow : ∀ x ∈ u'.stores, x < kernelOffset) : Inside rs ptr data.length := by
  obtain ⟨w, hw, hok⟩ := bind_ok.mp hok
  obtain rfl := Except.ok.inj hok
  have htop : kernelOffset = 0xC0000000 := rfl
  intro x h1 h2
  by_contra hout
  push Not at hout
  by_cases hx : x < kernelOffset
  · exact h.granted.copyOut_outside hplain h1 h2 hx hout w hw
  · -- the first address of the copy that is not below
    have hfirst : max ptr kernelOffset - ptr < data.length := by omega
    have hstored := hlow (wrap (ptr + (max ptr kernelOffset - ptr)))
      (List.mem_append_right _ (List.mem_map_of_mem (List.mem_range.mpr hfirst)))
    rw [show ptr + (max ptr kernelOffset - ptr) = max ptr kernelOffset by omega, wrap,
      Nat.mod_eq_of_lt (by omega)] at hstored
    omega

theorem Held.fill_back (h : Held rs u) (hplain : Plain rs) (hptr : ph.virtualAddress < 2 ^ 32)
    (hok : (if ph.memSize = 0 then .ok u
      else do
        let u ← vfsReadUser f u ph.virtualAddress ph.fileSize ph.offset
        memset u (wrap (ph.virtualAddress + ph.fileSize)) (wrap (ph.memSize + 2 ^ 32 - ph.fileSize))) = .ok u')
    (hlow : ∀ x ∈ u'.stores, x < kernelOffset) : ph.Lands f rs ∧ Held rs u' := by
  have hzeros : wrap (ph.virtualAddress + ph.fileSize) < 2 ^ 32 := Nat.mod_lt _ (by decide)
  have hlands : ∀ {r}, vfsRead f (fun _ => 0) ph.fileSize ph.offset = .ok r →
      Inside rs ph.virtualAddress (stored r).length → Inside rs (wrap (ph.virtualAddress + ph.fileSize))
        (wrap (ph.memSize + 2 ^ 32 - ph.fileSize)) → ph.Lands f rs := fun hread h1 h2 =>
    ⟨fun _ => ⟨_, hread, h1⟩, fun _ => h2⟩
  generalize wrap (ph.virtualAddress + ph.fileSize) = ptr at *
  generalize wrap (ph.memSize + 2 ^ 32 - ph.fileSize) = n at *
  by_cases hsize : ph.memSize = 0
  · obtain rfl := Except.ok.inj ((if_pos hsize).symm.trans hok)
    exact ⟨⟨fun hne => absurd hsize hne, fun hne => absurd hsize hne⟩, h⟩
  · obtain ⟨u1, hu1, hu2⟩ := bind_ok.mp ((if_neg hsize).symm.trans hok)
    obtain ⟨r, hread, hu1⟩ := bind_ok.mp hu1
    have hlow1 : ∀ x ∈ u1.stores, x < kernelOffset := fun x hx => hlow x (copy_stores hu2 x hx)
    have hfile := h.inside hplain hptr hu1 hlow1
    obtain ⟨u3, hu3, h1⟩ := h.copy hplain hfile
    obtain rfl := Except.ok.inj (hu3.symm.trans hu1)
    have hrest := h1.inside hplain hzeros hu2 hlow
    obtain ⟨u4, hu4, h2⟩ := h1.copy hplain hrest
    obtain rfl := Except.ok.inj (hu4.symm.trans hu2)
    rw [List.length_replicate] at hrest
    exact ⟨hlands hread hfile hrest, h2⟩

theorem Held.segment_back (h : Held rs u) (hplain : Plain rs) (hfits : ph.request.Fits)
    (hok : loadElfSegment f u ph = .ok u') (hlow : ∀ x ∈ u'.stores, x < kernelOffset) :
    (∀ q ∈ rs, ph.request.Clear q) ∧ ph.Lands f (rs ++ [ph.request]) ∧ Held (rs ++ [ph.request]) u' := by
  obtain ⟨v, hv, hok⟩ := bind_ok.mp hok
  have hv : u.mem.grant ph.request = .ok v := hv
  have hclear : ∀ q ∈ rs, ph.request.Clear q := fun q hq => by
    by_contra hnot
    rw [h.granted.hangs hq hnot] at hv
    cases hv
  have hgrant : Held (rs ++ [ph.request]) { u with mem := v.2 } := h.grant hfits hclear hv
  exact ⟨hclear, hgrant.fill_back (Phead.plain hplain) hfits.start_lt hok hlow⟩

theorem segment_stores (hok : loadElfSegment f u ph = .ok u') : ∀ x ∈ u.stores, x ∈ u'.stores := by
  obtain ⟨v, -, hok⟩ := bind_ok.mp hok
  by_cases hsize : ph.memSize = 0
  · obtain rfl := Except.ok.inj ((if_pos hsize).symm.trans hok)
    exact fun _ hx => hx
  · obtain ⟨u1, hu1, hu2⟩ := bind_ok.mp ((if_neg hsize).symm.trans hok)
    obtain ⟨r, -, hu1⟩ := bind_ok.mp hu1
    exact fun x hx => copy_stores hu2 x (copy_stores hu1 x hx)

theorem load_stores (hok : segments.foldlM (loadPhead f) s = .ok s') : ∀ x ∈ s.stores, x ∈ s'.stores := by
  induction segments generalizing s with
  | nil =>
    obtain rfl := Except.ok.inj hok
    exact fun _ hx => hx
  | cons ph segments ih =>
    rw [List.foldlM_cons] at hok
    obtain ⟨s1, hs1, hok⟩ := bind_ok.mp hok
    refine fun x hx => ih hok x ?_
    rw [loadPhead] at hs1
    split at hs1
    · obtain ⟨u, hu, hs1⟩ := bind_ok.mp hs1
      obtain rfl := Except.ok.inj hs1
      exact segment_stores hu x hx
    · obtain rfl := Except.ok.inj hs1
      exact hx

theorem Held.load_back (h : Held rs s.toUserMem) (hplain : Plain rs) (htype : ∀ ph ∈ segments, ph.type = elfPtLoad)
    (hfits : ∀ ph ∈ segments, ph.request.Fits) (hok : segments.foldlM (loadPhead f) s = .ok s')
    (hlow : ∀ x ∈ s'.stores, x < kernelOffset) : Tidy f rs segments := by
  induction segments generalizing rs s with
  | nil => exact .nil
  | cons ph segments ih =>
    rw [List.foldlM_cons] at hok
    obtain ⟨s1, hs1, hok⟩ := bind_ok.mp hok
    rw [loadPhead, if_pos (htype ph List.mem_cons_self)] at hs1
    obtain ⟨u, hu, hs1⟩ := bind_ok.mp hs1
    have hsame : s1.toUserMem = u := by
      obtain rfl := Except.ok.inj hs1
      rfl
    have hlow1 : ∀ x ∈ u.stores, x < kernelOffset := fun x hx => hlow x (load_stores hok x (hsame ▸ hx))
    obtain ⟨hclear, hlands, h1⟩ := h.segment_back hplain (hfits ph List.mem_cons_self) hu hlow1
    exact .cons hclear hlands (ih (hsame ▸ h1) (Phead.plain hplain) (fun q hq => htype q (List.mem_cons_of_mem _ hq))
      (fun q hq => hfits q (List.mem_cons_of_mem _ hq)) hok)

-- ---------------------------------------------------------------------------
-- The stack
-- ---------------------------------------------------------------------------

abbrev withStack (rs : List Request) : List Request := rs ++ [stackRequest] ++ [stackGrowth]

structure Pushed (rs : List Request) (u : UserMem) : Prop where
  used : StackUsed u.mem rs
  stores : ∀ x ∈ u.stores, ∃ r ∈ withStack rs, r.Spans x

/-- What the pushes keep; as long as nothing was pushed the position is `USER_STACK_TOP`. -/
structure Stacked (rs : List Request) (pos : Nat) (u : UserMem) : Prop where
  memory : StackUsed u.mem rs ∨ EmptyStack u.mem rs ∧ pos = userStackTop
  stores : ∀ x ∈ u.stores, ∃ r ∈ withStack rs, r.Spans x

theorem Pushed.stacked (h : Pushed rs u) : Stacked rs pos u := ⟨.inl h.used, h.stores⟩

theorem Stacked.copy (h : Stacked rs pos u) (h1 : stackPage ≤ ptr) (hfirst : pos = userStackTop → stackPage < ptr)
    (h2 : ptr + data.length ≤ userStackTop) (hne : data ≠ []) :
    Yields (u.copy ptr data) (· = .outOfMemory) (Pushed rs) := by
  have hcopy : Yields (copyOut u.mem ptr data) (· = .outOfMemory) (StackUsed · rs) := by
    rcases h.memory with hused | ⟨hempty, hpos⟩
    · exact .of_ok (hused.copyOut h1 h2)
    · exact hempty.copyOut (hfirst hpos) h2 hne
  refine hcopy.bind fun w hw => ⟨hw, fun x hx => ?_⟩
  rcases List.mem_append.mp hx with hx | hx
  · exact h.stores x hx
  · have hlow : ∀ x, ptr ≤ x → x < ptr + data.length → x < kernelOffset := fun x _ hx =>
      (hx.trans_le h2).trans_le (by decide)
    obtain ⟨hx1, hx2⟩ := (mem_copied hlow).mp hx
    exact ⟨stackGrowth, by simp, h1.trans hx1, hx2.trans_le h2⟩

theorem Pushed.copyWord (h : Pushed rs u) (h1 : stackPage ≤ ptr) (h2 : ptr + 4 ≤ userStackTop) :
    Yields (u.copy ptr (wordBytes n)) (· = .outOfMemory) (Pushed rs) := by
  have hstacked : Stacked rs 0 u := h.stacked
  exact hstacked.copy h1 (fun h0 => absurd h0 (by decide)) h2 (by simp [wordBytes])

theorem Stacked.pushStrings (h : Stacked rs pos u) (hroom : stackPage + 12 + stringsRoom strs ≤ n) (hn : n ≤ array)
    (harray : array + 4 * (i + strs.length) ≤ userStackTop) :
    Yields (Elf.pushStrings array i strs n u) (· = .outOfMemory)
      fun r => r.1 = n - stringsRoom strs ∧ Stacked rs pos r.2 := by
  have htop : userStackTop = 0xBFFFF000 := rfl
  have hpage : stackPage = 0xBFFFE000 := rfl
  induction strs generalizing i n u with
  | nil => exact ⟨rfl, h⟩
  | cons s strs ih =>
    have hsum : stringsRoom (s :: strs) = stringRoom s + stringsRoom strs := rfl
    have hlen := @stringRoom_pos s
    have hsize : (s ++ [0]).length = s.length + 1 := by rw [List.length_append, List.length_singleton]
    rw [hsum] at hroom
    rw [List.length_cons] at harray
    have hptr : wrap (array + 4 * i) = array + 4 * i := Nat.mod_eq_of_lt (by omega)
    have hstring : Yields (u.copy (n - stringRoom s) (s ++ [0])) (· = .outOfMemory) (Pushed rs) :=
      h.copy (by omega) (by omega) (by omega) (by simp)
    rw [Elf.pushStrings, back_string (by omega) (by omega), hptr]
    refine hstring.bind fun u1 h1 => ?_
    have hentry : Yields (u1.copy (array + 4 * i) (wordBytes (n - stringRoom s))) (· = .outOfMemory) (Pushed rs) :=
      h1.copyWord (by omega) (by omega)
    refine hentry.bind fun u2 h2 => ?_
    refine (ih h2.stacked (by omega) (by omega) (by omega)).imp fun r hr => ⟨?_, hr.2⟩
    rw [hr.1, hsum, Nat.sub_sub]

theorem back_array (hroom : 4 * (n + 2) ≤ pos) (hpos : pos < 2 ^ 32) :
    back (back pos (wrap ((n + 1) * 4) / 4)) 1 = pos - 4 * (n + 2) := by
  have hn : wrap ((n + 1) * 4) / 4 = n + 1 := by
    unfold wrap
    omega
  rw [hn, back_eq (by omega) hpos, back_eq (by omega) (by omega)]
  omega

theorem Stacked.pushArray (h : Stacked rs pos u) (hroom : stackPage + 12 + arrayRoom temp ≤ pos)
    (hpos : pos ≤ userStackTop) :
    Yields (Elf.pushArray temp (temp.elim 0 fun strs => strs.length + 1) pos u) (· = .outOfMemory)
      fun r => r.2.1 = pos - arrayRoom temp ∧ Stacked rs r.2.1 r.2.2 := by
  have htop : userStackTop = 0xBFFFF000 := rfl
  have hpage : stackPage = 0xBFFFE000 := rfl
  cases temp with
  | none => exact ⟨rfl, h⟩
  | some strs =>
    have hsum : arrayRoom (some strs) = 4 * (strs.length + 2) + stringsRoom strs := rfl
    rw [hsum] at hroom ⊢
    have harray := @back_array pos strs.length (by omega) (by omega)
    have hnull : wrap (pos - 4 * (strs.length + 2) + 4 * (strs.length + 1 - 1)) =
        pos - 4 * (strs.length + 2) + 4 * strs.length := Nat.mod_eq_of_lt (by omega)
    rw [Elf.pushArray, Option.elim_some, harray, hnull]
    generalize harr : pos - 4 * (strs.length + 2) = array
    have hstrings := @Stacked.pushStrings u rs pos array 0 array strs h (by omega) le_rfl (by omega)
    refine hstrings.bind fun r hr => ?_
    obtain ⟨n, u1⟩ := r
    obtain ⟨rfl, h1⟩ := hr
    have hlast : Yields (u1.copy (array + 4 * strs.length) (wordBytes 0)) (· = .outOfMemory) (Pushed rs) :=
      h1.copy (by omega) (by omega) (by rw [wordBytes_length]; omega) (by simp [wordBytes])
    refine hlast.bind fun u2 h2 => ⟨?_, h2.stacked⟩
    change array - stringsRoom strs = _
    omega

theorem Stacked.pushBlock (h : Stacked rs userStackTop u) (hroom : blockRoom argv env ≤ pageSize) :
    Yields (Elf.pushBlock (env, env.elim 0 fun strs => strs.length + 1)
      (argv, argv.elim 0 fun strs => strs.length + 1) u) (· = .outOfMemory) fun r => Pushed rs r.2 := by
  have htop : userStackTop = 0xBFFFF000 := rfl
  have hpage : stackPage = 0xBFFFE000 := rfl
  have hsize : pageSize = 0x1000 := rfl
  unfold blockRoom at hroom
  rw [Elf.pushBlock]
  refine (@Stacked.pushArray u rs userStackTop env h (by omega) le_rfl).bind fun r hr => ?_
  obtain ⟨envAt, p₁, u1⟩ := r
  obtain ⟨hp₁, h1⟩ : p₁ = userStackTop - arrayRoom env ∧ Stacked rs p₁ u1 := hr
  refine (@Stacked.pushArray u1 rs p₁ argv h1 (by omega) (by omega)).bind fun r hr => ?_
  obtain ⟨argvAt, p, u2⟩ := r
  obtain ⟨hp, h2⟩ : p = p₁ - arrayRoom argv ∧ Stacked rs p u2 := hr
  have hback : back p 3 = p - 12 := back_eq (by omega) (by omega)
  have hadd : ∀ k, k < 12 → wrap (p - 12 + k) = p - 12 + k := fun k hk => Nat.mod_eq_of_lt (by omega)
  simp only [hback, hadd 4 (by decide), hadd 8 (by decide)]
  have hfirst : Yields (u2.copy (p - 12) (wordBytes (wrap ((argv.elim 0 fun strs => strs.length + 1) + (2 ^ 32 - 1)))))
      (· = .outOfMemory) (Pushed rs) :=
    h2.copy (by omega) (by omega) (by rw [wordBytes_length]; omega) (by simp [wordBytes])
  refine hfirst.bind fun u3 h3 => ?_
  refine (h3.copyWord (by omega) (by omega)).bind fun u4 h4 => ?_
  refine (h4.copyWord (by omega) (by omega)).bind fun u5 h5 => ?_
  exact h5

theorem pushStrings_stores {r : Nat × UserMem} (hok : pushStrings array i strs n u = .ok r) :
    ∀ x ∈ u.stores, x ∈ r.2.stores := by
  induction strs generalizing i n u with
  | nil =>
    obtain rfl := Except.ok.inj hok
    exact fun _ hx => hx
  | cons s strs ih =>
    obtain ⟨u1, hu1, hok⟩ := bind_ok.mp hok
    obtain ⟨u2, hu2, hok⟩ := bind_ok.mp hok
    exact fun x hx => ih hok x (copy_stores hu2 x (copy_stores hu1 x hx))

theorem pushArray_stores {r : Nat × Nat × UserMem} (hok : pushArray temp n pos u = .ok r) :
    ∀ x ∈ u.stores, x ∈ r.2.2.stores := by
  cases temp with
  | none =>
    obtain rfl := Except.ok.inj hok
    exact fun _ hx => hx
  | some strs =>
    obtain ⟨⟨k, u1⟩, hu1, hok⟩ := bind_ok.mp hok
    obtain ⟨u2, hu2, hok⟩ := bind_ok.mp hok
    obtain rfl := Except.ok.inj hok
    exact fun x hx => copy_stores hu2 x (pushStrings_stores hu1 x hx)

theorem pushBlock_stores {tempEnv tempArgv : Option (List CString) × Nat} {r : Nat × UserMem}
    (hok : pushBlock tempEnv tempArgv u = .ok r) : ∀ x ∈ u.stores, x ∈ r.2.stores := by
  obtain ⟨⟨envAt, p₁, u1⟩, hu1, hok⟩ := bind_ok.mp hok
  obtain ⟨⟨argvAt, p₂, u2⟩, hu2, hok⟩ := bind_ok.mp hok
  obtain ⟨u3, hu3, hok⟩ := bind_ok.mp hok
  obtain ⟨u4, hu4, hok⟩ := bind_ok.mp hok
  obtain ⟨u5, hu5, hok⟩ := bind_ok.mp hok
  obtain rfl := Except.ok.inj hok
  exact fun x hx => copy_stores hu5 x (copy_stores hu4 x (copy_stores hu3 x
    (pushArray_stores hu2 x (pushArray_stores hu1 x hx))))

/-- No store to the program gets through. -/
def Refuses (u : UserMem) : Prop := ∀ x b, x < kernelOffset → kernelStore x b maxRestarts u.mem = .error .fault

theorem Refuses.copy (h : Refuses u) (hptr : ptr < kernelOffset) (hne : data ≠ []) : u.copy ptr data ≠ .ok u' := by
  intro hok
  obtain ⟨b, data, rfl⟩ := List.exists_cons_of_ne_nil hne
  obtain ⟨w, hw, -⟩ := bind_ok.mp hok
  obtain ⟨w1, hstore, -⟩ := bind_ok.mp hw
  rw [h ptr b hptr] at hstore
  cases hstore

theorem Refuses.pushArray {r : Nat × Nat × UserMem} (h : Refuses u) (hroom : arrayRoom temp ≤ pos)
    (hpos : pos ≤ userStackTop)
    (hok : Elf.pushArray temp (temp.elim 0 fun strs => strs.length + 1) pos u = .ok r) : temp = none ∧ r = (0, pos, u) := by
  have htop : userStackTop = 0xBFFFF000 := rfl
  have hkernel : kernelOffset = 0xC0000000 := rfl
  cases temp with
  | none => exact ⟨rfl, (Except.ok.inj hok).symm⟩
  | some strs =>
    have hsum : arrayRoom (some strs) = 4 * (strs.length + 2) + stringsRoom strs := rfl
    rw [hsum] at hroom
    have harray := @back_array pos strs.length (by omega) (by omega)
    obtain ⟨⟨k, u1⟩, hu1, hok⟩ := bind_ok.mp hok
    obtain ⟨u2, hu2, -⟩ := bind_ok.mp hok
    simp only [Option.elim_some, harray] at hu1 hu2
    generalize harr : pos - 4 * (strs.length + 2) = array at *
    cases strs with
    | nil =>
      obtain ⟨rfl, rfl⟩ := Prod.mk.inj (Except.ok.inj hu1)
      refine absurd hu2 (h.copy ?_ (by simp [wordBytes]))
      exact (Nat.mod_le _ _).trans_lt (by simp only [List.length_nil]; omega)
    | cons s strs =>
      have hstrings : stringsRoom (s :: strs) = stringRoom s + stringsRoom strs := rfl
      obtain ⟨u3, hu3, -⟩ := bind_ok.mp hu1
      rw [back_string (by omega) (by omega)] at hu3
      exact absurd hu3 (h.copy (by omega) (by simp))

theorem Refuses.pushBlock {r : Nat × UserMem} (h : Refuses u) (hroom : blockRoom argv env ≤ pageSize) :
    Elf.pushBlock (env, env.elim 0 fun strs => strs.length + 1)
      (argv, argv.elim 0 fun strs => strs.length + 1) u ≠ .ok r := by
  have htop : userStackTop = 0xBFFFF000 := rfl
  have hsize : pageSize = 0x1000 := rfl
  unfold blockRoom at hroom
  have henv : arrayRoom env ≤ userStackTop := by omega
  have hargv : arrayRoom argv ≤ userStackTop := by omega
  intro hok
  obtain ⟨r1, hr1, hok⟩ := bind_ok.mp hok
  obtain ⟨rfl, rfl⟩ := h.pushArray henv le_rfl hr1
  obtain ⟨r2, hr2, hok⟩ := bind_ok.mp hok
  obtain ⟨rfl, rfl⟩ := h.pushArray hargv le_rfl hr2
  obtain ⟨u3, hu3, -⟩ := bind_ok.mp hok
  exact h.copy (by decide) (by simp [wordBytes]) hu3

-- ---------------------------------------------------------------------------
-- The call
-- ---------------------------------------------------------------------------

section
variable {v : World} {p : ExecProcess} {name : CString} {user : Memory} {argvPtr envPtr : Nat} {elf' : Buffer}

theorem emptied_of_run (hrun : Reach World.step World.Straight World.Started v)
    (hremove : procmmRemoveall v.mem v.current = .ok w) : Emptied w :=
  @emptied_of_removeAll v { v with mem := w, loading := Function.update v.loading v.current true }
    (World.reach_fitted hrun) (World.step_some.mpr (bind_ok.mpr ⟨w, hremove, rfl⟩))

theorem saved_eq (h : StringsAt user array temp) (hroom : arrayRoom temp < 2 ^ 32) :
    saved user array = .ok (temp, temp.elim 0 fun strs => strs.length + 1) := by
  rw [saved, saveStrings_eq h hroom]

def ExecProcess.emptied (p : ExecProcess) (name : CString) (w : Mem) : ExecProcess :=
  { p with cmdline := name, mem := w, signalHandler := fun _ => 0, signalBlocked := fun _ => 0, signalQueue := [] }

def launch (f : File) (segments : List Phead) (entry : Nat) (argv env : Option (List CString)) (name : CString)
    (p : ExecProcess) : Except Stop ((Int × Option ExecErrno) × ExecProcess) := do
  let w ← procmmRemoveall p.mem p.mem.current
  let p := p.emptied name w
  let s ← segments.foldlM (loadPhead f) { p.toLoader with codeStart := 2 ^ 32 - 1, codeEnd := 0 }
  let (_, w) ← s.mem.grant stackRequest
  let (pos, u) ← pushBlock (env, env.elim 0 fun strs => strs.length + 1)
    (argv, argv.elim 0 fun strs => strs.length + 1) ⟨w, s.stores⟩
  return ((0, none), { p with
    toUserMem := u, codeStart := s.codeStart, codeEnd := s.codeEnd, dataEnd := s.codeEnd, codeEntry := entry
    eax := 0, ebx := 0, edx := 0, useresp := pos, ebp := pos, ecx := pos })

theorem execve_eq (hexec : isElf f elf = .ok elfTypeExecutable) (hheaders : Headers f elf' pheads header segments)
    (helf : isElfHeader header = elfTypeExecutable) (hargv : StringsAt user argvPtr argv)
    (henv : StringsAt user envPtr env) (hroom : blockRoom argv env ≤ pageSize) :
    execve (some f) name argvPtr envPtr user elf elf' pheads p = launch f segments (entry header) argv env name p := by
  have hsize : pageSize = 0x1000 := rfl
  unfold blockRoom at hroom
  have henv := saved_eq henv (by omega)
  have hargv := saved_eq hargv (by omega)
  have hload : ∀ s : Loader, loadElf f elf' pheads s = _ := fun s => hheaders.loadElf_eq helf
  unfold execve
  simp only
  rw [hexec, henv, hargv]
  simp only [hload, bind_assoc, pure_bind]
  rfl

/-- The running process is in a state of a run, and no store is logged yet. No code sets the
limit of a stack. -/
structure Calling (v : World) (p : ExecProcess) : Prop where
  run : Reach World.step World.Straight World.Started v
  mem : p.mem = v.mem
  stores : p.stores = []
  limit : (p.mem.proc p.mem.current).stackLimit = 0

theorem Calling.held (h : Calling v p) (hremove : procmmRemoveall p.mem p.mem.current = .ok w) :
    Held [] (p.emptied name w).toUserMem := by
  obtain ⟨hrun, hmem, hstores, hlimit⟩ := h
  rw [hmem] at hremove hlimit
  have hframe := (procmmRemoveall_reworks (World.reach_fitted hrun).kept.sound.lists hremove).1.frame
  refine ⟨(emptied_of_run hrun hremove).granted, fun x hx => ?_, ?_⟩
  · rw [show (p.emptied name w).stores = [] from hstores] at hx
    cases hx
  · change (w.proc w.current).stackLimit < stackPage
    rw [hframe.current, hframe.stackLimit, hlimit]
    decide

theorem plain_nil : Plain [] := fun _ hr => absurd hr List.not_mem_nil

theorem plain_requests : Plain (segments.map Phead.request) := by
  intro r hr
  obtain ⟨ph, -, rfl⟩ := List.mem_map.mp hr
  exact ⟨rfl, rfl⟩

theorem Headers.type (h : Headers f elf pheads header segments) : ∀ ph ∈ segments, ph.type = elfPtLoad := by
  obtain ⟨n, table, -, rfl⟩ := h.table
  exact fun ph hph => by simpa using (List.mem_filter.mp hph).2

theorem Held.stacked (h : Held rs u) (hne : rs ≠ []) (hplain : Plain rs)
    (hbelow : ∀ r ∈ rs, areaStop r.stop ≤ stackPage) :
    Yields (u.mem.grant stackRequest) (· = .outOfMemory) fun v => Stacked rs userStackTop { u with mem := v.2 } :=
  (h.granted.newStack hne hplain hbelow h.limit).imp fun v hv => ⟨.inr ⟨hv, rfl⟩, fun x hx => by
    obtain ⟨r, hr, hspans⟩ := h.stores x hx
    exact ⟨r, by simp [hr], hspans⟩⟩

theorem Headers.starts (h : Headers f elf' pheads header segments) (hexec : isElfHeader header = elfTypeExecutable)
    (hentry : p.codeEntry = entry header) : Starts f elf' p := by
  obtain ⟨n, hread⟩ := h.read
  exact ⟨n, header, hread, hexec, hentry⟩

theorem Held.launch {entry : Nat} (h : Held [] (p.emptied name w).toUserMem)
    (hremove : procmmRemoveall p.mem p.mem.current = .ok w) (htype : ∀ ph ∈ segments, ph.type = elfPtLoad)
    (hordinary : Ordinary segments argv env) (hne : segments ≠ []) (htidy : Tidy f [] segments) :
    Yields (Elf.launch f segments entry argv env name p) (· = .outOfMemory) fun r => r.1.1 = 0 ∧
      r.2.codeEntry = entry ∧ ∀ x ∈ r.2.stores, x < kernelOffset ∧ ∃ a, At r.2.mem r.2.mem.current x a := by
  have hne : segments.map Phead.request ≠ [] := fun hnil => hne (List.map_eq_nil_iff.mp hnil)
  have hbelow : ∀ r ∈ segments.map Phead.request, areaStop r.stop ≤ stackPage := by
    intro r hr
    obtain ⟨ph, hph, rfl⟩ := List.mem_map.mp hr
    exact hordinary.below ph hph
  have hload := @Held.load f { (p.emptied name w).toLoader with codeStart := 2 ^ 32 - 1, codeEnd := 0 }
    segments [] h plain_nil htype hordinary.fits htidy
  rw [Elf.launch, hremove]
  refine hload.bind fun s hs => (hs.stacked hne plain_requests hbelow).bind fun v hv =>
    (hv.pushBlock hordinary.room).bind fun r hr => ⟨rfl, rfl, fun x hx => ?_⟩
  obtain ⟨q, hq, hspans⟩ := hr.stores x hx
  obtain ⟨a, ha, -⟩ := hr.used.granted.areas q hq x hspans
  exact ⟨hspans.2.trans_le (hr.used.granted.low q hq), a, ha⟩

theorem Replaceable.right (h : Replaceable f header segments p.mem argv env) (hcall : Calling v p)
    (hheaders : Headers f elf' pheads header segments) (hexec : isElf f elf = .ok elfTypeExecutable)
    (hargv : StringsAt user argvPtr argv) (henv : StringsAt user envPtr env)
    (hframes : execve (some f) name argvPtr envPtr user elf elf' pheads p ≠ .error .outOfMemory) :
    ExecveRight f elf' p (execve (some f) name argvPtr envPtr user elf elf' pheads p) := by
  rw [execve_eq hexec hheaders h.executable hargv henv h.room] at hframes ⊢
  have htables : TablesThere v.mem v.current := by
    have htables := h.tables
    rwa [hcall.mem] at htables
  have hremove : ∃ w, procmmRemoveall p.mem p.mem.current = .ok w := by
    rw [hcall.mem]
    exact (World.reach_fitted hcall.run).removeall_iff.mpr htables
  obtain ⟨w, hw⟩ := hremove
  have hlaunch := @Held.launch f w segments argv env p name (entry header) (hcall.held hw) hw hheaders.type
    h.toOrdinary h.nonempty h.tidy
  cases hrun : launch f segments (entry header) argv env name p with
  | ok r =>
    obtain ⟨hret, hentry, hstores⟩ := hlaunch.of_eq_ok hrun
    exact ⟨r.1, r.2, rfl, hstores, .inl ⟨hret, hheaders.starts h.executable hentry⟩⟩
  | error e =>
    rw [hrun] at hlaunch hframes
    exact absurd (congrArg Except.error hlaunch) hframes

theorem execve_ret {r : (Int × Option ExecErrno) × ExecProcess} (hexec : isElf f elf = .ok elfTypeExecutable)
    (hok : execve (some f) name argvPtr envPtr user elf elf' pheads p = .ok r) : r.1.1 = 0 := by
  unfold execve at hok
  simp only at hok
  obtain ⟨iself, hiself, hok⟩ := bind_ok.mp hok
  obtain rfl := Except.ok.inj (hexec.symm.trans hiself)
  rw [if_neg (not_not.mpr rfl)] at hok
  obtain ⟨tempEnv, -, hok⟩ := bind_ok.mp hok
  obtain ⟨tempArgv, -, hok⟩ := bind_ok.mp hok
  obtain ⟨w, -, hok⟩ := bind_ok.mp hok
  obtain ⟨r1, -, hok⟩ := bind_ok.mp hok
  obtain ⟨r2, -, hok⟩ := bind_ok.mp hok
  obtain ⟨r3, -, hok⟩ := bind_ok.mp hok
  obtain rfl := Except.ok.inj hok
  rfl

theorem launch_back {entry : Nat} {r : (Int × Option ExecErrno) × ExecProcess} (hcall : Calling v p)
    (htype : ∀ ph ∈ segments, ph.type = elfPtLoad) (hordinary : Ordinary segments argv env)
    (hok : launch f segments entry argv env name p = .ok r) (hlow : ∀ x ∈ r.2.stores, x < kernelOffset) :
    TablesThere p.mem p.mem.current ∧ segments ≠ [] ∧ Tidy f [] segments := by
  obtain ⟨w, hw, hok⟩ := bind_ok.mp hok
  obtain ⟨s, hs, hok⟩ := bind_ok.mp hok
  obtain ⟨q, hq, hok⟩ := bind_ok.mp hok
  obtain ⟨⟨pos, u⟩, hpush, hok⟩ := bind_ok.mp hok
  have hstores : r.2.stores = u.stores := by
    obtain rfl := Except.ok.inj hok
    rfl
  have hheld : Held [] (p.emptied name w).toUserMem := hcall.held hw
  refine ⟨?_, fun hnil => ?_, ?_⟩
  · rw [hcall.mem] at hw ⊢
    exact (World.reach_fitted hcall.run).removeall_iff.mp ⟨w, hw⟩
  · subst hnil
    obtain rfl := Except.ok.inj hs
    have hrefuses : Refuses ⟨q.2, (p.emptied name w).stores⟩ := fun x b hx => hheld.granted.store_alone hq hx
    exact hrefuses.pushBlock hordinary.room hpush
  · refine @Held.load_back f { (p.emptied name w).toLoader with codeStart := 2 ^ 32 - 1, codeEnd := 0 } s segments []
      hheld plain_nil htype hordinary.fits hs fun x hx => hlow x ?_
    rw [hstores]
    exact pushBlock_stores hpush x hx

/-- For a file that `is_elf` takes for a program, `execve` does what it has to if the file and
the caller are as `Replaceable` says, and, for ordinary segments and arguments, only then. -/
theorem execve_law (hcall : Calling v p) (hheaders : Headers f elf' pheads header segments)
    (hexec : isElf f elf = .ok elfTypeExecutable) (hargv : StringsAt user argvPtr argv)
    (henv : StringsAt user envPtr env)
    (hframes : execve (some f) name argvPtr envPtr user elf elf' pheads p ≠ .error .outOfMemory) :
    (Replaceable f header segments p.mem argv env →
      ExecveRight f elf' p (execve (some f) name argvPtr envPtr user elf elf' pheads p)) ∧
    (Ordinary segments argv env →
      ExecveRight f elf' p (execve (some f) name argvPtr envPtr user elf elf' pheads p) →
      Replaceable f header segments p.mem argv env) := by
  refine ⟨fun h => h.right hcall hheaders hexec hargv henv hframes, fun hordinary hright => ?_⟩
  obtain ⟨ret, s', hok, hstores, hends⟩ := hright
  have helf : isElfHeader header = elfTypeExecutable := by
    obtain ⟨-, n, header', hread', helf, -⟩ | ⟨hret, -⟩ := hends
    · obtain ⟨k, hread⟩ := hheaders.read
      obtain ⟨-, rfl⟩ := Prod.mk.inj (Except.ok.inj (hread.symm.trans hread'))
      exact helf
    · exact absurd (hret.symm.trans (execve_ret hexec hok)) (by decide)
  rw [execve_eq hexec hheaders helf hargv henv hordinary.room] at hok
  obtain ⟨htables, hne, htidy⟩ := launch_back hcall hheaders.type hordinary hok fun x hx => (hstores x hx).1
  exact ⟨hordinary, htables, helf, hne, htidy⟩

end

end

-- ---------------------------------------------------------------------------
-- Programs of two segments
-- ---------------------------------------------------------------------------

def firstCaller : ExecProcess where
  toLoader := firstLoader
  cmdline := []
  signalHandler _ := 0x2000
  signalBlocked _ := 0
  signalQueue := []
  eax := 0
  ebx := 0
  ecx := 0
  edx := 0
  useresp := 0
  ebp := 0

theorem firstCaller_calling : Calling World.firstProcess firstCaller :=
  ⟨.start World.firstProcess_started, rfl, rfl, rfl⟩

theorem oneArgument_strings : StringsAt oneArgument 0x1000 (some [[108, 115]]) := by decide +kernel

theorem twoPages_proper : ∀ ph ∈ (programFile 0x2000).segments, ph.Proper := by
  rw [twoPages_segments]
  decide

theorem twoPages_clear : (programFile 0x2000).segments.Pairwise fun q ph => ph.request.Clear q.request := by
  refine (pairwise_clear_iff twoPages_proper ?_).mpr ?_
  · rw [twoPages_segments]
    decide
  · rw [twoPages_segments]
    decide

theorem execve_law_twoPages : ExecveRight (programFile 0x2000) (fun _ => 1) firstCaller
    (execve (some (programFile 0x2000)) [97] 0x1000 0 oneArgument (fun _ => 1) (fun _ => 1) (fun _ => 1)
      firstCaller) := by
  obtain ⟨header, hheaders, helf, -⟩ := (@programFile_executable 0x2000 (by decide +kernel)
    (by decide +kernel)).headers (fun _ => 1) (fun _ => 1)
  have hexec : isElf (programFile 0x2000) (fun _ => 1) = .ok elfTypeExecutable := by
    obtain ⟨n, hread⟩ := hheaders.read
    rw [isElf, hread]
    exact congrArg Except.ok helf
  have henv : StringsAt oneArgument 0 none := rfl
  have hframes : execve (some (programFile 0x2000)) [97] 0x1000 0 oneArgument (fun _ => 1) (fun _ => 1)
      (fun _ => 1) firstCaller ≠ .error .outOfMemory := by
    intro hfull
    have hstop : stopOf (execve (some (programFile 0x2000)) [97] 0x1000 0 oneArgument (fun _ => 1) (fun _ => 1)
      (fun _ => 1) firstCaller) = none := by decide +kernel
    rw [hfull] at hstop
    cases hstop
  refine (execve_law firstCaller_calling hheaders hexec oneArgument_strings henv hframes).1 ?_
  have hfits : ∀ ph ∈ (programFile 0x2000).segments, ph.request.Fits :=
    fun ph hph => (twoPages_proper ph hph).fits
  have htidy : Tidy (programFile 0x2000) [] (programFile 0x2000).segments := by
    refine @tidy_of_proper _ _ _ [] (programFile_in 0x2000) twoPages_proper ?_
    rw [List.nil_append]
    exact twoPages_clear
  refine { fits := hfits, below := ?_, room := by decide, tables := ?_, executable := helf, nonempty := ?_
           tidy := htidy }
  · rw [twoPages_segments]
    decide
  · rintro x a ⟨ha, -⟩
    cases ha
  · rw [twoPages_segments]
    decide

end Os5.Elf
