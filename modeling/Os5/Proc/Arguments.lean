import Os5.Lib.Bytes
import Os5.Mem.Machine

/-!
# Arguments and environment

`execve` copies the strings of `argv` and `env` into the kernel, and later below
`USER_STACK_TOP`: the arrays of pointers and the strings, and at the bottom a block of
three words, which `crt0` passes on to `_init`.
-/

namespace Os5

open Bytes

abbrev CString := List UInt8

abbrev stackTop : Nat := 0xBFFFF000

/-- `while(array[n++]);`; no more than 2 ^ 30 pointers have room in the address space. -/
def countEntries (mem : Memory) (array : Nat) : Nat → Nat → Option Nat
  | 0, _ => none
  | fuel + 1, n =>
    if word mem (array + 4 * n) = 0 then some (n + 1) else countEntries mem array fuel (n + 1)

def strdup (mem : Memory) : Nat → Nat → Option CString
  | 0, _ => none
  | fuel + 1, a => if mem a = 0 then some [] else (strdup mem fuel (a + 1)).map (mem a :: ·)

def copyStrings (mem : Memory) (array : Nat) : Nat → Nat → Option (List CString)
  | 0, _ => none
  | fuel + 1, i =>
    if word mem (array + 4 * i) = 0 then some []
    else do
      let s ← strdup mem (2 ^ 32) (word mem (array + 4 * i))
      let rest ← copyStrings mem array fuel (i + 1)
      return s :: rest

def saveStrings (mem : Memory) (array : Nat) : Option (Option (List CString) × Nat) :=
  if array = 0 then some (none, 0)
  else do
    let n ← countEntries mem array (2 ^ 30) 0
    let temp ← copyStrings mem array (2 ^ 30) 0
    return (some temp, n)

/-- `pos - n`, for a pointer to words of 32 bits. -/
def back (pos n : Nat) : Nat := wrap (pos + (2 ^ 32 - wrap (4 * n)))

def placeStrings (array : Nat) : Nat → List CString → Nat → Memory → Nat × Memory
  | _, [], pos, mem => (pos, mem)
  | i, s :: strs, pos, mem =>
    let pos := back (back pos (s.length / 4)) 2
    let mem := fill mem pos (s ++ [0])
    placeStrings array (i + 1) strs pos (setWord mem (array + 4 * i) pos)

def restoreStrings (temp : Option (List CString)) (n pos : Nat) (mem : Memory) : Nat × Nat × Memory :=
  match temp with
  | none => (0, pos, mem)
  | some strs =>
    let array := back (back pos (wrap (n * 4) / 4)) 1
    let (pos, mem) := placeStrings array 0 strs array mem
    (array, pos, setWord mem (array + 4 * (n - 1)) 0)

/-- What `execve` puts below `USER_STACK_TOP`, `image` being the memory with the program
loaded; the address of the three words and the memory. -/
def argumentBlock (mem : Memory) (argv env : Nat) (image : Memory) : Option (Nat × Memory) := do
  let (tempEnv, envc) ← saveStrings mem env
  let (tempArgv, argc) ← saveStrings mem argv
  let (env, pos, image) := restoreStrings tempEnv envc stackTop image
  let (argv, pos, image) := restoreStrings tempArgv argc pos image
  let pos := back pos 3
  let image := setWord image pos (wrap (argc + (2 ^ 32 - 1)))
  let image := setWord image (pos + 4) argv
  return (pos, setWord image (pos + 8) env)

structure MainArgs where
  argc : Int
  argv : Nat
  environ : Nat
  deriving DecidableEq, Repr

/-- `_init`, up to the call of `main`; `__env` is at `ownEnv`. -/
def initArgs (ownEnv : Nat) (mem : Memory) (args : Nat) : MainArgs :=
  if args ≠ 0 then
    let argc := word mem args
    ⟨if argc < 2 ^ 31 then argc else argc - 2 ^ 32, word mem (args + 4), word mem (args + 8)⟩
  else ⟨0, 0, ownEnv⟩

-- ---------------------------------------------------------------------------
-- What it is to hold
-- ---------------------------------------------------------------------------

/-- An array of pointers to the strings, with a null pointer at its end. -/
structure ArrayAt (mem : Memory) (array : Nat) (strs : List CString) : Prop where
  ne_zero : array ≠ 0
  entry : ∀ {i s}, strs[i]? = some s → word mem (array + 4 * i) ≠ 0 ∧
    StringAt mem (word mem (array + 4 * i)) s
  ends : word mem (array + 4 * strs.length) = 0

/-- An array, or a null pointer for none. -/
def StringsAt (mem : Memory) (array : Nat) : Option (List CString) → Prop
  | none => array = 0
  | some strs => ArrayAt mem array strs

instance (mem : Memory) (a : Nat) (s : List UInt8) : Decidable (StringAt mem a s) :=
  decidable_of_iff (load mem a (s.length + 1) = s ++ [0] ∧ 0 ∉ s) ⟨fun h => ⟨h.1, h.2⟩, fun h => ⟨h.bytes, h.clear⟩⟩

instance (mem : Memory) (array : Nat) (strs : List CString) : Decidable (ArrayAt mem array strs) :=
  decidable_of_iff (array ≠ 0 ∧ (∀ e ∈ strs.zipIdx, word mem (array + 4 * e.2) ≠ 0 ∧ StringAt mem (word mem (array + 4 * e.2)) e.1) ∧
    word mem (array + 4 * strs.length) = 0)
    ⟨fun h => ⟨h.1, fun hi => h.2.1 (_, _) (List.mem_zipIdx_iff_getElem?.mpr hi), h.2.2⟩,
      fun h => ⟨h.ne_zero, fun _ he => h.entry (List.mem_zipIdx_iff_getElem?.mp he), h.ends⟩⟩

instance (mem : Memory) (array : Nat) : ∀ argv, Decidable (StringsAt mem array argv)
  | none => inferInstanceAs (Decidable (array = 0))
  | some strs => inferInstanceAs (Decidable (ArrayAt mem array strs))

def entryRegion (mem : Memory) (array : Nat) (e : CString × Nat) : Region :=
  ⟨word mem (array + 4 * e.2), e.1.length + 1⟩

def entryRegions (mem : Memory) (array i : Nat) (strs : List CString) : List Region :=
  (strs.zipIdx i).map (entryRegion mem array)

def stringRegions (mem : Memory) (array : Nat) : Option (List CString) → List Region
  | none => []
  | some strs => ⟨array, 4 * (strs.length + 1)⟩ :: entryRegions mem array 0 strs

/-- The block as `_init` reads it. -/
structure Decodes (mem : Memory) (pos : Nat) (argv env : Option (List CString)) : Prop where
  argc : ∀ ownEnv, (initArgs ownEnv mem pos).argc = (argv.elim 0 List.length : Nat)
  arguments : ∀ ownEnv, StringsAt mem (initArgs ownEnv mem pos).argv argv
  environment : ∀ ownEnv, StringsAt mem (initArgs ownEnv mem pos).environ env
  apart : (⟨pos, 12⟩ :: (stringRegions mem (word mem (pos + 4)) argv ++
    stringRegions mem (word mem (pos + 8)) env)).Pairwise Region.Apart
  below : ∀ r ∈ ⟨pos, 12⟩ :: (stringRegions mem (word mem (pos + 4)) argv ++
    stringRegions mem (word mem (pos + 8)) env), r.stop ≤ stackTop

def stringRoom (s : CString) : Nat := 4 * (s.length / 4 + 2)

def stringsRoom (strs : List CString) : Nat := (strs.map stringRoom).sum

def arrayRoom (argv : Option (List CString)) : Nat :=
  argv.elim 0 fun strs => 4 * (strs.length + 2) + stringsRoom strs

def blockRoom (argv env : Option (List CString)) : Nat := arrayRoom env + arrayRoom argv + 12

section
variable {mem mem' image : Memory} {array pos n i : Nat} {s : CString} {strs : List CString}
  {argv env : Option (List CString)}

-- ---------------------------------------------------------------------------
-- Saving
-- ---------------------------------------------------------------------------

theorem strdup_eq {fuel a : Nat} (h : StringAt mem a s) (hfuel : s.length < fuel) :
    strdup mem fuel a = some s := by
  induction s generalizing a fuel with
  | nil =>
    cases fuel with
    | zero => cases hfuel
    | succ fuel => exact if_pos h.head
  | cons c s ih =>
    cases fuel with
    | zero => cases hfuel
    | succ fuel =>
      obtain ⟨hc, hne, htail⟩ := h.tail
      rw [strdup, if_neg (hc ▸ hne), ih htail (Nat.lt_of_succ_lt_succ hfuel), hc]
      rfl

theorem countEntries_eq {fuel : Nat} (h : ArrayAt mem array strs) (hi : i ≤ strs.length)
    (hfuel : strs.length - i < fuel) : countEntries mem array fuel i = some (strs.length + 1) := by
  induction fuel generalizing i with
  | zero => cases hfuel
  | succ fuel ih =>
    obtain rfl | hlt := Nat.eq_or_lt_of_le hi
    · exact if_pos h.ends
    · have hentry := (h.entry (List.getElem?_eq_getElem hlt)).1
      rw [countEntries, if_neg hentry, ih hlt (by omega)]

theorem copyStrings_eq {fuel : Nat} (h : ArrayAt mem array strs) (hi : i ≤ strs.length)
    (hfuel : strs.length - i < fuel) (hshort : ∀ s ∈ strs, s.length < 2 ^ 32) :
    copyStrings mem array fuel i = some (strs.drop i) := by
  induction fuel generalizing i with
  | zero => cases hfuel
  | succ fuel ih =>
    obtain rfl | hlt := Nat.eq_or_lt_of_le hi
    · rw [copyStrings, if_pos h.ends, List.drop_length]
    · obtain ⟨hne, hstring⟩ := h.entry (List.getElem?_eq_getElem hlt)
      have hdup := strdup_eq hstring (hshort _ (List.getElem_mem hlt))
      rw [copyStrings, if_neg hne, hdup, ih hlt (by omega), List.drop_eq_getElem_cons hlt]
      rfl

theorem stringRoom_pos : s.length + 1 ≤ stringRoom s := by
  unfold stringRoom
  omega

theorem le_stringsRoom (h : s ∈ strs) : stringRoom s ≤ stringsRoom strs :=
  List.le_sum_of_mem (List.mem_map_of_mem h)

theorem saveStrings_eq (h : StringsAt mem array argv) (hroom : arrayRoom argv < 2 ^ 32) :
    saveStrings mem array = some (argv, argv.elim 0 fun strs => strs.length + 1) := by
  cases argv with
  | none => exact if_pos h
  | some strs =>
    have harray : ArrayAt mem array strs := h
    have hroom : 4 * (strs.length + 2) + stringsRoom strs < 2 ^ 32 := hroom
    have hshort : ∀ s ∈ strs, s.length < 2 ^ 32 := by
      intro s hs
      have h1 := le_stringsRoom hs
      have h2 := @stringRoom_pos s
      omega
    rw [saveStrings, if_neg harray.ne_zero, countEntries_eq harray (Nat.zero_le _) (by omega),
      copyStrings_eq harray (Nat.zero_le _) (by omega) hshort]
    rfl

-- ---------------------------------------------------------------------------
-- Restoring
-- ---------------------------------------------------------------------------

theorem back_eq (hn : 4 * n ≤ pos) (hpos : pos < 2 ^ 32) : back pos n = pos - 4 * n := by
  unfold back wrap
  omega

theorem back_string (hroom : stringRoom s ≤ pos) (hpos : pos < 2 ^ 32) :
    back (back pos (s.length / 4)) 2 = pos - stringRoom s := by
  unfold stringRoom at *
  rw [back_eq (by omega) hpos, back_eq (by omega) (by omega)]
  omega

theorem mem_entryRegions {j : Nat} (h : strs[j]? = some s) :
    entryRegion mem array (s, i + j) ∈ entryRegions mem array i strs :=
  List.mem_map_of_mem (List.mk_add_mem_zipIdx_iff_getElem?.mpr h)

structure Placed (array i : Nat) (strs : List CString) (pos : Nat) (mem mem' : Memory) : Prop where
  low : Agree 0 (pos - stringsRoom strs) mem mem'
  between : Agree pos (array + 4 * i) mem mem'
  high : ∀ hi, Agree (array + 4 * (i + strs.length)) hi mem mem'
  entry : ∀ {j s}, strs[j]? = some s → word mem' (array + 4 * (i + j)) ≠ 0 ∧
    StringAt mem' (word mem' (array + 4 * (i + j))) s
  within : ∀ r ∈ entryRegions mem' array i strs, r.Within (pos - stringsRoom strs) pos
  apart : (entryRegions mem' array i strs).Pairwise Region.Apart

theorem placeStrings_spec (hroom : stringsRoom strs < pos) (hpos : pos ≤ array) (harray : array < 2 ^ 32)
    (hclear : ∀ s ∈ strs, 0 ∉ s) : ∃ mem', placeStrings array i strs pos mem =
      (pos - stringsRoom strs, mem') ∧ Placed array i strs pos mem mem' := by
  induction strs generalizing i pos mem with
  | nil =>
    refine ⟨mem, rfl, .refl, .refl, fun _ => .refl, ?_, ?_, List.Pairwise.nil⟩
    · intro j s hj
      simp at hj
    · intro r hr
      cases hr
  | cons s strs ih =>
    have hsum : stringsRoom (s :: strs) = stringRoom s + stringsRoom strs := rfl
    have hlen := @stringRoom_pos s
    rw [hsum] at hroom
    obtain ⟨mem', hok, hplaced⟩ := @ih
      (setWord (fill mem (pos - stringRoom s) (s ++ [0])) (array + 4 * i) (pos - stringRoom s))
      (pos - stringRoom s) (i + 1) (by omega) (by omega) fun x hx => hclear x (List.mem_cons_of_mem _ hx)
    have hsize : (s ++ [0]).length = s.length + 1 := by rw [List.length_append, List.length_singleton]
    -- the entry and the string of this turn
    have hword : word mem' (array + 4 * i) = pos - stringRoom s := by
      rw [word_congr (hplaced.between.mono (by omega) (by omega)), word_setWord (by omega)]
    have hstring : StringAt mem' (pos - stringRoom s) s := by
      have hfirst := @stringAt_fill mem (pos - stringRoom s) s (hclear s List.mem_cons_self)
      exact (hfirst.congr (setWord_below (by omega))).congr (hplaced.between.mono le_rfl (by omega))
    have hregions : entryRegions mem' array i (s :: strs) =
        ⟨pos - stringRoom s, s.length + 1⟩ :: entryRegions mem' array (i + 1) strs := by
      rw [entryRegions, List.zipIdx_cons, List.map_cons, entryRegion, hword]
      rfl
    have hend : (⟨pos - stringRoom s, s.length + 1⟩ : Region).stop ≤ pos := by
      change pos - stringRoom s + (s.length + 1) ≤ pos
      omega
    refine ⟨mem', ?_, ?_, ?_, ?_, ?_, ?_, ?_⟩
    · rw [placeStrings, back_string (by omega) (by omega)]
      rw [hok, hsum, Nat.sub_sub]
    · rw [hsum, ← Nat.sub_sub]
      exact ((fill_below (by omega)).trans (setWord_below (by omega))).trans hplaced.low
    · exact ((fill_above (by omega)).trans (setWord_below (by omega))).trans
        (hplaced.between.mono (by omega) (by omega))
    · intro hi
      refine ((fill_above (by rw [List.length_cons]; omega)).trans (setWord_above ?_)).trans
        ((hplaced.high hi).mono ?_ le_rfl)
      · rw [List.length_cons]
        omega
      · rw [List.length_cons]
        omega
    · intro j t hj
      cases j with
      | zero =>
        obtain rfl : s = t := Option.some.inj hj
        rw [Nat.add_zero, hword]
        exact ⟨by omega, hstring⟩
      | succ j =>
        have hrest := hplaced.entry (j := j) (s := t) hj
        rwa [Nat.add_right_comm, Nat.add_assoc] at hrest
    · intro r hr
      rw [hregions, List.mem_cons] at hr
      obtain rfl | hr := hr
      · refine ⟨?_, hend⟩
        change pos - stringsRoom (s :: strs) ≤ pos - stringRoom s
        omega
      · exact (hplaced.within r hr).mono (by omega) (by omega)
    · rw [hregions]
      refine List.pairwise_cons.mpr ⟨fun r hr => ?_, hplaced.apart⟩
      exact .inr (hplaced.within r hr).2

structure Restored (temp : Option (List CString)) (pos ptr : Nat) (mem mem' : Memory) : Prop where
  low : Agree 0 (pos - arrayRoom temp) mem mem'
  high : ∀ hi, Agree pos hi mem mem'
  strings : StringsAt mem' ptr temp
  within : ∀ r ∈ stringRegions mem' ptr temp, r.Within (pos - arrayRoom temp) pos
  apart : (stringRegions mem' ptr temp).Pairwise Region.Apart

theorem restoreStrings_spec {temp : Option (List CString)} (hroom : arrayRoom temp < pos)
    (hpos : pos < 2 ^ 32) (hclear : ∀ strs, temp = some strs → ∀ s ∈ strs, 0 ∉ s) :
    ∃ ptr mem', restoreStrings temp (temp.elim 0 fun strs => strs.length + 1) pos mem =
      (ptr, pos - arrayRoom temp, mem') ∧ ptr < 2 ^ 32 ∧ Restored temp pos ptr mem mem' := by
  cases temp with
  | none =>
    refine ⟨0, mem, rfl, by decide, .refl, fun _ => .refl, rfl, ?_, List.Pairwise.nil⟩
    intro r hr
    cases hr
  | some strs =>
    have hsum : arrayRoom (some strs) = 4 * (strs.length + 2) + stringsRoom strs := rfl
    rw [hsum] at hroom
    have harray : back (back pos (wrap ((strs.length + 1) * 4) / 4)) 1 = pos - 4 * (strs.length + 2) := by
      have hn : wrap ((strs.length + 1) * 4) / 4 = strs.length + 1 := by
        unfold wrap
        omega
      rw [hn, back_eq (by omega) hpos, back_eq (by omega) (by omega)]
      omega
    obtain ⟨mem₁, hok, hplaced⟩ := @placeStrings_spec mem (pos - 4 * (strs.length + 2))
      (pos - 4 * (strs.length + 2)) 0 strs (by omega) le_rfl (by omega) (hclear strs rfl)
    generalize hptr : pos - 4 * (strs.length + 2) = ptr at *
    have hhigh := hplaced.high
    rw [Nat.zero_add] at hhigh
    -- the null pointer goes behind the entries and the strings
    have hsame : Agree 0 (ptr + 4 * strs.length) mem₁ (setWord mem₁ (ptr + 4 * strs.length) 0) :=
      setWord_below le_rfl
    have hentry : ∀ {j}, j < strs.length → word (setWord mem₁ (ptr + 4 * strs.length) 0) (ptr + 4 * j) =
        word mem₁ (ptr + 4 * j) := fun hj => word_congr (hsame.mono (Nat.zero_le _) (by omega))
    have hregions : stringRegions (setWord mem₁ (ptr + 4 * strs.length) 0) ptr (some strs) =
        ⟨ptr, 4 * (strs.length + 1)⟩ :: entryRegions mem₁ ptr 0 strs := by
      refine congrArg (List.cons _) (List.map_congr_left fun e he => ?_)
      have hj : e.2 < strs.length := by simpa using List.snd_lt_of_mem_zipIdx he
      rw [entryRegion, entryRegion, hentry hj]
    refine ⟨ptr, setWord mem₁ (ptr + 4 * strs.length) 0, ?_, by omega, ?_, ?_, ?_, ?_, ?_⟩
    · have hend : ptr - stringsRoom strs = pos - arrayRoom (some strs) := by omega
      simp only [restoreStrings, Option.elim_some, harray, hok, Nat.add_sub_cancel, hend]
    · rw [hsum, ← Nat.sub_sub, hptr]
      exact hplaced.low.trans (hsame.mono le_rfl (by omega))
    · exact fun hi => ((hhigh hi).mono (by omega) le_rfl).trans (setWord_above (by omega))
    · refine ⟨by omega, fun {j s} hj => ?_, word_setWord (by decide)⟩
      obtain ⟨hne, hstring⟩ := hplaced.entry hj
      have hin := (hplaced.within _ (mem_entryRegions hj)).2
      change word mem₁ (ptr + 4 * (0 + j)) + (s.length + 1) ≤ ptr at hin
      rw [Nat.zero_add] at hne hstring hin
      obtain ⟨hlt, -⟩ := List.getElem?_eq_some_iff.mp hj
      rw [hentry hlt]
      exact ⟨hne, hstring.congr (hsame.mono (Nat.zero_le _) (by omega))⟩
    · intro r hr
      rw [hregions, List.mem_cons] at hr
      obtain rfl | hr := hr
      · change pos - arrayRoom (some strs) ≤ ptr ∧ ptr + 4 * (strs.length + 1) ≤ pos
        omega
      · exact (hplaced.within r hr).mono (by omega) (by omega)
    · rw [hregions]
      exact List.pairwise_cons.mpr ⟨fun r hr => .inr (hplaced.within r hr).2, hplaced.apart⟩

theorem StringsAt.congr {temp : Option (List CString)} {ptr lo hi : Nat} (h : StringsAt mem ptr temp)
    (hwithin : ∀ r ∈ stringRegions mem ptr temp, r.Within lo hi) (hsame : Agree lo hi mem mem') :
    StringsAt mem' ptr temp ∧ stringRegions mem' ptr temp = stringRegions mem ptr temp := by
  cases temp with
  | none => exact ⟨h, rfl⟩
  | some strs =>
    obtain ⟨hne, hentries, hends⟩ : ArrayAt mem ptr strs := h
    obtain ⟨hlo, hhi⟩ := hwithin _ List.mem_cons_self
    change lo ≤ ptr at hlo
    change ptr + 4 * (strs.length + 1) ≤ hi at hhi
    have hword : ∀ {j}, j ≤ strs.length → word mem' (ptr + 4 * j) = word mem (ptr + 4 * j) := fun hj =>
      word_congr (hsame.mono (by omega) (by omega))
    refine ⟨⟨hne, fun {j s} hj => ?_, (hword le_rfl).trans hends⟩, ?_⟩
    · obtain ⟨hlt, -⟩ := List.getElem?_eq_some_iff.mp hj
      obtain ⟨hne, hstring⟩ := hentries hj
      have hmem := @mem_entryRegions mem ptr 0 s strs j hj
      rw [Nat.zero_add] at hmem
      have hin := hwithin _ (List.mem_cons_of_mem _ hmem)
      rw [hword hlt.le]
      exact ⟨hne, hstring.congr (hsame.mono hin.1 hin.2)⟩
    · refine congrArg (List.cons _) (List.map_congr_left fun e he => ?_)
      have hj : e.2 < strs.length := by simpa using List.snd_lt_of_mem_zipIdx he
      rw [entryRegion, entryRegion, hword hj.le]

theorem StringsAt.clear {temp : Option (List CString)} {ptr : Nat} (h : StringsAt mem ptr temp) :
    ∀ strs, temp = some strs → ∀ s ∈ strs, 0 ∉ s := by
  rintro strs rfl s hs
  obtain ⟨j, hlt, rfl⟩ := List.getElem_of_mem hs
  have harray : ArrayAt mem ptr strs := h
  exact (harray.entry (List.getElem?_eq_getElem hlt)).2.clear

-- ---------------------------------------------------------------------------
-- The block
-- ---------------------------------------------------------------------------

theorem setWords {a b c : Nat} (ha : a < 2 ^ 32) (hb : b < 2 ^ 32) (hc : c < 2 ^ 32) :
    word (setWord (setWord (setWord mem pos a) (pos + 4) b) (pos + 8) c) pos = a ∧
    word (setWord (setWord (setWord mem pos a) (pos + 4) b) (pos + 8) c) (pos + 4) = b ∧
    word (setWord (setWord (setWord mem pos a) (pos + 4) b) (pos + 8) c) (pos + 8) = c := by
  refine ⟨?_, ?_, word_setWord hc⟩
  · rw [word_congr (setWord_below (by omega)), word_congr (setWord_below (by omega)), word_setWord ha]
  · rw [word_congr (setWord_below (by omega)), word_setWord hb]

theorem argumentBlock_spec {argvPtr envPtr : Nat} (hargv : StringsAt mem argvPtr argv)
    (henv : StringsAt mem envPtr env) (hroom : blockRoom argv env < stackTop) :
    ∃ pos mem', argumentBlock mem argvPtr envPtr image = some (pos, mem') ∧ pos ≠ 0 ∧
      word mem' pos = wrap ((argv.elim 0 fun strs => strs.length + 1) + (2 ^ 32 - 1)) ∧
      StringsAt mem' (word mem' (pos + 4)) argv ∧ StringsAt mem' (word mem' (pos + 8)) env ∧
      (⟨pos, 12⟩ :: (stringRegions mem' (word mem' (pos + 4)) argv ++
        stringRegions mem' (word mem' (pos + 8)) env)).Pairwise Region.Apart ∧
      ∀ r ∈ ⟨pos, 12⟩ :: (stringRegions mem' (word mem' (pos + 4)) argv ++
        stringRegions mem' (word mem' (pos + 8)) env), r.stop ≤ stackTop := by
  have htop : stackTop = 0xBFFFF000 := rfl
  unfold blockRoom at hroom
  obtain ⟨envAt, mem₁, hok₁, hlt₁, h₁⟩ := @restoreStrings_spec image stackTop env (by omega) (by decide) henv.clear
  obtain ⟨argvAt, mem₂, hok₂, hlt₂, h₂⟩ :=
    @restoreStrings_spec mem₁ (stackTop - arrayRoom env) argv (by omega) (by omega) hargv.clear
  have hin₁ := h₁.within
  have hin₂ := h₂.within
  generalize hp₁ : stackTop - arrayRoom env = p₁ at *
  generalize hp₂ : p₁ - arrayRoom argv = p₂ at *
  have hback : back p₂ 3 = p₂ - 12 := back_eq (by omega) (by omega)
  have hargc : wrap ((argv.elim 0 fun strs => strs.length + 1) + (2 ^ 32 - 1)) < 2 ^ 32 :=
    Nat.mod_lt _ (by decide)
  obtain ⟨hw₀, hw₁, hw₂⟩ := @setWords mem₂ (p₂ - 12) _ _ _ hargc hlt₂ hlt₁
  -- the three words are below the arrays and strings
  have hhead : ∀ hi, Agree p₂ hi mem₂ (setWord (setWord (setWord mem₂ (p₂ - 12)
      (wrap ((argv.elim 0 fun strs => strs.length + 1) + (2 ^ 32 - 1)))) (p₂ - 12 + 4) argvAt)
      (p₂ - 12 + 8) envAt) := fun hi =>
    ((setWord_above (by omega)).trans (setWord_above (by omega))).trans (setWord_above (by omega))
  generalize hmem' : setWord (setWord (setWord mem₂ (p₂ - 12)
      (wrap ((argv.elim 0 fun strs => strs.length + 1) + (2 ^ 32 - 1)))) (p₂ - 12 + 4) argvAt)
      (p₂ - 12 + 8) envAt = mem' at *
  obtain ⟨hargs, hargRegions⟩ := h₂.strings.congr hin₂ (hhead p₁)
  obtain ⟨henvs, henvRegions⟩ := h₁.strings.congr hin₁
    ((h₂.high stackTop).trans ((hhead stackTop).mono (by omega) le_rfl))
  refine ⟨p₂ - 12, mem', ?_, by omega, hw₀, ?_, ?_, ?_, ?_⟩
  · rw [argumentBlock, saveStrings_eq henv (by omega), saveStrings_eq hargv (by omega)]
    simp only [Option.bind_eq_bind, Option.bind_some, hok₁, hok₂, hback, hmem']
    rfl
  · rwa [hw₁]
  · rwa [hw₂]
  · rw [hw₁, hw₂, hargRegions, henvRegions]
    refine List.pairwise_cons.mpr ⟨fun r hr => ?_, List.pairwise_append.mpr ⟨h₂.apart, h₁.apart, ?_⟩⟩
    · refine .inl ?_
      change p₂ - 12 + 12 ≤ r.start
      obtain hr | hr := List.mem_append.mp hr
      · have hin := (hin₂ r hr).1
        omega
      · have hin := (hin₁ r hr).1
        omega
    · exact fun r hr r' hr' => .inl ((hin₂ r hr).2.trans (hin₁ r' hr').1)
  · rw [hw₁, hw₂, hargRegions, henvRegions]
    intro r hr
    obtain rfl | hr := List.mem_cons.mp hr
    · change p₂ - 12 + 12 ≤ stackTop
      omega
    · obtain hr | hr := List.mem_append.mp hr
      · have hin := (hin₂ r hr).2
        omega
      · exact (hin₁ r hr).2

/-- The block decodes as the strings `execve` was called with if and only if there is an
array of arguments. -/
theorem argumentBlock_decodes {argvPtr envPtr : Nat} (hargv : StringsAt mem argvPtr argv)
    (henv : StringsAt mem envPtr env) (hroom : blockRoom argv env < stackTop) :
    (∃ pos mem', argumentBlock mem argvPtr envPtr image = some (pos, mem') ∧ Decodes mem' pos argv env) ↔
      argv ≠ none := by
  obtain ⟨pos, mem', hok, hne, hargc, hargs, henvs, hapart, hbelow⟩ :=
    @argumentBlock_spec mem image argv env argvPtr envPtr hargv henv hroom
  have hinit : ∀ ownEnv, initArgs ownEnv mem' pos = ⟨if word mem' pos < 2 ^ 31 then word mem' pos
      else word mem' pos - 2 ^ 32, word mem' (pos + 4), word mem' (pos + 8)⟩ := fun _ => if_pos hne
  constructor
  · rintro ⟨pos', mem'', hok', hdecodes⟩ rfl
    obtain ⟨rfl, rfl⟩ := Prod.mk.inj (Option.some.inj (hok.symm.trans hok'))
    have hzero := hdecodes.argc 0
    rw [hinit, hargc] at hzero
    exact absurd (show (-1 : Int) = 0 from hzero) (by decide)
  · intro hsome
    obtain ⟨strs, rfl⟩ := Option.ne_none_iff_exists'.mp hsome
    have hlt : strs.length < 2 ^ 30 := by
      have hsum : arrayRoom (some strs) = 4 * (strs.length + 2) + stringsRoom strs := rfl
      have htop : stackTop = 0xBFFFF000 := rfl
      unfold blockRoom at hroom
      omega
    have hcount : word mem' pos = strs.length := by
      rw [hargc]
      change (strs.length + 1 + (2 ^ 32 - 1)) % 2 ^ 32 = strs.length
      omega
    refine ⟨pos, mem', hok, fun ownEnv => ?_, fun ownEnv => ?_, fun ownEnv => ?_, hapart, hbelow⟩
    · rw [hinit, hcount, if_pos (by omega)]
      rfl
    · rwa [hinit]
    · rwa [hinit]

end

def oneArgument : Memory := fill (setWord (fun _ => 0) 0x1000 0x2000) 0x2000 [108, 115, 0]

def someArguments : Memory :=
  fill (fill (fun _ => 0) 0x1000 ([0x2000, 0x2003, 0, 0x2006, 0x200A, 0x200B, 0].flatMap wordBytes))
    0x2000 [108, 115, 0, 45, 108, 0, 65, 61, 98, 0, 0, 80, 61, 47, 0]

theorem argumentBlock_decodes_someArguments : ∃ pos mem',
    argumentBlock someArguments 0x1000 0x100C (fun _ => 255) = some (pos, mem') ∧
      Decodes mem' pos (some [[108, 115], [45, 108]]) (some [[65, 61, 98], [], [80, 61, 47]]) := by
  have hargv : StringsAt someArguments 0x1000 (some [[108, 115], [45, 108]]) := by decide +kernel
  have henv : StringsAt someArguments 0x100C (some [[65, 61, 98], [], [80, 61, 47]]) := by decide +kernel
  exact (argumentBlock_decodes hargv henv (by decide +kernel)).mpr nofun

/-- Without arguments the count is that of no strings and no null pointer. -/
theorem argumentBlock_noArguments : StringsAt oneArgument 0 none ∧ blockRoom none none < stackTop ∧
    ¬∃ pos mem', argumentBlock oneArgument 0 0 (fun _ => 255) = some (pos, mem') ∧
      Decodes mem' pos none none := by
  refine ⟨rfl, by decide, ?_⟩
  rintro ⟨pos, mem', hok, hdecodes⟩
  obtain ⟨pos', mem'', hok', hne, hargc, -⟩ :=
    @argumentBlock_spec oneArgument (fun _ => 255) none none 0 0 rfl rfl (by decide)
  obtain ⟨rfl, rfl⟩ := Prod.mk.inj (Option.some.inj (hok.symm.trans hok'))
  have hzero := hdecodes.argc 0
  rw [initArgs, if_pos hne, hargc] at hzero
  exact absurd (show (-1 : Int) = 0 from hzero) (by decide)

end Os5
