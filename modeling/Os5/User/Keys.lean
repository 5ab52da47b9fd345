import Os5.User.Terminal

/-!
# Keys

The program `terminal` reads scan codes. `main` decodes them, shows each character on the active
terminal and writes it to the program that runs there; together with control some keys change to
another terminal or interrupt that program. One thread for each terminal shows what its program
prints; a character is handled in one piece here, as in `terminal_putch`.
-/

namespace Os5

open Transition

def scancodeCtrl : UInt8 := 0x1D
def scancodeLshift : UInt8 := 0x2A
def scancodeRshift : UInt8 := 0x36
def scancodeAlt : UInt8 := 0x38
def scancodeCapslock : UInt8 := 0x3A

structure KeyState where
  shift : Bool
  ctrl : Bool
  alt : Bool
  multi : Bool
  deriving DecidableEq

def chars (s : String) : List Int := s.toList.map fun c => (c.toNat : Int)

/-- The 90 entries that are given; the others are zero. -/
def kbdMap : List Int :=
  [-1, 27] ++ chars "1234567890-=" ++ [8, 9] ++ chars "qwertyuiop[]" ++ [10, 0] ++ chars "asdfghjkl;'`" ++ [0] ++
    chars "\\zxcvbnm,./" ++ [0] ++ chars "*0 " ++ List.replicate 13 0 ++ chars "789-456+1230." ++ [-1, -1, -1, 0, 0, -1]

def kbdMapS : List Int :=
  [-1, 27] ++ chars "!@#$%^&*()_+" ++ [8, 9] ++ chars "QWERTYUIOP\x7b\x7d" ++ [10, 0] ++ chars "ASDFGHJKL:\"~" ++ [0] ++
    chars "|ZXCVBNM<>?" ++ [0] ++ chars "*0 " ++ List.replicate 13 0 ++ chars "789-456+1230." ++ [-1, -1, -1, 0, 0, -1]

def KeyState.keyboardInit : KeyState := ⟨false, false, false, false⟩

def ctrlKeys : List UInt8 := [scancodeCapslock, scancodeCtrl]
def altKeys : List UInt8 := [scancodeAlt]
def shiftKeys : List UInt8 := [scancodeLshift, scancodeRshift]

/-- The two `switch`es: a key that goes up clears what it sets when it goes down. -/
def KeyState.press (k : KeyState) (key : UInt8) (down : Bool) : KeyState :=
  if key ∈ ctrlKeys then { k with ctrl := down }
  else if key ∈ altKeys then { k with alt := down }
  else if key ∈ shiftKeys then { k with shift := down }
  else k

/-- The default of the second `switch`. -/
def character (shift : Bool) (scancode : UInt8) : UInt8 :=
  if kbdMap.getD scancode.toNat 0 = -1 then 0
  else if shift then UInt8.ofInt (kbdMapS.getD scancode.toNat 0)
  else UInt8.ofInt (kbdMap.getD scancode.toNat 0)

def modifiers : List UInt8 := ctrlKeys ++ altKeys ++ shiftKeys

def isUp (scancode : UInt8) : Bool := scancode &&& 0x80 ≠ 0

def retval (shift : Bool) (scancode : UInt8) : UInt8 :=
  if isUp scancode ∨ scancode ∈ modifiers then 0 else character shift scancode

def keyboardDecode (k : KeyState) (scancode : UInt8) : KeyState × UInt8 :=
  ({ k.press (scancode &&& 0x7F) (!isUp scancode) with multi := scancode = 0xE0 }, retval k.shift scancode)

/-- What `main` uses of a `struct terminal`. -/
structure Vterm where
  screen : Terminal
  pid : Nat

inductive TerminalCall where
  /-- `terminal_init` makes the pipes and starts a thread and the program. -/
  | start (num : Nat)
  | kill (pid sig : Nat)
  /-- One byte to `vterm[num]->read_fd[1]`. -/
  | write (num : Nat) (c : UInt8)
  deriving DecidableEq

/-- The program's globals, the cursor of the screen, and the calls made, in their order. -/
structure Vterms where
  keys : KeyState
  /-- All terminals share one parser. -/
  ansi : Ansi
  vterm : Nat → Option Vterm
  active : Nat
  vidmem : List Nat
  cursor : Nat
  calls : List TerminalCall

inductive Crash where
  | overrun (o : Overrun)
  | noTerminal
  deriving DecidableEq

/-- Two bytes for the cursor, of the second only four bits. -/
def cursorRegisters (t : Terminal) : Nat := ((t.csrRow * 80 + t.csrCol) % 2 ^ 12).toNat

def Vterms.copybuffer (s : Vterms) (num : Nat) : Vterms :=
  match s.vterm num with
  | some v => { s with
      vidmem := v.screen.buffer ++ s.vidmem.drop v.screen.buffer.length
      cursor := cursorRegisters v.screen }
  | none => s

def Vterms.putch (s : Vterms) (num : Nat) (c : UInt8) : Except Crash Vterms :=
  match s.vterm num with
  | some v =>
    match terminalPutch ⟨s.ansi, v.screen⟩ c with
    | .ok t => .ok { s with
        ansi := t.ansi
        vterm := Function.update s.vterm num (some { v with screen := t.screen }) }
    | .error o => .error (.overrun o)
  | none => .ok s

def Vterms.terminalInit (fork : Nat → Nat) (s : Vterms) (num : Nat) : Vterms :=
  { s with
    vterm := Function.update s.vterm num (some ⟨newTerminal 25 80, fork num⟩)
    calls := s.calls ++ [.start num] }

/-- `fork` is what the call of `fork` for each terminal returns. -/
def Vterms.switchVterm (fork : Nat → Nat) (s : Vterms) (num : Int) : Vterms :=
  if num < 0 ∨ num > 4 then s
  else
    let s := if (s.vterm num.toNat).isNone then s.terminalInit fork num.toNat else s
    { s with active := num.toNat }.copybuffer num.toNat

/-- `kill(vterm[active_vterm]->pid, 2)`. -/
def Vterms.interrupt (s : Vterms) : Except Crash Vterms :=
  match s.vterm s.active with
  | some v => .ok { s with calls := s.calls ++ [.kill v.pid 2] }
  | none => .error .noTerminal

/-- `write(vterm[active_vterm]->read_fd[1], &d, 1)`. -/
def Vterms.write (s : Vterms) (d : UInt8) : Except Crash Vterms :=
  match s.vterm s.active with
  | some _ => .ok { s with calls := s.calls ++ [.write s.active d] }
  | none => .error .noTerminal

def Vterms.send (s : Vterms) (d : UInt8) : Except Crash Vterms := do
  let s ← s.putch s.active d
  (s.copybuffer s.active).write d

/-- One round of the loop of `main`. -/
def Vterms.key (fork : Nat → Nat) (s : Vterms) (c : UInt8) : Except Crash Vterms :=
  let (keys, d) := keyboardDecode s.keys c
  let s := { s with keys := keys }
  if keys.ctrl ∧ '1'.toUInt8 ≤ d ∧ d ≤ '4'.toUInt8 then .ok (s.switchVterm fork (d.toNat - '1'.toUInt8.toNat : Int))
  else if keys.ctrl ∧ d = 'c'.toUInt8 then s.interrupt
  else if d ≠ 0 then s.send d
  else .ok s

/-- One round of the loop of `terminal_output_handler`. -/
def Vterms.output (s : Vterms) (a : Nat) (c : UInt8) : Except Crash Vterms := do
  let s ← s.putch a c
  .ok (if s.active = a then s.copybuffer a else s)

inductive TerminalAct where
  | key (c : UInt8)
  | output (a : Nat) (c : UInt8)

def Vterms.step (fork : Nat → Nat) (s : Vterms) : TerminalAct → Option Vterms
  | .key c => (s.key fork c).toOption
  | .output a c => if (s.vterm a).isSome then (s.output a c).toOption else none

/-- What `main` does before its loop, over what the memory of the screen holds. -/
def Vterms.start (fork : Nat → Nat) (vidmem : List Nat) (cursor : Nat) : Vterms :=
  Vterms.switchVterm fork ⟨KeyState.keyboardInit, ansiStart, fun _ => none, 0, vidmem, cursor, []⟩ 0

-- ---------------------------------------------------------------------------
-- What the keys mean, from the keys alone

/-- Of these keys the last one that moved went down. -/
def held (keys codes : List UInt8) : Bool :=
  ((codes.filter fun c => c &&& 0x7F ∈ keys).getLast?.map fun c => !isUp c).getD false

inductive Meaning where
  | switch (num : Nat)
  | interrupt
  | char (d : UInt8)
  deriving DecidableEq

def meaningOf (ctrl : Bool) (d : UInt8) : Option Meaning :=
  if ctrl ∧ '1'.toUInt8 ≤ d ∧ d ≤ '4'.toUInt8 then some (.switch (d.toNat - '1'.toUInt8.toNat))
  else if ctrl ∧ d = 'c'.toUInt8 then some .interrupt
  else if d ≠ 0 then some (.char d)
  else none

def meaning (before : List UInt8) (c : UInt8) : Option Meaning :=
  meaningOf (held ctrlKeys before) (retval (held shiftKeys before) c)

def meanings (before : List UInt8) : List UInt8 → List Meaning
  | [] => []
  | c :: codes => (meaning before c).toList ++ meanings (before ++ [c]) codes

def Meaning.num? : Meaning → Option Nat
  | .switch num => some num
  | _ => none

/-- The terminal that was switched to last, the first one before that. -/
def chosen (ms : List Meaning) : Nat := (ms.filterMap Meaning.num?).getLast?.getD 0

def Opened (ms : List Meaning) (num : Nat) : Prop := num = 0 ∨ .switch num ∈ ms

instance (ms : List Meaning) (num : Nat) : Decidable (Opened ms num) := inferInstanceAs (Decidable (_ ∨ _))

/-- The calls for one key: a program is started in a terminal when it is first switched to. -/
def callsFor (fork : Nat → Nat) (before : List Meaning) : Meaning → List TerminalCall
  | .switch num => if Opened before num then [] else [.start num]
  | .interrupt => [.kill (fork (chosen before)) 2]
  | .char d => [.write (chosen before) d]

def callsAfter (fork : Nat → Nat) (before : List Meaning) : List Meaning → List TerminalCall
  | [] => []
  | m :: ms => callsFor fork before m ++ callsAfter fork (before ++ [m]) ms

def TerminalAct.code : TerminalAct → Option UInt8
  | .key c => some c
  | .output _ _ => none

def Vterms.Shown (s : Vterms) : Prop :=
  ∃ v, s.vterm s.active = some v ∧ s.vidmem.take v.screen.buffer.length = v.screen.buffer ∧ s.cursor = cursorRegisters v.screen

section
variable {fork : Nat → Nat} {s s' : Vterms} {keys codes before : List UInt8} {k : KeyState} {c d : UInt8} {ms : List Meaning}
  {m : Meaning} {n num a : Nat} {v : Vterm} {e : Crash}

theorem held_append : held keys (codes ++ [c]) = if c &&& 0x7F ∈ keys then !isUp c else held keys codes := by
  unfold held
  rw [List.filter_append]
  split
  · rename_i h
    rw [List.filter_cons_of_pos (by simpa using h), List.filter_nil, List.getLast?_concat]
    rfl
  · rename_i h
    rw [List.filter_cons_of_neg (by simpa using h), List.filter_nil, List.append_nil]

theorem chosen_append : chosen (ms ++ [m]) = (m.num?).getD (chosen ms) := by
  unfold chosen
  rw [List.filterMap_append]
  cases m with
  | switch num => simp [Meaning.num?]
  | interrupt | char => simp [Meaning.num?]

theorem meanings_append {more : List UInt8} :
    meanings before (codes ++ more) = meanings before codes ++ meanings (before ++ codes) more := by
  induction codes generalizing before with
  | nil => simp [meanings]
  | cons c codes ih =>
    rw [List.cons_append, meanings, meanings, ih, List.append_assoc, List.append_assoc]
    rfl

theorem callsAfter_append {before more : List Meaning} :
    callsAfter fork before (ms ++ more) = callsAfter fork before ms ++ callsAfter fork (before ++ ms) more := by
  induction ms generalizing before with
  | nil => simp [callsAfter]
  | cons m ms ih =>
    rw [List.cons_append, callsAfter, callsAfter, ih, List.append_assoc, List.append_assoc]
    rfl

theorem meaningOf_zero (ctrl : Bool) : meaningOf ctrl 0 = none := by cases ctrl <;> rfl

theorem meaningOf_switch_lt {ctrl : Bool} (h : meaningOf ctrl d = some (.switch num)) : num < 4 := by
  unfold meaningOf at h
  split_ifs at h with hd
  · have hle := UInt8.le_iff_toNat_le.mp hd.2.2
    rw [show ('4'.toUInt8).toNat = 52 from rfl] at hle
    rw [Option.some.injEq, Meaning.switch.injEq] at h
    rw [← h, show ('1'.toUInt8).toNat = 49 from rfl]
    omega
  all_goals cases h

theorem meanings_switch_lt (h : .switch num ∈ meanings before codes) : num < 4 := by
  induction codes generalizing before with
  | nil => cases h
  | cons c codes ih =>
    rw [meanings, List.mem_append] at h
    obtain h | h := h
    · exact meaningOf_switch_lt (Option.mem_toList.mp h)
    · exact ih h

-- ---------------------------------------------------------------------------
-- The modifiers

structure KeyState.Tracks (k : KeyState) (codes : List UInt8) : Prop where
  shift : k.shift = held shiftKeys codes
  ctrl : k.ctrl = held ctrlKeys codes
  alt : k.alt = held altKeys codes

theorem shiftKeys_alone (h : c ∈ shiftKeys) : c ∉ ctrlKeys ∧ c ∉ altKeys := by
  simp only [shiftKeys, List.mem_cons, List.not_mem_nil, or_false] at h
  obtain rfl | rfl := h <;> decide

theorem altKeys_alone (h : c ∈ altKeys) : c ∉ ctrlKeys := by
  simp only [altKeys, List.mem_cons, List.not_mem_nil, or_false] at h
  obtain rfl := h
  decide

theorem press_ctrl (down : Bool) : (k.press c down).ctrl = if c ∈ ctrlKeys then down else k.ctrl := by
  unfold KeyState.press
  split_ifs <;> rfl

theorem press_alt (down : Bool) : (k.press c down).alt = if c ∈ altKeys then down else k.alt := by
  unfold KeyState.press
  split_ifs with hctrl halt
  · exact absurd hctrl (altKeys_alone halt)
  all_goals rfl

theorem press_shift (down : Bool) : (k.press c down).shift = if c ∈ shiftKeys then down else k.shift := by
  unfold KeyState.press
  split_ifs with hctrl hshift halt hshift
  · exact absurd hctrl (shiftKeys_alone hshift).1
  · rfl
  · exact absurd halt (shiftKeys_alone hshift).2
  all_goals rfl

theorem KeyState.Tracks.decode (h : k.Tracks codes) : (keyboardDecode k c).1.Tracks (codes ++ [c]) := by
  refine ⟨?_, ?_, ?_⟩
  · rw [held_append, ← h.shift]
    exact press_shift _
  · rw [held_append, ← h.ctrl]
    exact press_ctrl _
  · rw [held_append, ← h.alt]
    exact press_alt _

theorem low_of_down (h : isUp c = false) : c &&& 0x7F = c := by
  have hall : ∀ n < 256, isUp (UInt8.ofNat n) = false → UInt8.ofNat n &&& 0x7F = UInt8.ofNat n := by decide +kernel
  have hc := hall c.toNat c.toNat_lt
  rw [UInt8.ofNat_toNat] at hc
  exact hc h

theorem KeyState.Tracks.ctrl_kept (h : k.Tracks codes) (hd : (keyboardDecode k c).2 ≠ 0) :
    (keyboardDecode k c).1.ctrl = held ctrlKeys codes := by
  have hplain : ¬(isUp c ∨ c ∈ modifiers) := fun hc => hd (if_pos hc)
  rw [not_or, Bool.not_eq_true] at hplain
  rw [h.decode.ctrl, held_append, low_of_down hplain.1, if_neg]
  exact fun hc => hplain.2 (List.mem_append_left _ (List.mem_append_left _ hc))

theorem KeyState.Tracks.meaning (h : k.Tracks codes) :
    meaningOf (keyboardDecode k c).1.ctrl (keyboardDecode k c).2 = meaning codes c := by
  have hretval : (keyboardDecode k c).2 = retval (held shiftKeys codes) c := by
    rw [← h.shift]
    rfl
  unfold Os5.meaning
  rw [← hretval]
  by_cases hd : (keyboardDecode k c).2 = 0
  · rw [hd, meaningOf_zero, meaningOf_zero]
  · rw [h.ctrl_kept hd]

-- ---------------------------------------------------------------------------
-- One key

structure Vterms.Ran (fork : Nat → Nat) (s : Vterms) (ms : List Meaning) : Prop where
  active : s.active = chosen ms
  opened : ∀ n, (s.vterm n).isSome ↔ Opened ms n
  pid : ∀ n v, s.vterm n = some v → v.pid = fork n
  calls : s.calls = .start 0 :: callsAfter fork [] ms
  shown : s.Shown

theorem copybuffer_some (hv : s.vterm n = some v) :
    s.copybuffer n = { s with
      vidmem := v.screen.buffer ++ s.vidmem.drop v.screen.buffer.length, cursor := cursorRegisters v.screen } := by
  unfold Vterms.copybuffer
  rw [hv]

theorem copybuffer_shown (hv : s.vterm s.active = some v) : (s.copybuffer s.active).Shown := by
  rw [copybuffer_some hv]
  exact ⟨v, hv, List.take_left, rfl⟩

theorem putch_some (hv : s.vterm n = some v) (h : s.putch n c = .ok s') :
    ∃ t, terminalPutch ⟨s.ansi, v.screen⟩ c = .ok t ∧
      s' = { s with ansi := t.ansi, vterm := Function.update s.vterm n (some ⟨t.screen, v.pid⟩) } := by
  unfold Vterms.putch at h
  rw [hv] at h
  dsimp only at h
  cases ht : terminalPutch ⟨s.ansi, v.screen⟩ c with
  | ok t =>
    rw [ht] at h
    exact ⟨t, rfl, (Except.ok.inj h).symm⟩
  | error o =>
    rw [ht] at h
    cases h

theorem putch_error (hv : s.vterm n = some v) (h : s.putch n c = .error e) :
    ∃ o, e = .overrun o ∧ terminalPutch ⟨s.ansi, v.screen⟩ c = .error o := by
  unfold Vterms.putch at h
  rw [hv] at h
  dsimp only at h
  cases ht : terminalPutch ⟨s.ansi, v.screen⟩ c with
  | ok t =>
    rw [ht] at h
    cases h
  | error o =>
    rw [ht] at h
    exact ⟨o, (Except.error.inj h).symm, rfl⟩

theorem Vterms.Ran.activeVterm (h : s.Ran fork ms) : ∃ v, s.vterm s.active = some v := by
  obtain ⟨v, hv, -⟩ := h.shown
  exact ⟨v, hv⟩

theorem Vterms.Ran.putch (h : s.Ran fork ms) (hv : s.vterm n = some v) (hput : s.putch n c = .ok s') :
    s'.active = s.active ∧ s'.keys = s.keys ∧ (∀ n, (s'.vterm n).isSome ↔ Opened ms n) ∧
      (∀ n v, s'.vterm n = some v → v.pid = fork n) ∧ s'.calls = s.calls ∧ (n ≠ s.active → s'.Shown) ∧
      ∃ v, s'.vterm s.active = some v := by
  obtain ⟨t, -, rfl⟩ := putch_some hv hput
  have hopened : ∀ m, (Function.update s.vterm n (some ⟨t.screen, v.pid⟩) m).isSome = (s.vterm m).isSome := by
    intro m
    by_cases hm : m = n
    · subst hm
      rw [Function.update_self, hv]
      rfl
    · rw [Function.update_of_ne hm]
  refine ⟨rfl, rfl, fun m => ?_, fun m w hw => ?_, rfl, fun hne => ?_, ?_⟩
  · rw [← h.opened m, hopened m]
  · by_cases hm : m = n
    · subst hm
      simp only [Function.update_self, Option.some.injEq] at hw
      rw [← hw]
      exact h.pid m v hv
    · simp only [Function.update_of_ne hm] at hw
      exact h.pid m w hw
  · obtain ⟨w, hw, hmem, hcursor⟩ := h.shown
    exact ⟨w, by simp only [Function.update_of_ne (Ne.symm hne), hw], hmem, hcursor⟩
  · obtain ⟨w, hw⟩ := h.activeVterm
    rw [← Option.isSome_iff_exists, hopened, hw]
    rfl

theorem Vterms.Ran.withKeys (h : s.Ran fork ms) (k : KeyState) : Vterms.Ran fork { s with keys := k } ms :=
  ⟨h.active, h.opened, h.pid, h.calls, h.shown⟩

theorem Vterms.Ran.callsFor (h : s.Ran fork ms) :
    s.calls ++ callsFor fork ms m = .start 0 :: callsAfter fork [] (ms ++ [m]) := by
  rw [h.calls, callsAfter_append, List.nil_append, callsAfter, callsAfter, List.append_nil]
  rfl

theorem opened_append (hm : m.num? = none) : Opened (ms ++ [m]) n ↔ Opened ms n := by
  cases m with
  | switch => cases hm
  | interrupt | char => simp [Opened]

theorem Vterms.Ran.interrupt (h : s.Ran fork ms) : ∃ s', s.interrupt = .ok s' ∧ s'.keys = s.keys ∧ s'.Ran fork (ms ++ [.interrupt]) := by
  obtain ⟨v, hv⟩ := h.activeVterm
  refine ⟨{ s with calls := s.calls ++ [.kill v.pid 2] }, ?_, rfl, ?_, ?_, h.pid, ?_, h.shown⟩
  · unfold Vterms.interrupt
    rw [hv]
  · rw [chosen_append]
    exact h.active
  · intro n
    rw [opened_append rfl]
    exact h.opened n
  · rw [← h.callsFor, Os5.callsFor, ← h.active, h.pid _ v hv]

theorem Vterms.Ran.send (h : s.Ran fork ms) (hsend : s.send d = .ok s') :
    s'.keys = s.keys ∧ s'.Ran fork (ms ++ [.char d]) := by
  obtain ⟨v, hv⟩ := h.activeVterm
  obtain ⟨s1, hput, hwrite⟩ := Outcome.bind_ok.mp hsend
  obtain ⟨hactive, hkeys, hopened, hpid, hcalls, -, w, hw⟩ := h.putch hv hput
  rw [← hactive] at hw
  have hshown := copybuffer_shown hw
  unfold Vterms.write at hwrite
  rw [copybuffer_some hw] at hwrite hshown
  dsimp only at hwrite
  rw [hw] at hwrite
  rw [← Except.ok.inj hwrite]
  refine ⟨hkeys, ?_, ?_, hpid, ?_, hshown⟩
  · rw [chosen_append]
    exact hactive.trans h.active
  · intro n
    rw [opened_append rfl]
    exact hopened n
  · dsimp only
    rw [← h.callsFor, Os5.callsFor, hcalls, hactive, h.active]

theorem Vterms.Ran.send_error (h : s.Ran fork ms) (hv : s.vterm s.active = some v) (hsend : s.send d = .error e) :
    ∃ o, e = .overrun o ∧ terminalPutch ⟨s.ansi, v.screen⟩ d = .error o := by
  cases hput : s.putch s.active d with
  | error e1 =>
    unfold Vterms.send at hsend
    rw [hput] at hsend
    rw [← Except.error.inj hsend]
    exact putch_error hv hput
  | ok s1 =>
    -- the terminal that was written to is still there
    obtain ⟨hactive, -, -, -, -, -, w, hw⟩ := h.putch hv hput
    rw [← hactive] at hw
    unfold Vterms.send at hsend
    rw [hput] at hsend
    change (s1.copybuffer s1.active).write d = _ at hsend
    unfold Vterms.write at hsend
    rw [copybuffer_some hw] at hsend
    dsimp only at hsend
    rw [hw] at hsend
    cases hsend

theorem Vterms.Ran.output (h : s.Ran fork ms) (ha : (s.vterm a).isSome) (hout : s.output a c = .ok s') :
    s'.keys = s.keys ∧ s'.Ran fork ms := by
  obtain ⟨v, hv⟩ := Option.isSome_iff_exists.mp ha
  obtain ⟨s1, hput, hcopy⟩ := Outcome.bind_ok.mp hout
  obtain ⟨hactive, hkeys, hopened, hpid, hcalls, hothers, w, hw⟩ := h.putch hv hput
  rw [← hactive] at hw
  rw [← Except.ok.inj hcopy]
  split
  · rename_i hsame
    have hshown := copybuffer_shown hw
    rw [copybuffer_some hw] at hshown
    rw [← hsame, copybuffer_some hw]
    exact ⟨hkeys, hactive.trans h.active, hopened, hpid, hcalls.trans h.calls, hshown⟩
  · rename_i hother
    exact ⟨hkeys, hactive.trans h.active, hopened, hpid, hcalls.trans h.calls, hothers (hactive ▸ Ne.symm hother)⟩

theorem switchVterm_of_lt (hnum : num < 4) :
    s.switchVterm fork (num : Int) =
      Vterms.copybuffer { (if (s.vterm num).isNone then s.terminalInit fork num else s) with active := num } num :=
  if_neg (by omega)

theorem Vterms.Ran.switch (h : s.Ran fork ms) (hnum : num < 4) :
    (s.switchVterm fork (num : Int)).keys = s.keys ∧ (s.switchVterm fork (num : Int)).Ran fork (ms ++ [.switch num]) := by
  have hopened : ∀ n, Opened (ms ++ [.switch num]) n ↔ n = num ∨ Opened ms n := by
    intro n
    simp only [Opened, List.mem_append, List.mem_singleton, Meaning.switch.injEq]
    tauto
  have hchosen : num = chosen (ms ++ [.switch num]) := by
    rw [chosen_append]
    rfl
  rw [switchVterm_of_lt hnum]
  cases hv : s.vterm num with
  | none =>
    have hnew : ¬Opened ms num := by
      rw [← h.opened, hv]
      exact Bool.false_ne_true
    rw [Option.isNone_none, if_pos rfl]
    have hself : (Function.update s.vterm num (some ⟨newTerminal 25 80, fork num⟩)) num =
        some ⟨newTerminal 25 80, fork num⟩ := Function.update_self _ _ _
    have hshown := @copybuffer_shown { s.terminalInit fork num with active := num } _ hself
    rw [copybuffer_some hself] at hshown ⊢
    refine ⟨rfl, hchosen, fun n => ?_, fun n v hn => ?_, ?_, hshown⟩
    · rw [hopened]
      by_cases hn : n = num
      · subst hn
        simp [Vterms.terminalInit]
      · simp [Vterms.terminalInit, hn, h.opened]
    · by_cases hne : n = num
      · subst hne
        rw [← Option.some.inj (hself.symm.trans hn)]
      · simp only [Vterms.terminalInit, Function.update_of_ne hne] at hn
        exact h.pid n v hn
    · rw [← h.callsFor, Os5.callsFor, if_neg hnew]
      rfl
  | some v =>
    have hold : Opened ms num := by
      rw [← h.opened, hv]
      rfl
    rw [Option.isNone_some, if_neg Bool.false_ne_true]
    have hshown : (Vterms.copybuffer { s with active := num } num).Shown := copybuffer_shown hv
    rw [copybuffer_some (s := { s with active := num }) hv] at hshown ⊢
    refine ⟨rfl, hchosen, fun n => ?_, h.pid, ?_, hshown⟩
    · rw [hopened, h.opened]
      exact ⟨.inr, fun hn => hn.elim (fun hn => hn ▸ hold) id⟩
    · rw [← h.callsFor, Os5.callsFor, if_pos hold, List.append_nil]

theorem start_ran (vidmem : List Nat) (cursor : Nat) : (Vterms.start fork vidmem cursor).Ran fork [] := by
  unfold Vterms.start
  rw [show (0 : Int) = ((0 : Nat) : Int) from rfl, switchVterm_of_lt (by decide), Option.isNone_none, if_pos rfl]
  have hself : (Function.update (fun _ => none) 0 (some ⟨newTerminal 25 80, fork 0⟩) : Nat → Option Vterm) 0 =
      some ⟨newTerminal 25 80, fork 0⟩ := Function.update_self _ _ _
  have hshown := @copybuffer_shown ⟨KeyState.keyboardInit, ansiStart, Function.update (fun _ => none) 0
    (some ⟨newTerminal 25 80, fork 0⟩), 0, vidmem, cursor, [.start 0]⟩ _ hself
  rw [copybuffer_some hself] at hshown
  unfold Vterms.terminalInit
  rw [copybuffer_some hself]
  refine ⟨rfl, fun n => ?_, fun n v hn => ?_, rfl, hshown⟩
  · by_cases hn : n = 0
    · subst hn
      simp [Opened]
    · simp [Opened, hn]
  · by_cases hne : n = 0
    · subst hne
      rw [← Option.some.inj (hself.symm.trans hn)]
    · simp [Function.update_of_ne hne] at hn

structure Vterms.Heard (fork : Nat → Nat) (s : Vterms) (codes : List UInt8) : Prop where
  keys : s.keys.Tracks codes
  ran : s.Ran fork (meanings [] codes)

def Vterms.perform (fork : Nat → Nat) (s : Vterms) : Option Meaning → Except Crash Vterms
  | some (.switch num) => .ok (s.switchVterm fork num)
  | some .interrupt => s.interrupt
  | some (.char d) => s.send d
  | none => .ok s

theorem key_eq : s.key fork c = Vterms.perform fork { s with keys := (keyboardDecode s.keys c).1 }
    (meaningOf (keyboardDecode s.keys c).1.ctrl (keyboardDecode s.keys c).2) := by
  unfold Vterms.key meaningOf
  dsimp only
  split_ifs with hswitch
  · have hle := UInt8.le_iff_toNat_le.mp hswitch.2.1
    rw [Vterms.perform, Int.ofNat_sub hle]
  all_goals rfl

theorem Vterms.Heard.key_eq (h : s.Heard fork codes) :
    s.key fork c = Vterms.perform fork { s with keys := (keyboardDecode s.keys c).1 } (meaning codes c) := by
  rw [Os5.key_eq, h.keys.meaning]

theorem meanings_concat : meanings [] (codes ++ [c]) = meanings [] codes ++ (meaning codes c).toList := by
  rw [meanings_append, List.nil_append, meanings, meanings, List.append_nil]

theorem Vterms.Ran.perform {m : Option Meaning} (h : s.Ran fork ms) (hm : ∀ num, m = some (.switch num) → num < 4)
    (hs : s.perform fork m = .ok s') : s'.keys = s.keys ∧ s'.Ran fork (ms ++ m.toList) := by
  cases m with
  | none =>
    rw [← Except.ok.inj hs, Option.toList_none, List.append_nil]
    exact ⟨rfl, h⟩
  | some m =>
    cases m with
    | switch num =>
      rw [← Except.ok.inj hs]
      exact h.switch (hm num rfl)
    | interrupt =>
      obtain ⟨t, ht, hran⟩ := h.interrupt
      rw [← Except.ok.inj (ht.symm.trans hs)]
      exact hran
    | char d => exact h.send hs

theorem Vterms.Heard.key (h : s.Heard fork codes) (hkey : s.key fork c = .ok s') : s'.Heard fork (codes ++ [c]) := by
  rw [h.key_eq] at hkey
  obtain ⟨hkeys, hran⟩ := (h.ran.withKeys _).perform (fun _ => meaningOf_switch_lt) hkey
  constructor
  · rw [hkeys]
    exact h.keys.decode
  · rw [meanings_concat]
    exact hran

theorem Vterms.Heard.output (h : s.Heard fork codes) (ha : (s.vterm a).isSome) (hout : s.output a c = .ok s') :
    s'.Heard fork codes := by
  obtain ⟨hkeys, hran⟩ := h.ran.output ha hout
  exact ⟨hkeys ▸ h.keys, hran⟩

theorem start_heard (vidmem : List Nat) (cursor : Nat) : (Vterms.start fork vidmem cursor).Heard fork [] :=
  ⟨⟨rfl, rfl, rfl⟩, start_ran vidmem cursor⟩

theorem Vterms.Heard.exec {acts : List TerminalAct} (h : s.Heard fork codes) (hs : exec (Vterms.step fork) s acts = some s') :
    s'.Heard fork (codes ++ acts.filterMap TerminalAct.code) := by
  induction acts generalizing s codes with
  | nil =>
    rw [List.filterMap_nil, List.append_nil, ← Option.some.inj hs]
    exact h
  | cons act acts ih =>
    rw [exec_cons] at hs
    obtain ⟨t, ht, hrest⟩ := Option.bind_eq_some_iff.mp hs
    cases act with
    | key c =>
      have hkey := Outcome.toOption_eq_some.mp ht
      have hrun := ih (h.key hkey) hrest
      rwa [List.append_assoc] at hrun
    | output a c =>
      rw [Vterms.step] at ht
      by_cases ha : (s.vterm a).isSome
      · rw [if_pos ha] at ht
        exact ih (h.output ha (Outcome.toOption_eq_some.mp ht)) hrest
      · rw [if_neg ha] at ht
        cases ht

/-- Nothing stops a key but a store that `terminal_putch` makes outside an array. -/
theorem Vterms.Heard.error (h : s.Heard fork codes) (hkey : s.key fork c = .error e) :
    ∃ d v o, meaning codes c = some (.char d) ∧ s.vterm s.active = some v ∧ e = .overrun o ∧
      terminalPutch ⟨s.ansi, v.screen⟩ d = .error o := by
  rw [h.key_eq] at hkey
  obtain ⟨v, hv⟩ := h.ran.activeVterm
  cases hm : meaning codes c with
  | none =>
    rw [hm] at hkey
    cases hkey
  | some m =>
    rw [hm] at hkey
    cases m with
    | switch num => cases hkey
    | interrupt =>
      obtain ⟨t, ht, -⟩ := (h.ran.withKeys (keyboardDecode s.keys c).1).interrupt
      cases ht.symm.trans hkey
    | char d =>
      obtain ⟨o, ho, hputch⟩ := (h.ran.withKeys (keyboardDecode s.keys c).1).send_error hv hkey
      exact ⟨d, v, o, rfl, hv, ho, hputch⟩

/-- In every run of the program its calls, the active terminal and the flags are those the keys alone
give, whatever is printed; the screen shows the active terminal, and only a character that is stored
outside an array stops it. -/
theorem terminal_keys (fork : Nat → Nat) {vidmem : List Nat} {cursor : Nat} {acts : List TerminalAct} {s : Vterms}
    (h : Transition.exec (Vterms.step fork) (Vterms.start fork vidmem cursor) acts = some s) :
    s.calls = .start 0 :: callsAfter fork [] (meanings [] (acts.filterMap TerminalAct.code)) ∧
    s.active = chosen (meanings [] (acts.filterMap TerminalAct.code)) ∧
    s.keys.shift = held shiftKeys (acts.filterMap TerminalAct.code) ∧
    s.keys.ctrl = held ctrlKeys (acts.filterMap TerminalAct.code) ∧
    s.keys.alt = held altKeys (acts.filterMap TerminalAct.code) ∧
    (∀ n, (s.vterm n).isSome ↔ Opened (meanings [] (acts.filterMap TerminalAct.code)) n) ∧
    (∀ n, (s.vterm n).isSome → n < 4) ∧
    s.Shown ∧
    ∀ c e, s.key fork c = .error e → ∃ d v o, meaning (acts.filterMap TerminalAct.code) c = some (.char d) ∧
      s.vterm s.active = some v ∧ e = .overrun o ∧ terminalPutch ⟨s.ansi, v.screen⟩ d = .error o := by
  have hheard := (start_heard vidmem cursor).exec h
  rw [List.nil_append] at hheard
  obtain ⟨hkeys, hran⟩ := hheard
  refine ⟨hran.calls, hran.active, hkeys.shift, hkeys.ctrl, hkeys.alt, hran.opened, fun n hn => ?_, hran.shown,
    fun c e he => Vterms.Heard.error ⟨hkeys, hran⟩ he⟩
  obtain rfl | hn := (hran.opened n).mp hn
  · decide
  · exact meanings_switch_lt hn

end

def switching : List TerminalAct :=
  [.key 0x1E, .output 0 newline, .key 0x9E, .key 0x1D, .key 0x03, .key 0x83, .key 0x9D, .output 0 newline, .key 0x2A, .key 0x30,
    .key 0xAA, .key 0x1D, .key 0x2E]

theorem terminal_keys_switching : ∃ s, exec (Vterms.step (· + 7)) (Vterms.start (· + 7) [] 0) switching = some s ∧
    s.calls = [.start 0, .write 0 97, .start 1, .write 1 66, .kill 8 2] ∧ s.active = 1 := by
  have hsome : (exec (Vterms.step (· + 7)) (Vterms.start (· + 7) [] 0) switching).isSome = true := by decide +kernel
  obtain ⟨s, hs⟩ := Option.isSome_iff_exists.mp hsome
  obtain ⟨hcalls, hactive, -⟩ := terminal_keys (· + 7) hs
  refine ⟨s, hs, hcalls.trans ?_, hactive.trans ?_⟩
  · decide +kernel
  · decide +kernel

-- ---------------------------------------------------------------------------
-- Typing

def keyFor (c : UInt8) : Option (UInt8 × Bool) :=
  match kbdMap.findIdx? (· = (c.toNat : Int)) with
  | some i => some (UInt8.ofNat i, false)
  | none => (kbdMapS.findIdx? (· = (c.toNat : Int))).map fun i => (UInt8.ofNat i, true)

def Typable (c : UInt8) : Prop := c ≠ 0 ∧ (keyFor c).isSome

instance (c : UInt8) : Decidable (Typable c) := inferInstanceAs (Decidable (_ ∧ _))

def strokes (c : UInt8) : List UInt8 :=
  match keyFor c with
  | some (key, false) => [key, key ||| 0x80]
  | some (key, true) => [scancodeLshift, key, key ||| 0x80, scancodeLshift ||| 0x80]
  | none => []

def Unshifted (codes : List UInt8) : Prop := held shiftKeys codes = false ∧ held ctrlKeys codes = false

def GivesKey (c key : UInt8) (shift : Bool) : Prop :=
  retval shift key = c ∧ key &&& 0x7F ∉ shiftKeys ++ ctrlKeys ∧ isUp (key ||| 0x80) ∧ (key ||| 0x80) &&& 0x7F ∉ shiftKeys ++ ctrlKeys

instance (c key : UInt8) (shift : Bool) : Decidable (GivesKey c key shift) := inferInstanceAs (Decidable (_ ∧ _))

section
variable {fork : Nat → Nat} {s s' : Vterms} {codes text : List UInt8} {c key : UInt8}
  {acts : List TerminalAct}

theorem keyFor_gives (h : Typable c) : ∃ key shift, keyFor c = some (key, shift) ∧ GivesKey c key shift := by
  have hall : ∀ n < 256, Typable (UInt8.ofNat n) →
      ((keyFor (UInt8.ofNat n)).map fun k => decide (GivesKey (UInt8.ofNat n) k.1 k.2)) = some true := by decide +kernel
  have hc := hall c.toNat c.toNat_lt
  rw [UInt8.ofNat_toNat] at hc
  obtain ⟨⟨key, shift⟩, hkey, hgives⟩ := Option.map_eq_some_iff.mp (hc h)
  exact ⟨key, shift, hkey, of_decide_eq_true hgives⟩

theorem Unshifted.other (h : Unshifted codes) (hc : c &&& 0x7F ∉ shiftKeys ++ ctrlKeys) : Unshifted (codes ++ [c]) := by
  rw [List.mem_append, not_or] at hc
  exact ⟨by rw [held_append, if_neg hc.1, h.1], by rw [held_append, if_neg hc.2, h.2]⟩

theorem meaningOf_free (d : UInt8) : meaningOf false d = if d ≠ 0 then some (.char d) else none := rfl

theorem meaning_up (h : isUp key) : meaning codes key = none := by
  unfold meaning retval
  rw [if_pos (.inl h), meaningOf_zero]

theorem Unshifted.strokes (h : Unshifted codes) (hc : Typable c) : Unshifted (codes ++ strokes c) ∧ meanings codes (strokes c) = [.char c] := by
  obtain ⟨key, shift, hkey, hgives, hother, hup, hupOther⟩ := keyFor_gives hc
  unfold Os5.strokes
  rw [hkey]
  cases shift with
  | false =>
    dsimp only
    refine ⟨?_, ?_⟩
    · have hdown := (h.other hother).other hupOther
      rwa [List.append_assoc] at hdown
    · rw [meanings, meanings, meanings, meaning_up hup, meaning, h.1, h.2, hgives, meaningOf_free, if_pos hc.1]
      rfl
  | true =>
    dsimp only
    have hheld : held shiftKeys (codes ++ [scancodeLshift]) = true := by
      rw [held_append, if_pos (by decide)]
      decide
    have hctrl : held ctrlKeys (codes ++ [scancodeLshift]) = false := by
      rw [held_append, if_neg (by decide), h.2]
    have hdown : meaning codes scancodeLshift = none := by
      unfold meaning retval
      rw [if_pos (.inr (by decide)), meaningOf_zero]
    have hchar : meaning (codes ++ [scancodeLshift]) key = some (.char c) := by
      rw [meaning, hheld, hctrl, hgives, meaningOf_free, if_pos hc.1]
    have hlift : isUp (scancodeLshift ||| 0x80) := by decide
    have hsplit : codes ++ [scancodeLshift, key, key ||| 0x80, scancodeLshift ||| 0x80] =
        codes ++ [scancodeLshift] ++ [key] ++ [key ||| 0x80] ++ [scancodeLshift ||| 0x80] := by simp
    rw [List.mem_append, not_or] at hother hupOther
    refine ⟨⟨?_, ?_⟩, ?_⟩
    · rw [hsplit, held_append, if_pos (by decide), hlift]
      rfl
    · rw [hsplit, held_append, if_neg (by decide), held_append, if_neg hupOther.2, held_append, if_neg hother.2, hctrl]
    · rw [meanings, meanings, meanings, meanings, meanings, hdown, hchar, meaning_up hup, meaning_up hlift]
      rfl

theorem Unshifted.typed (h : Unshifted codes) (ht : ∀ c ∈ text, Typable c) :
    Unshifted (codes ++ text.flatMap Os5.strokes) ∧ meanings codes (text.flatMap Os5.strokes) = text.map .char := by
  induction text generalizing codes with
  | nil => simpa [meanings] using h
  | cons c text ih =>
    rw [List.forall_mem_cons] at ht
    obtain ⟨hfree, hone⟩ := h.strokes ht.1
    obtain ⟨hall, hmany⟩ := ih hfree ht.2
    rw [List.flatMap_cons, meanings_append, hone, hmany, ← List.append_assoc]
    exact ⟨hall, rfl⟩

theorem callsAfter_chars {before : List Meaning} :
    callsAfter fork before (text.map .char) = text.map (.write (chosen before)) := by
  induction text generalizing before with
  | nil => rfl
  | cons c text ih =>
    rw [List.map_cons, callsAfter, ih, chosen_append]
    rfl

/-- Whatever is printed meanwhile, the program in the active terminal gets the text that is typed. -/
theorem Vterms.Heard.types (h : s.Heard fork codes) (hfree : Unshifted codes) (ht : ∀ c ∈ text, Typable c)
    (hcodes : acts.filterMap TerminalAct.code = text.flatMap Os5.strokes) (hs : Transition.exec (Vterms.step fork) s acts = some s') :
    s'.Heard fork (codes ++ text.flatMap Os5.strokes) ∧ Unshifted (codes ++ text.flatMap Os5.strokes) ∧
      s'.calls = s.calls ++ text.map (.write s.active) := by
  obtain ⟨hstill, hmeans⟩ := hfree.typed ht
  have hafter := h.exec hs
  rw [hcodes] at hafter
  refine ⟨hafter, hstill, ?_⟩
  rw [hafter.ran.calls, meanings_append, List.nil_append, hmeans, callsAfter_append, callsAfter_chars, ← List.cons_append,
    ← h.ran.calls, List.nil_append, ← h.ran.active]

end

end Os5
