import Os5.Fs.Access
import Os5.Lib.Outcome

/-!
# The terminal's cursor

`terminal_putch` hands each character to `check_for_escape`, which collects escape sequences in
two fixed buffers, and puts on the screen what that leaves. A store behind the end of the screen
or of one of the buffers is an error here, since nothing is known of what lies there.
-/

namespace Os5

open Transition Outcome

inductive Overrun where
  | screen
  | ansiBuffer
  | ansiArgs
  deriving DecidableEq

structure Terminal where
  rows : Int
  cols : Int
  csrRow : Int
  csrCol : Int
  /-- The entries of 16 bits. -/
  buffer : List Nat
  fgColor : Nat
  bgColor : Nat
  currentStyle : Nat
  deriving DecidableEq

inductive Letter where
  | H | f | A | B | C | D | s | u | J | K | m
  deriving DecidableEq

def Letter.char : Letter → UInt8
  | .H => 'H'.toUInt8
  | .f => 'f'.toUInt8
  | .A => 'A'.toUInt8
  | .B => 'B'.toUInt8
  | .C => 'C'.toUInt8
  | .D => 'D'.toUInt8
  | .s => 's'.toUInt8
  | .u => 'u'.toUInt8
  | .J => 'J'.toUInt8
  | .K => 'K'.toUInt8
  | .m => 'm'.toUInt8

/-- The order of the test in `ansi_escape_char`. -/
def letters : List Letter := [.H, .f, .A, .B, .C, .D, .s, .u, .J, .K, .m]

inductive EscapeChar where
  | notPart
  | argument
  | separator
  | function (l : Letter)
  deriving DecidableEq

def isdigit (c : UInt8) : Bool := '0'.toUInt8 ≤ c && c ≤ '9'.toUInt8

/-- In the C locale; a `char` from 128 on is negative and not printable. -/
def isprint (c : UInt8) : Bool := ' '.toUInt8 ≤ c && c ≤ '~'.toUInt8

def semicolon : UInt8 := ';'.toUInt8
def openBracket : UInt8 := '['.toUInt8
def newline : UInt8 := '\n'.toUInt8
def escape : UInt8 := 27

def ansiEscapeChar (c : UInt8) : EscapeChar :=
  if isdigit c then .argument
  else if c = semicolon then .separator
  else match letters.find? fun l => l.char = c with
    | some l => .function l
    | none => .notPart

/-- Decimal digits up to the first other character; a number that is too large becomes `INT_MAX`. -/
def atoi (s : List UInt8) : Nat :=
  min ((s.takeWhile isdigit).foldl (fun n c => 10 * n + (c.toNat - '0'.toNat)) 0) (2 ^ 31 - 1)

inductive AnsiState where
  | notStarted
  | gotEscape
  | inSequence
  deriving DecidableEq

/-- The globals of the parser: the string in `ansi_buffer`, behind which all bytes are zero, the
offset `ansi_bufp` points to, and the arguments before `ansi_argp`. -/
structure Ansi where
  state : AnsiState
  buffer : List UInt8
  bufp : Nat
  args : List Nat
  deriving DecidableEq

def Ansi.rest (a : Ansi) : List UInt8 := a.buffer.drop a.bufp

/-- `strncat(ansi_bufp, &c, 1)`: the character and a zero behind it. -/
def Ansi.strncat (a : Ansi) (c : UInt8) : Except Overrun Ansi :=
  if c = 0 then .ok a
  else if a.buffer.length + 1 < 256 then .ok { a with buffer := a.buffer ++ [c] }
  else .error .ansiBuffer

/-- `*ansi_argp++ = atoi(ansi_bufp); ansi_bufp += strlen(ansi_bufp)`. -/
def Ansi.saveArg (a : Ansi) : Except Overrun Ansi :=
  if a.args.length < 16 then
    .ok { a with args := a.args ++ [atoi a.rest], bufp := a.bufp + a.rest.length }
  else .error .ansiArgs

/-- "Save data as argument if present": more than the letter is there. -/
def Ansi.saveLast (a : Ansi) : Except Overrun Ansi := if a.rest.length > 1 then a.saveArg else .ok a

def Terminal.cell (t : Terminal) (c : UInt8) : Nat :=
  let stl := if t.currentStyle &&& 2 ≠ 0 then t.fgColor * 16 + t.bgColor % 16 else t.bgColor * 16 + t.fgColor % 16
  let stl := stl % 256
  let stl := if t.currentStyle &&& 1 ≠ 0 then stl ||| 8 else stl
  stl * 256 ||| c.toNat

def terminalPutc (t : Terminal) (c : UInt8) : Except Overrun Terminal :=
  let i := t.csrRow * t.cols + t.csrCol
  if 0 ≤ i ∧ i < t.buffer.length then
    let t := { t with buffer := t.buffer.set i.toNat (t.cell c), csrCol := t.csrCol + 1 }
    if t.csrCol > t.cols then
      if t.csrRow + 1 > t.rows then .ok { t with csrCol := 0, csrRow := 0 }
      else .ok { t with csrCol := 0, csrRow := t.csrRow + 1 }
    else .ok t
  else .error .screen

/-- One entry under `memset(&buffer[start], 0, n)`: the low byte comes first. -/
def clearEntry (start n i x : Nat) : Nat :=
  if i < start then x
  else if 2 * (i - start) + 1 < n then 0
  else if 2 * (i - start) < n then x / 256 * 256
  else x

/-- `memset(&t->buffer[start], 0, n)`, where `n` becomes unsigned. -/
def Terminal.memset (t : Terminal) (start n : Int) : Except Overrun Terminal :=
  if n = 0 then .ok t
  else if 0 ≤ n ∧ 0 ≤ start ∧ 2 * start + n ≤ 2 * t.buffer.length then
    .ok { t with buffer := t.buffer.mapIdx (clearEntry start.toNat n.toNat) }
  else .error .screen

def setStyle (t : Terminal) (arg : Nat) : Terminal :=
  let t := if arg = 0 then { t with currentStyle := 0, fgColor := 7, bgColor := 0 } else t
  let t := if arg = 1 then { t with currentStyle := t.currentStyle ||| 1 } else t
  let t := if arg = 7 then { t with currentStyle := t.currentStyle ||| 2 } else t
  let t := if arg ≥ 30 ∧ arg ≤ 37 then { t with fgColor := arg - 30 } else t
  if arg ≥ 40 ∧ arg ≤ 47 then { t with bgColor := arg - 40 } else t

/-- The tests that lead to `bail_print`. -/
def rejects (l : Letter) (args : List Nat) : Bool :=
  match l with
  | .H | .f => args.length ≠ 2
  | .A | .B | .C | .D => args.length > 1
  | .J => args.length ≠ 1 || args.getD 0 0 ≠ 2
  | .K => args.length ≠ 0
  | .s | .u | .m => false

/-- What each command does, with the arguments that were not given zero. -/
def command (l : Letter) (args : List Nat) (t : Terminal) : Except Overrun Terminal :=
  match l with
  | .H | .f => .ok { t with csrRow := asInt (args.getD 0 0), csrCol := asInt (args.getD 1 0) }
  | .A =>
    let r := asInt (t.csrRow - (args.getD 0 0 + 1))
    .ok { t with csrRow := if r < 0 then 0 else r }
  | .B =>
    let r := asInt (t.csrRow + (args.getD 0 0 + 1))
    .ok { t with csrRow := if r ≥ t.rows then t.rows else r }
  | .C =>
    let r := asInt (t.csrCol + (args.getD 0 0 + 1))
    .ok { t with csrCol := if r ≥ t.cols then t.cols else r }
  | .D =>
    let r := asInt (t.csrCol - (args.getD 0 0 + 1))
    .ok { t with csrCol := if r < 0 then 0 else r }
  | .s | .u => .ok t
  | .J => (t.memset 0 (2 * t.rows * t.cols)).map fun t => { t with csrRow := 0, csrCol := 0 }
  | .K => t.memset (t.csrRow * t.cols + t.csrCol) (t.cols - t.csrCol)
  | .m => .ok (args.foldl setStyle t)

/-- What the parser uses of a screen; it never looks at it. -/
class Screen (τ : Type) where
  putc : τ → UInt8 → Except Overrun τ
  newline : τ → τ
  command : Letter → List Nat → τ → Except Overrun τ

instance : Screen Terminal where
  putc := terminalPutc
  newline t := { t with csrRow := t.csrRow + 1, csrCol := 0 }
  command := command

structure Console (τ : Type) where
  ansi : Ansi
  screen : τ

section
variable {τ : Type} [Screen τ]

def putPrintable (t : τ) (c : UInt8) : Except Overrun τ := if isprint c then Screen.putc t c else .ok t

/-- The end of `check_for_escape`: everything in the buffer goes to the screen. -/
def bailPrint (s : Console τ) : Except Overrun (Console τ) :=
  (s.ansi.buffer.foldlM putPrintable s.screen).map fun t => { s with screen := t }

/-- Whether the character was taken, and what comes of it. -/
def checkForEscape (s : Console τ) (c : UInt8) : Except Overrun (Bool × Console τ) :=
  match s.ansi.state with
  | .notStarted =>
    if c = escape then .ok (true, { s with ansi := { s.ansi with state := .gotEscape } }) else .ok (false, s)
  | .gotEscape =>
    if c = openBracket then .ok (true, { s with ansi := ⟨.inSequence, [openBracket], 1, []⟩ })
    else .ok (false, s)
  | .inSequence => do
    let a ← s.ansi.strncat c
    match ansiEscapeChar c with
    | .notPart => (bailPrint { s with ansi := { a with state := .notStarted } }).map (true, ·)
    | .argument => .ok (true, { s with ansi := a })
    | .separator =>
      let a ← a.saveArg
      .ok (true, { s with ansi := a })
    | .function l =>
      let a ← a.saveLast
      -- a rejected command leaves the state as it is
      if rejects l a.args then (bailPrint { s with ansi := a }).map (true, ·)
      else
        let t ← Screen.command l a.args s.screen
        .ok (true, ⟨{ a with state := .notStarted }, t⟩)

def putChar (t : τ) (c : UInt8) : Except Overrun τ :=
  if c = newline then .ok (Screen.newline t) else putPrintable t c

def terminalPutch (s : Console τ) (c : UInt8) : Except Overrun (Console τ) := do
  let (taken, s) ← checkForEscape s c
  if taken then .ok s
  else
    let t ← putChar s.screen c
    .ok { s with screen := t }

def putchStep (s : Console τ) (c : UInt8) : Option (Console τ) := (terminalPutch s c).toOption

theorem terminalPutch_taken {s s' : Console τ} {c : UInt8} (h : checkForEscape s c = .ok (true, s')) :
    terminalPutch s c = .ok s' := by
  rw [terminalPutch, h]
  rfl

theorem terminalPutch_left {s : Console τ} {c : UInt8} (h : checkForEscape s c = .ok (false, s)) :
    terminalPutch s c = (putChar s.screen c).map fun t => { s with screen := t } := by
  rw [terminalPutch, h]
  show (putChar s.screen c >>= fun t => .ok { s with screen := t }) = _
  cases putChar s.screen c <;> rfl

end

-- ---------------------------------------------------------------------------
-- The cursor

/-- The cursor is on the screen, and the buffer has one entry for each place of it. -/
structure Terminal.Inside (t : Terminal) : Prop where
  row : 0 ≤ t.csrRow ∧ t.csrRow < t.rows
  col : 0 ≤ t.csrCol ∧ t.csrCol < t.cols
  ints : t.rows < 2 ^ 31 ∧ t.cols < 2 ^ 31
  cells : t.buffer.length = t.rows * t.cols

def Ansi.given (a : Ansi) : List Nat := if a.rest = [] then a.args else a.args ++ [atoi a.rest]

def Terminal.Room (t : Terminal) (text : List UInt8) : Prop := t.csrCol + text.countP isprint < t.cols

def Terminal.Takes (t : Terminal) (c : UInt8) : Prop :=
  if c = newline then t.csrRow + 1 < t.rows else t.Room [c]

def Terminal.Reaches (t : Terminal) (args : List Nat) : Letter → Prop
  | .H | .f => (args.getD 0 0 : Int) < t.rows ∧ (args.getD 1 0 : Int) < t.cols
  | .B => t.csrRow + (args.getD 0 0 + 1) < t.rows
  | .C => t.csrCol + (args.getD 0 0 + 1) < t.cols
  | _ => True

def ansiStart : Ansi := ⟨.notStarted, [], 0, []⟩

def Console.Fresh (s : Console Terminal) : Prop := s.ansi = ansiStart ∧ s.screen.Inside

/-- The character neither moves the cursor off the screen nor makes the sequence too long. -/
def StaysInside (s : Console Terminal) (c : UInt8) : Prop :=
  match s.ansi.state with
  | .notStarted => c = escape ∨ s.screen.Takes c
  | .gotEscape => c = openBracket ∨ s.screen.Takes c
  | .inSequence => (c = 0 ∨ s.ansi.buffer.length < 255) ∧
    match ansiEscapeChar c with
    | .notPart => s.screen.Room (s.ansi.buffer ++ [c])
    | .argument => True
    | .separator => s.ansi.args.length < 16
    | .function l => s.ansi.given.length ≤ 16 ∧
      if rejects l s.ansi.given then s.screen.Room (s.ansi.buffer ++ [c])
      else s.screen.Reaches s.ansi.given l

instance (t : Terminal) (text : List UInt8) : Decidable (t.Room text) := inferInstanceAs (Decidable (_ < _))

instance (t : Terminal) (c : UInt8) : Decidable (t.Takes c) :=
  inferInstanceAs (Decidable (if c = newline then t.csrRow + 1 < t.rows else t.Room [c]))

instance (t : Terminal) (args : List Nat) : ∀ l, Decidable (t.Reaches args l)
  | .H | .f => inferInstanceAs (Decidable (_ ∧ _))
  | .B | .C => inferInstanceAs (Decidable (_ < _))
  | .A | .D | .s | .u | .J | .K | .m => .isTrue trivial

instance (s : Console Terminal) (c : UInt8) : Decidable (StaysInside s c) := by
  unfold StaysInside
  split
  · infer_instance
  · infer_instance
  · refine @instDecidableAnd _ _ _ ?_
    split <;> infer_instance

section
variable {t : Terminal} {s : Console Terminal} {a : Ansi} {c : UInt8} {l : Letter} {args : List Nat} {text : List UInt8}

theorem asInt_of_fits {n : Int} (h : -2 ^ 31 ≤ n ∧ n < 2 ^ 31) : asInt n = n := by
  simp only [asInt, Int.bmod]
  norm_num at h ⊢
  split <;> omega

theorem Terminal.Inside.line (h : t.Inside) : t.csrRow * t.cols + t.cols ≤ t.buffer.length := by
  have hrow : t.csrRow + 1 ≤ t.rows := h.row.2
  have hcols : 0 ≤ t.cols := h.col.1.trans h.col.2.le
  calc t.csrRow * t.cols + t.cols = (t.csrRow + 1) * t.cols := by ring
    _ ≤ t.rows * t.cols := Int.mul_le_mul_of_nonneg_right hrow hcols
    _ = t.buffer.length := h.cells.symm

theorem Terminal.Inside.place (h : t.Inside) :
    0 ≤ t.csrRow * t.cols + t.csrCol ∧ t.csrRow * t.cols + t.csrCol < t.buffer.length := by
  have hline := h.line
  have hcol := h.col
  have hstart : 0 ≤ t.csrRow * t.cols := mul_nonneg h.row.1 (hcol.1.trans hcol.2.le)
  exact ⟨by omega, by omega⟩

theorem Terminal.Inside.moved (h : t.Inside) {row col : Int} (hrow : 0 ≤ row ∧ row < t.rows) (hcol : 0 ≤ col ∧ col < t.cols) :
    Terminal.Inside { t with csrRow := row, csrCol := col } :=
  ⟨hrow, hcol, h.ints, h.cells⟩

theorem Terminal.Inside.putc (h : t.Inside) (hroom : t.csrCol + 1 < t.cols) :
    Screen.putc t c = .ok { t with
      buffer := t.buffer.set (t.csrRow * t.cols + t.csrCol).toNat (t.cell c), csrCol := t.csrCol + 1 } := by
  show terminalPutc t c = _
  rw [terminalPutc]
  simp only [if_pos h.place, if_neg (Int.not_lt.mpr hroom.le)]

theorem Terminal.Inside.puts (h : t.Inside) (hroom : t.Room text) :
    ∃ t', text.foldlM putPrintable t = .ok t' ∧ t'.Inside := by
  induction text generalizing t with
  | nil => exact ⟨t, rfl, h⟩
  | cons c text ih =>
    rw [List.foldlM_cons, putPrintable]
    unfold Room at hroom
    cases hc : isprint c with
    | false =>
      rw [List.countP_cons_of_neg (by simp [hc])] at hroom
      exact ih h hroom
    | true =>
      rw [List.countP_cons_of_pos hc, Nat.cast_add, Nat.cast_one] at hroom
      have hcol := h.col
      rw [if_pos rfl, h.putc (by omega)]
      refine ih ⟨h.row, ⟨?_, ?_⟩, h.ints, ?_⟩ ?_
      · exact Int.le_add_one hcol.1
      · show t.csrCol + 1 < t.cols
        omega
      · rw [List.length_set]
        exact h.cells
      · show t.csrCol + 1 + _ < t.cols
        omega

theorem Terminal.Inside.putChar (h : t.Inside) (ht : t.Takes c) : ∃ t', putChar t c = .ok t' ∧ t'.Inside := by
  unfold Terminal.Takes at ht
  unfold Os5.putChar
  split at ht
  · rename_i hc
    rw [if_pos hc]
    exact ⟨_, rfl, h.moved ⟨Int.le_add_one h.row.1, ht⟩ ⟨le_rfl, h.col.1.trans_lt h.col.2⟩⟩
  · rename_i hc
    rw [if_neg hc]
    obtain ⟨t', ht', h'⟩ := h.puts ht
    refine ⟨t', ?_, h'⟩
    rw [← ht', List.foldlM_cons]
    cases putPrintable t c <;> rfl

theorem Terminal.memset_ok {start n : Int} (hn : 0 ≤ n) (hstart : 0 ≤ start)
    (hend : 2 * start + n ≤ 2 * t.buffer.length) :
    ∃ b, t.memset start n = .ok { t with buffer := b } ∧ b.length = t.buffer.length := by
  unfold Terminal.memset
  split
  · exact ⟨t.buffer, rfl, rfl⟩
  · rw [if_pos ⟨hn, hstart, hend⟩]
    exact ⟨_, rfl, List.length_mapIdx⟩

theorem Terminal.Inside.setStyle (h : t.Inside) (arg : Nat) : (setStyle t arg).Inside := by
  obtain ⟨hrow, hcol, hints, hcells⟩ := h
  unfold Os5.setStyle
  constructor <;> split_ifs <;> assumption

theorem Terminal.Inside.setStyles (h : t.Inside) : (args.foldl Os5.setStyle t).Inside := by
  induction args generalizing t with
  | nil => exact h
  | cons arg args ih => exact ih (h.setStyle arg)

theorem back_inside {x n : Int} {k : Nat} (hx : 0 ≤ x ∧ x < n) (hn : n < 2 ^ 31) (hk : k < 2 ^ 31) :
    0 ≤ (if asInt (x - (k + 1)) < 0 then 0 else asInt (x - (k + 1))) ∧
      (if asInt (x - (k + 1)) < 0 then 0 else asInt (x - (k + 1))) < n := by
  rw [asInt_of_fits ⟨by omega, by omega⟩]
  split <;> omega

theorem forth_inside {x n : Int} {k : Nat} (hx : 0 ≤ x) (hn : n < 2 ^ 31) (hk : x + (k + 1) < n) :
    0 ≤ (if asInt (x + (k + 1)) ≥ n then n else asInt (x + (k + 1))) ∧
      (if asInt (x + (k + 1)) ≥ n then n else asInt (x + (k + 1))) < n := by
  rw [asInt_of_fits ⟨by omega, by omega⟩, if_neg (Int.not_le.mpr hk)]
  exact ⟨by omega, hk⟩

theorem Terminal.Inside.command (h : t.Inside) (hargs : ∀ x ∈ args, x < 2 ^ 31) (hl : t.Reaches args l) :
    ∃ t', command l args t = .ok t' ∧ t'.Inside := by
  have harg : ∀ i, args.getD i 0 < 2 ^ 31 := by
    intro i
    rw [List.getD_eq_getElem?_getD]
    cases hi : args[i]? with
    | none => decide
    | some x => exact hargs x (List.mem_of_getElem? hi)
  have hline := h.line
  have hplace := h.place
  have hcol := h.col
  cases l with
  | H | f =>
    obtain ⟨hr, hc⟩ := hl
    have hints := h.ints
    refine ⟨_, rfl, h.moved ?_ ?_⟩
    · rw [asInt_of_fits ⟨by omega, by omega⟩]
      exact ⟨Int.natCast_nonneg _, hr⟩
    · rw [asInt_of_fits ⟨by omega, by omega⟩]
      exact ⟨Int.natCast_nonneg _, hc⟩
  | A => exact ⟨_, rfl, h.moved (back_inside h.row h.ints.1 (harg 0)) h.col⟩
  | B => exact ⟨_, rfl, h.moved (forth_inside h.row.1 h.ints.1 hl) h.col⟩
  | C => exact ⟨_, rfl, h.moved h.row (forth_inside h.col.1 h.ints.2 hl)⟩
  | D => exact ⟨_, rfl, h.moved h.row (back_inside h.col h.ints.2 (harg 0))⟩
  | s | u => exact ⟨t, rfl, h⟩
  | J =>
    have hall : (2 * t.rows * t.cols : Int) = 2 * t.buffer.length := by rw [mul_assoc, h.cells]
    obtain ⟨b, hb, hlen⟩ := t.memset_ok (@id (0 ≤ 2 * t.rows * t.cols) (by omega)) le_rfl (by omega)
    refine ⟨{ t with buffer := b, csrRow := 0, csrCol := 0 }, ?_, ⟨le_rfl, h.row.1.trans_lt h.row.2⟩,
      ⟨le_rfl, h.col.1.trans_lt h.col.2⟩, h.ints, ?_⟩
    · rw [Os5.command, hb]
      rfl
    · rw [hlen]
      exact h.cells
  | K =>
    obtain ⟨b, hb, hlen⟩ := t.memset_ok (@id (0 ≤ t.cols - t.csrCol) (by omega)) hplace.1 (by omega)
    refine ⟨_, hb, h.row, h.col, h.ints, ?_⟩
    rw [hlen]
    exact h.cells
  | m => exact ⟨_, rfl, h.setStyles⟩

theorem atoi_lt (text : List UInt8) : atoi text < 2 ^ 31 := by
  unfold atoi
  omega

theorem atoi_concat (hc : isdigit c = false) : atoi (text ++ [c]) = atoi text := by
  unfold atoi
  rw [List.takeWhile_append]
  split
  · rename_i hall
    rw [List.takeWhile_cons_of_neg (by simp [hc]), List.append_nil, (List.takeWhile_prefix _).eq_of_length hall]
  · rfl

-- ---------------------------------------------------------------------------
-- The sequence being read

structure Ansi.Sound (a : Ansi) : Prop where
  bufp : a.bufp ≤ a.buffer.length
  args : ∀ x ∈ a.args, x < 2 ^ 31

theorem Ansi.Sound.rest_concat (h : a.Sound) :
    Ansi.rest { a with buffer := a.buffer ++ [c] } = a.rest ++ [c] := List.drop_append_of_le_length h.bufp

theorem Ansi.Sound.given (h : a.Sound) : ∀ x ∈ a.given, x < 2 ^ 31 := by
  unfold Ansi.given
  split
  · exact h.args
  · intro x hx
    rcases List.mem_append.mp hx with hx | hx
    · exact h.args x hx
    · rw [List.mem_singleton.mp hx]
      exact atoi_lt _

theorem Ansi.strncat_ok (hc : c ≠ 0) (hlen : a.buffer.length < 255) :
    a.strncat c = .ok { a with buffer := a.buffer ++ [c] } := by
  rw [Ansi.strncat, if_neg hc, if_pos (Nat.succ_lt_succ hlen)]

theorem Ansi.Sound.saveArg (h : a.Sound) (hc : isdigit c = false) (hargs : a.args.length < 16) :
    Ansi.saveArg { a with buffer := a.buffer ++ [c] } =
      .ok ⟨a.state, a.buffer ++ [c], (a.buffer ++ [c]).length, a.args ++ [atoi a.rest]⟩ := by
  have hend : a.bufp + (a.rest ++ [c]).length = (a.buffer ++ [c]).length := by
    have hbufp := h.bufp
    rw [Ansi.rest, List.length_append, List.length_append, List.length_drop]
    omega
  rw [Ansi.saveArg, if_pos hargs]
  simp only [h.rest_concat, atoi_concat hc, hend]

theorem Ansi.Sound.saved (h : a.Sound) (hc : isdigit c = false) (hargs : a.given.length ≤ 16) :
    ∃ k, Ansi.saveLast { a with buffer := a.buffer ++ [c] } = .ok ⟨a.state, a.buffer ++ [c], k, a.given⟩ ∧
      k ≤ (a.buffer ++ [c]).length := by
  unfold Ansi.given at hargs ⊢
  rw [Ansi.saveLast, h.rest_concat, List.length_append, List.length_singleton]
  cases hrest : a.rest with
  | nil =>
    refine ⟨a.bufp, ?_, h.bufp.trans (by simp)⟩
    rfl
  | cons x rest =>
    rw [hrest, if_neg (List.cons_ne_nil _ _), List.length_append] at hargs
    rw [if_pos (by simp), if_neg (List.cons_ne_nil _ _), h.saveArg hc hargs, hrest]
    exact ⟨_, rfl, le_rfl⟩

theorem ansiEscapeChar_zero : ansiEscapeChar 0 = .notPart := by decide

theorem ansiEscapeChar_not_argument (h : ansiEscapeChar c ≠ .argument) : isdigit c = false := by
  refine Bool.eq_false_of_not_eq_true fun hdigit => h ?_
  rw [ansiEscapeChar, if_pos hdigit]

-- ---------------------------------------------------------------------------
-- Whole runs

structure Console.Inside (s : Console Terminal) : Prop where
  screen : s.screen.Inside
  ansi : s.ansi.Sound

theorem Console.Inside.left (h : s.Inside) (ht : s.screen.Takes c) (hleft : checkForEscape s c = .ok (false, s)) :
    ∃ s', terminalPutch s c = .ok s' ∧ s'.Inside := by
  obtain ⟨t', ht', h'⟩ := h.screen.putChar ht
  refine ⟨{ s with screen := t' }, ?_, h', h.ansi⟩
  rw [terminalPutch_left hleft, ht']
  rfl

theorem Console.Inside.bailPrint (h : s.screen.Inside) (ha : a.Sound) (hroom : s.screen.Room a.buffer) :
    ∃ s', (bailPrint { s with ansi := a }).map (true, ·) = .ok (true, s') ∧ s'.Inside := by
  obtain ⟨t', ht', h'⟩ := h.puts hroom
  refine ⟨⟨a, t'⟩, ?_, h', ha⟩
  rw [Os5.bailPrint]
  simp only [ht']
  rfl

theorem Console.Inside.sequence (h : s.Inside) (hs : s.ansi.state = .inSequence) (hc : StaysInside s c) :
    ∃ s', checkForEscape s c = .ok (true, s') ∧ s'.Inside := by
  unfold StaysInside at hc
  rw [checkForEscape]
  simp only [hs] at hc ⊢
  obtain ⟨hlen, hc⟩ := hc
  obtain ⟨hscreen, ha⟩ := h
  have hbufp : s.ansi.bufp ≤ (s.ansi.buffer ++ [c]).length := ha.bufp.trans (by simp)
  by_cases hzero : c = 0
  · -- nothing is appended, and a zero is not printed
    subst hzero
    rw [ansiEscapeChar_zero] at hc ⊢
    have hroom : s.screen.Room s.ansi.buffer := by
      unfold Terminal.Room at hc ⊢
      rwa [List.countP_append, show List.countP isprint [0] = 0 from rfl] at hc
    exact Console.Inside.bailPrint hscreen ⟨ha.bufp, ha.args⟩ hroom
  have hcat := Ansi.strncat_ok hzero (hlen.resolve_left hzero)
  cases hclass : ansiEscapeChar c with
  | notPart =>
    rw [hclass] at hc
    obtain ⟨s', hs', h'⟩ := Console.Inside.bailPrint hscreen
      (@Ansi.Sound.mk ⟨.notStarted, s.ansi.buffer ++ [c], s.ansi.bufp, s.ansi.args⟩ hbufp ha.args) hc
    exact ⟨s', bind_ok.mpr ⟨_, hcat, hs'⟩, h'⟩
  | argument => exact ⟨_, bind_ok.mpr ⟨_, hcat, rfl⟩, hscreen, hbufp, ha.args⟩
  | separator =>
    rw [hclass] at hc
    have hsave := ha.saveArg (ansiEscapeChar_not_argument (by rw [hclass]; nofun)) hc
    refine ⟨_, bind_ok.mpr ⟨_, hcat, bind_ok.mpr ⟨_, hsave, rfl⟩⟩, hscreen, le_rfl, ?_⟩
    intro x hx
    rcases List.mem_append.mp hx with hx | hx
    · exact ha.args x hx
    · rw [List.mem_singleton.mp hx]
      exact atoi_lt _
  | function l =>
    rw [hclass] at hc
    obtain ⟨hargs, hc⟩ := hc
    obtain ⟨k, hsaved, hk⟩ := ha.saved (ansiEscapeChar_not_argument (by rw [hclass]; nofun)) hargs
    split at hc
    · rename_i hrejects
      obtain ⟨s', hs', h'⟩ := Console.Inside.bailPrint hscreen
        (@Ansi.Sound.mk ⟨s.ansi.state, s.ansi.buffer ++ [c], k, s.ansi.given⟩ hk ha.given) hc
      refine ⟨s', bind_ok.mpr ⟨_, hcat, bind_ok.mpr ⟨_, hsaved, ?_⟩⟩, h'⟩
      rwa [if_pos hrejects]
    · rename_i haccepts
      obtain ⟨t', ht', h'⟩ := hscreen.command ha.given hc
      refine ⟨⟨⟨.notStarted, s.ansi.buffer ++ [c], k, s.ansi.given⟩, t'⟩,
        bind_ok.mpr ⟨_, hcat, bind_ok.mpr ⟨_, hsaved, ?_⟩⟩, h', hk, ha.given⟩
      rw [if_neg haccepts]
      exact bind_ok.mpr ⟨t', ht', rfl⟩

theorem checkForEscape_text {τ : Type} [Screen τ] {s : Console τ} (hs : s.ansi.state = .notStarted) :
    checkForEscape s c =
      if c = escape then .ok (true, { s with ansi := { s.ansi with state := .gotEscape } }) else .ok (false, s) := by
  rw [checkForEscape, hs]

theorem checkForEscape_gotEscape {τ : Type} [Screen τ] {s : Console τ} (hs : s.ansi.state = .gotEscape) :
    checkForEscape s c =
      if c = openBracket then .ok (true, { s with ansi := ⟨.inSequence, [openBracket], 1, []⟩ }) else .ok (false, s) := by
  rw [checkForEscape, hs]

theorem Console.Inside.terminalPutch (h : s.Inside) (hc : StaysInside s c) :
    ∃ s', terminalPutch s c = .ok s' ∧ s'.Inside := by
  cases hs : s.ansi.state with
  | notStarted =>
    have hcheck := checkForEscape_text (c := c) hs
    by_cases he : c = escape
    · rw [if_pos he] at hcheck
      exact ⟨_, terminalPutch_taken hcheck, h.screen, h.ansi.bufp, h.ansi.args⟩
    · rw [if_neg he] at hcheck
      unfold StaysInside at hc
      rw [hs] at hc
      exact h.left (hc.resolve_left he) hcheck
  | gotEscape =>
    have hcheck := checkForEscape_gotEscape (c := c) hs
    by_cases he : c = openBracket
    · rw [if_pos he] at hcheck
      exact ⟨_, terminalPutch_taken hcheck, h.screen, le_rfl, nofun⟩
    · rw [if_neg he] at hcheck
      unfold StaysInside at hc
      rw [hs] at hc
      exact h.left (hc.resolve_left he) hcheck
  | inSequence =>
    obtain ⟨s', hs', h'⟩ := h.sequence hs hc
    exact ⟨s', terminalPutch_taken hs', h'⟩

/-- In every run whose characters leave the cursor room, no store is outside the screen, and the
cursor is on it after each character. -/
theorem cursor_inside (h : Reach putchStep StaysInside Console.Fresh s) :
    s.screen.Inside ∧ ∀ c, StaysInside s c → ∃ s', terminalPutch s c = .ok s' ∧ s'.screen.Inside := by
  have hinside : s.Inside := by
    refine h.invariant (fun s h0 => ?_) fun s c s' hs hc hstep => ?_
    · obtain ⟨h0, hscreen⟩ := h0
      refine ⟨hscreen, ?_⟩
      rw [h0]
      exact ⟨le_rfl, nofun⟩
    · obtain ⟨s2, h2, h'⟩ := hs.terminalPutch hc
      rw [putchStep, h2] at hstep
      rw [← Option.some.inj hstep]
      exact h'
  refine ⟨hinside.screen, fun c hc => ?_⟩
  obtain ⟨s', hs', h'⟩ := hinside.terminalPutch hc
  exact ⟨s', hs', h'.screen⟩

end

def newTerminal (rows cols : Nat) : Terminal :=
  ⟨rows, cols, 0, 0, List.replicate (rows * cols) 0, 7, 0, 0⟩

theorem newTerminal_inside {rows cols : Nat} (hrows : 1 ≤ rows ∧ rows < 2 ^ 31) (hcols : 1 ≤ cols ∧ cols < 2 ^ 31) :
    (newTerminal rows cols).Inside := by
  refine ⟨⟨le_rfl, ?_⟩, ⟨le_rfl, ?_⟩, ⟨?_, ?_⟩, ?_⟩
  · exact Int.natCast_pos.mpr hrows.1
  · exact Int.natCast_pos.mpr hcols.1
  · show (rows : Int) < 2 ^ 31
    exact_mod_cast hrows.2
  · show (cols : Int) < 2 ^ 31
    exact_mod_cast hcols.2
  · rw [newTerminal, List.length_replicate, Nat.cast_mul]

def someOutput : List UInt8 :=
  ['a'.toUInt8, 'b'.toUInt8, newline, escape, openBracket, '9'.toUInt8, 'C'.toUInt8, 'c'.toUInt8]

theorem cursor_inside_start : ∃ s, exec putchStep ⟨ansiStart, newTerminal 25 80⟩ someOutput = some s ∧
    s.screen.csrRow = 1 ∧ s.screen.csrCol = 11 ∧ s.screen.Inside ∧ ∃ s', terminalPutch s newline = .ok s' ∧ s'.screen.Inside := by
  have halong : Along putchStep StaysInside ⟨ansiStart, newTerminal 25 80⟩ someOutput := by decide +kernel
  have hrun : (exec putchStep ⟨ansiStart, newTerminal 25 80⟩ someOutput).any (fun s => decide (s.screen.csrRow = 1) &&
      decide (s.screen.csrCol = 11) && decide (StaysInside s newline)) = true := by
    decide +kernel
  obtain ⟨s, hs, htest⟩ := (Option.any_eq_true _ _).mp hrun
  simp only [Bool.and_eq_true, decide_eq_true_eq] at htest
  obtain ⟨⟨hrow, hcol⟩, hnext⟩ := htest
  obtain ⟨hinside, hall⟩ := cursor_inside ((@Reach.start _ _ putchStep StaysInside Console.Fresh ⟨ansiStart, newTerminal 25 80⟩
    ⟨rfl, newTerminal_inside (by decide) (by decide)⟩).along halong hs)
  exact ⟨s, hs, hrow, hcol, hinside, hall newline hnext⟩

/-- After 80 characters the cursor is behind the last column, after 25 newlines below the last row,
and the next character is stored behind the screen. -/
theorem cursor_leaves :
    (exec putchStep ⟨ansiStart, newTerminal 25 80⟩ (List.replicate 80 'a'.toUInt8)).map (·.screen.csrCol) = some 80 ∧
    (exec putchStep ⟨ansiStart, newTerminal 25 80⟩ (List.replicate 25 newline)).map
      (fun s => (s.screen.csrRow, terminalPutch s 'a'.toUInt8 matches .error .screen)) = some (25, true) := by
  decide +kernel

end Os5
