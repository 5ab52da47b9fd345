import Os5.User.Terminal

/-!
# Reading escape sequences

What the parser should make of its input, as an automaton that hands on every character in one
event, and the inputs on which `terminal_putch` does the same, whatever the screen does.
-/

namespace Os5

open Transition Outcome

/-- What came after `ESC [`: numbers with a semicolon behind each, and what follows the last. -/
structure Body where
  numbers : List (List UInt8)
  last : List UInt8

def Body.text (b : Body) : List UInt8 := b.numbers.flatMap (· ++ [semicolon]) ++ b.last

/-- An empty last number does not count. -/
def Body.arguments (b : Body) : List Nat := (b.numbers ++ if b.last = [] then [] else [b.last]).map atoi

/-- How far the input is read. -/
inductive Reading where
  | text
  | escape
  | sequence (b : Body)

/-- What the input comes to. -/
inductive Event where
  | shown (c : UInt8)
  | command (l : Letter) (b : Body)

def Event.raw : Event → List UInt8
  | .shown c => [c]
  | .command l b => escape :: openBracket :: b.text ++ [l.char]

def Reading.pending : Reading → List UInt8
  | .text => []
  | .escape => [Os5.escape]
  | .sequence b => Os5.escape :: openBracket :: b.text

/-- What is no sequence is shown, once it is seen to be none. -/
def Reading.next : Reading → UInt8 → Reading × List Event
  | .text, c => if c = Os5.escape then (.escape, []) else (.text, [.shown c])
  | .escape, c =>
    if c = openBracket then (.sequence ⟨[], []⟩, [])
    else if c = Os5.escape then (.escape, [.shown Os5.escape])
    else (.text, [.shown Os5.escape, .shown c])
  | .sequence b, c =>
    match ansiEscapeChar c with
    | .argument => (.sequence ⟨b.numbers, b.last ++ [c]⟩, [])
    | .separator => (.sequence ⟨b.numbers ++ [b.last], []⟩, [])
    | .function l =>
      if rejects l b.arguments then (.text, (Reading.pending (.sequence b) ++ [c]).map .shown)
      else (.text, [.command l b])
    | .notPart =>
      if c = Os5.escape then (.escape, (Reading.pending (.sequence b)).map .shown)
      else (.text, (Reading.pending (.sequence b) ++ [c]).map .shown)

def readAll : Reading → List UInt8 → Reading × List Event
  | r, [] => (r, [])
  | r, c :: cs => ((readAll (r.next c).1 cs).1, (r.next c).2 ++ (readAll (r.next c).1 cs).2)

def Event.apply {τ : Type} [Screen τ] (t : τ) : Event → Except Overrun τ
  | .shown c => putChar t c
  | .command l b => Screen.command l b.arguments t

def Tracks : Reading → Ansi → Prop
  | .text, a => a.state = .notStarted
  | .escape, a => a.state = .gotEscape
  | .sequence b, a => a.state = .inSequence ∧ a.buffer = openBracket :: b.text ∧ a.rest = b.last ∧
      a.args = b.numbers.map atoi ∧ newline ∉ b.text

/-- `ansi_bufp` is within the string, which fits its 256 bytes with the zero, and `ansi_argp` is not
behind the end of its 16 entries. -/
structure Ansi.Within (a : Ansi) : Prop where
  bufp : a.bufp ≤ a.buffer.length
  buffer : a.buffer.length < 256
  args : a.args.length ≤ 16

/-- An escape begins a sequence, a sequence fits the buffers, and it ends in a command that is
accepted or in a character other than newline and escape. -/
def Reading.Plain : Reading → UInt8 → Prop
  | .text, _ => True
  | .escape, c => c = openBracket ∨ c = Os5.escape
  | .sequence b, c => (c = 0 ∨ b.text.length < 254) ∧
    match ansiEscapeChar c with
    | .notPart => c ≠ newline ∧ c ≠ Os5.escape
    | .argument => True
    | .separator => b.numbers.length < 16
    | .function l => b.arguments.length ≤ 16 ∧ rejects l b.arguments = false

def PlainText : Reading → List UInt8 → Prop
  | _, [] => True
  | r, c :: cs => r.Plain c ∧ PlainText (r.next c).1 cs

instance : ∀ (r : Reading) (c : UInt8), Decidable (r.Plain c)
  | .text, _ => .isTrue trivial
  | .escape, _ => inferInstanceAs (Decidable (_ ∨ _))
  | .sequence b, c =>
    match h : ansiEscapeChar c with
    | .notPart => decidable_of_iff ((c = 0 ∨ b.text.length < 254) ∧ c ≠ newline ∧ c ≠ Os5.escape) (by simp [Reading.Plain, h])
    | .argument => decidable_of_iff (c = 0 ∨ b.text.length < 254) (by simp [Reading.Plain, h])
    | .separator => decidable_of_iff ((c = 0 ∨ b.text.length < 254) ∧ b.numbers.length < 16) (by simp [Reading.Plain, h])
    | .function l =>
      decidable_of_iff ((c = 0 ∨ b.text.length < 254) ∧ b.arguments.length ≤ 16 ∧ rejects l b.arguments = false)
        (by simp [Reading.Plain, h])

instance PlainText.decidable : ∀ (r : Reading) (cs : List UInt8), Decidable (PlainText r cs)
  | _, [] => .isTrue trivial
  | r, c :: cs =>
    have := PlainText.decidable (r.next c).1 cs
    inferInstanceAs (Decidable (_ ∧ _))

section
variable {τ : Type} [Screen τ] {s : Console τ} {t : τ} {r : Reading} {b : Body} {a : Ansi} {c : UInt8} {l : Letter}
  {cs : List UInt8}

-- ---------------------------------------------------------------------------
-- Every character in one event

theorem ansiEscapeChar_function_char (h : ansiEscapeChar c = .function l) : c = l.char := by
  unfold ansiEscapeChar at h
  split at h
  · cases h
  split at h
  · cases h
  split at h
  · rename_i hfind
    cases h
    exact (of_decide_eq_true (@List.find?_some _ (fun l : Letter => decide (l.char = c)) _ _ hfind)).symm
  · cases h

theorem ansiEscapeChar_separator_char (h : ansiEscapeChar c = .separator) : c = semicolon := by
  unfold ansiEscapeChar at h
  split at h
  · cases h
  split at h
  · assumption
  split at h <;> cases h

theorem Body.text_separator : Body.text ⟨b.numbers ++ [b.last], []⟩ = b.text ++ [semicolon] := by
  simp [Body.text]

theorem Body.text_digit : Body.text ⟨b.numbers, b.last ++ [c]⟩ = b.text ++ [c] := by
  simp [Body.text]

theorem raw_shown (cs : List UInt8) : (cs.map Event.shown).flatMap Event.raw = cs := by
  induction cs with
  | nil => rfl
  | cons c cs ih =>
    rw [List.map_cons, List.flatMap_cons, ih]
    rfl

theorem Reading.next_raw : (r.next c).2.flatMap Event.raw ++ (r.next c).1.pending = r.pending ++ [c] := by
  cases r with
  | text =>
    rw [Reading.next]
    split
    · rename_i he
      rw [he]
      rfl
    · rfl
  | escape =>
    rw [Reading.next]
    split
    · rename_i hb
      rw [hb]
      rfl
    split
    · rename_i he
      rw [he]
      rfl
    · rfl
  | sequence b =>
    rw [Reading.next]
    cases hclass : ansiEscapeChar c with
    | argument => simp [Reading.pending, Body.text_digit]
    | separator =>
      rw [ansiEscapeChar_separator_char hclass]
      simp [Reading.pending, Body.text_separator]
    | function l =>
      dsimp only
      split
      · simp only [raw_shown, Reading.pending, List.append_nil]
      · simp [Event.raw, Reading.pending, ansiEscapeChar_function_char hclass]
    | notPart =>
      dsimp only
      split
      · rename_i he
        rw [raw_shown, he]
        rfl
      · simp only [raw_shown, Reading.pending, List.append_nil]

/-- The events and what is pending are the input, each character once and in its place. -/
theorem readAll_raw : (readAll r cs).2.flatMap Event.raw ++ (readAll r cs).1.pending = r.pending ++ cs := by
  induction cs generalizing r with
  | nil => simp [readAll]
  | cons c cs ih =>
    rw [readAll, List.flatMap_append, List.append_assoc, ih, ← List.append_assoc, Reading.next_raw]
    simp

-- ---------------------------------------------------------------------------
-- The parser reads plain input

theorem ansiEscapeChar_newline : ansiEscapeChar newline = .notPart := by decide

theorem putChar_of_ne_newline (hc : c ≠ newline) : putChar t c = putPrintable t c := if_neg hc

theorem putChar_escape : putChar t Os5.escape = .ok t := rfl

theorem apply_shown (h : newline ∉ cs) :
    (cs.map Event.shown).foldlM Event.apply t = cs.foldlM putPrintable t := by
  induction cs generalizing t with
  | nil => rfl
  | cons c cs ih =>
    rw [List.mem_cons, not_or] at h
    rw [List.map_cons, List.foldlM_cons, List.foldlM_cons, Event.apply, putChar_of_ne_newline (Ne.symm h.1)]
    exact congrArg _ (funext fun _ => ih h.2)

theorem Tracks.given (h : Tracks (.sequence b) a) : a.given = b.arguments := by
  obtain ⟨-, -, hrest, hargs, -⟩ := h
  unfold Ansi.given Body.arguments
  rw [hrest, hargs]
  split <;> simp

theorem Tracks.sound (h : Tracks (.sequence b) a) (hw : a.Within) : a.Sound := by
  refine ⟨hw.bufp, fun x hx => ?_⟩
  rw [h.2.2.2.1] at hx
  obtain ⟨n, -, rfl⟩ := List.mem_map.mp hx
  exact atoi_lt n

theorem Tracks.length (h : Tracks (.sequence b) a) : a.buffer.length = b.text.length + 1 := by
  rw [h.2.1, List.length_cons]

def Follows (s : Console τ) (c : UInt8) (n : Reading × List Event) : Prop :=
  ∃ a : Ansi, Tracks n.1 a ∧ a.Within ∧ terminalPutch s c = (n.2.foldlM Event.apply s.screen).map fun t => ⟨a, t⟩

theorem Tracks.text (h : Tracks .text s.ansi) (hw : s.ansi.Within) : Follows s c (Reading.text.next c) := by
  rw [Reading.next]
  have hcheck := checkForEscape_text (s := s) (c := c) h
  split
  · rename_i he
    rw [if_pos he] at hcheck
    exact ⟨{ s.ansi with state := .gotEscape }, rfl, ⟨hw.bufp, hw.buffer, hw.args⟩, terminalPutch_taken hcheck⟩
  · rename_i he
    rw [if_neg he] at hcheck
    refine ⟨s.ansi, h, hw, ?_⟩
    rw [terminalPutch_left hcheck, List.foldlM_cons, Event.apply]
    cases putChar s.screen c <;> rfl

theorem Tracks.escape (h : Tracks .escape s.ansi) (hw : s.ansi.Within) (hc : Reading.escape.Plain c) :
    Follows s c (Reading.escape.next c) := by
  rw [Reading.next]
  have hcheck := checkForEscape_gotEscape (s := s) (c := c) h
  split
  · rename_i hb
    rw [if_pos hb] at hcheck
    refine ⟨_, ⟨rfl, rfl, rfl, rfl, List.not_mem_nil⟩, ⟨le_rfl, by decide, Nat.zero_le _⟩, terminalPutch_taken hcheck⟩
  · rename_i hb
    rw [if_neg hb] at hcheck
    obtain rfl := hc.resolve_left hb
    rw [if_pos rfl]
    refine ⟨s.ansi, h, hw, ?_⟩
    rw [terminalPutch_left hcheck]
    rfl

theorem apply_shown_zero : ((cs ++ [0]).map Event.shown).foldlM Event.apply t =
    (cs.map Event.shown).foldlM Event.apply t := by
  rw [List.map_append, List.foldlM_append]
  cases (cs.map Event.shown).foldlM Event.apply t <;> rfl

theorem bailPrint_eq (ha : a.buffer = openBracket :: cs) (hcs : newline ∉ cs) :
    (bailPrint { s with ansi := a }).map (true, ·) =
      (((Os5.escape :: openBracket :: cs).map Event.shown).foldlM Event.apply s.screen).map fun t => (true, ⟨a, t⟩) := by
  have hshown := @apply_shown _ _ s.screen (openBracket :: cs) (by simp [hcs]; decide)
  rw [bailPrint, List.map_cons, List.foldlM_cons, Event.apply, putChar_escape]
  simp only [ha]
  show Except.map _ (Except.map _ (List.foldlM putPrintable s.screen (openBracket :: cs))) =
    Except.map _ (((openBracket :: cs).map Event.shown).foldlM Event.apply s.screen)
  rw [hshown]
  cases List.foldlM putPrintable s.screen (openBracket :: cs) <;> rfl

theorem terminalPutch_map {x : Except Overrun τ} (h : checkForEscape s c = x.map fun t => (true, ⟨a, t⟩)) :
    terminalPutch s c = x.map fun t => ⟨a, t⟩ := by
  cases x with
  | ok t => exact terminalPutch_taken h
  | error e =>
    rw [terminalPutch, h]
    rfl

theorem Tracks.sequence (h : Tracks (.sequence b) s.ansi) (hw : s.ansi.Within) (hc : (Reading.sequence b).Plain c) :
    Follows s c ((Reading.sequence b).next c) := by
  have hsound := h.sound hw
  have hgiven := h.given
  have hlength := h.length
  obtain ⟨hstate, hbuffer, hrest, hargs, hline⟩ := h
  obtain ⟨hlen, hc⟩ := hc
  rw [Reading.next]
  have hbufp : s.ansi.bufp ≤ (s.ansi.buffer ++ [c]).length := hw.bufp.trans (by simp)
  by_cases hzero : c = 0
  · -- nothing is appended, and a zero is not printed
    subst hzero
    rw [ansiEscapeChar_zero]
    dsimp only
    rw [if_neg (by decide)]
    refine ⟨{ s.ansi with state := .notStarted }, rfl, ⟨hw.bufp, hw.buffer, hw.args⟩, ?_⟩
    rw [apply_shown_zero]
    refine terminalPutch_map ?_
    rw [checkForEscape, hstate]
    exact bailPrint_eq (a := { s.ansi with state := .notStarted }) hbuffer hline
  have hfits : s.ansi.buffer.length < 255 := by
    have := hlen.resolve_left hzero
    omega
  have hcat := Ansi.strncat_ok hzero hfits
  have hbuffer' : s.ansi.buffer ++ [c] = openBracket :: (b.text ++ [c]) := by rw [hbuffer, List.cons_append]
  have hlen' : (s.ansi.buffer ++ [c]).length < 256 := by
    rw [List.length_append, List.length_singleton]
    omega
  cases hclass : ansiEscapeChar c with
  | argument =>
    have hcheck : checkForEscape s c = .ok (true, { s with ansi := { s.ansi with buffer := s.ansi.buffer ++ [c] } }) := by
      rw [checkForEscape, hstate]
      exact bind_ok.mpr ⟨_, hcat, by rw [hclass]⟩
    have hnl : newline ≠ c := by
      rintro rfl
      rw [ansiEscapeChar_newline] at hclass
      cases hclass
    refine ⟨{ s.ansi with buffer := s.ansi.buffer ++ [c] }, ⟨hstate, ?_, ?_, hargs, ?_⟩, ⟨hbufp, hlen', hw.args⟩,
      terminalPutch_taken hcheck⟩
    · rw [Body.text_digit]
      exact hbuffer'
    · rw [hsound.rest_concat, hrest]
    · rw [Body.text_digit]
      simp [hline, hnl]
  | separator =>
    rw [hclass] at hc
    have hdigit := ansiEscapeChar_not_argument (c := c) (by simp [hclass])
    have hargs' : s.ansi.args.length < 16 := by rwa [hargs, List.length_map]
    have hsave := hsound.saveArg hdigit hargs'
    obtain rfl := ansiEscapeChar_separator_char hclass
    have hcheck : checkForEscape s semicolon = .ok (true, { s with ansi := ⟨s.ansi.state, s.ansi.buffer ++ [semicolon],
        (s.ansi.buffer ++ [semicolon]).length, s.ansi.args ++ [atoi s.ansi.rest]⟩ }) := by
      rw [checkForEscape, hstate]
      refine bind_ok.mpr ⟨_, hcat, ?_⟩
      rw [hclass]
      exact bind_ok.mpr ⟨_, by rw [← hsave], by rw [hstate]⟩
    refine ⟨⟨s.ansi.state, s.ansi.buffer ++ [semicolon], (s.ansi.buffer ++ [semicolon]).length,
      s.ansi.args ++ [atoi s.ansi.rest]⟩, ⟨hstate, ?_, ?_, ?_, ?_⟩, ⟨le_rfl, hlen', ?_⟩, terminalPutch_taken hcheck⟩
    · rw [Body.text_separator]
      exact hbuffer'
    · exact List.drop_length
    · show s.ansi.args ++ [atoi s.ansi.rest] = _
      rw [hargs, hrest, List.map_append, List.map_singleton]
    · rw [Body.text_separator]
      simp [hline]
      decide
    · rw [List.length_append]
      exact hargs'
  | function l =>
    rw [hclass] at hc
    obtain ⟨hcount, haccepts⟩ := hc
    rw [← hgiven] at hcount haccepts
    obtain ⟨k, hsaved, hk⟩ := hsound.saved (ansiEscapeChar_not_argument (by rw [hclass]; exact fun h => by cases h)) hcount
    dsimp only
    rw [← hgiven, haccepts, if_neg Bool.false_ne_true]
    refine ⟨⟨.notStarted, s.ansi.buffer ++ [c], k, s.ansi.given⟩, rfl, ⟨hk, hlen', hcount⟩, terminalPutch_map ?_⟩
    rw [checkForEscape, hstate]
    dsimp only
    rw [hcat, hclass]
    show Ansi.saveLast _ >>= _ = Except.map _ (Screen.command l b.arguments s.screen >>= pure)
    rw [hsaved, bind_pure, ← hgiven]
    show (if rejects l s.ansi.given = true then _ else Screen.command l s.ansi.given s.screen >>= _) = _
    rw [haccepts, if_neg Bool.false_ne_true]
    cases Screen.command l s.ansi.given s.screen <;> rfl
  | notPart =>
    rw [hclass] at hc
    dsimp only
    rw [if_neg hc.2]
    refine ⟨⟨.notStarted, s.ansi.buffer ++ [c], s.ansi.bufp, s.ansi.args⟩, rfl, ⟨hbufp, hlen', hw.args⟩, terminalPutch_map ?_⟩
    rw [checkForEscape, hstate]
    dsimp only
    rw [hcat, hclass]
    exact bailPrint_eq hbuffer' (by simp [hline, Ne.symm hc.1])

theorem Tracks.putch (h : Tracks r s.ansi) (hw : s.ansi.Within) (hc : r.Plain c) : Follows s c (r.next c) := by
  cases r with
  | text => exact h.text hw
  | escape => exact h.escape hw hc
  | sequence b => exact h.sequence hw hc

theorem Tracks.run (h : Tracks r s.ansi) (hw : s.ansi.Within) (hcs : PlainText r cs) :
    ∃ a : Ansi, Tracks (readAll r cs).1 a ∧ a.Within ∧
      cs.foldlM terminalPutch s = ((readAll r cs).2.foldlM Event.apply s.screen).map fun t => ⟨a, t⟩ := by
  induction cs generalizing r s with
  | nil => exact ⟨s.ansi, h, hw, rfl⟩
  | cons c cs ih =>
    obtain ⟨a, ha, haw, hput⟩ := h.putch hw hcs.1
    rw [readAll, List.foldlM_cons, List.foldlM_append, hput]
    cases hevents : (r.next c).2.foldlM Event.apply s.screen with
    | ok t =>
      exact ih (s := ⟨a, t⟩) ha haw hcs.2
    | error e =>
      obtain ⟨a', ha', haw', -⟩ := ih (s := ⟨a, s.screen⟩) ha haw hcs.2
      exact ⟨a', ha', haw', rfl⟩

/-- On plain input the parser stays within its buffers, is in its first state whenever no sequence
is under way, and the screen gets the events, in which every character stands once. -/
theorem escape_sequences {τ : Type} [Screen τ] (t : τ) {cs : List UInt8} (hcs : PlainText .text cs) :
    (∃ a : Ansi, Tracks (readAll .text cs).1 a ∧ a.Within ∧
      cs.foldlM terminalPutch ⟨ansiStart, t⟩ = ((readAll .text cs).2.foldlM Event.apply t).map fun t => ⟨a, t⟩) ∧
    (readAll .text cs).2.flatMap Event.raw ++ (readAll .text cs).1.pending = cs :=
  ⟨Tracks.run rfl ⟨le_rfl, Nat.zero_lt_succ _, Nat.zero_le _⟩ hcs, readAll_raw⟩

end

/-- Red text: `ESC [ 1 ; 3 1 m`, a letter and a newline. -/
def redText : List UInt8 := [escape, openBracket, 49, semicolon, 51, 49, Letter.m.char, 97, newline]

theorem escape_sequences_red : ∃ a : Ansi, a.Within ∧
    redText.foldlM terminalPutch ⟨ansiStart, newTerminal 25 80⟩ =
      ((readAll .text redText).2.foldlM Event.apply (newTerminal 25 80)).map fun t => ⟨a, t⟩ := by
  obtain ⟨⟨a, -, hw, hrun⟩, -⟩ := escape_sequences (newTerminal 25 80) (@id (PlainText .text redText) (by decide +kernel))
  exact ⟨a, hw, hrun⟩

def parserRun (cs : List UInt8) : Except Overrun (AnsiState × Int × Int) :=
  (cs.foldlM terminalPutch (⟨ansiStart, newTerminal 25 80⟩ : Console Terminal)).map fun s =>
    (s.ansi.state, s.screen.csrRow, s.screen.csrCol)

/-- A sequence that is too long and one with too many arguments leave their buffers, a rejected command
and an escape before a letter keep the state, a rejected sequence is printed twice, and a newline that
ends a sequence is lost. -/
theorem escape_sequences_leaves :
    (parserRun (escape :: openBracket :: List.replicate 255 49) matches .error .ansiBuffer) ∧
    (parserRun (escape :: openBracket :: List.replicate 17 semicolon) matches .error .ansiArgs) ∧
    (parserRun [escape, openBracket, Letter.H.char] matches .ok (.inSequence, 0, 2)) ∧
    (parserRun [escape, openBracket, Letter.H.char, 32] matches .ok (.notStarted, 0, 5)) ∧
    (parserRun [escape, 120] matches .ok (.gotEscape, 0, 1)) ∧
    (parserRun [escape, openBracket, newline] matches .ok (.notStarted, 0, 1)) := by
  decide +kernel

end Os5
