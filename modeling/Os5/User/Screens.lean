import Os5.User.Keys

/-!
# What is on the screen

Lines that fit stand on the screen as they were printed, one to a row, and nothing else changes.
-/

namespace Os5

open Transition Outcome

def Terminal.at (t : Terminal) (i j : Nat) : Option Nat := t.buffer[i * t.cols.toNat + j]?

structure Terminal.Placed (t : Terminal) (rows cols r c : Nat) : Prop where
  cells : t.buffer.length = rows * cols
  size : t.rows = rows ∧ t.cols = cols
  csrRow : t.csrRow = r
  csrCol : t.csrCol = c

/-- What is in a place when the lines begin at row `r`. -/
def lineEntry (cell : UInt8 → Nat) (lines : List (List UInt8)) (r i j : Nat) : Option Nat :=
  if r ≤ i then (lines[i - r]?).bind fun text => (text[j]?).map cell else none

/-- The lines fit between a row and the end of the screen. -/
structure LinesFit (rows cols r : Nat) (lines : List (List UInt8)) : Prop where
  height : r + lines.length ≤ rows
  width : ∀ line ∈ lines, line.length ≤ cols
  printable : ∀ line ∈ lines, ∀ c ∈ line, isprint c

section
variable {t t' : Terminal} {rows cols r c i j : Nat} {a : Ansi} {ch : UInt8} {text : List UInt8} {lines : List (List UInt8)}

theorem place_inj (hj : j < cols) (hc : c < cols) : i * cols + j = r * cols + c ↔ i = r ∧ j = c := by
  constructor
  · intro h
    have hrow : i = r := by
      have hdiv := congrArg (· / cols) h
      simpa [Nat.mul_comm _ cols, Nat.mul_add_div (Nat.zero_lt_of_lt hj), Nat.div_eq_of_lt hj, Nat.div_eq_of_lt hc] using hdiv
    subst hrow
    exact ⟨rfl, Nat.add_left_cancel h⟩
  · rintro ⟨rfl, rfl⟩
    rfl

theorem place_lt (hi : i < rows) (hj : j < cols) : i * cols + j < rows * cols :=
  calc i * cols + j < (i + 1) * cols := by
        rw [Nat.add_mul, Nat.one_mul]
        omega
    _ ≤ rows * cols := Nat.mul_le_mul_right _ hi

theorem Terminal.Placed.putc (h : t.Placed rows cols r c) (hr : r < rows) (hc : c < cols) :
    ∃ t', terminalPutc t ch = .ok t' ∧ t'.Placed rows cols r (c + 1) ∧ t'.cell = t.cell ∧
      ∀ i j, j < cols → t'.at i j = if i = r ∧ j = c then some (t.cell ch) else t.at i j := by
  have hlt : r * cols + c < t.buffer.length := h.cells ▸ place_lt hr hc
  have hplace : t.csrRow * t.cols + t.csrCol = ((r * cols + c : Nat) : Int) := by
    rw [h.csrRow, h.size.2, h.csrCol]
    norm_cast
  refine ⟨{ t with buffer := t.buffer.set (r * cols + c) (t.cell ch), csrCol := t.csrCol + 1 }, ?_,
    ⟨?_, h.size, h.csrRow, ?_⟩, rfl, fun i j hj => ?_⟩
  · rw [terminalPutc]
    simp only [hplace]
    rw [if_pos ⟨Int.natCast_nonneg _, Int.ofNat_lt.mpr hlt⟩, if_neg, Int.toNat_natCast]
    rw [h.csrCol, h.size.2]
    omega
  · rw [List.length_set, h.cells]
  · rw [h.csrCol]
    rfl
  · show (t.buffer.set _ _)[i * t.cols.toNat + j]? = if _ then _ else t.buffer[i * t.cols.toNat + j]?
    rw [h.size.2, Int.toNat_natCast, List.getElem?_set]
    by_cases hsame : i = r ∧ j = c
    · rw [if_pos ((place_inj hc hj).mpr ⟨hsame.1.symm, hsame.2.symm⟩), if_pos hsame, if_pos hlt]
    · rw [if_neg (fun heq => hsame ((place_inj hj hc).mp heq.symm)), if_neg hsame]

theorem putch_printable (ha : a.state = .notStarted) (hch : isprint ch) :
    terminalPutch ⟨a, t⟩ ch = (terminalPutc t ch).map fun t => ⟨a, t⟩ := by
  have hescape : ch ≠ escape := by
    rintro rfl
    cases hch
  have hnewline : ch ≠ newline := by
    rintro rfl
    cases hch
  have hcheck := checkForEscape_text (c := ch) (s := ⟨a, t⟩) ha
  rw [if_neg hescape] at hcheck
  rw [terminalPutch_left hcheck, putChar, if_neg hnewline, putPrintable, if_pos hch]
  rfl

theorem putch_newline (ha : a.state = .notStarted) :
    terminalPutch ⟨a, t⟩ newline = .ok ⟨a, { t with csrRow := t.csrRow + 1, csrCol := 0 }⟩ := by
  have hcheck := checkForEscape_text (c := newline) (s := ⟨a, t⟩) ha
  rw [if_neg (by decide)] at hcheck
  rw [terminalPutch_left hcheck, putChar, if_pos rfl]
  rfl

theorem Terminal.Placed.line (h : t.Placed rows cols r c) (hr : r < rows) (hfit : c + text.length ≤ cols)
    (hprint : ∀ ch ∈ text, isprint ch) (ha : a.state = .notStarted) :
    ∃ t', text.foldlM terminalPutch ⟨a, t⟩ = .ok ⟨a, t'⟩ ∧ t'.Placed rows cols r (c + text.length) ∧ t'.cell = t.cell ∧
      ∀ i j, j < cols → t'.at i j = if i = r ∧ c ≤ j ∧ j < c + text.length then (text[j - c]?).map t.cell else t.at i j := by
  induction text generalizing t c with
  | nil =>
    refine ⟨t, rfl, h, rfl, fun i j _ => ?_⟩
    rw [if_neg]
    rintro ⟨-, hle, hlt⟩
    exact absurd hlt (Nat.not_lt.mpr hle)
  | cons ch rest ih =>
    rw [List.forall_mem_cons] at hprint
    rw [List.length_cons] at hfit
    obtain ⟨t1, hputc, hplaced, hcell, hat⟩ := @Terminal.Placed.putc t rows cols r c ch h hr (by omega)
    obtain ⟨t2, hrest, hplaced2, hcell2, hat2⟩ := ih hplaced (by omega) hprint.2
    refine ⟨t2, ?_, ?_, hcell2.trans hcell, fun i j hj => ?_⟩
    · rw [List.foldlM_cons, putch_printable ha hprint.1, hputc]
      exact hrest
    · rw [List.length_cons, Nat.add_comm rest.length, ← Nat.add_assoc]
      exact hplaced2
    · rw [hat2 i j hj, hat i j hj, hcell, List.length_cons]
      by_cases hfirst : i = r ∧ j = c
      · obtain ⟨rfl, rfl⟩ := hfirst
        rw [if_neg (by omega), if_pos ⟨rfl, rfl⟩, if_pos (by omega), Nat.sub_self]
        rfl
      · rw [if_neg hfirst]
        by_cases hin : i = r ∧ c + 1 ≤ j ∧ j < c + 1 + rest.length
        · rw [if_pos hin, if_pos (by omega), show j - c = j - (c + 1) + 1 by omega, List.getElem?_cons_succ]
        · rw [if_neg hin, if_neg (by omega)]

theorem lineEntry_cons {cell : UInt8 → Nat} : lineEntry cell (text :: lines) r i j =
    if i = r then (text[j]?).map cell else lineEntry cell lines (r + 1) i j := by
  unfold lineEntry
  split_ifs with h1 h2 h3 h4
  · rw [h2, Nat.sub_self]
    rfl
  · rw [show i - r = i - (r + 1) + 1 by omega, List.getElem?_cons_succ]
  · omega
  · omega
  · omega
  · rfl

theorem LinesFit.head (h : LinesFit rows cols r (text :: lines)) :
    r < rows ∧ text.length ≤ cols ∧ (∀ ch ∈ text, isprint ch) ∧ LinesFit rows cols (r + 1) lines := by
  obtain ⟨hheight, hwidth, hprint⟩ := h
  rw [List.length_cons] at hheight
  rw [List.forall_mem_cons] at hwidth hprint
  exact ⟨by omega, hwidth.1, hprint.1, by omega, hwidth.2, hprint.2⟩

theorem Terminal.Placed.page (h : t.Placed rows cols r 0) (hfit : LinesFit rows cols r lines) (ha : a.state = .notStarted) :
    ∃ t', (lines.flatMap (· ++ [newline])).foldlM terminalPutch ⟨a, t⟩ = .ok ⟨a, t'⟩ ∧
      t'.Placed rows cols (r + lines.length) 0 ∧ t'.cell = t.cell ∧
      ∀ i j, j < cols → t'.at i j = (lineEntry t.cell lines r i j).or (t.at i j) := by
  induction lines generalizing t r with
  | nil =>
    refine ⟨t, rfl, h, rfl, fun i j _ => ?_⟩
    unfold lineEntry
    split_ifs <;> rfl
  | cons text lines ih =>
    obtain ⟨hr, hwidth, hprint, hrest⟩ := hfit.head
    obtain ⟨t1, hline, hplaced1, hcell1, hat1⟩ := h.line hr (by omega) hprint ha
    have hplaced2 : Terminal.Placed { t1 with csrRow := t1.csrRow + 1, csrCol := 0 } rows cols (r + 1) 0 := by
      refine ⟨hplaced1.cells, hplaced1.size, ?_, rfl⟩
      rw [hplaced1.csrRow]
      rfl
    obtain ⟨t3, hlines, hplaced3, hcell3, hat3⟩ := ih hplaced2 hrest
    refine ⟨t3, ?_, ?_, hcell3.trans hcell1, fun i j hj => ?_⟩
    · rw [List.flatMap_cons, List.append_assoc, List.foldlM_append, hline]
      show List.foldlM terminalPutch _ (newline :: lines.flatMap _) = _
      rw [List.foldlM_cons, putch_newline ha]
      exact hlines
    · rw [List.length_cons, Nat.add_comm lines.length, ← Nat.add_assoc]
      exact hplaced3
    · rw [hat3 i j hj]
      show (lineEntry t1.cell lines (r + 1) i j).or (t1.at i j) = _
      rw [hat1 i j hj, hcell1, lineEntry_cons, Nat.zero_add, Nat.sub_zero]
      by_cases hi : i = r
      · have hlater : lineEntry t.cell lines (r + 1) i j = none := if_neg (by omega)
        rw [hlater, if_pos hi, Option.none_or]
        by_cases hj : j < text.length
        · rw [if_pos ⟨hi, Nat.zero_le j, hj⟩, List.getElem?_eq_getElem hj]
          rfl
        · rw [if_neg fun h => hj h.2.2, List.getElem?_eq_none (Nat.not_lt.mp hj)]
          rfl
      · rw [if_neg fun h => hi h.1, if_neg hi]

theorem output_step {fork : Nat → Nat} {s : Vterms} {n : Nat} {v : Vterm} {x : Console Terminal} (hv : s.vterm n = some v)
    (hshown : s.Shown) (h : terminalPutch ⟨s.ansi, v.screen⟩ ch = .ok x) :
    ∃ s', s.step fork (.output n ch) = some s' ∧ s'.ansi = x.ansi ∧ s'.vterm = Function.update s.vterm n (some ⟨x.screen, v.pid⟩) ∧
      s'.active = s.active ∧ s'.calls = s.calls ∧ s'.Shown := by
  have hself : Function.update s.vterm n (some ⟨x.screen, v.pid⟩) n = some ⟨x.screen, v.pid⟩ := Function.update_self _ _ _
  have hputch : s.putch n ch = .ok { s with ansi := x.ansi, vterm := Function.update s.vterm n (some ⟨x.screen, v.pid⟩) } := by
    unfold Vterms.putch
    rw [hv]
    dsimp only
    rw [h]
  have hisSome : (s.vterm n).isSome := by
    rw [hv]
    rfl
  rw [Vterms.step, if_pos hisSome, Vterms.output, hputch]
  by_cases hactive : s.active = n
  · subst hactive
    have hcopied := @copybuffer_shown { s with
      ansi := x.ansi, vterm := Function.update s.vterm s.active (some ⟨x.screen, v.pid⟩) } ⟨x.screen, v.pid⟩ hself
    refine ⟨_, congrArg some (if_pos rfl), ?_⟩
    rw [copybuffer_some hself] at hcopied ⊢
    exact ⟨rfl, rfl, rfl, rfl, hcopied⟩
  · refine ⟨_, congrArg some (if_neg hactive), rfl, rfl, rfl, rfl, ?_⟩
    obtain ⟨w, hw, hmem, hcursor⟩ := hshown
    exact ⟨w, (Function.update_of_ne hactive _ _).trans hw, hmem, hcursor⟩

theorem output_exec {fork : Nat → Nat} {s : Vterms} {n : Nat} {v : Vterm} {chars : List UInt8} {a' : Ansi} (hv : s.vterm n = some v)
    (hshown : s.Shown) (h : chars.foldlM terminalPutch ⟨s.ansi, v.screen⟩ = .ok ⟨a', t'⟩) :
    ∃ s', exec (Vterms.step fork) s (chars.map (.output n)) = some s' ∧ s'.vterm n = some ⟨t', v.pid⟩ ∧
      (∀ m, m ≠ n → s'.vterm m = s.vterm m) ∧ s'.active = s.active ∧ s'.calls = s.calls ∧ s'.Shown := by
  induction chars generalizing s v with
  | nil =>
    obtain ⟨-, rfl⟩ := Console.mk.inj (Except.ok.inj h)
    exact ⟨s, rfl, hv, fun _ _ => rfl, rfl, rfl, hshown⟩
  | cons ch chars ih =>
    rw [List.foldlM_cons] at h
    obtain ⟨x, hx, hrest⟩ := bind_ok.mp h
    obtain ⟨s1, hstep, hansi, hvterm, hactive, hcalls, hshown1⟩ := @output_step ch fork s n v x hv hshown hx
    obtain ⟨s2, hexec, hv2, hothers, hactive2, hcalls2, hshown2⟩ := @ih s1 ⟨x.screen, v.pid⟩
      (by rw [hvterm, Function.update_self]) hshown1 (by rw [hansi]; exact hrest)
    refine ⟨s2, ?_, hv2, fun m hm => ?_, hactive2.trans hactive, hcalls2.trans hcalls, hshown2⟩
    · rw [List.map_cons, exec_cons, hstep]
      exact hexec
    · rw [hothers m hm, hvterm, Function.update_of_ne hm]

/-- Lines that fit, printed by the program in a terminal at any time: each is in its row of that terminal, everything
else is as it was, and the screen shows them if the terminal is active. -/
theorem printed_lines {fork : Nat → Nat} {s : Vterms} {codes : List UInt8} {n rows cols r : Nat} {v : Vterm} (hs : s.Heard fork codes)
    (hv : s.vterm n = some v) (hplaced : v.screen.Placed rows cols r 0) (hfit : LinesFit rows cols r lines)
    (hparser : s.ansi.state = .notStarted) :
    ∃ s' t', exec (Vterms.step fork) s ((lines.flatMap (· ++ [newline])).map (.output n)) = some s' ∧
      s'.vterm n = some ⟨t', v.pid⟩ ∧ t'.Placed rows cols (r + lines.length) 0 ∧ t'.cell = v.screen.cell ∧
      (∀ i j, j < cols → t'.at i j = (lineEntry v.screen.cell lines r i j).or (v.screen.at i j)) ∧
      (∀ m, m ≠ n → s'.vterm m = s.vterm m) ∧ s'.active = s.active ∧ s'.calls = s.calls ∧
      (s.active = n → ∀ i j, i < rows → j < cols → s'.vidmem[i * cols + j]? = t'.at i j) := by
  obtain ⟨t', hprint, hplaced', hcell, hat⟩ := hplaced.page hfit hparser
  obtain ⟨s', hexec, hv', hothers, hactive, hcalls, hshown⟩ :=
    @output_exec t' fork s n v _ _ hv hs.ran.shown hprint
  refine ⟨s', t', hexec, hv', hplaced', hcell, hat, hothers, hactive, hcalls, fun hn i j hi hj => ?_⟩
  obtain ⟨w, hw, hmem, -⟩ := hshown
  rw [hactive, hn, hv'] at hw
  obtain rfl := Option.some.inj hw
  have hlt : i * cols + j < t'.buffer.length := hplaced'.cells ▸ place_lt hi hj
  rw [Terminal.at, hplaced'.size.2, Int.toNat_natCast, ← List.getElem?_take_of_lt hlt]
  exact congrArg (·[i * cols + j]?) hmem

end

theorem newTerminal_placed (rows cols : Nat) : (newTerminal rows cols).Placed rows cols 0 0 :=
  ⟨List.length_replicate, ⟨rfl, rfl⟩, rfl, rfl⟩

theorem start_vterm (fork : Nat → Nat) (vidmem : List Nat) (cursor : Nat) :
    (Vterms.start fork vidmem cursor).vterm 0 = some ⟨newTerminal 25 80, fork 0⟩ := rfl

theorem printed_lines_hi : ∃ s, exec (Vterms.step id) (Vterms.start id [] 0) ([104, 105, newline].map (.output 0)) = some s ∧
    s.vidmem[1]? = some 0x769 := by
  have hfit : LinesFit 25 80 0 [[104, 105]] := ⟨by decide, by decide, by decide +kernel⟩
  obtain ⟨s, t, hexec, -, -, -, hat, -, -, -, hscreen⟩ := printed_lines (start_heard [] 0) (start_vterm id [] 0)
    (newTerminal_placed 25 80) hfit rfl
  refine ⟨s, hexec, ?_⟩
  rw [show (1 : Nat) = 0 * 80 + 1 from rfl, hscreen rfl 0 1 (by decide) (by decide), hat 0 1 (by decide)]
  rfl

end Os5
