import Os5.Lib.Outcome

/-!
# Variables in a command line

`parse_command` copies a line to `buffer2` with the variables expanded. A line is the list of its
bytes before the zero; nothing is known of what lies behind that zero, behind `env` or `buffer2`.
-/

namespace Os5

open Outcome

abbrev bufSize : Nat := 1024

def dollar : UInt8 := '$'.toUInt8

/-- In the C locale. -/
def isalnum (c : UInt8) : Bool :=
  '0'.toUInt8 ≤ c && c ≤ '9'.toUInt8 || 'A'.toUInt8 ≤ c && c ≤ 'Z'.toUInt8 || 'a'.toUInt8 ≤ c && c ≤ 'z'.toUInt8

inductive Outside where
  | line
  | env
  | buffer2
  deriving DecidableEq

/-- The values of variables are strings. -/
structure Environment where
  getenv : List UInt8 → Option (List UInt8)
  string : ∀ name v, getenv name = some v → 0 ∉ v

def store (b : List UInt8) (p2 : Nat) (c : UInt8) : Except Outside (List UInt8) :=
  if p2 < bufSize then .ok (b.set p2 c) else .error .buffer2

/-- The loop that copies a value. -/
def storeAll (b : List UInt8) (p2 : Nat) : List UInt8 → Except Outside (List UInt8)
  | [] => .ok b
  | c :: v => do
    let b ← store b p2 c
    storeAll b (p2 + 1) v

/-- The loop that copies the name behind a `$` to `env`. -/
def envName (s : List UInt8) : List UInt8 := (s.takeWhile isalnum).take 64

/-- The loop on the rest of the line, of which `p` is so many characters ahead. -/
def parseFrom (e : Environment) : Nat → List UInt8 → List UInt8 → Nat → Except Outside (Option (List UInt8))
  | 0, [], b, p2 => (store b p2 0).map some
  | _ + 1, [], _, _ => .error .line
  | k + 1, _ :: s, b, p2 => parseFrom e k s b p2
  | 0, c :: s, b, p2 =>
    if p2 > bufSize then .ok none
    else if c = dollar then
      if (envName s).length = 64 then .error .env
      else
        -- behind the name there is one more `p++`, and one more `p2++` that only a value takes back
        match e.getenv (envName s) with
        | some v => do
          let b ← storeAll b p2 v
          parseFrom e ((envName s).length + 1) s b (p2 + v.length)
        | none => parseFrom e ((envName s).length + 1) s b (p2 + 1)
    else do
      let b ← store b p2 (if c = '\n'.toUInt8 then 0 else c)
      parseFrom e 0 s b (p2 + 1)

/-- What comes of `buffer2`, or nothing where the function returns 0. -/
def parseCommand (e : Environment) (buffer2 line : List UInt8) : Except Outside (Option (List UInt8)) :=
  parseFrom e 0 line buffer2 0

/-- Each `$` and the alphanumeric characters behind it become the value of the variable. -/
def expand (e : Environment) : List UInt8 → List UInt8
  | [] => []
  | c :: s =>
    if c = dollar then (e.getenv (s.takeWhile isalnum)).getD [] ++ expand e (s.dropWhile isalnum)
    else c :: expand e s
termination_by s => s.length
decreasing_by
  · exact Nat.lt_succ_of_le (List.dropWhile_suffix _).length_le
  · exact Nat.lt_succ_self _

/-- The string returned is the line with its variables expanded, and nothing outside is read or written. -/
def ParsesRight (e : Environment) (buffer2 line : List UInt8) : Prop :=
  ∃ b, parseCommand e buffer2 line = .ok (some b) ∧ b.takeWhile (· ≠ 0) = expand e line

def unset : Environment := ⟨fun _ => none, nofun⟩

section
variable {e : Environment} {b b' line s u v : List UInt8} {p2 k : Nat} {c : UInt8}

theorem expand_append (h : dollar ∉ u) : expand e (u ++ s) = u ++ expand e s := by
  induction u with
  | nil => rfl
  | cons c u ih =>
    rw [List.mem_cons, not_or] at h
    rw [List.cons_append, expand, if_neg (Ne.symm h.1), ih h.2, List.cons_append]

theorem expand_of_notMem (h : dollar ∉ line) : expand e line = line := by
  have happend := @expand_append e [] line h
  rwa [List.append_nil, expand, List.append_nil] at happend

theorem expand_unset_le (e : Environment) (line : List UInt8) : (expand unset line).length ≤ (expand e line).length := by
  induction line using expand.induct with
  | case1 => rw [expand, expand]
  | case2 s ih =>
    rw [expand, expand, if_pos rfl, if_pos rfl, List.length_append, List.length_append]
    exact Nat.add_le_add (Nat.zero_le _) ih
  | case3 c s hc ih =>
    rw [expand, expand, if_neg hc, if_neg hc]
    exact Nat.succ_le_succ ih

theorem take_set_succ (h : p2 < b.length) : (b.set p2 c).take (p2 + 1) = b.take p2 ++ [c] := by
  rw [List.take_succ_eq_append_getElem (by simpa using h), List.take_set_of_le le_rfl, List.getElem_set_self]

theorem store_ok (h : p2 < bufSize) : store b p2 c = .ok (b.set p2 c) := if_pos h

theorem take_of_store (h : store b p2 c = .ok b') (hk : k ≤ p2) : b'.take k = b.take k := by
  unfold store at h
  split at h
  · rw [← Except.ok.inj h, List.take_set_of_le hk]
  · cases h

theorem take_of_storeAll (h : storeAll b p2 v = .ok b') (hk : k ≤ p2) : b'.take k = b.take k := by
  induction v generalizing b p2 with
  | nil =>
    rw [← Except.ok.inj h]
  | cons c v ih =>
    obtain ⟨b1, h1, h2⟩ := bind_ok.mp h
    rw [ih h2 (hk.trans (Nat.le_succ _)), take_of_store h1 hk]

theorem take_of_parseFrom {n : Nat} (h : parseFrom e n s b p2 = .ok (some b')) (hk : k ≤ p2) : b'.take k = b.take k := by
  induction s generalizing n b p2 with
  | nil =>
    cases n with
    | zero =>
      rw [parseFrom] at h
      cases hs : store b p2 0 with
      | ok b1 =>
        rw [hs] at h
        rw [← Option.some.inj (Except.ok.inj h)]
        exact take_of_store hs hk
      | error o =>
        rw [hs] at h
        cases h
    | succ n => cases h
  | cons c s ih =>
    cases n with
    | succ n => exact ih h hk
    | zero =>
      rw [parseFrom] at h
      split at h
      · cases h
      split at h
      · split at h
        · cases h
        split at h
        · obtain ⟨b1, h1, h2⟩ := bind_ok.mp h
          rw [ih h2 (hk.trans (Nat.le_add_right _ _)), take_of_storeAll h1 hk]
        · exact ih h (hk.trans (Nat.le_succ _))
      · obtain ⟨b1, h1, h2⟩ := bind_ok.mp h
        rw [ih h2 (hk.trans (Nat.le_succ _)), take_of_store h1 hk]

theorem parseFrom_copies (hu : dollar ∉ u) (hn : '\n'.toUInt8 ∉ u) (hb : b.length = bufSize) (hfits : p2 + u.length < bufSize) :
    ∃ b', parseFrom e 0 (u ++ s) b p2 = parseFrom e 0 s b' (p2 + u.length) ∧ b'.length = bufSize ∧
      b'.take (p2 + u.length) = b.take p2 ++ u ∧ b'.drop (p2 + u.length) = b.drop (p2 + u.length) := by
  induction u generalizing b p2 with
  | nil => exact ⟨b, rfl, hb, by simp, rfl⟩
  | cons c u ih =>
    rw [List.mem_cons, not_or] at hu hn
    rw [List.length_cons] at hfits ⊢
    obtain ⟨b', hparse, hlen, htake, hdrop⟩ := @ih (b.set p2 c) (p2 + 1) hu.2 hn.2 (by simpa using hb) (by omega)
    have hend : p2 + (u.length + 1) = p2 + 1 + u.length := by omega
    refine ⟨b', ?_, hlen, ?_, ?_⟩
    · rw [List.cons_append, parseFrom, if_neg (by omega), if_neg (Ne.symm hu.1), if_neg (Ne.symm hn.1), store_ok (by omega), hend]
      exact hparse
    · rw [hend, htake, take_set_succ (by omega), List.append_assoc]
      rfl
    · rw [hend, hdrop, List.drop_set_of_lt (by omega)]

theorem takeWhile_nonzero (hu : 0 ∉ u) : (u ++ 0 :: v).takeWhile (· ≠ 0) = u := by
  rw [List.takeWhile_append_of_pos fun c hc => decide_eq_true (ne_of_mem_of_not_mem hc hu), List.takeWhile_cons_of_neg (by simp),
    List.append_nil]

theorem ParsesRight.of_notMem (h : dollar ∉ line) (h0 : 0 ∉ line) (hn : '\n'.toUInt8 ∉ line) (hb : b.length = bufSize)
    (hfits : line.length < bufSize) : ParsesRight e b line := by
  obtain ⟨b', hparse, hlen, htake, -⟩ := @parseFrom_copies e b [] line 0 h hn hb (by omega)
  rw [List.append_nil] at hparse
  rw [Nat.zero_add] at hparse htake
  refine ⟨b'.set line.length 0, ?_, ?_⟩
  · rw [parseCommand, hparse, parseFrom, store_ok hfits]
    rfl
  · rw [expand_of_notMem h, ← List.take_append_drop (line.length + 1) (b'.set line.length 0), take_set_succ (by omega), htake]
    simp only [List.take_zero, List.nil_append, List.append_assoc]
    exact takeWhile_nonzero h0

/-- In an environment without variables the place of a variable keeps what was there before. -/
theorem parseCommand_keeps {x : UInt8} (hu : dollar ∉ u) (hn : '\n'.toUInt8 ∉ u) (hb : b.length = bufSize)
    (hfits : u.length < bufSize) (hx : b[u.length]? = some x) (h : parseCommand unset b (u ++ dollar :: v) = .ok (some b')) :
    b'.take (u.length + 1) = u ++ [x] := by
  obtain ⟨b1, hparse, hlen, htake, hdrop⟩ := @parseFrom_copies unset b (dollar :: v) u 0 hu hn hb (by omega)
  rw [Nat.zero_add] at hparse htake hdrop
  rw [parseCommand, hparse, parseFrom, if_neg (by omega), if_pos rfl] at h
  split at h
  · cases h
  have hx1 : b1[u.length]? = some x := by
    rw [← List.head?_drop, hdrop, List.head?_drop, hx]
  rw [take_of_parseFrom h le_rfl, List.take_add_one, htake, hx1]
  rfl

theorem parseCommand_wrong (h0 : 0 ∉ u) (hu : dollar ∉ u) (hn : '\n'.toUInt8 ∉ u) (hfits : u.length < bufSize) :
    ∃ b : List UInt8, b.length = bufSize ∧ ¬ParsesRight unset b (u ++ dollar :: v) := by
  -- a byte that is neither zero nor what should stand there
  obtain ⟨x, hx0, hx⟩ : ∃ x : UInt8, x ≠ 0 ∧ (expand unset (u ++ dollar :: v))[u.length]? ≠ some x := by
    by_cases h1 : (expand unset (u ++ dollar :: v))[u.length]? = some 1
    · exact ⟨2, by decide, by simp [h1]⟩
    · exact ⟨1, by decide, h1⟩
  refine ⟨List.replicate bufSize x, List.length_replicate, ?_⟩
  rintro ⟨b', hparse, hright⟩
  have htake := parseCommand_keeps hu hn List.length_replicate hfits (List.getElem?_replicate_of_lt hfits) hparse
  apply hx
  rw [← hright, ← List.take_append_drop (u.length + 1) b', htake, List.append_assoc,
    List.takeWhile_append_of_pos fun c hc => decide_eq_true (ne_of_mem_of_not_mem hc h0), List.getElem?_append_right le_rfl,
    List.singleton_append, List.takeWhile_cons_of_pos (by simpa using hx0), Nat.sub_self]
  rfl

/-- `parse_command` is right about a line in every environment, whatever it expanded before, if and only
if there is no variable in the line. -/
theorem parse_command_iff (h0 : 0 ∉ line) (hn : '\n'.toUInt8 ∉ line) (hfits : ∃ e, (expand e line).length < bufSize) :
    (∀ (e : Environment) (buffer2 : List UInt8), buffer2.length = bufSize → (expand e line).length < bufSize →
      ParsesRight e buffer2 line) ↔ dollar ∉ line := by
  constructor
  · intro hright hdollar
    obtain ⟨u, v, rfl, hu⟩ := List.eq_append_cons_of_mem hdollar
    obtain ⟨e, he⟩ := hfits
    have hunset : (expand unset (u ++ dollar :: v)).length < bufSize := (expand_unset_le e _).trans_lt he
    have hlen : u.length < bufSize := by
      rw [expand_append hu, List.length_append] at hunset
      omega
    obtain ⟨b, hb, hwrong⟩ := @parseCommand_wrong u v (mt (List.mem_append_left _) h0) hu (mt (List.mem_append_left _) hn) hlen
    exact hwrong (hright unset b hb hunset)
  · intro h e b hb hfits
    rw [expand_of_notMem h] at hfits
    exact ParsesRight.of_notMem h h0 hn hb hfits

end

def aLine : List UInt8 := [120, 32, dollar, 65, 32, 121]

def aIsOne : Environment := ⟨fun name => if name = [65] then some [49] else none, by
  intro name v h
  split at h
  · rw [← Option.some.inj h]
    decide
  · cases h⟩

theorem parse_command_word : ParsesRight aIsOne (List.replicate bufSize 0) [120, 32, 121] :=
  (parse_command_iff (by decide) (by decide) ⟨aIsOne, by simp [expand]; decide⟩).mpr (by decide) _ _ List.length_replicate (by simp [expand]; decide)

/-- `x $A y` becomes `x 1y`, and after `x $A` the line is left. -/
theorem parse_command_skips : ¬ParsesRight aIsOne (List.replicate bufSize 0) aLine ∧
    (parseCommand aIsOne (List.replicate bufSize 0) [120, 32, dollar, 65] matches .error .line) := by
  constructor
  · rintro ⟨b, hb, hright⟩
    have hshort : (parseCommand aIsOne (List.replicate bufSize 0) aLine).toOption.bind (·.map (·.takeWhile (· ≠ 0))) =
        some [120, 32, 49, 121] := by decide +kernel
    have hlong : expand aIsOne ([120, 32] ++ dollar :: [65, 32, 121]) = [120, 32, 49, 32, 121] := by
      rw [expand_append (by decide), expand, if_pos rfl]
      show [120, 32] ++ ([49] ++ expand aIsOne [32, 121]) = _
      rw [expand_of_notMem (by decide)]
      rfl
    rw [hb] at hshort
    have hboth : [(120 : UInt8), 32, 49, 32, 121] = [120, 32, 49, 121] :=
      (hright.trans hlong).symm.trans (Option.some.inj hshort)
    exact absurd hboth (by decide)
  · decide +kernel

end Os5
