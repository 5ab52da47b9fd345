import Mathlib.Tactic

/-!
# Bytes in memory

A memory of bytes with words of 32 bits in little-endian order, regions of addresses, and
what a copy into one region leaves of the others.
-/

namespace Bytes

abbrev Memory := Nat → UInt8

structure Region where
  start : Nat
  size : Nat
  deriving DecidableEq, Repr

def Region.stop (r : Region) : Nat := r.start + r.size

def Region.Apart (r r' : Region) : Prop := r.stop ≤ r'.start ∨ r'.stop ≤ r.start

/-- The bytes of `r` lie between two addresses. -/
def Region.Within (lo hi : Nat) (r : Region) : Prop := lo ≤ r.start ∧ r.stop ≤ hi

def load (mem : Memory) (a n : Nat) : List UInt8 := (List.range n).map fun i => mem (a + i)

def fill (mem : Memory) (a : Nat) (l : List UInt8) : Memory :=
  fun x => if a ≤ x ∧ x < a + l.length then l.getD (x - a) 0 else mem x

def word (mem : Memory) (a : Nat) : Nat :=
  (mem a).toNat + 0x100 * (mem (a + 1)).toNat + 0x10000 * (mem (a + 2)).toNat +
    0x1000000 * (mem (a + 3)).toNat

def wordBytes (v : Nat) : List UInt8 :=
  [UInt8.ofNat v, UInt8.ofNat (v / 0x100), UInt8.ofNat (v / 0x10000), UInt8.ofNat (v / 0x1000000)]

def setWord (mem : Memory) (a v : Nat) : Memory := fill mem a (wordBytes v)

/-- A string with the 0 that ends it. -/
structure StringAt (mem : Memory) (a : Nat) (s : List UInt8) : Prop where
  bytes : load mem a (s.length + 1) = s ++ [0]
  clear : 0 ∉ s

def Agree (lo hi : Nat) (mem mem' : Memory) : Prop := ∀ x, lo ≤ x → x < hi → mem' x = mem x

section
variable {mem mem' mem'' : Memory} {a b n v x lo hi : Nat} {l s : List UInt8}

theorem Region.Within.mono {r : Region} {lo' hi' : Nat} (h : r.Within lo hi) (hlo : lo' ≤ lo)
    (hhi : hi ≤ hi') : r.Within lo' hi' := ⟨hlo.trans h.1, h.2.trans hhi⟩

theorem Agree.refl : Agree lo hi mem mem := fun _ _ _ => rfl

theorem Agree.trans (h : Agree lo hi mem mem') (h' : Agree lo hi mem' mem'') : Agree lo hi mem mem'' :=
  fun x h1 h2 => (h' x h1 h2).trans (h x h1 h2)

theorem Agree.mono {lo' hi' : Nat} (h : Agree lo hi mem mem') (hlo : lo ≤ lo') (hhi : hi' ≤ hi) :
    Agree lo' hi' mem mem' := fun x h1 h2 => h x (hlo.trans h1) (h2.trans_le hhi)

theorem load_congr (h : Agree a (a + n) mem mem') : load mem' a n = load mem a n :=
  List.map_congr_left fun i hi =>
    h (a + i) (Nat.le_add_right _ _) (Nat.add_lt_add_left (List.mem_range.mp hi) _)

theorem word_congr (h : Agree a (a + 4) mem mem') : word mem' a = word mem a := by
  rw [word, word, h a (by omega) (by omega), h (a + 1) (by omega) (by omega), h (a + 2) (by omega) (by omega),
    h (a + 3) (by omega) (by omega)]

theorem StringAt.congr (hs : StringAt mem a s) (h : Agree a (a + (s.length + 1)) mem mem') :
    StringAt mem' a s := ⟨(load_congr h).trans hs.bytes, hs.clear⟩

theorem fill_below (h : hi ≤ a) : Agree lo hi mem (fill mem a l) :=
  fun _ _ hx => if_neg fun hin => absurd (hx.trans_le (h.trans hin.1)) (lt_irrefl _)

theorem fill_above (h : a + l.length ≤ lo) : Agree lo hi mem (fill mem a l) :=
  fun _ hx _ => if_neg fun hin => absurd (hin.2.trans_le (h.trans hx)) (lt_irrefl _)

@[simp] theorem wordBytes_length : (wordBytes v).length = 4 := rfl

theorem setWord_below (h : hi ≤ a) : Agree lo hi mem (setWord mem a v) := fill_below h

theorem setWord_above (h : a + 4 ≤ lo) : Agree lo hi mem (setWord mem a v) := fill_above h

theorem load_fill : load (fill mem a l) a l.length = l := by
  refine List.ext_getElem (by rw [load, List.length_map, List.length_range]) fun i h1 h2 => ?_
  have hin : a ≤ a + i ∧ a + i < a + l.length := ⟨Nat.le_add_right _ _, Nat.add_lt_add_left h2 _⟩
  simp only [load, List.getElem_map, List.getElem_range]
  rw [fill, if_pos hin, Nat.add_sub_cancel_left, List.getD_eq_getElem?_getD,
    List.getElem?_eq_getElem h2, Option.getD_some]

theorem stringAt_fill (h : 0 ∉ s) : StringAt (fill mem a (s ++ [0])) a s := by
  refine ⟨?_, h⟩
  have hload := @load_fill mem a (s ++ [0])
  rwa [List.length_append, List.length_singleton] at hload

theorem word_setWord (hv : v < 2 ^ 32) : word (setWord mem a v) a = v := by
  have hbyte : ∀ i, i < 4 → setWord mem a v (a + i) = (wordBytes v).getD i 0 := by
    intro i hi
    have hin : a ≤ a + i ∧ a + i < a + (wordBytes v).length :=
      ⟨Nat.le_add_right _ _, Nat.add_lt_add_left hi _⟩
    rw [setWord, fill, if_pos hin, Nat.add_sub_cancel_left]
  have h0 : setWord mem a v a = UInt8.ofNat v := hbyte 0 (by decide)
  have h1 : setWord mem a v (a + 1) = UInt8.ofNat (v / 0x100) := hbyte 1 (by decide)
  have h2 : setWord mem a v (a + 2) = UInt8.ofNat (v / 0x10000) := hbyte 2 (by decide)
  have h3 : setWord mem a v (a + 3) = UInt8.ofNat (v / 0x1000000) := hbyte 3 (by decide)
  rw [word, h0, h1, h2, h3]
  simp only [UInt8.toNat_ofNat']
  omega

/-- The byte behind those that are not 0 ends the string. -/
theorem StringAt.head (h : StringAt mem a []) : mem a = 0 := by
  have hbytes := h.bytes
  rw [load] at hbytes
  simpa using hbytes

theorem StringAt.tail {c : UInt8} (h : StringAt mem a (c :: s)) :
    mem a = c ∧ c ≠ 0 ∧ StringAt mem (a + 1) s := by
  have hbytes : load mem a (s.length + 1 + 1) = c :: (s ++ [0]) := h.bytes
  rw [load, List.range_succ_eq_map, List.map_cons, List.map_map] at hbytes
  obtain ⟨h1, h2⟩ := List.cons.inj hbytes
  have hclear := h.clear
  rw [List.mem_cons, not_or] at hclear
  refine ⟨h1, Ne.symm hclear.1, ?_, hclear.2⟩
  rw [← h2, load]
  refine List.map_congr_left fun i _ => ?_
  rw [Function.comp_apply, Nat.add_assoc, Nat.add_comm 1 i]

end

end Bytes
