import Mathlib.Data.List.Chain
import Mathlib.Data.List.Infix
import Mathlib.Logic.Function.Basic
import Mathlib.Tactic

/-!
# Intrusive circular lists

Nodes carry their own `prev` and `next` links; a list is a cycle of nodes and
any node of it can serve as its head. The operations are the pointer updates,
in the order a C macro makes them. `Ring h x xs` says what a well-formed cycle
means: from `x`, the members `xs` in order, and back to `x`.
-/

namespace Circular

structure Heap (ν : Type*) where
  prev : ν → ν
  next : ν → ν

variable {ν : Type*} [DecidableEq ν]

def Heap.setPrev (h : Heap ν) (x p : ν) : Heap ν := { h with prev := Function.update h.prev x p }
def Heap.setNext (h : Heap ν) (x n : ν) : Heap ν := { h with next := Function.update h.next x n }

/-- A node linked to itself only. -/
def init (h : Heap ν) (x : ν) : Heap ν := (h.setNext x x).setPrev x x

/-- Link `item` in before `head`, that is at the end of the list headed by it. -/
def append (h : Heap ν) (head item : ν) : Heap ν :=
  let h := h.setPrev item (h.prev head)
  let h := h.setNext item head
  let h := h.setNext (h.prev item) item
  h.setPrev (h.next item) item

def insertLeft (h : Heap ν) (right item : ν) : Heap ν :=
  let h := h.setPrev item (h.prev right)
  let h := h.setNext item right
  let h := h.setNext (h.prev right) item
  h.setPrev right item

def insertRight (h : Heap ν) (left item : ν) : Heap ν :=
  let h := h.setPrev item left
  let h := h.setNext item (h.next left)
  let h := h.setPrev (h.next left) item
  h.setNext left item

def remove (h : Heap ν) (item : ν) : Heap ν :=
  let h := h.setNext (h.prev item) (h.next item)
  let h := h.setPrev (h.next item) (h.prev item)
  let h := h.setNext item item
  h.setPrev item item

def isEmpty (h : Heap ν) (head : ν) : Bool := h.next head = head

/-- The nodes met from `cur` on until `head` comes up again. -/
def walk (h : Heap ν) (head : ν) : Nat → ν → Option (List ν)
  | 0, cur => if cur = head then some [] else none
  | fuel + 1, cur => if cur = head then some [] else (walk h head fuel (h.next cur)).map (cur :: ·)

def members (h : Heap ν) (head : ν) (fuel : Nat) : Option (List ν) := walk h head fuel (h.next head)

-- ---------------------------------------------------------------------------
-- Paths
-- ---------------------------------------------------------------------------

def Linked (h : Heap ν) (a b : ν) : Prop := h.next a = b ∧ h.prev b = a

def Path (h : Heap ν) (l : List ν) : Prop := l.IsChain (Linked h)

section
omit [DecidableEq ν]
variable {h h' : Heap ν} {a b x y z : ν} {l pre post xs ys zs : List ν}

@[simp] theorem path_single : Path h [a] := .singleton _

@[simp] theorem path_cons_cons : Path h (a :: b :: l) ↔ Linked h a b ∧ Path h (b :: l) :=
  List.isChain_cons_cons

theorem path_split : Path h (pre ++ x :: post) ↔ Path h (pre ++ [x]) ∧ Path h (x :: post) :=
  List.isChain_split

theorem Path.congr (hp : Path h l) (hn : ∀ n ∈ l.dropLast, h'.next n = h.next n)
    (hv : ∀ n ∈ l.tail, h'.prev n = h.prev n) : Path h' l := by
  induction l with
  | nil => exact .nil
  | cons a l ih =>
    cases l with
    | nil => exact path_single
    | cons b l =>
      rw [path_cons_cons] at hp ⊢
      refine ⟨⟨(hn a (by simp)).trans hp.1.1, (hv b (by simp)).trans hp.1.2⟩, ih hp.2 ?_ ?_⟩
      · intro n hm
        exact hn n (by simp [hm])
      · intro n hm
        exact hv n (List.mem_cons_of_mem _ (by simpa using hm))

theorem Path.link (hp : Path h (pre ++ x :: z :: post))
    (h1 : h'.next x = y) (h2 : h'.prev y = x) (h3 : h'.next y = z) (h4 : h'.prev z = y)
    (hn : ∀ n, n ∈ pre ∨ n ∈ (z :: post).dropLast → h'.next n = h.next n)
    (hv : ∀ n, n ∈ (pre ++ [x]).tail ∨ n ∈ post → h'.prev n = h.prev n) :
    Path h' (pre ++ x :: y :: z :: post) := by
  rw [path_split] at hp ⊢
  obtain ⟨hpre, hpost⟩ := hp
  rw [path_cons_cons] at hpost
  refine ⟨hpre.congr ?_ fun n hm => hv n (.inl hm), ?_⟩
  · intro n hm
    exact hn n (.inl (by simpa using hm))
  · rw [path_cons_cons, path_cons_cons]
    exact ⟨⟨h1, h2⟩, ⟨h3, h4⟩, hpost.2.congr (fun n hm => hn n (.inr hm)) fun n hm => hv n (.inr hm)⟩

theorem Path.unlink (hp : Path h (pre ++ x :: y :: z :: post))
    (h1 : h'.next x = z) (h2 : h'.prev z = x)
    (hn : ∀ n, n ∈ pre ∨ n ∈ (z :: post).dropLast → h'.next n = h.next n)
    (hv : ∀ n, n ∈ (pre ++ [x]).tail ∨ n ∈ post → h'.prev n = h.prev n) :
    Path h' (pre ++ x :: z :: post) := by
  rw [path_split] at hp ⊢
  obtain ⟨hpre, hpost⟩ := hp
  rw [path_cons_cons, path_cons_cons] at hpost
  refine ⟨hpre.congr ?_ fun n hm => hv n (.inl hm), ?_⟩
  · intro n hm
    exact hn n (.inl (by simpa using hm))
  · rw [path_cons_cons]
    exact ⟨⟨h1, h2⟩, hpost.2.2.congr (fun n hm => hn n (.inr hm)) fun n hm => hv n (.inr hm)⟩

-- ---------------------------------------------------------------------------
-- Rings
-- ---------------------------------------------------------------------------

/-- The cycle through `x`: its other members `xs` in order. -/
structure Ring (h : Heap ν) (x : ν) (xs : List ν) : Prop where
  path : Path h (x :: xs ++ [x])
  nodup : (x :: xs).Nodup

theorem ring_nil : Ring h x [] ↔ h.next x = x ∧ h.prev x = x := by
  constructor
  · intro hr
    exact hr.path.rel
  · intro hl
    exact ⟨by simpa [Linked] using hl, by simp⟩

theorem Ring.not_mem (hr : Ring h x xs) : x ∉ xs := (List.nodup_cons.mp hr.nodup).1

theorem Ring.rotate (hr : Ring h x (ys ++ z :: zs)) : Ring h z (zs ++ x :: ys) := by
  obtain ⟨hp, hd⟩ := hr
  have hp' : Path h ((x :: ys) ++ z :: (zs ++ [x])) := by simpa using hp
  rw [path_split] at hp'
  refine ⟨?_, ?_⟩
  · have hq : Path h ((z :: zs) ++ x :: (ys ++ [z])) := by
      rw [path_split]
      exact ⟨by simpa using hp'.2, by simpa using hp'.1⟩
    simpa using hq
  · have hperm : (z :: (zs ++ x :: ys)).Perm (x :: (ys ++ z :: zs)) := by
      have h1 : (z :: (zs ++ x :: ys)) = (z :: zs) ++ (x :: ys) := by simp
      have h2 : (x :: (ys ++ z :: zs)) = (x :: ys) ++ (z :: zs) := by simp
      rw [h1, h2]
      exact List.perm_append_comm
    exact hperm.nodup_iff.mpr hd

theorem Ring.congr (hr : Ring h x xs) (hn : ∀ n ∈ x :: xs, h'.next n = h.next n)
    (hv : ∀ n ∈ x :: xs, h'.prev n = h.prev n) : Ring h' x xs := by
  refine ⟨hr.path.congr ?_ ?_, hr.nodup⟩
  · intro n hm
    rw [List.dropLast_concat] at hm
    exact hn n hm
  · intro n hm
    exact hv n (by simpa [or_comm] using hm)

theorem Path.closed {S : ν → Prop} (hp : Path h (a :: l)) (hS : ∀ n, S n → S (h.next n)) (ha : S a) : ∀ n ∈ a :: l, S n := by
  induction l generalizing a with
  | nil =>
    intro n hn
    rwa [List.mem_singleton.mp hn]
  | cons b l ih =>
    obtain ⟨hab, hp⟩ := path_cons_cons.mp hp
    intro n hn
    rcases List.mem_cons.mp hn with rfl | hn
    · exact ha
    · exact ih hp (hab.1 ▸ hS a ha) n hn

theorem Ring.closed {S : ν → Prop} (hr : Ring h x xs) (hS : ∀ n, S n → S (h.next n)) (hx : S x) : ∀ n ∈ x :: xs, S n :=
  fun n hn => Path.closed hr.path hS hx n (List.mem_append_left _ hn)

theorem Path.unique (hx : Path h (a :: xs ++ [z])) (hy : Path h (a :: ys ++ [z]))
    (nx : z ∉ xs) (ny : z ∉ ys) : xs = ys := by
  induction xs generalizing a ys with
  | nil =>
    cases ys with
    | nil => rfl
    | cons b ys =>
      have e1 := hx.rel.1
      have e2 := hy.rel.1
      exact absurd (e1.symm.trans e2) (by simpa using fun h => ny (by simp [h]))
  | cons b xs ih =>
    cases ys with
    | nil =>
      have e1 := hx.rel.1
      have e2 := hy.rel.1
      exact absurd (e2.symm.trans e1) (by simpa using fun h => nx (by simp [h]))
    | cons c ys =>
      have hb : b = c := hx.rel.1.symm.trans hy.rel.1
      subst hb
      simp only [List.cons_append, path_cons_cons] at hx hy
      rw [ih (by simpa using hx.2) (by simpa using hy.2) (fun h => nx (by simp [h]))
        fun h => ny (by simp [h])]

theorem Ring.unique (hx : Ring h x xs) (hy : Ring h x ys) : xs = ys :=
  Path.unique hx.path hy.path hx.not_mem hy.not_mem

end

-- ---------------------------------------------------------------------------
-- What the operations do to a ring
-- ---------------------------------------------------------------------------

variable {h h' : Heap ν} {a b x y z : ν} {xs ys zs : List ν}

theorem append_next (_ : h.prev x ≠ y) (n : ν) : (append h x y).next n =
    if n = h.prev x then y else if n = y then x else h.next n := by
  simp [append, Heap.setNext, Heap.setPrev, Function.update_apply]

theorem append_prev (hne : h.prev x ≠ y) (n : ν) : (append h x y).prev n =
    if n = x then y else if n = y then h.prev x else h.prev n := by
  simp [append, Heap.setNext, Heap.setPrev, Function.update_apply, Ne.symm hne]

theorem remove_next (n : ν) : (remove h y).next n =
    if n = y then y else if n = h.prev y then h.next y else h.next n := by
  simp [remove, Heap.setNext, Heap.setPrev, Function.update_apply]

theorem remove_prev (n : ν) : (remove h y).prev n =
    if n = y then y else if n = h.next y then h.prev y else h.prev n := by
  by_cases hy : y = h.prev y
  · simp [remove, Heap.setNext, Heap.setPrev, Function.update_apply, ← hy]
  · simp [remove, Heap.setNext, Heap.setPrev, Function.update_apply, hy]

omit [DecidableEq ν] in
theorem Ring.last (hr : Ring h x xs) : ∃ pre l, x :: xs = pre ++ [l] ∧ h.prev x = l ∧ h.next l = x := by
  obtain ⟨pre, l, he⟩ : ∃ pre l, x :: xs = pre ++ [l] :=
    ⟨(x :: xs).dropLast, (x :: xs).getLast (by simp), (List.dropLast_append_getLast _).symm⟩
  have hp := hr.path
  rw [he, List.append_assoc, List.singleton_append, path_split] at hp
  exact ⟨pre, l, he, hp.2.rel.2, hp.2.rel.1⟩

theorem Ring.append (hr : Ring h x xs) (hy : y ∉ x :: xs) : Ring (append h x y) x (xs ++ [y]) := by
  obtain ⟨pre, l, he, hl, hlx⟩ := hr.last
  have hmem : ∀ n, n ∈ x :: xs ↔ n ∈ pre ∨ n = l := by simp [he]
  have hly : l ≠ y := fun h => hy ((hmem y).mpr (.inr h.symm))
  have hxy : x ≠ y := fun h => hy (h ▸ List.mem_cons_self)
  have hd : (pre ++ [l]).Nodup := he ▸ hr.nodup
  have hlpre : l ∉ pre := by simpa using (List.nodup_append.mp hd).2.2 l
  have hne : h.prev x ≠ y := hl ▸ hly
  have hpath : Path (Circular.append h x y) (pre ++ l :: y :: x :: []) := by
    apply Path.link (h := h)
    · have hp := hr.path
      rwa [he, List.append_assoc, List.singleton_append] at hp
    · simp [append_next hne, hl]
    · simp [append_prev hne, hl, Ne.symm hxy]
    · simp [append_next hne, hl, Ne.symm hly]
    · simp [append_prev hne]
    · intro n hn
      have hn : n ∈ pre := by simpa using hn
      have h1 : n ≠ l := fun h => hlpre (h ▸ hn)
      have h2 : n ≠ y := fun h => hy ((hmem y).mpr (.inl (h ▸ hn)))
      simp [append_next hne, hl, h1, h2]
    · intro n hn
      have hn : n ∈ xs := by simpa [← he] using hn
      have h1 : n ≠ x := fun h => hr.not_mem (h ▸ hn)
      have h2 : n ≠ y := fun h => hy (h ▸ List.mem_cons_of_mem _ hn)
      simp [append_prev hne, h1, h2]
  refine ⟨?_, ?_⟩
  · have e : x :: (xs ++ [y]) ++ [x] = pre ++ l :: y :: x :: [] := by
      have : x :: (xs ++ [y]) ++ [x] = (x :: xs) ++ [y, x] := by simp
      rw [this, he]
      simp
    rw [e]
    exact hpath
  · have hperm : (x :: (xs ++ [y])).Perm (y :: x :: xs) := by
      have e : x :: (xs ++ [y]) = (x :: xs) ++ [y] := rfl
      rw [e]
      exact List.perm_append_singleton y (x :: xs)
    exact hperm.nodup_iff.mpr (List.nodup_cons.mpr ⟨hy, hr.nodup⟩)

/-- Appending touches the new node, the head and the last member only. -/
theorem Ring.append_frame (hr : Ring h x xs) (hy : y ∉ x :: xs) {n : ν} (hn : n ∉ x :: xs)
    (hny : n ≠ y) : (Circular.append h x y).next n = h.next n ∧
      (Circular.append h x y).prev n = h.prev n := by
  obtain ⟨pre, l, he, hl, -⟩ := hr.last
  have hmem : l ∈ x :: xs := by simp [he]
  have hne : h.prev x ≠ y := fun e => hy (by rw [← e, hl]; exact hmem)
  have h1 : n ≠ l := fun e => hn (e ▸ hmem)
  have h2 : n ≠ x := fun e => hn (e ▸ List.mem_cons_self)
  simp [append_next hne, append_prev hne, hl, h1, h2, hny]

theorem Ring.remove_self (_ : Ring h y ys) : Ring (remove h y) y [] := by
  rw [ring_nil]
  simp [remove_next, remove_prev]

theorem Ring.remove (hr : Ring h x (ys ++ z :: zs)) : Ring (remove h z) x (ys ++ zs) := by
  -- `p` before `z` and `n` after it; either may be the head itself
  obtain ⟨pre, p, hp⟩ : ∃ pre p, x :: ys = pre ++ [p] :=
    ⟨(x :: ys).dropLast, (x :: ys).getLast (by simp), (List.dropLast_append_getLast _).symm⟩
  obtain ⟨n, post, hn⟩ : ∃ n post, zs ++ [x] = n :: post := by cases zs <;> simp
  have hpath : Path h (pre ++ p :: z :: n :: post) := by
    have e : x :: (ys ++ z :: zs) ++ [x] = (x :: ys) ++ z :: (zs ++ [x]) := by simp
    have := hr.path
    rwa [e, hp, hn, List.append_assoc, List.singleton_append] at this
  have hz := path_split.mp hpath
  rw [path_cons_cons, path_cons_cons] at hz
  obtain ⟨-, ⟨hpz, hzp⟩, ⟨hzn, hnz⟩, -⟩ := hz
  have hd : (x :: (ys ++ z :: zs)).Nodup := hr.nodup
  have e1 : x :: (ys ++ z :: zs) = pre ++ p :: z :: zs := by
    have : x :: (ys ++ z :: zs) = (x :: ys) ++ z :: zs := by simp
    rw [this, hp]
    simp
  have hd1 : (pre ++ p :: z :: zs).Nodup := e1 ▸ hd
  have hzx : z ≠ x := by
    rintro rfl
    exact hr.not_mem (by simp)
  have hpn : p ≠ z := by
    rintro rfl
    simp [List.nodup_append] at hd1
  have hnz' : n ≠ z := by
    rintro rfl
    rcases zs with _ | ⟨w, ws⟩
    · simp at hn
      exact hzx hn.1.symm
    · simp at hn
      rw [hn.1] at hd1
      simp [List.nodup_append] at hd1
  refine ⟨?_, ?_⟩
  · have e2 : x :: (ys ++ zs) ++ [x] = pre ++ p :: n :: post := by
      have : x :: (ys ++ zs) ++ [x] = (x :: ys) ++ (zs ++ [x]) := by simp
      rw [this, hp, hn]
      simp
    rw [e2]
    apply Path.unlink hpath
    · simp [remove_next, hpn, hzp, hzn]
    · simp [remove_prev, hnz', hzn, hzp]
    · intro m hm
      have hm' : m ≠ p ∧ m ≠ z := by
        rcases hm with hm | hm
        · constructor <;> rintro rfl <;> simp [List.nodup_append] at hd1 <;> grind
        · have hm : m ∈ zs := by
            have : (n :: post).dropLast = zs := by rw [← hn, List.dropLast_concat]
            rwa [this] at hm
          constructor <;> rintro rfl <;> simp [List.nodup_append] at hd1 <;> grind
      simp [remove_next, hm', hzp]
    · intro m hm
      have hxs : m ∈ ys ∨ m ∈ post := by
        rcases hm with hm | hm
        · rw [← hp] at hm
          exact .inl (by simpa using hm)
        · exact .inr hm
      have hm' : m ≠ z ∧ m ≠ n := by
        have hd2 : (x :: (ys ++ z :: zs)).Nodup := hd
        rcases zs with _ | ⟨w, ws⟩
        · simp at hn
          obtain ⟨rfl, rfl⟩ := hn
          simp [List.nodup_append] at hd2 hxs
          grind
        · simp at hn
          obtain ⟨rfl, rfl⟩ := hn
          simp [List.nodup_append] at hd2 hxs
          grind
      simp [remove_prev, hm', hzn]
  · have hsub : (x :: (ys ++ zs)).Sublist (x :: (ys ++ z :: zs)) := by simp
    exact hsub.nodup hd

/-- Removing touches the ring of the node only. -/
theorem Ring.remove_frame (hr : Ring h z zs) {n : ν} (hn : n ∉ z :: zs) :
    (Circular.remove h z).next n = h.next n ∧ (Circular.remove h z).prev n = h.prev n := by
  obtain ⟨pre, l, he, hl, -⟩ := hr.last
  have hnext : h.next z ∈ z :: zs := by
    have hp := hr.path
    cases zs with
    | nil => simpa using hp.rel.1
    | cons w ws => simpa using Or.inr (Or.inl hp.rel.1)
  have hprev : h.prev z ∈ z :: zs := by simp [he, hl]
  have h1 : n ≠ z := fun e => hn (e ▸ List.mem_cons_self)
  have h2 : n ≠ h.prev z := fun e => hn (e ▸ hprev)
  have h3 : n ≠ h.next z := fun e => hn (e ▸ hnext)
  simp [remove_next, remove_prev, h1, h2, h3]

theorem ring_init : Ring (init h y) y [] := by
  rw [ring_nil]
  simp [init, Heap.setNext, Heap.setPrev]

theorem init_frame {n : ν} (hn : n ≠ y) :
    (init h y).next n = h.next n ∧ (init h y).prev n = h.prev n := by
  simp [init, Heap.setNext, Heap.setPrev, hn]

omit [DecidableEq ν] in
theorem Ring.next_eq_self_iff (hr : Ring h x xs) : h.next x = x ↔ xs = [] := by
  cases xs with
  | nil => simpa using hr.path.rel.1
  | cons a xs =>
    have h1 : h.next x = a := hr.path.rel.1
    have h2 : a ≠ x := fun e => hr.not_mem (by simp [e])
    simp [h1, h2]

theorem Ring.isEmpty_iff (hr : Ring h x xs) : isEmpty h x = true ↔ xs = [] := by
  simp [isEmpty, hr.next_eq_self_iff]

theorem walk_path {fuel : Nat} (hp : Path h (a :: xs ++ [x])) (hx : x ∉ a :: xs)
    (hf : xs.length < fuel) : walk h x fuel a = some (a :: xs) := by
  induction xs generalizing a fuel with
  | nil =>
    cases fuel with
    | zero => simp at hf
    | succ fuel =>
      have h1 : h.next a = x := hp.rel.1
      have h2 : a ≠ x := fun e => hx (by simp [e])
      cases fuel <;> simp [walk, h1, h2]
  | cons b xs ih =>
    cases fuel with
    | zero => simp at hf
    | succ fuel =>
      have h1 : h.next a = b := hp.rel.1
      have h2 : a ≠ x := fun e => hx (by simp [e])
      have hb : walk h x fuel b = some (b :: xs) := by
        apply ih
        · simpa using (path_cons_cons.mp hp).2
        · exact fun e => hx (List.mem_cons_of_mem _ e)
        · simpa using hf
      simp [walk, h1, h2, hb]

theorem Ring.members {fuel : Nat} (hr : Ring h x xs) (hf : xs.length ≤ fuel) :
    members h x fuel = some xs := by
  cases xs with
  | nil =>
    have h1 : h.next x = x := hr.path.rel.1
    cases fuel <;> simp [Circular.members, walk, h1]
  | cons a xs =>
    have h1 : h.next x = a := hr.path.rel.1
    rw [Circular.members, h1]
    exact walk_path (path_cons_cons.mp hr.path).2 hr.not_mem (by simpa using hf)

-- ---------------------------------------------------------------------------
-- Families of rings
-- ---------------------------------------------------------------------------

def SameRing (h : Heap ν) (a b : ν) : Prop := ∃ xs, Ring h a xs ∧ b ∈ a :: xs

/-- Every node of `S` is on a cycle inside `S`. -/
def Rings (h : Heap ν) (S : ν → Prop) : Prop :=
  ∀ a, S a → ∃ xs, Ring h a xs ∧ ∀ b ∈ xs, S b

section
omit [DecidableEq ν]
variable {S : ν → Prop}

theorem Ring.of_mem (hr : Ring h x xs) (hz : z ∈ x :: xs) :
    ∃ zs, Ring h z zs ∧ ∀ n, n ∈ z :: zs ↔ n ∈ x :: xs := by
  rcases List.mem_cons.mp hz with rfl | hz
  · exact ⟨xs, hr, fun n => Iff.rfl⟩
  · obtain ⟨ys, zs, rfl⟩ := List.append_of_mem hz
    refine ⟨_, hr.rotate, fun n => ?_⟩
    simp only [List.mem_cons, List.mem_append]
    tauto

theorem Ring.sameRing (hr : Ring h x xs) : SameRing h x b ↔ b ∈ x :: xs := by
  constructor
  · rintro ⟨ys, hy, hb⟩
    rwa [hr.unique hy]
  · exact fun hb => ⟨xs, hr, hb⟩

theorem Ring.self (hr : Ring h x xs) : SameRing h x x := ⟨xs, hr, by simp⟩

theorem SameRing.symm (hs : SameRing h a b) : SameRing h b a := by
  obtain ⟨xs, hr, hb⟩ := hs
  obtain ⟨zs, hz, hm⟩ := hr.of_mem hb
  exact ⟨zs, hz, (hm a).mpr (by simp)⟩

theorem SameRing.trans (h1 : SameRing h a b) (h2 : SameRing h b x) : SameRing h a x := by
  obtain ⟨xs, hr, hb⟩ := h1
  obtain ⟨zs, hz, hm⟩ := hr.of_mem hb
  exact ⟨xs, hr, (hm x).mp (hz.sameRing.mp h2)⟩

theorem Rings.self (hR : Rings h S) (ha : S a) : SameRing h a a :=
  have ⟨_, hr, _⟩ := hR a ha
  hr.self

theorem Rings.closed (hR : Rings h S) (ha : S a) (hs : SameRing h a b) : S b := by
  obtain ⟨xs, hr, hS⟩ := hR a ha
  rcases List.mem_cons.mp (hr.sameRing.mp hs) with rfl | hb
  · exact ha
  · exact hS b hb

theorem Ring.disjoint (hx : Ring h x xs) (ha : Ring h a ys) (hn : ¬ SameRing h x a) :
    ∀ n ∈ a :: ys, n ∉ x :: xs := by
  intro n hna hnx
  exact hn ((hx.sameRing.mpr hnx).trans (ha.sameRing.mpr hna).symm)

/-- Fewer nodes: the ones left out are alone. -/
theorem Rings.without (hR : Rings h S) (hy : Ring h y []) : Rings h fun n => S n ∧ n ≠ y := by
  rintro a ⟨ha, hay⟩
  obtain ⟨xs, hr, hS⟩ := hR a ha
  refine ⟨xs, hr, fun b hb => ⟨hS b hb, ?_⟩⟩
  rintro rfl
  have := hy.sameRing.mp (hr.sameRing.mpr (List.mem_cons_of_mem _ hb)).symm
  exact hay (by simpa using this)

theorem Rings.congr {T : ν → Prop} (hR : Rings h S) (hT : ∀ n, T n ↔ S n) : Rings h T := by
  intro a ha
  obtain ⟨xs, hr, hS⟩ := hR a ((hT a).mp ha)
  exact ⟨xs, hr, fun b hb => (hT b).mpr (hS b hb)⟩

end

variable {S : ν → Prop}

theorem Rings.isEmpty_iff (hR : Rings h S) (ha : S a) :
    isEmpty h a = true ↔ ∀ b, SameRing h a b → b = a := by
  obtain ⟨xs, hr, -⟩ := hR a ha
  rw [hr.isEmpty_iff]
  constructor
  · rintro rfl b hb
    simpa using hr.sameRing.mp hb
  · intro hall
    rw [List.eq_nil_iff_forall_not_mem]
    intro b hb
    have := hall b (hr.sameRing.mpr (List.mem_cons_of_mem _ hb))
    exact hr.not_mem (this ▸ hb)

theorem Rings.init (hR : Rings h S) (hy : ¬ S y) :
    Rings (init h y) (fun n => S n ∨ n = y) ∧ Ring (Circular.init h y) y [] ∧
      ∀ a b, S a → (SameRing (Circular.init h y) a b ↔ SameRing h a b) := by
  have hkeep : ∀ a xs, S a → Ring h a xs → (∀ b ∈ xs, S b) → Ring (Circular.init h y) a xs := by
    intro a xs ha hr hS
    have hny : ∀ n ∈ a :: xs, n ≠ y := by
      rintro n hn rfl
      rcases List.mem_cons.mp hn with rfl | hn
      · exact hy ha
      · exact hy (hS n hn)
    exact hr.congr (fun n hn => (init_frame (hny n hn)).1) fun n hn => (init_frame (hny n hn)).2
  refine ⟨?_, ring_init, ?_⟩
  · rintro a (ha | rfl)
    · obtain ⟨xs, hr, hS⟩ := hR a ha
      exact ⟨xs, hkeep a xs ha hr hS, fun b hb => .inl (hS b hb)⟩
    · exact ⟨[], ring_init, by simp⟩
  · intro a b ha
    obtain ⟨xs, hr, hS⟩ := hR a ha
    rw [(hkeep a xs ha hr hS).sameRing, hr.sameRing]

theorem Rings.append (hR : Rings h S) (hx : S x) (hy : Ring h y []) (hxy : x ≠ y) :
    Rings (append h x y) (fun n => S n ∨ n = y) ∧
      ∀ a b, S a ∨ a = y → (SameRing (Circular.append h x y) a b ↔
        SameRing h (if a = y then x else a) (if b = y then x else b)) := by
  obtain ⟨xs, hrx, hSx⟩ := hR x hx
  have hlone : ∀ a, a ≠ y → ¬ SameRing h a y := by
    intro a hay hs
    exact hay (by simpa using hy.sameRing.mp hs.symm)
  have hyx : y ∉ x :: xs := fun hm => hlone x hxy (hrx.sameRing.mpr hm)
  have happ : Ring (Circular.append h x y) x (xs ++ [y]) := hrx.append hyx
  -- a node in the class of `x` gains `y`, any other keeps its ring
  have hin : ∀ a, a ≠ y → SameRing h x a → ∃ as, Ring (Circular.append h x y) a as ∧
      ∀ n, n ∈ a :: as ↔ n ∈ x :: xs ∨ n = y := by
    intro a _ hs
    have hm : a ∈ x :: (xs ++ [y]) := by
      have := hrx.sameRing.mp hs
      simp only [List.mem_cons, List.mem_append] at this ⊢
      tauto
    obtain ⟨as, has, hmem⟩ := happ.of_mem hm
    refine ⟨as, has, fun n => ?_⟩
    rw [hmem]
    simp [or_assoc]
  have hout : ∀ a as, a ≠ y → ¬ SameRing h x a → Ring h a as → Ring (Circular.append h x y) a as := by
    intro a as hay hs ha
    have hd := hrx.disjoint ha hs
    have hny : ∀ n ∈ a :: as, n ≠ y := by
      rintro n hn rfl
      exact hlone a hay (ha.sameRing.mpr hn)
    exact ha.congr (fun n hn => (hrx.append_frame hyx (hd n hn) (hny n hn)).1)
      fun n hn => (hrx.append_frame hyx (hd n hn) (hny n hn)).2
  refine ⟨?_, ?_⟩
  · intro a ha
    by_cases hay : a = y
    · subst hay
      obtain ⟨as, has, hmem⟩ := happ.of_mem (by simp : a ∈ x :: (xs ++ [a]))
      refine ⟨as, has, fun b hb => ?_⟩
      have hb' := (hmem b).mp (List.mem_cons_of_mem _ hb)
      simp only [List.mem_cons, List.mem_append, List.not_mem_nil, or_false] at hb'
      rcases hb' with rfl | hb' | rfl
      · exact .inl hx
      · exact .inl (hSx b hb')
      · exact .inr rfl
    · have hSa : S a := ha.resolve_right hay
      by_cases hs : SameRing h x a
      · obtain ⟨as, has, hmem⟩ := hin a hay hs
        refine ⟨as, has, fun b hb => ?_⟩
        rcases (hmem b).mp (List.mem_cons_of_mem _ hb) with hb' | rfl
        · exact .inl (hR.closed hx (hrx.sameRing.mpr hb'))
        · exact .inr rfl
      · obtain ⟨as, has, hSas⟩ := hR a hSa
        exact ⟨as, hout a as hay hs has, fun b hb => .inl (hSas b hb)⟩
  · intro a b ha
    by_cases hay : a = y
    · subst hay
      obtain ⟨as, has, hmem⟩ := happ.of_mem (by simp : a ∈ x :: (xs ++ [a]))
      rw [has.sameRing, hmem, if_pos rfl, hrx.sameRing]
      by_cases hba : b = a
      · simp [hba]
      · simp [hba]
    · have hSa : S a := ha.resolve_right hay
      rw [if_neg hay]
      by_cases hs : SameRing h x a
      · obtain ⟨as, has, hmem⟩ := hin a hay hs
        rw [has.sameRing, hmem]
        by_cases hby : b = y
        · simp [hby, hs.symm]
        · simp only [hby, or_false, if_false]
          rw [← hrx.sameRing]
          exact ⟨fun h1 => hs.symm.trans h1, fun h1 => hs.trans h1⟩
      · obtain ⟨as, has, -⟩ := hR a hSa
        rw [(hout a as hay hs has).sameRing]
        by_cases hby : b = y
        · subst hby
          simp only [if_true]
          exact ⟨fun hm => absurd (has.sameRing.mpr hm) (hlone a hay), fun h1 => absurd h1.symm hs⟩
        · rw [if_neg hby, has.sameRing]

theorem Rings.appendNew (hR : Rings h S) (hx : S x) (hy : ¬ S y) :
    Rings (Circular.append (Circular.init h y) x y) (fun n => S n ∨ n = y) ∧
      ∀ a b, S a ∨ a = y → S b ∨ b = y → (SameRing (Circular.append (Circular.init h y) x y) a b ↔
        SameRing h (if a = y then x else a) (if b = y then x else b)) := by
  obtain ⟨hR1, hself, hold⟩ := hR.init hy
  have hne : x ≠ y := fun e => hy (e ▸ hx)
  obtain ⟨hR2, hsame⟩ := hR1.append (.inl hx) hself hne
  refine ⟨fun a ha => ?_, fun a b ha _ => ?_⟩
  · obtain ⟨xs, hr, hS⟩ := hR2 a (.inl ha)
    exact ⟨xs, hr, fun b hb => (hS b hb).elim id .inr⟩
  · rw [hsame a b (.inl ha)]
    refine hold _ _ ?_
    split
    · exact hx
    · next h => exact ha.resolve_right h

theorem Rings.remove (hR : Rings h S) (hy : S y) :
    Rings (remove h y) S ∧ Ring (Circular.remove h y) y [] ∧
      ∀ a b, S a → (SameRing (Circular.remove h y) a b ↔
        a = b ∨ a ≠ y ∧ b ≠ y ∧ SameRing h a b) := by
  obtain ⟨ys, hry, -⟩ := hR y hy
  have hself : Ring (Circular.remove h y) y [] := hry.remove_self
  have hkey : ∀ a, S a → a ≠ y → ∃ as as', Ring h a as ∧ Ring (Circular.remove h y) a as' ∧
      (∀ b ∈ as', S b) ∧ ∀ n, n ∈ a :: as' ↔ n ∈ a :: as ∧ n ≠ y := by
    intro a ha hay
    obtain ⟨as, has, hS⟩ := hR a ha
    by_cases hs : SameRing h a y
    · have hm : y ∈ as := by
        rcases List.mem_cons.mp (has.sameRing.mp hs) with rfl | hm
        · exact absurd rfl hay
        · exact hm
      obtain ⟨us, vs, rfl⟩ := List.append_of_mem hm
      refine ⟨_, us ++ vs, has, has.remove, ?_, ?_⟩
      · intro b hb
        apply hS
        simp only [List.mem_append, List.mem_cons] at hb ⊢
        tauto
      · intro n
        have hd := has.nodup
        have hny : y ∉ us ++ vs := by
          simp only [List.nodup_cons, List.nodup_append, List.mem_append, List.mem_cons] at hd ⊢
          rintro (hu | hv)
          · exact hd.2.2.2 y hu y (.inl rfl) rfl
          · exact hd.2.2.1.1 hv
        by_cases hn : n = y
        · subst hn
          simpa [Ne.symm hay] using hny
        · simp [hn]
    · have hd := hry.disjoint has fun e => hs e.symm
      refine ⟨as, as, has, has.congr (fun n hn => (hry.remove_frame (hd n hn)).1)
        (fun n hn => (hry.remove_frame (hd n hn)).2), hS, fun n => ?_⟩
      constructor
      · intro hn
        refine ⟨hn, ?_⟩
        rintro rfl
        exact hs (has.sameRing.mpr hn)
      · exact fun hn => hn.1
  refine ⟨?_, hself, ?_⟩
  · intro a ha
    by_cases hay : a = y
    · exact ⟨[], hay ▸ hself, by simp⟩
    · obtain ⟨_, as', _, has', hS, -⟩ := hkey a ha hay
      exact ⟨as', has', hS⟩
  · intro a b ha
    by_cases hay : a = y
    · subst hay
      rw [hself.sameRing]
      simp [eq_comm]
    · obtain ⟨as, as', has, has', -, hmem⟩ := hkey a ha hay
      rw [has'.sameRing, hmem, ← has.sameRing]
      constructor
      · rintro ⟨h1, h2⟩
        exact .inr ⟨hay, h2, h1⟩
      · rintro (rfl | ⟨-, h2, h1⟩)
        · exact ⟨has.self, hay⟩
        · exact ⟨h1, h2⟩

-- ---------------------------------------------------------------------------
-- Insertion beside any node
-- ---------------------------------------------------------------------------

/-- The lists that none of `nodes` is on stay as they are. -/
def Untouched (h h' : Heap ν) (nodes : List ν) : Prop :=
  ∀ z zs, Ring h z zs → (∀ a ∈ nodes, a ∉ z :: zs) → Ring h' z zs

/-- The list headed by `x` has got `y` between `pre` and `post`, and no other list has changed. -/
def Inserted (h h' : Heap ν) (x y : ν) (pre post : List ν) : Prop :=
  Ring h' x (pre ++ y :: post) ∧ Untouched h h' [x, y]

section
omit [DecidableEq ν]

theorem Untouched.trans {h'' : Heap ν} {nodes : List ν} (h1 : Untouched h h' nodes) (h2 : Untouched h' h'' nodes) :
    Untouched h h'' nodes :=
  fun z zs hz hout => h2 z zs (h1 z zs hz hout) hout

end

omit [DecidableEq ν] in
theorem Ring.untouched (hr : Ring h x xs) {nodes : List ν} (hx : x ∈ nodes)
    (hframe : ∀ n, n ∉ x :: xs → n ∉ nodes → h'.next n = h.next n ∧ h'.prev n = h.prev n) :
    Untouched h h' nodes := by
  intro z zs hz hout
  have hapart : ∀ n ∈ z :: zs, n ∉ x :: xs :=
    hr.disjoint hz fun hs => hout x hx (hz.sameRing.mp hs.symm)
  have hsame : ∀ n ∈ z :: zs, h'.next n = h.next n ∧ h'.prev n = h.prev n := fun n hn =>
    hframe n (hapart n hn) fun hm => hout n hm hn
  exact hz.congr (fun n hn => (hsame n hn).1) fun n hn => (hsame n hn).2

theorem Ring.inserted_append (hr : Ring h x xs) (hy : y ∉ x :: xs) : Inserted h (Circular.append h x y) x y xs [] :=
  ⟨hr.append hy, hr.untouched (by simp) fun n hn hm => hr.append_frame hy hn fun e => hm (by simp [e])⟩

theorem Ring.untouched_remove (hr : Ring h z zs) : Untouched h (Circular.remove h z) [z] :=
  hr.untouched (by simp) fun _ hn _ => hr.remove_frame hn

theorem Ring.inserted_before (hr : Ring h x (ys ++ z :: zs)) (hy : y ∉ x :: (ys ++ z :: zs)) :
    Inserted h (Circular.append h z y) x y ys (z :: zs) := by
  have hz := hr.rotate
  have hmem : ∀ n, n ∈ z :: (zs ++ x :: ys) ↔ n ∈ x :: (ys ++ z :: zs) := by
    intro n
    simp only [List.mem_cons, List.mem_append]
    tauto
  have hyz : y ∉ z :: (zs ++ x :: ys) := fun h => hy ((hmem y).mp h)
  refine ⟨?_, ?_⟩
  · have happ : Ring (Circular.append h z y) z (zs ++ x :: (ys ++ [y])) := by
      simpa using hz.append hyz
    simpa using happ.rotate
  · refine hr.untouched List.mem_cons_self fun n hn hm => hz.append_frame hyz (fun h => hn ((hmem n).mp h)) ?_
    rintro rfl
    exact hm (by simp)

theorem insertLeft_eq (hxy : x ≠ y) (hp : h.prev x ≠ y) : insertLeft h x y = append h x y := by
  simp [insertLeft, append, Heap.setNext, Heap.setPrev, hxy, Ne.symm hp]

theorem Linked.insertRight_eq (hl : Linked h x z) (hxy : x ≠ y) : insertRight h x y = append h z y := by
  simp [insertRight, append, Heap.setNext, Heap.setPrev, hl.1, hl.2, hxy, Ne.symm hxy]

omit [DecidableEq ν] in
theorem Ring.prev_mem (hr : Ring h x xs) (hz : z ∈ x :: xs) : h.prev z ∈ x :: xs := by
  obtain ⟨zs, hrz, hmem⟩ := hr.of_mem hz
  obtain ⟨pre, l, he, hl, -⟩ := hrz.last
  rw [← hmem, hl, he]
  simp

theorem Ring.insertLeft_eq (hr : Ring h x xs) (hy : y ∉ x :: xs) (hz : z ∈ x :: xs) :
    insertLeft h z y = Circular.append h z y :=
  Circular.insertLeft_eq (fun e => hy (e ▸ hz)) fun e => hy (e ▸ hr.prev_mem hz)

omit [DecidableEq ν] in
theorem Ring.linked_head (hr : Ring h x (y :: ys)) : Linked h x y := hr.path.rel

omit [DecidableEq ν] in
theorem Ring.next_mem (hr : Ring h x xs) : h.next x ∈ x :: xs := by
  cases xs with
  | nil => simpa using hr.path.rel.1
  | cons a as => simp [hr.linked_head.1]

theorem Ring.inserted_right_head (hr : Ring h x xs) (hy : y ∉ x :: xs) : Inserted h (insertRight h x y) x y [] xs := by
  have hxy : x ≠ y := fun e => hy (by simp [e])
  cases xs with
  | nil =>
    rw [Linked.insertRight_eq hr.path.rel hxy]
    exact hr.inserted_append hy
  | cons a as =>
    rw [hr.linked_head.insertRight_eq hxy]
    have hr' : Ring h x ([] ++ a :: as) := hr
    exact hr'.inserted_before hy

theorem Ring.inserted_right (hr : Ring h x (ys ++ z :: zs)) (hy : y ∉ x :: (ys ++ z :: zs)) :
    Inserted h (insertRight h z y) x y (ys ++ [z]) zs := by
  have hzy : z ≠ y := by
    rintro rfl
    exact hy (by simp)
  cases zs with
  | nil =>
    rw [Linked.insertRight_eq hr.rotate.path.rel hzy]
    exact hr.inserted_append hy
  | cons a as =>
    rw [hr.rotate.linked_head.insertRight_eq hzy]
    have e : ys ++ z :: a :: as = (ys ++ [z]) ++ a :: as := by simp
    exact (e ▸ hr).inserted_before (e ▸ hy)

end Circular
