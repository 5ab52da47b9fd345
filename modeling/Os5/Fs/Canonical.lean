import Os5.Fs.Vfs

/-!
# Canonical paths

`canonicalize_path` takes a path apart at its slashes, drops empty and `.` components,
lets `..` pop the component before it, and puts the rest together again.
-/

namespace Os5.Vfs

open Tarfs (dot dotdot)

-- ---------------------------------------------------------------------------
-- Canonical paths
-- ---------------------------------------------------------------------------

def Canonical (names : List Name) : Prop :=
  ∀ n ∈ names, n ≠ [] ∧ slash ∉ n ∧ n ≠ dot ∧ n ≠ dotdot

def render (names : List Name) : Name :=
  if names = [] then [slash] else names.flatMap (slash :: ·)

instance (names : List Name) : Decidable (Canonical names) :=
  inferInstanceAs (Decidable (∀ n ∈ names, n ≠ [] ∧ slash ∉ n ∧ n ≠ dot ∧ n ≠ dotdot))

theorem pieces_flatMap {name : Name} {names : List Name} (h : Canonical (name :: names)) :
    pieces (name ++ names.flatMap (slash :: ·)) = name :: names := by
  induction names generalizing name with
  | nil =>
    rw [List.flatMap_nil, List.append_nil]
    exact pieces_of_notMem (h name List.mem_cons_self).2.1
  | cons n names ih =>
    rw [List.flatMap_cons, List.cons_append, pieces_append (h name List.mem_cons_self).2.1,
      ih fun x hx => h x (List.mem_cons_of_mem _ hx)]

theorem strsepTokens_render {names : List Name} (h : Canonical names) :
    strsepTokens ((render names).drop 1) = names := by
  cases names with
  | nil => decide
  | cons name names =>
    have hdrop : (render (name :: names)).drop 1 = name ++ names.flatMap (slash :: ·) := by
      rw [render, if_neg (List.cons_ne_nil _ _), List.flatMap_cons, List.cons_append, List.drop_one,
        List.tail_cons]
    have hlast : (name :: names).getLast? ≠ some [] := fun he =>
      (h [] (List.mem_of_getLast? he)).1 rfl
    rw [hdrop, strsepTokens, pieces_flatMap h, if_neg hlast]

-- ---------------------------------------------------------------------------
-- Buffers
-- ---------------------------------------------------------------------------

/-- The bytes of a `calloc`ed buffer and the string that was written to it, which may be
longer. -/
structure CBuf where
  size : Nat
  str : Name
  deriving DecidableEq, Repr

namespace CBuf

def calloc (size : Nat) : CBuf := ⟨size, []⟩

def strcat (b : CBuf) (s : Name) : CBuf := { b with str := b.str ++ s }

def Fits (b : CBuf) : Prop := b.str.length + 1 ≤ b.size

instance (b : CBuf) : Decidable b.Fits := inferInstanceAs (Decidable (_ ≤ _))

end CBuf

-- ---------------------------------------------------------------------------
-- `canonicalize_path`
-- ---------------------------------------------------------------------------

def pathPrefix (path : Name) (pfx : Option Name) : Option Name :=
  if path.head? = some slash then none else pfx

def joinPath (path : Name) (pfx : Option Name) : CBuf :=
  match pathPrefix path pfx with
  | some p =>
    (((CBuf.calloc (path.length + 1 + (p.length + 1))).strcat p).strcat [slash]).strcat path
  | none => (CBuf.calloc (path.length + 1)).strcat path

/-- The loop over the tokens. `..` on the empty stack follows a null pointer. -/
def pushTokens : List Name → List Name → Run (List Name)
  | j, [] => .ok j
  | j, p :: ps =>
    if p = dot then pushTokens j ps
    else if p = dotdot then
      match j with
      | [] => .error .fault
      | _ :: j => pushTokens j ps
    else pushTokens (p :: j) ps

def turnAround : List Name → List Name → List Name
  | k, [] => k
  | k, name :: j => turnAround (name :: k) j

def joinNames : CBuf → List Name → CBuf
  | ret, [] => ret
  | ret, name :: k => joinNames ((ret.strcat [slash]).strcat name) k

def canonicalizeBuf (path : Name) (pfx : Option Name) : Run CBuf := do
  let j ← pushTokens [] (tokens (joinPath path pfx).str)
  let k := turnAround [] j
  let ret := CBuf.calloc (path.length + 1)
  return joinNames (if k = [] then ret.strcat [slash] else ret) k

def canonicalizePath (path : Name) (pfx : Option Name) : Run Name := do
  return (← canonicalizeBuf path pfx).str

theorem turnAround_eq (k j : List Name) : turnAround k j = j.reverse ++ k := by
  induction j generalizing k with
  | nil => rfl
  | cons name j ih =>
    rw [turnAround, ih, List.reverse_cons, List.append_assoc, List.singleton_append]

theorem joinNames_eq (ret : CBuf) (k : List Name) :
    joinNames ret k = ret.strcat (k.flatMap (slash :: ·)) := by
  induction k generalizing ret with
  | nil => rw [joinNames, CBuf.strcat, List.flatMap_nil, List.append_nil]
  | cons name k ih =>
    rw [joinNames, ih, List.flatMap_cons]
    simp [CBuf.strcat]

theorem canonicalizeBuf_ok {path : Name} {pfx : Option Name} {j : List Name}
    (h : pushTokens [] (tokens (joinPath path pfx).str) = .ok j) :
    canonicalizeBuf path pfx = .ok ⟨path.length + 1, render j.reverse⟩ := by
  have hturn : turnAround [] j = j.reverse := by rw [turnAround_eq, List.append_nil]
  simp only [canonicalizeBuf, h, Bind.bind, Except.bind, hturn, joinNames_eq]
  by_cases hj : j.reverse = []
  · rw [if_pos hj, hj]
    rfl
  · rw [if_neg hj, render, if_neg hj]
    rfl

-- ---------------------------------------------------------------------------
-- Normal forms
-- ---------------------------------------------------------------------------

def components (path : Name) (pfx : Option Name) : List Name :=
  match pathPrefix path pfx with
  | some p => pieces (p ++ slash :: path)
  | none => pieces path

/-- What one more component leaves: empty ones and `.` are dropped, and `..` removes the
component before it. -/
def after (names : List Name) (n : Name) : List Name :=
  if n = [] ∨ n = dot then names else if n = dotdot then names.dropLast else names ++ [n]

def normal (names : List Name) : List Name := names.foldl after []

/-- From the components `acc` on, no `..` comes where there is nothing before it. -/
def Held (acc names : List Name) : Prop :=
  ∀ i < names.length, names[i]? = some dotdot → (names.take i).foldl after acc ≠ []

/-- No `..` is applied at the root. -/
def Grounded (names : List Name) : Prop := Held [] names

instance (acc names : List Name) : Decidable (Held acc names) :=
  inferInstanceAs (Decidable (∀ i < names.length, _ → _))

instance (names : List Name) : Decidable (Grounded names) :=
  inferInstanceAs (Decidable (Held [] names))

theorem pieces_joinPath (path : Name) (pfx : Option Name) :
    pieces (joinPath path pfx).str = components path pfx := by
  rw [joinPath, components]
  cases pathPrefix path pfx with
  | none => rfl
  | some p => simp [CBuf.strcat, CBuf.calloc]

theorem held_nil (acc : List Name) : Held acc [] := fun _ hi => absurd hi (Nat.not_lt_zero _)

theorem held_cons {acc ns : List Name} {n : Name} :
    Held acc (n :: ns) ↔ (n = dotdot → acc ≠ []) ∧ Held (after acc n) ns := by
  constructor
  · intro h
    refine ⟨fun hn => h 0 (Nat.succ_pos _) (congrArg some hn), fun i hi hd => ?_⟩
    exact h (i + 1) (Nat.succ_lt_succ hi) (by rw [List.getElem?_cons_succ]; exact hd)
  · rintro ⟨h0, h⟩ i hi hd
    cases i with
    | zero => exact h0 (Option.some.inj hd)
    | succ i =>
      rw [List.getElem?_cons_succ] at hd
      exact h i (Nat.lt_of_succ_lt_succ hi) hd

theorem after_reverse {j : List Name} {n : Name} (hn : n ≠ []) (hdot : n ≠ dot)
    (hdotdot : n ≠ dotdot) : after j.reverse n = (n :: j).reverse := by
  rw [after, if_neg (not_or.mpr ⟨hn, hdot⟩), if_neg hdotdot, List.reverse_cons]

theorem after_dropped {acc : List Name} {n : Name} (h : n = [] ∨ n = dot) : after acc n = acc :=
  if_pos h

theorem after_dotdot (acc : List Name) : after acc dotdot = acc.dropLast := by
  rw [after, if_neg (by decide), if_pos rfl]

theorem pushTokens_eq (j names : List Name) : pushTokens j (names.filter fun t => t ≠ []) =
    if Held j.reverse names then .ok (names.foldl after j.reverse).reverse else .error .fault := by
  induction names generalizing j with
  | nil =>
    rw [if_pos (held_nil _), List.foldl_nil, List.reverse_reverse]
    rfl
  | cons n ns ih =>
    rw [List.foldl_cons]
    by_cases hn : n = []
    · have hkeep : after j.reverse n = j.reverse := after_dropped (Or.inl hn)
      have hheld : Held j.reverse (n :: ns) ↔ Held j.reverse ns := by
        rw [held_cons, hkeep]
        exact and_iff_right fun hd => absurd (hn.symm.trans hd) (by decide)
      rw [List.filter_cons_of_neg (by simpa using hn), ih, hkeep]
      exact if_congr hheld.symm rfl rfl
    rw [List.filter_cons_of_pos (by simpa using hn)]
    unfold pushTokens
    by_cases hdot : n = dot
    · have hkeep : after j.reverse n = j.reverse := after_dropped (Or.inr hdot)
      have hheld : Held j.reverse (n :: ns) ↔ Held j.reverse ns := by
        rw [held_cons, hkeep]
        exact and_iff_right fun hd => absurd (hdot.symm.trans hd) (by decide)
      rw [if_pos hdot, ih, hkeep]
      exact if_congr hheld.symm rfl rfl
    rw [if_neg hdot]
    by_cases hdotdot : n = dotdot
    · rw [if_pos hdotdot, hdotdot, after_dotdot]
      cases j with
      | nil => exact (if_neg fun hh => (held_cons.mp hh).1 rfl rfl).symm
      | cons top j =>
        have hpop : (top :: j).reverse.dropLast = j.reverse := by simp
        have hheld : Held (top :: j).reverse (dotdot :: ns) ↔ Held j.reverse ns := by
          rw [held_cons, after_dotdot, hpop]
          exact and_iff_right fun _ => by simp
        simp only [ih, hpop]
        exact if_congr hheld.symm rfl rfl
    · have hpush := after_reverse (j := j) hn hdot hdotdot
      have hheld : Held j.reverse (n :: ns) ↔ Held (n :: j).reverse ns := by
        rw [held_cons, hpush]
        exact and_iff_right fun hd => absurd hd hdotdot
      rw [if_neg hdotdot, ih, hpush]
      exact if_congr hheld.symm rfl rfl

theorem canonicalizeBuf_eq (path : Name) (pfx : Option Name) : canonicalizeBuf path pfx =
    if Grounded (components path pfx) then
      .ok ⟨path.length + 1, render (normal (components path pfx))⟩
    else .error .fault := by
  have h := pushTokens_eq [] (components path pfx)
  rw [← pieces_joinPath] at h ⊢
  by_cases hg : Grounded (pieces (joinPath path pfx).str)
  · rw [if_pos hg]
    rw [if_pos (show Held [].reverse _ from hg)] at h
    rw [canonicalizeBuf_ok h, List.reverse_reverse]
    rfl
  · rw [if_neg hg]
    rw [if_neg (show ¬Held [].reverse _ from hg)] at h
    simp only [canonicalizeBuf, tokens, h]
    rfl

theorem canonical_after {acc : List Name} {n : Name} (hacc : Canonical acc) (hn : slash ∉ n) :
    Canonical (after acc n) := by
  rw [after]
  split
  · exact hacc
  rename_i hne
  rw [not_or] at hne
  split
  · exact fun x hx => hacc x (List.dropLast_subset _ hx)
  · rename_i hdd
    intro x hx
    obtain hx | hx := List.mem_append.mp hx
    · exact hacc x hx
    · rw [List.mem_singleton.mp hx]
      exact ⟨hne.1, hn, hne.2, hdd⟩

theorem canonical_normal {names : List Name} (h : ∀ n ∈ names, slash ∉ n) :
    Canonical (normal names) := by
  have hfold (acc : List Name) (hacc : Canonical acc) : Canonical (names.foldl after acc) := by
    induction names generalizing acc with
    | nil => exact hacc
    | cons n ns ih =>
      rw [List.foldl_cons]
      exact ih (fun x hx => h x (List.mem_cons_of_mem _ hx)) _
        (canonical_after hacc (h n List.mem_cons_self))
  exact hfold [] fun _ hx => absurd hx List.not_mem_nil

theorem notMem_pieces {s : Name} : ∀ n ∈ pieces s, slash ∉ n := by
  induction s with
  | nil =>
    intro n hn
    rw [List.mem_singleton.mp hn]
    exact List.not_mem_nil
  | cons c s ih =>
    by_cases hc : c = slash
    · rw [hc, pieces_slash]
      exact List.forall_mem_cons.mpr ⟨List.not_mem_nil, ih⟩
    · obtain ⟨m, ms, hs, hcons⟩ := pieces_cons hc s
      rw [hs] at ih
      rw [hcons]
      obtain ⟨hm, hms⟩ := List.forall_mem_cons.mp ih
      exact List.forall_mem_cons.mpr ⟨List.not_mem_cons_of_ne_of_not_mem (Ne.symm hc) hm, hms⟩

theorem notMem_components (path : Name) (pfx : Option Name) :
    ∀ n ∈ components path pfx, slash ∉ n := by
  rw [← pieces_joinPath]
  exact notMem_pieces

theorem render_eq (names : List Name) : render names = slash :: [slash].intercalate names := by
  have hjoin (n : Name) (ns : List Name) :
      n ++ ns.flatMap (slash :: ·) = [slash].intercalate (n :: ns) := by
    induction ns generalizing n with
    | nil => simp [List.intercalate]
    | cons m ms ih =>
      rw [List.flatMap_cons, List.cons_append, ih, List.intercalate_cons_cons]
      simp
  cases names with
  | nil => rfl
  | cons n ns =>
    rw [render, if_neg (List.cons_ne_nil _ _), List.flatMap_cons, List.cons_append, hjoin]

theorem held_canonical {acc names : List Name} (h : Canonical names) : Held acc names :=
  fun _ _ hd => absurd rfl (h dotdot (List.mem_of_getElem? hd)).2.2.2

theorem foldl_canonical {acc names : List Name} (h : Canonical names) :
    names.foldl after acc = acc ++ names := by
  induction names generalizing acc with
  | nil => rw [List.foldl_nil, List.append_nil]
  | cons n ns ih =>
    obtain ⟨hn, -, hdot, hdotdot⟩ := h n List.mem_cons_self
    rw [List.foldl_cons, ih fun x hx => h x (List.mem_cons_of_mem _ hx), after,
      if_neg (not_or.mpr ⟨hn, hdot⟩), if_neg hdotdot, List.append_assoc, List.singleton_append]

/-- A canonical path is absolute: no prefix is put before it. -/
theorem components_render {names : List Name} (h : Canonical names) (pfx : Option Name) :
    components (render names) pfx = [] :: if names = [] then [[]] else names := by
  have hprefix : pathPrefix (render names) pfx = none := by
    rw [pathPrefix, if_pos (by rw [render_eq]; rfl)]
  rw [components, hprefix]
  cases names with
  | nil => decide
  | cons n ns =>
    rw [if_neg (List.cons_ne_nil _ _), render, if_neg (List.cons_ne_nil _ _), List.flatMap_cons]
    exact (pieces_append (s := []) List.not_mem_nil).trans (congrArg _ (pieces_flatMap h))

theorem canonicalizePath_eq (path : Name) (pfx : Option Name) : canonicalizePath path pfx =
    if Grounded (components path pfx) then .ok (render (normal (components path pfx)))
    else .error .fault := by
  rw [canonicalizePath, canonicalizeBuf_eq]
  split
  · rfl
  · rfl

theorem canonicalizePath_render {names : List Name} (h : Canonical names) (pfx : Option Name) :
    canonicalizePath (render names) pfx = .ok (render names) := by
  have hcomp : normal ([] :: if names = [] then [[]] else names) = names ∧
      Grounded ([] :: if names = [] then [[]] else names) := by
    by_cases hn : names = []
    · subst hn
      decide
    · rw [if_neg hn]
      have hskip : after [] [] = [] := after_dropped (Or.inl rfl)
      refine ⟨?_, held_cons.mpr ⟨fun hd => absurd hd (by decide), held_canonical h⟩⟩
      rw [normal, List.foldl_cons, hskip, foldl_canonical h, List.nil_append]
  rw [canonicalizePath_eq, components_render h, if_pos hcomp.2, hcomp.1]

def normalPath (path : Name) (pfx : Option Name) : Name :=
  slash :: [slash].intercalate (normal (components path pfx))

theorem canonicalizePath_normal (path : Name) (pfx : Option Name) :
    (canonicalizePath path pfx = .ok (normalPath path pfx) ∧
      ∀ pfx', canonicalizePath (normalPath path pfx) pfx' = .ok (normalPath path pfx)) ↔
    Grounded (components path pfx) := by
  have hpath : normalPath path pfx = render (normal (components path pfx)) := (render_eq _).symm
  have hcanon := canonical_normal (notMem_components path pfx)
  rw [hpath, canonicalizePath_eq]
  constructor
  · rintro ⟨h, -⟩
    by_contra hg
    rw [if_neg hg] at h
    cases h
  · intro hg
    exact ⟨if_pos hg, canonicalizePath_render hcanon⟩

theorem canonicalizePath_dotdot :
    ¬∀ path pfx, canonicalizePath path pfx = .ok (normalPath path pfx) := by
  intro h
  have hfault : canonicalizePath (slash :: dotdot) none = .error .fault := by
    rw [canonicalizePath_eq]
    exact if_neg (by decide)
  have hok := h (slash :: dotdot) none
  rw [hfault] at hok
  cases hok

-- ---------------------------------------------------------------------------
-- Lengths
-- ---------------------------------------------------------------------------

def weight (names : List Name) : Nat := (names.map fun n => n.length + 1).sum

/-- The bytes of the components that do not stay: `..` takes the one before it with it. -/
def dropped : List Name → List Name → Nat
  | _, [] => 0
  | acc, n :: ns =>
    (if n = [] ∨ n = dot then n.length + 1
      else if n = dotdot then n.length + 1 + ((acc.getLast?.getD []).length + 1) else 0) +
      dropped (after acc n) ns

/-- The path is not empty and what is dropped makes up for the prefix and a slash. -/
def RoomToSpare (path : Name) (pfx : Option Name) : Prop :=
  path ≠ [] ∧
    match pathPrefix path pfx with
    | none => ∃ n ∈ pieces path, n = [] ∨ n = dot ∨ n = dotdot
    | some p => p.length + 2 ≤ dropped [] (components path pfx)

theorem joinPath_fits (path : Name) (pfx : Option Name) : (joinPath path pfx).Fits := by
  rw [joinPath]
  cases pathPrefix path pfx with
  | none => simp [CBuf.Fits, CBuf.strcat, CBuf.calloc]
  | some p =>
    simp only [CBuf.Fits, CBuf.strcat, CBuf.calloc, List.length_append, List.length_singleton,
      List.length_nil]
    omega

theorem weight_append (names ns : List Name) : weight (names ++ ns) = weight names + weight ns := by
  rw [weight, List.map_append, List.sum_append]
  rfl

theorem weight_cons (n : Name) (ns : List Name) : weight (n :: ns) = n.length + 1 + weight ns := rfl

theorem weight_pieces (s : Name) : weight (pieces s) = s.length + 1 := by
  induction s with
  | nil => rfl
  | cons c s ih =>
    by_cases hc : c = slash
    · rw [hc, pieces_slash, weight_cons, ih, List.length_nil, List.length_cons]
      omega
    · obtain ⟨m, ms, hs, hcons⟩ := pieces_cons hc s
      rw [hs, weight_cons] at ih
      rw [hcons, weight_cons, List.length_cons, List.length_cons]
      omega

theorem weight_components (path : Name) (pfx : Option Name) : weight (components path pfx) =
    path.length + 1 + ((pathPrefix path pfx).elim 0 fun p => p.length + 1) := by
  rw [components]
  cases pathPrefix path pfx with
  | none => exact weight_pieces path
  | some p =>
    simp only [weight_pieces, List.length_append, List.length_cons, Option.elim_some]
    omega

theorem weight_foldl {acc names : List Name} (h : Held acc names) :
    weight (names.foldl after acc) + dropped acc names = weight acc + weight names := by
  induction names generalizing acc with
  | nil => rfl
  | cons n ns ih =>
    obtain ⟨hd, hrest⟩ := held_cons.mp h
    have hrest := ih hrest
    rw [List.foldl_cons, dropped, weight_cons]
    by_cases hn : n = [] ∨ n = dot
    · rw [after_dropped hn] at hrest ⊢
      rw [if_pos hn]
      omega
    rw [if_neg hn]
    by_cases hdd : n = dotdot
    · have hlast : weight acc = weight acc.dropLast + ((acc.getLast?.getD []).length + 1) := by
        obtain ⟨l, top, rfl⟩ := List.eq_nil_or_concat' acc |>.resolve_left (hd hdd)
        rw [List.dropLast_concat, List.getLast?_concat, weight_append]
        rfl
      rw [if_pos hdd]
      rw [hdd, after_dotdot] at hrest ⊢
      omega
    · have hpush : after acc n = acc ++ [n] := by rw [after, if_neg hn, if_neg hdd]
      rw [if_neg hdd]
      rw [hpush, weight_append, weight_cons] at hrest
      rw [hpush]
      have hnil : weight [] = 0 := rfl
      omega

theorem dropped_pos {acc names : List Name} :
    0 < dropped acc names ↔ ∃ n ∈ names, n = [] ∨ n = dot ∨ n = dotdot := by
  induction names generalizing acc with
  | nil => simp [dropped]
  | cons n ns ih =>
    rw [dropped]
    simp only [List.mem_cons, exists_eq_or_imp]
    rw [← @ih (after acc n)]
    by_cases hn : n = [] ∨ n = dot
    · rw [if_pos hn]
      have hleft : n = [] ∨ n = dot ∨ n = dotdot := hn.imp_right Or.inl
      exact iff_of_true (by omega) (Or.inl hleft)
    rw [if_neg hn]
    by_cases hdd : n = dotdot
    · rw [if_pos hdd]
      exact iff_of_true (by omega) (Or.inl (Or.inr (Or.inr hdd)))
    · have hstay : ¬(n = [] ∨ n = dot ∨ n = dotdot) := fun h =>
        h.elim (fun h => hn (Or.inl h)) fun h => h.elim (fun h => hn (Or.inr h)) hdd
      rw [if_neg hdd, Nat.zero_add, or_iff_right hstay]

/-- The room the canonical components take is what the dropped ones leave. -/
theorem length_render_le {path : Name} {names : List Name} :
    (render names).length ≤ path.length ↔ path ≠ [] ∧ weight names ≤ path.length := by
  cases names with
  | nil =>
    cases path with
    | nil => simp [render]
    | cons c cs => simp [render, weight]
  | cons n ns =>
    have hlen : (render (n :: ns)).length = weight (n :: ns) := by
      rw [render, if_neg (List.cons_ne_nil _ _), List.length_flatMap]
      rfl
    rw [hlen]
    refine ⟨fun h => ⟨?_, h⟩, And.right⟩
    rintro rfl
    rw [weight_cons, List.length_nil] at h
    omega

theorem canonicalizePath_fits {path : Name} {pfx : Option Name}
    (h : Grounded (components path pfx)) :
    ((joinPath path pfx).Fits ∧ ∃ ret, canonicalizeBuf path pfx = .ok ret ∧ ret.Fits) ↔
      RoomToSpare path pfx := by
  have hbuf := (canonicalizeBuf_eq path pfx).trans (if_pos h)
  have hret : (∃ ret, canonicalizeBuf path pfx = .ok ret ∧ ret.Fits) ↔
      (render (normal (components path pfx))).length ≤ path.length := by
    rw [hbuf]
    constructor
    · rintro ⟨ret, hok, hfit⟩
      cases hok
      exact Nat.le_of_succ_le_succ hfit
    · exact fun hle => ⟨_, rfl, Nat.succ_le_succ hle⟩
  have hsum : weight (normal (components path pfx)) + dropped [] (components path pfx) =
      weight (components path pfx) := by
    rw [normal, weight_foldl h]
    exact Nat.zero_add _
  have htotal := weight_components path pfx
  rw [and_iff_right (joinPath_fits path pfx), hret, length_render_le, RoomToSpare]
  refine and_congr_right fun _ => ?_
  cases hp : pathPrefix path pfx with
  | none =>
    have hcomp : components path pfx = pieces path := by rw [components, hp]
    rw [hp, Option.elim_none] at htotal
    rw [← hcomp]
    refine Iff.trans ?_ (@dropped_pos [] _)
    omega
  | some p =>
    rw [hp, Option.elim_some] at htotal
    show _ ↔ p.length + 2 ≤ dropped [] (components path pfx)
    omega

/-- A path that `open` passes on without change: three bytes in a buffer of two. -/
theorem canonicalizePath_relative :
    ¬∀ path pfx, Grounded (components path pfx) →
      (joinPath path pfx).Fits ∧ ∃ ret, canonicalizeBuf path pfx = .ok ret ∧ ret.Fits := by
  intro h
  obtain ⟨-, ret, hok, hfit⟩ := h [97] none (by decide)
  have hbuf : canonicalizeBuf [97] none = .ok ⟨2, [slash, 97]⟩ := by rfl
  rw [hbuf] at hok
  cases hok
  exact absurd hfit (by decide)

theorem canonicalizePath_fits_absolute :
    Grounded (components [slash, 97] (some [slash])) ∧
      ((joinPath [slash, 97] (some [slash])).Fits ∧
        ∃ ret, canonicalizeBuf [slash, 97] (some [slash]) = .ok ret ∧ ret.Fits) :=
  have h : Grounded (components [slash, 97] (some [slash])) := by decide
  ⟨h, (canonicalizePath_fits h).mpr ⟨by decide, [], by decide, Or.inl rfl⟩⟩

end Os5.Vfs
