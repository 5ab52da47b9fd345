import Os5.Fs.Paths
import Os5.Lib.Named

/-!
# The tar file system

The archive lies in memory as a list of headers, each followed by the blocks of
its data. Its entries are put one after the other into a tree of named nodes,
which is then searched by name; an inode is made for a node when it is asked for.
-/

namespace Os5.Tarfs

abbrev Memory := Nat → UInt8

abbrev sizeField : Nat := 124
abbrev typeField : Nat := 156
abbrev prefixField : Nat := 345

abbrev tarTypeDir : UInt8 := 53

def dot : Name := [46]
def dotdot : Name := [46, 46]

def bytesAt (mem : Memory) (a n : Nat) : List UInt8 := (List.range n).map fun i => mem (a + i)

/-- The string at an address, read up to the length of a block. -/
def cString (mem : Memory) (a : Nat) : Name := (bytesAt mem a 512).takeWhile (· ≠ 0)

def isSpace (c : UInt8) : Bool := c = 32 || (9 ≤ c && c ≤ 13)
def isOctal (c : UInt8) : Bool := 48 ≤ c && c ≤ 55

def octal (ds : List UInt8) : Nat := ds.foldl (fun n d => n * 8 + (d.toNat - 48)) 0

/-- `sscanf(s, "%o", &n)`; nothing is stored when there is no digit. -/
def scanOctal (s : Name) : Option Nat :=
  let s := s.dropWhile isSpace
  let (neg, s) :=
    match s with
    | 45 :: r => (true, r)
    | 43 :: r => (false, r)
    | s => (false, s)
  match s.takeWhile isOctal with
  | [] => none
  | d :: ds =>
    let v := octal (d :: ds)
    -- more than fits is stored as the largest value
    some (if 2 ^ 32 ≤ v then 2 ^ 32 - 1 else if neg then (2 ^ 32 - v) % 2 ^ 32 else v)

def tarSize (mem : Memory) (tar : Nat) : Option Nat := scanOctal (cString mem (tar + sizeField))

inductive FileType
  | file
  | directory
  deriving DecidableEq, Repr

/-- The fields of `vfs_node_t` that this file system sets; `data` is a tree node. -/
structure Vnode where
  name : Name
  type : FileType
  length : Nat
  data : Nat
  deriving DecidableEq, Repr

structure Item where
  name : Name
  tar : Nat
  buffer : Option Vnode
  users : Nat

structure TreeNode where
  item : Item
  children : List Nat
  parent : Option Nat

/-- The nodes from `count` on are not allocated yet; the root is node 0. -/
structure TarTree where
  node : Nat → TreeNode
  count : Nat

namespace TarTree

def view (t : TarTree) : Named.Tree Name Nat where
  name n := (t.node n).item.name
  children n := (t.node n).children

def makeChild (t : TarTree) (parent : Nat) (name : Name) (tar : Nat) : TarTree where
  node n :=
    if n = t.count then ⟨⟨name, tar, none, 0⟩, [], some parent⟩
    else if n = parent then
      { t.node parent with children := (t.node parent).children ++ [t.count] }
    else t.node n
  count := t.count + 1

def setItem (t : TarTree) (n : Nat) (item : Item) : TarTree :=
  { t with node := Function.update t.node n { t.node n with item := item } }

end TarTree

-- ---------------------------------------------------------------------------
-- Building the tree
-- ---------------------------------------------------------------------------

def addTokens (tar : Nat) : TarTree → Nat → List Name → TarTree
  | t, _, [] => t
  | t, node, p :: ps =>
    match t.view.child node p with
    | some tn => addTokens tar t tn ps
    | none => addTokens tar (t.makeChild node p tar) t.count ps

/-- `tartree_add_node`. Without a slash `strtok` goes on with the string it read
last, which it has read to its end: there are no tokens. -/
def tartreeAddNode (t : TarTree) (tar : Nat) (path : Name) : TarTree :=
  match strchr path with
  | some p => addTokens tar t 0 (tokens p)
  | none => t

def nextHeader (tar size : Nat) : Nat :=
  let tar := (tar + size + 512) % 2 ^ 32
  if tar % 512 ≠ 0 then (tar + 512 - tar % 512) % 2 ^ 32 else tar

def buildLoop (mem : Memory) : Nat → TarTree → Nat → List Nat → Option (TarTree × List Nat)
  | 0, _, _, _ => none
  | fuel + 1, t, tar, seen =>
    if mem tar = 0 then some (t, seen)
    else do
      let t := tartreeAddNode t tar (cString mem tar)
      let size ← tarSize mem tar
      buildLoop mem fuel t (nextHeader tar size) (seen ++ [tar])

/-- The root's entry points to the inode `tarfs_init` has made. -/
def rootTree (name : Name) (tar : Nat) (node : Vnode) : TarTree where
  node n := if n = 0 then ⟨⟨name, tar, some node, 1⟩, [], none⟩ else ⟨⟨[], 0, none, 0⟩, [], none⟩
  count := 1

/-- An archive whose first name has no token makes `strdup` read a null pointer. -/
def buildTarTree (mem : Memory) (tar : Nat) (node : Vnode) (fuel : Nat) :
    Option (TarTree × List Nat) := do
  let name ← (tokens (cString mem tar)).head?
  buildLoop mem fuel (rootTree name tar node) tar []

def rootNode : Vnode := ⟨[116, 97, 114, 102, 115], .directory, 0, 0⟩

def tarfsInit (mem : Memory) (tar fuel : Nat) : Option (TarTree × List Nat) :=
  buildTarTree mem tar rootNode fuel

-- ---------------------------------------------------------------------------
-- Looking up names
-- ---------------------------------------------------------------------------

def newInode (mem : Memory) (item : Item) (tn : Nat) : Vnode where
  name := item.name
  type := if mem (item.tar + typeField) = tarTypeDir then .directory else .file
  length := (tarSize mem item.tar).getD 0
  data := tn

def tarGetInode (mem : Memory) (t : TarTree) (tn : Nat) : Vnode × TarTree :=
  let item := (t.node tn).item
  match item.buffer with
  | some node => (node, t.setItem tn { item with users := item.users + 1 })
  | none =>
    let node := newInode mem item tn
    (node, t.setItem tn { item with buffer := some node, users := 1 })

/-- `tar_finddir`; the root's parent is a null pointer, which is read for "..". -/
def tarFinddir (mem : Memory) (t : TarTree) (dir : Vnode) (name : Name) :
    Option (Option Vnode × TarTree) :=
  if name = dot then
    let (v, t) := tarGetInode mem t dir.data
    some (some v, t)
  else if name = dotdot then do
    let parent ← (t.node dir.data).parent
    let (v, t) := tarGetInode mem t parent
    some (some v, t)
  else
    match t.view.child dir.data name with
    | some cn =>
      let (v, t) := tarGetInode mem t cn
      some (some v, t)
    | none => some (none, t)

def walkPath (mem : Memory) : TarTree → Vnode → List Name → Option (Option Vnode × TarTree)
  | t, dir, [] => some (some dir, t)
  | t, dir, k :: ks => do
    let (found, t) ← tarFinddir mem t dir k
    match found with
    | some v => walkPath mem t v ks
    | none => some (none, t)

-- ---------------------------------------------------------------------------
-- Archives
-- ---------------------------------------------------------------------------

structure TarEntry where
  path : Name
  size : Nat
  type : UInt8
  deriving DecidableEq, Repr

/-- The header of an entry: a name ended by zeros, the size in octal digits ended
by a zero or a space, and no prefix. -/
structure HeaderAt (mem : Memory) (a : Nat) (e : TarEntry) : Prop where
  name : bytesAt mem a 100 = e.path ++ List.replicate (100 - e.path.length) 0
  short : e.path.length ≤ 99
  nonzero : 0 ∉ e.path
  nonempty : e.path ≠ []
  size : ∃ d ds term rest, bytesAt mem (a + sizeField) 12 = d :: ds ++ term :: rest ∧
    (∀ c ∈ d :: ds, isOctal c = true) ∧ (term = 0 ∨ term = 32) ∧ octal (d :: ds) = e.size
  type : mem (a + typeField) = e.type
  noPrefix : mem (a + prefixField) = 0

def TarEntry.extent (e : TarEntry) : Nat := 512 + (e.size + 511) / 512 * 512

/-- The entries one after the other, then a block of zeros. -/
def Image (mem : Memory) : Nat → List TarEntry → Prop
  | a, [] => ∀ i < 512, mem (a + i) = 0
  | a, e :: es => HeaderAt mem a e ∧ Image mem (a + e.extent) es

def imageEnd : Nat → List TarEntry → Nat
  | a, [] => a + 512
  | a, e :: es => imageEnd (a + e.extent) es

def headers : Nat → List TarEntry → List Nat
  | _, [] => []
  | a, e :: es => a :: headers (a + e.extent) es

def TarEntry.below (e : TarEntry) : List Name := (tokens e.path).tail

structure Archive (es : List TarEntry) : Prop where
  nonempty : es ≠ []
  first : ∃ c, ∀ e ∈ es, (tokens e.path).head? = some c
  relative : ∀ e ∈ es, e.path.head? ≠ some slash
  /-- An entry with one component is the root, an empty directory. -/
  deep : ∀ e ∈ es, e.below = [] → e.type = tarTypeDir ∧ e.size = 0
  plain : ∀ e ∈ es, dot ∉ e.below ∧ dotdot ∉ e.below
  distinct : es.Pairwise fun e f => tokens e.path ≠ tokens f.path
  /-- An entry comes before the entries below it. -/
  order : es.Pairwise fun e f => tokens f.path <+: tokens e.path → tokens f.path = tokens e.path

-- ---------------------------------------------------------------------------
-- Reading a header
-- ---------------------------------------------------------------------------

variable {mem : Memory} {a : Nat} {e : TarEntry}

theorem bytesAt_add (mem : Memory) (a m n : Nat) :
    bytesAt mem a (m + n) = bytesAt mem a m ++ bytesAt mem (a + m) n := by
  simp only [bytesAt, List.range_add, List.map_append, List.map_map, Nat.add_assoc]
  rfl

theorem cString_eq {n : Nat} {s r : Name} (hn : n ≤ 512) (hb : bytesAt mem a n = s ++ 0 :: r)
    (hs : 0 ∉ s) : cString mem a = s := by
  have h512 : bytesAt mem a 512 = s ++ 0 :: (r ++ bytesAt mem (a + n) (512 - n)) := by
    rw [← Nat.add_sub_of_le hn, bytesAt_add, hb, List.append_assoc, List.cons_append,
      Nat.add_sub_cancel_left]
  have htake : ∀ c ∈ s, decide (c ≠ 0) = true := fun c hc =>
    decide_eq_true (ne_of_mem_of_not_mem hc hs)
  rw [cString, h512, List.takeWhile_append_of_pos htake]
  simp

theorem HeaderAt.cString (h : HeaderAt mem a e) : cString mem a = e.path := by
  have hlen : 100 - e.path.length = (99 - e.path.length) + 1 := by
    have := h.short
    omega
  refine cString_eq (n := 100) (r := List.replicate (99 - e.path.length) 0) (by decide) ?_ h.nonzero
  rw [h.name, hlen, List.replicate_succ]

theorem HeaderAt.first_ne (h : HeaderAt mem a e) : mem a ≠ 0 := by
  have hname := h.name
  have hnonzero := h.nonzero
  cases hp : e.path with
  | nil => exact absurd hp h.nonempty
  | cons c cs =>
    rw [hp] at hname hnonzero
    have hhead : mem a = c := (List.cons.inj hname).1
    rw [hhead]
    exact fun hc => hnonzero (hc ▸ List.mem_cons_self)

theorem scanOctal_eq {d : UInt8} {ds r : Name} (hdigits : ∀ c ∈ d :: ds, isOctal c = true)
    (hr : r.takeWhile isOctal = []) (hsize : octal (d :: ds) < 2 ^ 32) :
    scanOctal (d :: ds ++ r) = some (octal (d :: ds)) := by
  have hd := hdigits d List.mem_cons_self
  have hspace : isSpace d = false := by
    simp only [isOctal, isSpace, Bool.and_eq_true, Bool.or_eq_false_iff, Bool.and_eq_false_iff,
      decide_eq_true_eq, decide_eq_false_iff_not] at hd ⊢
    grind
  have hminus : d ≠ 45 := by
    rintro rfl
    exact absurd hd (by decide)
  have hplus : d ≠ 43 := by
    rintro rfl
    exact absurd hd (by decide)
  have hdrop : (d :: ds ++ r).dropWhile isSpace = d :: (ds ++ r) := by
    simp [hspace]
  have htake : (d :: (ds ++ r)).takeWhile isOctal = d :: ds := by
    rw [← List.cons_append, List.takeWhile_append_of_pos hdigits, hr, List.append_nil]
  have hsign : (match d :: (ds ++ r) with
      | 45 :: r => (true, r)
      | 43 :: r => (false, r)
      | s => (false, s)) = (false, d :: (ds ++ r)) := by
    split
    · simp_all
    · simp_all
    · rfl
  simp only [scanOctal, hdrop, hsign, htake]
  rw [if_neg (Nat.not_le.mpr hsize)]
  rfl

theorem HeaderAt.tarSize (h : HeaderAt mem a e) (hsize : e.size < 2 ^ 32) :
    tarSize mem a = some e.size := by
  obtain ⟨d, ds, term, rest, hb, hdigits, hterm, hval⟩ := h.size
  have hne : ∀ c ∈ d :: ds, decide (c ≠ 0) = true := by
    intro c hc
    refine decide_eq_true ?_
    rintro rfl
    exact absurd (hdigits 0 hc) (by decide)
  have hstring : Tarfs.cString mem (a + sizeField) = d :: ds ++
      (term :: (rest ++ bytesAt mem (a + sizeField + 12) 500)).takeWhile (· ≠ 0) := by
    rw [Tarfs.cString, show 512 = 12 + 500 from rfl, bytesAt_add, hb, List.append_assoc,
      List.takeWhile_append_of_pos hne]
    rfl
  have hstop : ((term :: (rest ++ bytesAt mem (a + sizeField + 12) 500)).takeWhile
      (· ≠ 0)).takeWhile isOctal = [] := by
    obtain rfl | rfl := hterm
    · rfl
    · rfl
  rw [Tarfs.tarSize, hstring, scanOctal_eq hdigits hstop (hval ▸ hsize), hval]

theorem imageEnd_ge (a : Nat) (es : List TarEntry) : a + 512 ≤ imageEnd a es := by
  induction es generalizing a with
  | nil => exact le_rfl
  | cons e es ih => exact (Nat.add_le_add_right (Nat.le_add_right _ _) _).trans (ih _)

theorem nextHeader_eq (ha : a % 512 = 0) (hfit : a + e.extent + 512 ≤ 2 ^ 32) :
    nextHeader a e.size = a + e.extent := by
  unfold nextHeader
  unfold TarEntry.extent at hfit ⊢
  simp only
  split <;> omega

-- ---------------------------------------------------------------------------
-- The tree keeps its earlier nodes
-- ---------------------------------------------------------------------------

/-- Every child is an allocated node that knows its parent; the root has none. -/
structure TarTree.Sound (t : TarTree) : Prop where
  root : 0 < t.count ∧ (t.node 0).parent = none
  child : ∀ n, ∀ c ∈ (t.node n).children, c < t.count ∧ (t.node c).parent = some n

theorem TarTree.Sound.inj {t : TarTree} (h : t.Sound) {ks ks' : List Name} {m : Nat}
    (hw : t.view.walk 0 ks = some m) (hw' : t.view.walk 0 ks' = some m) : ks = ks' :=
  Named.walk_inj (u := fun n => (t.node n).parent) (fun n c hc => (h.child n c hc).2) h.root.2
    hw hw'

theorem TarTree.Sound.walk_lt {t : TarTree} (h : t.Sound) {n m : Nat} {ks : List Name}
    (hn : n < t.count) (hw : t.view.walk n ks = some m) : m < t.count := by
  induction ks generalizing n with
  | nil =>
    cases hw
    exact hn
  | cons k ks ih =>
    obtain ⟨c, hc, hrest⟩ := Option.bind_eq_some_iff.mp hw
    exact ih (h.child n c (Named.child_mem hc).1).1 hrest

theorem makeChild_last {t : TarTree} {p : Nat} {k : Name} {a : Nat} (hp : p < t.count) :
    ((t.makeChild p k a).node p).children = (t.node p).children ++ [t.count] := by
  simp [TarTree.makeChild, Nat.ne_of_lt hp]

theorem makeChild_grown {t : TarTree} (h : t.Sound) {p : Nat} {k : Name} {a : Nat}
    (hp : p < t.count) (hc : t.view.child p k = none) : Named.Grown t.view (t.makeChild p k a).view p t.count k where
  fresh n hc := Nat.lt_irrefl _ (h.child n _ hc).1
  empty := by simp [TarTree.view, TarTree.makeChild]
  name := by simp [TarTree.view, TarTree.makeChild]
  names n hn := by
    simp only [TarTree.view, TarTree.makeChild, if_neg hn]
    split
    · next he => rw [he]
    · rfl
  absent := hc
  place := ⟨(t.node p).children, [], (List.append_nil _).symm, makeChild_last hp⟩
  others n hn hnp := by simp [TarTree.view, TarTree.makeChild, hn, hnp]

theorem makeChild_node {t : TarTree} {p n : Nat} {k : Name} {a : Nat} (hn : n < t.count) :
    ((t.makeChild p k a).node n).item = (t.node n).item ∧
      ((t.makeChild p k a).node n).parent = (t.node n).parent := by
  simp only [TarTree.makeChild, if_neg (Nat.ne_of_lt hn)]
  split
  · next he => rw [he]; exact ⟨rfl, rfl⟩
  · exact ⟨rfl, rfl⟩

theorem makeChild_new (t : TarTree) (p : Nat) (k : Name) (a : Nat) :
    (t.makeChild p k a).node t.count = ⟨⟨k, a, none, 0⟩, [], some p⟩ := if_pos rfl

theorem makeChild_buffer (t : TarTree) (p : Nat) (k : Name) (a n : Nat) :
    ((t.makeChild p k a).node n).item.buffer = none ∨
      ((t.makeChild p k a).node n).item.buffer = (t.node n).item.buffer := by
  simp only [TarTree.makeChild]
  split
  · exact Or.inl rfl
  split
  · next he => rw [he]; exact Or.inr rfl
  · exact Or.inr rfl

theorem makeChild_sound {t : TarTree} (h : t.Sound) {p : Nat} {k : Name} {a : Nat}
    (hp : p < t.count) : (t.makeChild p k a).Sound := by
  refine ⟨⟨Nat.succ_pos _, (makeChild_node h.root.1).2.trans h.root.2⟩, fun n c hc => ?_⟩
  by_cases hx : n = t.count
  · rw [hx, makeChild_new] at hc
    cases hc
  have hold : ∀ c ∈ (t.node n).children,
      c < t.count + 1 ∧ ((t.makeChild p k a).node c).parent = some n := by
    intro c hc
    obtain ⟨hlt, hpar⟩ := h.child n c hc
    exact ⟨Nat.lt_succ_of_lt hlt, (makeChild_node hlt).2.trans hpar⟩
  by_cases hnp : n = p
  · subst hnp
    rw [makeChild_last hp, List.mem_append, List.mem_singleton] at hc
    obtain hc | rfl := hc
    · exact hold c hc
    · exact ⟨Nat.lt_succ_self _, by rw [makeChild_new]⟩
  · have hsame : ((t.makeChild p k a).node n).children = (t.node n).children := by
      simp [TarTree.makeChild, hx, hnp]
    rw [hsame] at hc
    exact hold c hc

/-- What adding a path below `node` does to the tree: walks and items stay, the
path leads to a node, and every new walk is along the path. -/
structure Extended (t t' : TarTree) (tar node : Nat) (pre ps : List Name) : Prop where
  sound : t'.Sound
  count : t.count ≤ t'.count
  item : ∀ n < t.count, (t'.node n).item = (t.node n).item
  buffer : ∀ n, (t'.node n).item.buffer = none ∨ (t'.node n).item.buffer = (t.node n).item.buffer
  walk : ∀ n < t.count, ∀ ks m, t.view.walk n ks = some m → t'.view.walk n ks = some m
  reach : ∃ m, t'.view.walk node ps = some m ∧
    (t.view.walk node ps = none → (t'.node m).item.tar = tar)
  new : ∀ ks m, t'.view.walk 0 ks = some m → t.view.walk 0 ks = some m ∨ ks <+: pre ++ ps

theorem addTokens_extended {tar : Nat} {ps : List Name} {t : TarTree} (h : t.Sound) {node : Nat}
    {pre : List Name} (hpre : t.view.walk 0 pre = some node) :
    Extended t (addTokens tar t node ps) tar node pre ps := by
  have hnode : node < t.count := h.walk_lt h.root.1 hpre
  induction ps generalizing t node pre with
  | nil =>
    exact {
      sound := h
      count := le_rfl
      item := fun _ _ => rfl
      buffer := fun _ => Or.inr rfl
      walk := fun _ _ _ _ hw => hw
      reach := ⟨node, rfl, fun hnone => nomatch hnone⟩
      new := fun _ _ hw => Or.inl hw }
  | cons p ps ih =>
    cases hc : t.view.child node p with
    | some tn =>
      have hpre' : t.view.walk 0 (pre ++ [p]) = some tn := by
        rw [Named.walk_append, hpre, Option.bind_some, Named.walk_cons, hc]
        rfl
      have ht := ih h hpre' (h.walk_lt h.root.1 hpre')
      rw [addTokens, hc]
      obtain ⟨m, hm, hnew⟩ := ht.reach
      refine { ht with reach := ⟨m, ?_, fun hnone => hnew ?_⟩, new := ?_ }
      · have hstep : t.view.walk node [p] = some tn := by
          rw [Named.walk_cons, hc]
          rfl
        have hkept := ht.walk node hnode _ _ hstep
        rw [show p :: ps = [p] ++ ps from rfl, Named.walk_append, hkept]
        exact hm
      · rw [Named.walk_cons, hc] at hnone
        exact hnone
      · intro ks k hk
        rw [List.append_cons]
        exact ht.new ks k hk
    | none =>
      have hg := makeChild_grown (a := tar) h hnode hc
      have hs := makeChild_sound (k := p) (a := tar) h hnode
      have hnew := hg.child_new
      have hpre' : (t.makeChild node p tar).view.walk 0 (pre ++ [p]) = some t.count := by
        rw [Named.walk_append, hg.walk h.root.1.ne hpre, Option.bind_some, Named.walk_cons, hnew]
        rfl
      have ht := ih hs hpre' (Nat.lt_succ_self _)
      rw [addTokens, hc]
      refine
        { sound := ht.sound
          count := (Nat.le_succ _).trans ht.count
          item := fun n hn =>
            (ht.item n (Nat.lt_succ_of_lt hn)).trans (makeChild_node hn).1
          buffer := fun n => ?_
          walk := fun n hn ks m hw =>
            ht.walk n (Nat.lt_succ_of_lt hn) ks m (hg.walk hn.ne hw)
          reach := ?_
          new := fun ks m hw => ?_ }
      · obtain hnone | hsame := ht.buffer n
        · exact Or.inl hnone
        · rw [hsame]
          exact makeChild_buffer t node p tar n
      · obtain ⟨m, hm, htar⟩ := ht.reach
        have hstep : (t.makeChild node p tar).view.walk node [p] = some t.count := by
          rw [Named.walk_cons, hnew]
          rfl
        have hkept := ht.walk node (Nat.lt_succ_of_lt hnode) _ _ hstep
        refine ⟨m, ?_, fun _ => ?_⟩
        · rw [show p :: ps = [p] ++ ps from rfl, Named.walk_append, hkept]
          exact hm
        · cases ps with
          | nil =>
            cases hm
            rw [ht.item _ (Nat.lt_succ_self _), makeChild_new]
          | cons q qs =>
            refine htar ?_
            rw [Named.walk_cons, Named.Tree.child, hg.empty]
            rfl
      · obtain hold | hks := ht.new ks m hw
        · obtain hold | ⟨pre', hpre'', rfl, -⟩ := hg.walk_cases h.root.1.ne hold
          · exact Or.inl hold
          · right
            rw [h.inj hpre'' hpre]
            exact ⟨ps, (List.append_cons _ _ _).symm⟩
        · right
          rw [List.append_cons]
          exact hks

-- ---------------------------------------------------------------------------
-- The loop over the headers
-- ---------------------------------------------------------------------------

def Stored (t : TarTree) (tar : Nat) (e : TarEntry) : Prop :=
  ∃ m, t.view.walk 0 e.below = some m ∧ (e.below ≠ [] → (t.node m).item.tar = tar)

/-- The tree after the headers of `done`, given with their addresses. -/
structure Built (t : TarTree) (done : List (Nat × TarEntry)) : Prop where
  sound : t.Sound
  root : (t.node 0).item.buffer = some rootNode
  fresh : ∀ n, n ≠ 0 → (t.node n).item.buffer = none
  stored : ∀ d ∈ done, Stored t d.1 d.2
  known : ∀ ks m, t.view.walk 0 ks = some m → ks = [] ∨ ∃ d ∈ done, ks <+: d.2.below

theorem tartreeAddNode_eq {t : TarTree} (h : e.path.head? ≠ some slash) (tar : Nat) :
    tartreeAddNode t tar e.path = addTokens tar t 0 e.below := by
  cases hr : strchr e.path with
  | none => rw [tartreeAddNode, hr, TarEntry.below, tokens_of_strchr_none hr, addTokens]
  | some r => rw [tartreeAddNode, hr, TarEntry.below, ← tokens_strchr h hr]

theorem Built.add {t : TarTree} {done : List (Nat × TarEntry)} (h : Built t done) (tar : Nat)
    (hrel : e.path.head? ≠ some slash)
    (hnew : e.below ≠ [] → ∀ d ∈ done, ¬e.below <+: d.2.below) :
    Built (tartreeAddNode t tar e.path) (done ++ [(tar, e)]) := by
  have hext : Extended t (addTokens tar t 0 e.below) tar 0 [] e.below :=
    addTokens_extended h.sound rfl
  rw [tartreeAddNode_eq hrel]
  refine ⟨hext.sound, ?_, fun n hne => ?_, fun d hd => ?_, fun ks m hw => ?_⟩
  · rw [hext.item 0 h.sound.root.1]
    exact h.root
  · obtain hnone | hsame := hext.buffer n
    · exact hnone
    · exact hsame.trans (h.fresh n hne)
  · rw [List.mem_append, List.mem_singleton] at hd
    obtain hd | rfl := hd
    · obtain ⟨m, hm, htar⟩ := h.stored d hd
      refine ⟨m, hext.walk 0 h.sound.root.1 _ m hm, fun hne => ?_⟩
      rw [hext.item m (h.sound.walk_lt h.sound.root.1 hm)]
      exact htar hne
    · obtain ⟨m, hm, htar⟩ := hext.reach
      refine ⟨m, hm, fun hne => htar ?_⟩
      cases hw : t.view.walk 0 e.below with
      | none => rfl
      | some k =>
        obtain hnil | ⟨d, hd, hpre⟩ := h.known _ k hw
        · exact absurd hnil hne
        · exact absurd hpre (hnew hne d hd)
  · obtain hold | hpre := hext.new ks m hw
    · obtain hnil | ⟨d, hd, hpre⟩ := h.known ks m hold
      · exact Or.inl hnil
      · exact Or.inr ⟨d, List.mem_append_left _ hd, hpre⟩
    · exact Or.inr ⟨(tar, e), List.mem_append_right _ List.mem_cons_self, hpre⟩

def Ahead (es : List TarEntry) : Prop :=
  es.Pairwise fun e f => f.below ≠ [] → ¬f.below <+: e.below

/-- With enough fuel the loop visits the headers in order and stops at the zero
block, by the entries that are left. -/
theorem buildLoop_built {es : List TarEntry} {a : Nat} {t : TarTree} {done : List (Nat × TarEntry)}
    (h : Built t done) (himage : Image mem a es) (ha : a % 512 = 0)
    (hend : imageEnd a es ≤ 2 ^ 32) (hrel : ∀ e ∈ es, e.path.head? ≠ some slash)
    (hahead : Ahead (done.map Prod.snd ++ es)) :
    ∃ t', Built t' (done ++ (headers a es).zip es) ∧ ∀ fuel > es.length, ∀ seen,
      buildLoop mem fuel t a seen = some (t', seen ++ headers a es) := by
  induction es generalizing a t done with
  | nil =>
    refine ⟨t, by simpa using h, fun fuel hfuel seen => ?_⟩
    obtain ⟨k, rfl⟩ : ∃ k, fuel = k + 1 := ⟨fuel - 1, by omega⟩
    have hzero : mem a = 0 := himage 0 (by decide)
    rw [buildLoop, if_pos hzero, headers, List.append_nil]
  | cons e es ih =>
    obtain ⟨hhead, hrest⟩ := himage
    have hfit : a + e.extent + 512 ≤ 2 ^ 32 := (imageEnd_ge _ es).trans hend
    have hsize : e.size < 2 ^ 32 := by
      unfold TarEntry.extent at hfit
      omega
    have hnext := nextHeader_eq ha hfit
    have hadd := h.add a (hrel e List.mem_cons_self) fun hne d hd => by
      have := (List.pairwise_append.mp hahead).2.2 d.2 (List.mem_map_of_mem hd) e
        List.mem_cons_self
      exact this hne
    obtain ⟨t', hbuilt, hrun⟩ := ih hadd hrest
      (by unfold TarEntry.extent; omega) hend
      (fun f hf => hrel f (List.mem_cons_of_mem _ hf))
      (by simpa [Ahead] using hahead)
    refine ⟨t', by simpa [headers] using hbuilt, fun fuel hfuel seen => ?_⟩
    obtain ⟨k, rfl⟩ : ∃ k, fuel = k + 1 := ⟨fuel - 1, by omega⟩
    rw [buildLoop, if_neg hhead.first_ne, hhead.tarSize hsize, hhead.cString]
    simp only [Option.bind_eq_bind, Option.bind_some, hnext]
    rw [hrun k (by simpa using hfuel), headers, List.append_assoc]
    rfl

-- ---------------------------------------------------------------------------
-- Lookups leave the tree as it is
-- ---------------------------------------------------------------------------

def inodeOf (mem : Memory) (t : TarTree) (n : Nat) : Vnode :=
  if n = 0 then rootNode else newInode mem (t.node n).item n

/-- The buffers hold what `tar_get_inode` would make. -/
def Cached (mem : Memory) (t : TarTree) : Prop :=
  (t.node 0).item.buffer = some rootNode ∧
    ∀ n v, (t.node n).item.buffer = some v → v = inodeOf mem t n

structure Same (t t' : TarTree) : Prop where
  children : ∀ n, (t'.node n).children = (t.node n).children
  name : ∀ n, (t'.node n).item.name = (t.node n).item.name
  tar : ∀ n, (t'.node n).item.tar = (t.node n).item.tar

theorem Same.refl (t : TarTree) : Same t t := ⟨fun _ => rfl, fun _ => rfl, fun _ => rfl⟩

theorem Same.trans {t t' t'' : TarTree} (h : Same t t') (h' : Same t' t'') : Same t t'' :=
  ⟨fun n => (h'.children n).trans (h.children n), fun n => (h'.name n).trans (h.name n),
    fun n => (h'.tar n).trans (h.tar n)⟩

theorem Same.view {t t' : TarTree} (h : Same t t') : t'.view = t.view := by
  simp only [TarTree.view, h.children, h.name]

theorem Same.inodeOf {t t' : TarTree} (h : Same t t') (n : Nat) :
    inodeOf mem t' n = inodeOf mem t n := by
  simp only [Tarfs.inodeOf, newInode, h.name, h.tar]

theorem setItem_same {t : TarTree} {n : Nat} {item : Item} (hname : item.name = (t.node n).item.name)
    (htar : item.tar = (t.node n).item.tar) : Same t (t.setItem n item) := by
  have hnode (k : Nat) : (t.setItem n item).node k =
      if k = n then { t.node n with item := item } else t.node k := Function.update_apply _ _ _ _
  refine ⟨fun k => ?_, fun k => ?_, fun k => ?_⟩ <;> rw [hnode] <;> split
  · next he => rw [he]
  · rfl
  · next he => rw [he]; exact hname
  · rfl
  · next he => rw [he]; exact htar
  · rfl

theorem setItem_cached {t : TarTree} {n : Nat} {item : Item} (h : Cached mem t)
    (hs : Same t (t.setItem n item)) (hb : item.buffer = some (inodeOf mem t n)) :
    Cached mem (t.setItem n item) := by
  have hnode (k : Nat) : (t.setItem n item).node k =
      if k = n then { t.node n with item := item } else t.node k := Function.update_apply _ _ _ _
  constructor
  · rw [hnode]
    split
    · next he => subst he; exact hb
    · exact h.1
  · intro k v hv
    rw [hs.inodeOf]
    rw [hnode] at hv
    split at hv
    · next he =>
      subst he
      exact Option.some.inj (hv.symm.trans hb)
    · exact h.2 k v hv

theorem tarGetInode_spec {t : TarTree} (h : Cached mem t) (n : Nat) :
    (tarGetInode mem t n).1 = inodeOf mem t n ∧ Same t (tarGetInode mem t n).2 ∧
      Cached mem (tarGetInode mem t n).2 := by
  cases hb : (t.node n).item.buffer with
  | some v =>
    have hv := h.2 n v hb
    have hs : Same t (t.setItem n ⟨(t.node n).item.name, (t.node n).item.tar, some v,
        (t.node n).item.users + 1⟩) := setItem_same rfl rfl
    simp only [tarGetInode, hb]
    exact ⟨hv, hs, setItem_cached h hs (congrArg some hv)⟩
  | none =>
    have hne : n ≠ 0 := by
      rintro rfl
      rw [h.1] at hb
      cases hb
    have hv : newInode mem (t.node n).item n = inodeOf mem t n := (if_neg hne).symm
    have hs : Same t (t.setItem n
        { (t.node n).item with buffer := some (newInode mem (t.node n).item n), users := 1 }) :=
      setItem_same rfl rfl
    simp only [tarGetInode, hb]
    exact ⟨hv, hs, setItem_cached h hs (congrArg some hv)⟩

theorem tarFinddir_kept {t t' : TarTree} {dir : Vnode} {k : Name} {v : Option Vnode}
    (h : Cached mem t) (hf : tarFinddir mem t dir k = some (v, t')) : Same t t' ∧ Cached mem t' := by
  simp only [tarFinddir] at hf
  split at hf
  · cases hf
    exact (tarGetInode_spec h _).2
  split at hf
  · obtain ⟨parent, -, hf⟩ := Option.bind_eq_some_iff.mp hf
    cases hf
    exact (tarGetInode_spec h _).2
  split at hf
  · cases hf
    exact (tarGetInode_spec h _).2
  · cases hf
    exact ⟨Same.refl _, h⟩

theorem walkPath_kept {t t' : TarTree} {dir : Vnode} {ks : List Name} {v : Option Vnode}
    (h : Cached mem t) (hw : walkPath mem t dir ks = some (v, t')) : Same t t' ∧ Cached mem t' := by
  induction ks generalizing t dir with
  | nil =>
    cases hw
    exact ⟨Same.refl _, h⟩
  | cons k ks ih =>
    obtain ⟨⟨found, t₁⟩, hf, hrest⟩ := Option.bind_eq_some_iff.mp hw
    obtain ⟨hs, hc⟩ := tarFinddir_kept h hf
    cases found with
    | none =>
      cases hrest
      exact ⟨hs, hc⟩
    | some d =>
      obtain ⟨hs', hc'⟩ := ih hc hrest
      exact ⟨hs.trans hs', hc'⟩

theorem inodeOf_data (mem : Memory) (t : TarTree) (n : Nat) : (inodeOf mem t n).data = n := by
  unfold inodeOf
  split
  · next h => exact h.symm
  · rfl

theorem tarFinddir_child {t : TarTree} {d : Vnode} {k : Name} {c : Nat} (h : Cached mem t) (hdot : k ≠ dot)
    (hdotdot : k ≠ dotdot) (hc : t.view.child d.data k = some c) :
    tarFinddir mem t d k = some (some (inodeOf mem t c), (tarGetInode mem t c).2) := by
  rw [tarFinddir, if_neg hdot, if_neg hdotdot, hc]
  exact congrArg (fun v => some (some v, (tarGetInode mem t c).2)) (tarGetInode_spec h c).1

theorem walkPath_eq {t : TarTree} {d : Vnode} {ks : List Name} {m : Nat} (h : Cached mem t)
    (hdir : d = inodeOf mem t d.data) (hplain : dot ∉ ks ∧ dotdot ∉ ks)
    (hw : t.view.walk d.data ks = some m) :
    ∃ t', walkPath mem t d ks = some (some (inodeOf mem t m), t') := by
  induction ks generalizing t d with
  | nil =>
    cases hw
    exact ⟨t, congrArg (fun v => some (some v, t)) hdir⟩
  | cons k ks ih =>
    obtain ⟨c, hc, hrest⟩ := Option.bind_eq_some_iff.mp hw
    obtain ⟨-, hs, hcached⟩ := tarGetInode_spec h c
    have hf := tarFinddir_child h (fun he => hplain.1 (he ▸ List.mem_cons_self))
      (fun he => hplain.2 (he ▸ List.mem_cons_self)) hc
    have hdata := inodeOf_data mem t c
    obtain ⟨t', ht'⟩ := ih (d := inodeOf mem t c) hcached
      (by rw [hdata, hs.inodeOf])
      ⟨fun hm => hplain.1 (List.mem_cons_of_mem _ hm), fun hm => hplain.2 (List.mem_cons_of_mem _ hm)⟩
      (by rw [hdata, hs.view]; exact hrest)
    refine ⟨t', ?_⟩
    rw [walkPath, hf]
    simp only [Option.bind_eq_bind, Option.bind_some]
    rw [ht', hs.inodeOf]

-- ---------------------------------------------------------------------------
-- The file system of an archive
-- ---------------------------------------------------------------------------

def earlier (mem : Memory) (t : TarTree) (walks : List (List Name)) : Option TarTree :=
  walks.foldlM (fun t ks => (walkPath mem t rootNode ks).map Prod.snd) t

theorem earlier_kept {t t' : TarTree} {walks : List (List Name)} (h : Cached mem t)
    (hw : earlier mem t walks = some t') : Same t t' ∧ Cached mem t' := by
  induction walks generalizing t with
  | nil =>
    cases hw
    exact ⟨Same.refl _, h⟩
  | cons ks walks ih =>
    obtain ⟨t₁, h₁, hrest⟩ := Option.bind_eq_some_iff.mp hw
    obtain ⟨⟨v, t₁'⟩, hwalk, rfl⟩ := Option.map_eq_some_iff.mp h₁
    obtain ⟨hs, hc⟩ := walkPath_kept h hwalk
    obtain ⟨hs', hc'⟩ := ih hc hrest
    exact ⟨hs.trans hs', hc'⟩

theorem cached_of_fresh {t : TarTree} (hroot : (t.node 0).item.buffer = some rootNode)
    (hfresh : ∀ n, n ≠ 0 → (t.node n).item.buffer = none) : Cached mem t := by
  refine ⟨hroot, fun n v hv => ?_⟩
  by_cases hn : n = 0
  · rw [hn, hroot] at hv
    rw [inodeOf, if_pos hn, Option.some.inj hv]
  · rw [hfresh n hn] at hv
    cases hv

theorem Built.cached {t : TarTree} {done : List (Nat × TarEntry)} (h : Built t done) :
    Cached mem t := cached_of_fresh h.root h.fresh

theorem rootTree_built (name : Name) (tar : Nat) : Built (rootTree name tar rootNode) [] where
  sound := by
    refine ⟨⟨Nat.one_pos, rfl⟩, fun n c hc => ?_⟩
    simp only [rootTree] at hc
    split at hc <;> cases hc
  root := rfl
  fresh n hn := by simp [rootTree, hn]
  stored d hd := nomatch hd
  known ks m hw := by
    cases ks with
    | nil => exact Or.inl rfl
    | cons k ks =>
      rw [Named.walk_cons] at hw
      cases hw

/-- Among entries with one first component, what is below the root tells them
apart as their paths do. -/
theorem Archive.ahead {es : List TarEntry} (h : Archive es) : Ahead es := by
  obtain ⟨c, hc⟩ := h.first
  have hcons : ∀ e ∈ es, tokens e.path = c :: e.below := by
    intro e he
    have := hc e he
    rw [TarEntry.below]
    cases hp : tokens e.path with
    | nil =>
      rw [hp] at this
      cases this
    | cons d ds =>
      rw [hp] at this
      rw [Option.some.inj this]
      rfl
  refine List.Pairwise.imp_of_mem (fun {e f} he hf hef _ hpre => ?_) (h.distinct.and h.order)
  have hprefix : tokens f.path <+: tokens e.path := by
    rw [hcons e he, hcons f hf]
    exact (List.prefix_cons_inj c).mpr hpre
  exact hef.1 (hef.2 hprefix).symm

theorem headers_type {es : List TarEntry} {d : Nat × TarEntry} (himage : Image mem a es)
    (hd : d ∈ (headers a es).zip es) : HeaderAt mem d.1 d.2 := by
  induction es generalizing a with
  | nil => cases hd
  | cons e es ih =>
    obtain ⟨hhead, hrest⟩ := himage
    rw [headers, List.zip_cons_cons, List.mem_cons] at hd
    obtain rfl | hd := hd
    · exact hhead
    · exact ih hrest hd

theorem mem_headers {es : List TarEntry} (he : e ∈ es) :
    ∃ tar, (tar, e) ∈ (headers a es).zip es := by
  induction es generalizing a with
  | nil => cases he
  | cons f es ih =>
    rw [headers, List.zip_cons_cons]
    obtain rfl | he := List.mem_cons.mp he
    · exact ⟨a, List.mem_cons_self⟩
    · obtain ⟨tar, htar⟩ := ih (a := a + f.extent) he
      exact ⟨tar, List.mem_cons_of_mem _ htar⟩

theorem size_lt {es : List TarEntry} (hend : imageEnd a es ≤ 2 ^ 32) (he : e ∈ es) :
    e.size < 2 ^ 32 := by
  induction es generalizing a with
  | nil => cases he
  | cons f es ih =>
    obtain rfl | he := List.mem_cons.mp he
    · have hfit : a + e.extent + 512 ≤ 2 ^ 32 := (imageEnd_ge _ es).trans hend
      unfold TarEntry.extent at hfit
      omega
    · exact ih hend he

-- ---------------------------------------------------------------------------
-- Writing an archive
-- ---------------------------------------------------------------------------

def octalDigits : Nat → Nat → List UInt8
  | 0, _ => []
  | k + 1, n => octalDigits k (n / 8) ++ [48 + UInt8.ofNat (n % 8)]

def headerBlock (e : TarEntry) : List UInt8 :=
  e.path ++ List.replicate (100 - e.path.length) 0 ++ List.replicate 24 0 ++
    (octalDigits 11 e.size ++ [0]) ++ List.replicate 20 0 ++ [e.type] ++ List.replicate 355 0

def imageOf : List TarEntry → List UInt8
  | [] => []
  | e :: es => headerBlock e ++ List.replicate ((e.size + 511) / 512 * 512) 0 ++ imageOf es

def load (bytes : List UInt8) : Memory := fun i => bytes.getD i 0

theorem octal_append (ds : List UInt8) (d : UInt8) :
    octal (ds ++ [d]) = octal ds * 8 + (d.toNat - 48) := by
  simp [octal]

theorem toNat_digit (n : Nat) : (48 + UInt8.ofNat (n % 8)).toNat = 48 + n % 8 := by
  rw [UInt8.toNat_add, UInt8.toNat_ofNat']
  simp only [UInt8.reduceToNat]
  omega

theorem octalDigits_spec (k n : Nat) : (octalDigits k n).length = k ∧
    (∀ c ∈ octalDigits k n, isOctal c = true) ∧ octal (octalDigits k n) = n % 8 ^ k := by
  induction k generalizing n with
  | zero => exact ⟨rfl, (fun c hc => nomatch hc), (Nat.mod_one n).symm⟩
  | succ k ih =>
    obtain ⟨hlen, hdigits, hval⟩ := ih (n / 8)
    refine ⟨by simp [octalDigits, hlen], fun c hc => ?_, ?_⟩
    · rw [octalDigits, List.mem_append, List.mem_singleton] at hc
      obtain hc | rfl := hc
      · exact hdigits c hc
      · have hn := toNat_digit n
        simp only [isOctal, Bool.and_eq_true, decide_eq_true_eq, UInt8.le_iff_toNat_le, hn]
        simp only [UInt8.reduceToNat]
        omega
    · rw [octalDigits, octal_append, hval, toNat_digit, Nat.pow_succ', Nat.mod_mul]
      omega

theorem bytesAt_load (u v w : List UInt8) : bytesAt (load (u ++ v ++ w)) u.length v.length = v := by
  refine List.ext_getElem (by simp [bytesAt]) fun i h h' => ?_
  simp [bytesAt, load, List.getD_eq_getElem?_getD, List.getElem?_append, h']

theorem load_at (u w : List UInt8) (c : UInt8) : load (u ++ c :: w) u.length = c := by
  simp [load]

structure TarEntry.Fits (e : TarEntry) : Prop where
  short : e.path.length ≤ 99
  nonzero : 0 ∉ e.path
  nonempty : e.path ≠ []
  size : e.size < 8 ^ 11

theorem headerBlock_length (h : e.Fits) : (headerBlock e).length = 512 := by
  have := h.short
  simp only [headerBlock, List.length_append, List.length_replicate, (octalDigits_spec _ _).1,
    List.length_singleton]
  omega

theorem headerBlock_at (h : e.Fits) (pre post : List UInt8) :
    HeaderAt (load (pre ++ headerBlock e ++ post)) pre.length e := by
  have hshort := h.short
  obtain ⟨hlen, hdigits, hval⟩ := octalDigits_spec 11 e.size
  have hname : (e.path ++ List.replicate (100 - e.path.length) (0 : UInt8)).length = 100 := by
    simp only [List.length_append, List.length_replicate]
    omega
  have hu : (pre ++ (e.path ++ List.replicate (100 - e.path.length) 0) ++
      List.replicate 24 (0 : UInt8)).length = pre.length + sizeField := by
    rw [List.length_append, List.length_append, hname, List.length_replicate]
    exact Nat.add_assoc _ 100 24
  refine ⟨?_, hshort, h.nonzero, h.nonempty, ?_, ?_, ?_⟩
  · have hb := bytesAt_load pre (e.path ++ List.replicate (100 - e.path.length) 0)
      (List.replicate 24 0 ++ (octalDigits 11 e.size ++ [0]) ++ List.replicate 20 0 ++ [e.type] ++
        List.replicate 355 0 ++ post)
    rw [hname] at hb
    rw [← hb]
    simp only [headerBlock, List.append_assoc]
  · have hb := bytesAt_load (pre ++ (e.path ++ List.replicate (100 - e.path.length) 0) ++
      List.replicate 24 0) (octalDigits 11 e.size ++ [0])
      (List.replicate 20 0 ++ [e.type] ++ List.replicate 355 0 ++ post)
    rw [hu, List.length_append, hlen] at hb
    cases hd : octalDigits 11 e.size with
    | nil =>
      rw [hd] at hlen
      cases hlen
    | cons d ds =>
      rw [hd] at hb hdigits hval
      refine ⟨d, ds, 0, [], ?_, hdigits, Or.inl rfl, hval.trans (Nat.mod_eq_of_lt h.size)⟩
      rw [← hb]
      simp only [headerBlock, List.append_assoc, hd, List.length_singleton]
  · have hb := load_at (pre ++ (e.path ++ List.replicate (100 - e.path.length) 0) ++
      List.replicate 24 0 ++ (octalDigits 11 e.size ++ [0]) ++ List.replicate 20 0)
      (List.replicate 355 0 ++ post) e.type
    have hidx : pre.length + sizeField + (11 + 1) + 20 = pre.length + typeField := by
      show pre.length + 124 + (11 + 1) + 20 = pre.length + 156
      omega
    rw [List.length_append, List.length_append, hu, List.length_append, hlen, List.length_singleton,
      List.length_replicate, hidx] at hb
    rw [← hb]
    simp only [headerBlock, List.append_assoc, List.cons_append, List.nil_append]
  · have hb := load_at (pre ++ (e.path ++ List.replicate (100 - e.path.length) 0) ++
      List.replicate 24 0 ++ (octalDigits 11 e.size ++ [0]) ++ List.replicate 20 0 ++ [e.type] ++
      List.replicate 188 0) (List.replicate 166 0 ++ post) 0
    have hsplit : List.replicate 355 (0 : UInt8) = List.replicate 188 0 ++ 0 :: List.replicate 166 0 := by
      rw [← List.replicate_succ, List.replicate_append_replicate]
    have hidx : pre.length + sizeField + (11 + 1) + 20 + 1 + 188 = pre.length + prefixField := by
      show pre.length + 124 + (11 + 1) + 20 + 1 + 188 = pre.length + 345
      omega
    rw [List.length_append, List.length_append, List.length_append, List.length_append, hu,
      List.length_append, hlen, List.length_singleton, List.length_singleton,
      List.length_replicate, List.length_replicate, hidx] at hb
    rw [← hb]
    simp only [headerBlock, hsplit, List.append_assoc, List.cons_append, List.nil_append]

theorem imageOf_image {es : List TarEntry} (h : ∀ e ∈ es, e.Fits) (pre : List UInt8) :
    Image (load (pre ++ imageOf es)) pre.length es := by
  induction es generalizing pre with
  | nil =>
    intro i _
    simp [load, imageOf]
  | cons e es ih =>
    have he := h e List.mem_cons_self
    constructor
    · have hb := headerBlock_at he pre
        (List.replicate ((e.size + 511) / 512 * 512) 0 ++ imageOf es)
      simpa only [imageOf, List.append_assoc] using hb
    · have hrest := ih (fun f hf => h f (List.mem_cons_of_mem _ hf))
        (pre ++ (headerBlock e ++ List.replicate ((e.size + 511) / 512 * 512) 0))
      rw [List.length_append, List.length_append, headerBlock_length he, List.length_replicate]
        at hrest
      change Image _ (pre.length + (512 + (e.size + 511) / 512 * 512)) es
      simpa only [imageOf, List.append_assoc] using hrest

-- ---------------------------------------------------------------------------
-- Finding every entry
-- ---------------------------------------------------------------------------

/-- The headers are visited in order up to the zero block, and every entry is found
along its components whatever was looked up before. -/
theorem tarfsInit_finds {es : List TarEntry} (h : Archive es) (himage : Image mem a es)
    (ha : a % 512 = 0) (hend : imageEnd a es ≤ 2 ^ 32) :
    ∃ t, (∀ fuel > es.length, tarfsInit mem a fuel = some (t, headers a es)) ∧
      ∀ e ∈ es, ∀ walks t', earlier mem t walks = some t' →
        ∃ v t'', walkPath mem t' rootNode e.below = some (some v, t'') ∧
          v.length = e.size ∧ (v.type = .directory ↔ e.type = tarTypeDir) := by
  obtain ⟨name, hname⟩ : ∃ name, (tokens (cString mem a)).head? = some name := by
    obtain ⟨c, hc⟩ := h.first
    cases hes : es with
    | nil => exact absurd hes h.nonempty
    | cons e es' =>
      rw [hes] at himage
      refine ⟨c, ?_⟩
      rw [himage.1.cString]
      exact hc e (hes ▸ List.mem_cons_self)
  obtain ⟨t, hbuilt, hrun⟩ := buildLoop_built (rootTree_built name a) himage ha hend h.relative
    (by simpa using h.ahead)
  refine ⟨t, fun fuel hfuel => ?_, fun e he walks t' hearlier => ?_⟩
  · rw [tarfsInit, buildTarTree, hname]
    exact hrun fuel hfuel []
  obtain ⟨tar, htar⟩ := mem_headers (a := a) he
  obtain ⟨m, hm, hstored⟩ := hbuilt.stored _ htar
  have hcache : Cached mem t := hbuilt.cached
  obtain ⟨hsame, hcached⟩ := earlier_kept hcache hearlier
  have hm' : t'.view.walk rootNode.data e.below = some m := by
    rw [hsame.view]
    exact hm
  obtain ⟨t'', hwalk⟩ := walkPath_eq hcached rfl (h.plain e he) hm'
  refine ⟨_, t'', hwalk, ?_⟩
  by_cases hbelow : e.below = []
  · obtain ⟨htype, hsize⟩ := h.deep e he hbelow
    rw [hbelow] at hm
    cases hm
    exact ⟨hsize.symm, iff_of_true rfl htype⟩
  · have hhead := headers_type himage htar
    have hm0 : m ≠ 0 := by
      rintro rfl
      exact hbelow (hbuilt.sound.inj hm Named.walk_nil)
    rw [hsame.inodeOf, inodeOf, if_neg hm0]
    refine ⟨?_, ?_⟩
    · simp only [newInode, hstored hbelow, hhead.tarSize (size_lt hend he), Option.getD_some]
    · simp only [newInode, hstored hbelow, hhead.type]
      split
      · next ht => exact iff_of_true rfl ht
      · next ht => exact iff_of_false (fun hc => nomatch hc) ht

/-- A directory with one file of three bytes: `t/` and `t/a`. -/
def smallArchive : List TarEntry := [⟨[116, 47], 0, 53⟩, ⟨[116, 47, 97], 3, 48⟩]

theorem smallArchive_archive : Archive smallArchive where
  nonempty := by decide
  first := ⟨[116], by decide⟩
  relative := by decide
  deep := by decide
  plain := by decide
  distinct := by decide
  order := by decide

theorem smallArchive_fits : ∀ e ∈ smallArchive, e.Fits := by
  intro e he
  have : e.path.length ≤ 99 ∧ 0 ∉ e.path ∧ e.path ≠ [] ∧ e.size < 8 ^ 11 := by
    revert e
    decide
  exact ⟨this.1, this.2.1, this.2.2.1, this.2.2.2⟩

theorem tarfsInit_finds_small : ∃ t,
    tarfsInit (load (imageOf smallArchive)) 0 3 = some (t, [0, 512]) ∧
      ∃ v t', walkPath (load (imageOf smallArchive)) t rootNode [[97]] = some (some v, t') ∧
        v.length = 3 ∧ v.type ≠ .directory := by
  obtain ⟨t, hrun, hfinds⟩ := tarfsInit_finds (a := 0) smallArchive_archive
    (imageOf_image smallArchive_fits []) rfl (by decide)
  obtain ⟨v, t', hwalk, hsize, htype⟩ := hfinds ⟨[116, 47, 97], 3, 48⟩ (by decide) [] t rfl
  exact ⟨t, hrun 3 (by decide), v, t', hwalk, hsize, fun hc => absurd (htype.mp hc) (by decide)⟩

def foundAt (es : List TarEntry) (e : TarEntry) : Option (Option Vnode) := do
  let (t, _) ← tarfsInit (load (imageOf es)) 0 (es.length + 1)
  let (v, _) ← walkPath (load (imageOf es)) t rootNode e.below
  return v

/-- One file, with one component only. -/
def lone : List TarEntry := [⟨[104], 5, 48⟩]
/-- `t/`, `t/./` and `t/./a` -/
def withDot : List TarEntry :=
  [⟨[116, 47], 0, 53⟩, ⟨[116, 47, 46, 47], 0, 53⟩, ⟨[116, 47, 46, 47, 97], 3, 48⟩]
/-- `t/` and `t/..` -/
def withDotdot : List TarEntry := [⟨[116, 47], 0, 53⟩, ⟨[116, 47, 46, 46], 3, 48⟩]
/-- `/t/` and `/t/a` -/
def absolute : List TarEntry := [⟨[47, 116, 47], 0, 53⟩, ⟨[47, 116, 47, 97], 3, 48⟩]
/-- `t/`, the directory `t/a/` and the file `t/a` -/
def twice : List TarEntry := [⟨[116, 47], 0, 53⟩, ⟨[116, 47, 97, 47], 0, 53⟩, ⟨[116, 47, 97], 3, 48⟩]
/-- `t/`, the file `t/a/b` and the file `t/a` -/
def early : List TarEntry := [⟨[116, 47], 0, 53⟩, ⟨[116, 47, 97, 47, 98], 1, 48⟩, ⟨[116, 47, 97], 3, 48⟩]

def oddArchives : List (List TarEntry) := [lone, withDot, withDotdot, absolute, twice, early]

theorem oddArchives_fit {es : List TarEntry} (hes : es ∈ oddArchives) : ∀ e ∈ es, e.Fits := by
  intro e he
  have : e.path.length ≤ 99 ∧ 0 ∉ e.path ∧ e.path ≠ [] ∧ e.size < 8 ^ 11 := by
    revert e
    revert es
    decide
  exact ⟨this.1, this.2.1, this.2.2.1, this.2.2.2⟩

/-- Images of entries with distinct paths and one first component, every directory
before the entries below it, whose last entry is not found as it is. -/
theorem oddArchives_lost :
    (∀ es ∈ oddArchives, Image (load (imageOf es)) 0 es ∧ imageEnd 0 es ≤ 2 ^ 32 ∧
      (∀ e ∈ es, ∀ f ∈ es, (tokens e.path).head? = (tokens f.path).head?) ∧
      es.Pairwise (fun e f => e.path ≠ f.path) ∧
      es.Pairwise (fun e f => f.type = tarTypeDir → tokens f.path <+: tokens e.path →
        tokens f.path = tokens e.path)) ∧
    foundAt lone ⟨[104], 5, 48⟩ = some (some ⟨[116, 97, 114, 102, 115], .directory, 0, 0⟩) ∧
    foundAt withDot ⟨[116, 47, 46, 47, 97], 3, 48⟩ = some none ∧
    foundAt withDotdot ⟨[116, 47, 46, 46], 3, 48⟩ = none ∧
    foundAt absolute ⟨[47, 116, 47, 97], 3, 48⟩ = some none ∧
    foundAt twice ⟨[116, 47, 97], 3, 48⟩ = some (some ⟨[97], .directory, 0, 1⟩) ∧
    foundAt early ⟨[116, 47, 97], 3, 48⟩ = some (some ⟨[97], .file, 1, 1⟩) := by
  refine ⟨fun es hes => ⟨imageOf_image (oddArchives_fit hes) [], ?_⟩, ?_, ?_, ?_, ?_, ?_, ?_⟩
  · revert es
    decide
  all_goals decide +kernel

end Os5.Tarfs
