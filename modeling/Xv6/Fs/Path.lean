import Xv6.Fs.Mkfs

/-!
# Xv6.Fs.Path — `skipelem` and `namex`

`skipelem` takes the next element off a path and copies it into the `DIRSIZ`-byte buffer
`name`; `namex` calls it until it returns 0, looking each element up in the directory reached so
far. A path is the list of its bytes before the NUL.

What a path means is the list of its `components`: the pieces between slashes, empty ones
dropped. One call of `skipelem` takes exactly the first component, leaves it in the buffer as
`namecmp` reads it (cut to `DIRSIZ` bytes, with a NUL after it when shorter), and returns the rest
of the path, which is empty exactly when no component is left (`skipelem_some`). Calling it
until it returns 0 therefore meets the components in order (`skipelem_iterate`), and `namex`
is the walk along them from the root or from `cwd` (`namei_walk`), stopped one component early
for `nameiparent` (`nameiparent_walk`).

The file system enters `namex` through three operations only (`Dirs`): the root inode, whether
an inode is a directory, and `dirlookup`, which compares names with `namecmp` and so sees the
buffer as the bytes before its NUL, at most `DIRSIZ` of them. Locks and reference counts are
left out.
-/

namespace Xv6.Fs

/-- `'/'`. -/
def SLASH : UInt8 := 47

/-- `char name[DIRSIZ]`: the buffer `skipelem` copies an element into. -/
structure NameBuf where
  bytes : List UInt8
  length_eq : bytes.length = DIRSIZ

/-- The name in the buffer as `namecmp` (`strncmp` up to `DIRSIZ`) reads it. -/
def NameBuf.read (name : NameBuf) : List UInt8 := name.bytes.takeWhile (· != 0)

/-- The copy of an element `s` into `name`: all `DIRSIZ` bytes of it when it is that long
(`memmove(name, s, DIRSIZ)`), else the element and a NUL, the bytes after the NUL left as they
were (`memmove(name, s, len); name[len] = 0`). -/
def NameBuf.copy (name : NameBuf) (s : List UInt8) : NameBuf :=
  if h : s.length ≥ DIRSIZ then ⟨s.take DIRSIZ, by simp; omega⟩
  else ⟨s ++ 0 :: name.bytes.drop (s.length + 1), by simp [name.length_eq]; omega⟩

/-- `skipelem(path, name)`: skip the slashes, return 0 at the end of the path, else copy the
element into `name` and return the path after the element and the slashes that follow it. -/
def skipelem (path : List UInt8) (name : NameBuf) : Option (List UInt8 × NameBuf) :=
  let path := path.dropWhile (· == SLASH)
  if path = [] then none
  else
    let s := path.takeWhile (· != SLASH)
    let path := path.dropWhile (· != SLASH)
    some (path.dropWhile (· == SLASH), name.copy s)

/-- The components of a path: the pieces between slashes, empty ones dropped. -/
def components (path : List UInt8) : List (List UInt8) :=
  (path.splitOn SLASH).filter (· ≠ [])

/-- The buffer holds the element `c` as `namecmp` reads it: its first `DIRSIZ` bytes, and a NUL
after them when `c` is shorter. -/
def NameBuf.Holds (name : NameBuf) (c : List UInt8) : Prop :=
  c.take DIRSIZ ++ (if c.length < DIRSIZ then [0] else []) <+: name.bytes

/-! ## Components -/

@[simp] theorem components_nil : components [] = [] := rfl

@[simp] theorem components_slash (r : List UInt8) : components (SLASH :: r) = components r := by
  have h := List.splitOn_append_cons_self_of_not_mem (List.not_mem_nil (a := SLASH)) r
  simp only [List.nil_append] at h
  simp [components, h]

theorem components_dropWhile (path : List UInt8) :
    components (path.dropWhile (· == SLASH)) = components path := by
  induction path with
  | nil => rfl
  | cons b path ih =>
    by_cases hb : b = SLASH
    · subst hb
      simpa using ih
    · simp [hb]

/-- What `dropWhile` leaves is empty or starts with an element that fails the test. -/
theorem dropWhile_eq_nil_or_cons {α : Type} (p : α → Bool) (l : List α) :
    l.dropWhile p = [] ∨ ∃ b r, l.dropWhile p = b :: r ∧ p b = false := by
  cases h : l.dropWhile p with
  | nil => exact .inl rfl
  | cons b r =>
    have hb := List.head_dropWhile_not p (l := l) (by simp [h])
    simp only [h, List.head_cons] at hb
    exact .inr ⟨b, r, rfl, hb⟩

/-- An element without slashes, followed by the end of the path or by a slash, is the first
component. -/
theorem components_elem {s r : List UInt8} (hs : s ≠ []) (hslash : SLASH ∉ s)
    (hr : r = [] ∨ ∃ r', r = SLASH :: r') :
    components (s ++ r) = s :: components r := by
  rcases hr with rfl | ⟨r', rfl⟩
  · simp [components, List.splitOn_eq_singleton hslash, hs]
  · rw [components_slash]
    simp [components, List.splitOn_append_cons_self_of_not_mem hslash, hs]

/-- The element `skipelem` cuts off a path that does not start with a slash. -/
theorem takeWhile_elem {p : List UInt8} {b : UInt8} {r : List UInt8} (h : p = b :: r)
    (hb : b ≠ SLASH) :
    p.takeWhile (· != SLASH) ≠ [] ∧ SLASH ∉ p.takeWhile (· != SLASH) ∧
      (p.dropWhile (· != SLASH) = [] ∨ ∃ r', p.dropWhile (· != SLASH) = SLASH :: r') := by
  refine ⟨by simp [h, hb], fun hm => ?_, ?_⟩
  · have := List.all_eq_true.mp (List.all_takeWhile (p := (· != SLASH)) (l := p)) _ hm
    simp at this
  · rcases dropWhile_eq_nil_or_cons (· != SLASH) p with h0 | ⟨d, t, hd, hdf⟩
    · exact .inl h0
    · simp only [bne_eq_false_iff_eq] at hdf
      exact .inr ⟨t, by rw [hd, hdf]⟩

/-- A path with no leading slash has no components only when it is empty. -/
theorem components_eq_nil_iff {r : List UInt8}
    (hr : r = [] ∨ ∃ b r', r = b :: r' ∧ (b == SLASH) = false) :
    components r = [] ↔ r = [] := by
  rcases hr with rfl | ⟨b, r', rfl, hb⟩
  · simp
  · have hb : b ≠ SLASH := by simpa using hb
    obtain ⟨hne, hslash, hend⟩ := takeWhile_elem rfl hb
    rw [← List.takeWhile_append_dropWhile (p := (· != SLASH)) (l := b :: r'),
      components_elem hne hslash hend]
    simp

/-! ## One call of `skipelem` -/

theorem NameBuf.read_of_holds {name : NameBuf} {c : List UInt8} (h : name.Holds c)
    (hnul : 0 ∉ c) : name.read = c.take DIRSIZ := by
  obtain ⟨rest, hrest⟩ := h
  have hnul' : ∀ b ∈ c.take DIRSIZ, (b != 0) = true := fun b hb =>
    bne_iff_ne.mpr fun h0 => hnul (h0 ▸ List.mem_of_mem_take hb)
  rw [NameBuf.read, ← hrest, List.append_assoc, List.takeWhile_append_of_pos hnul']
  by_cases hlt : c.length < DIRSIZ
  · simp [hlt]
  · -- the element fills the buffer, so nothing of the buffer is left after it
    have hlen := congrArg List.length hrest
    simp only [hlt, if_false, List.append_nil, List.length_append, List.length_take,
      name.length_eq] at hlen
    have hrest0 : rest = [] := List.length_eq_zero_iff.mp (by omega)
    simp [hlt, hrest0]

theorem skipelem_eq_none_iff (path : List UInt8) (name : NameBuf) :
    skipelem path name = none ↔ components path = [] := by
  rw [← components_dropWhile, components_eq_nil_iff (dropWhile_eq_nil_or_cons _ path)]
  by_cases h : path.dropWhile (· == SLASH) = [] <;> simp [skipelem, h]

theorem NameBuf.copy_bytes (name : NameBuf) (s : List UInt8) :
    (name.copy s).bytes =
      if s.length ≥ DIRSIZ then s.take DIRSIZ else s ++ 0 :: name.bytes.drop (s.length + 1) := by
  unfold NameBuf.copy
  split <;> rfl

theorem NameBuf.copy_holds (name : NameBuf) (s : List UInt8) : (name.copy s).Holds s := by
  unfold NameBuf.Holds
  rw [NameBuf.copy_bytes]
  by_cases hlong : s.length ≥ DIRSIZ
  · simp [hlong, Nat.not_lt.mpr hlong]
  · have hlt : s.length < DIRSIZ := Nat.lt_of_not_le hlong
    simp only [hlong, hlt, if_true, if_false, List.take_of_length_le (Nat.le_of_lt hlt)]
    exact ⟨name.bytes.drop (s.length + 1), by simp⟩

/-- One call of `skipelem` takes the first component `c` of the path into the buffer and returns
a path whose components are the others; that path is empty exactly when `c` was the last. -/
theorem skipelem_some {path rest : List UInt8} {name name' : NameBuf}
    (h : skipelem path name = some (rest, name')) :
    ∃ c, components path = c :: components rest ∧ name'.Holds c ∧
      (rest = [] ↔ components rest = []) ∧ c ⊆ path ∧ rest ⊆ path := by
  unfold skipelem at h
  dsimp only at h
  split at h
  · cases h
  · rename_i hp
    injection h with h
    obtain ⟨rfl, rfl⟩ := Prod.mk.inj h
    -- the path without its leading slashes starts with the element
    obtain ⟨b, r, hbr, hb⟩ := (dropWhile_eq_nil_or_cons (· == SLASH) path).resolve_left hp
    obtain ⟨hne, hslash, hend⟩ := takeWhile_elem hbr (by simpa using hb)
    set p := path.dropWhile (· == SLASH)
    set s := p.takeWhile (· != SLASH)
    have hsplit : p = s ++ p.dropWhile (· != SLASH) := List.takeWhile_append_dropWhile.symm
    have hp : p ⊆ path := (List.dropWhile_suffix _).subset
    refine ⟨s, ?_, name.copy_holds s, ?_, fun b hb => hp ((List.takeWhile_prefix _).subset hb),
      fun b hb => hp ((List.dropWhile_suffix _).subset ((List.dropWhile_suffix _).subset hb))⟩
    · calc components path = components p := (components_dropWhile path).symm
        _ = components (s ++ p.dropWhile (· != SLASH)) := by rw [← hsplit]
        _ = s :: components (p.dropWhile (· != SLASH)) := components_elem hne hslash hend
        _ = _ := by rw [components_dropWhile]
    · exact (components_eq_nil_iff (dropWhile_eq_nil_or_cons _ _)).symm

theorem length_dropWhile_le {α : Type} (p : α → Bool) (l : List α) :
    (l.dropWhile p).length ≤ l.length := by
  have h := congrArg List.length (List.takeWhile_append_dropWhile (p := p) (l := l))
  rw [List.length_append] at h
  omega

/-- The path `skipelem` returns is shorter: it has lost at least the element. -/
theorem skipelem_length_lt {path rest : List UInt8} {name name' : NameBuf}
    (h : skipelem path name = some (rest, name')) : rest.length < path.length := by
  unfold skipelem at h
  dsimp only at h
  split at h
  · cases h
  · rename_i hp
    injection h with h
    obtain ⟨rfl, -⟩ := Prod.mk.inj h
    obtain ⟨b, r, hbr, hb⟩ := (dropWhile_eq_nil_or_cons (· == SLASH) path).resolve_left hp
    obtain ⟨hne, -, -⟩ := takeWhile_elem hbr (by simpa using hb)
    have h2 := length_dropWhile_le (· == SLASH) path
    set p := path.dropWhile (· == SLASH)
    have hsplit := congrArg List.length (List.takeWhile_append_dropWhile (p := (· != SLASH)) (l := p))
    have hs := List.length_pos_iff.mpr hne
    have h1 := length_dropWhile_le (· == SLASH) (p.dropWhile (· != SLASH))
    rw [List.length_append] at hsplit
    omega

/-! ## Calling `skipelem` until it returns 0 -/

/-- `skipelem` called until it returns 0, with the buffer and the path after each call. -/
def elems (path : List UInt8) (name : NameBuf) : List (NameBuf × List UInt8) :=
  match h : skipelem path name with
  | none => []
  | some (rest, name') =>
    have : rest.length < path.length := skipelem_length_lt h
    (name', rest) :: elems rest name'
termination_by path.length

/-- The calls meet the components in order: the `i`-th call leaves the `i`-th component in the
buffer, and returns the empty path exactly when that component is the last. -/
theorem skipelem_iterate (path : List UInt8) (name : NameBuf) :
    (elems path name).length = (components path).length ∧
      ∀ i (h : i < (elems path name).length) (h' : i < (components path).length),
        (elems path name)[i].1.Holds (components path)[i] ∧
          ((elems path name)[i].2 = [] ↔ i + 1 = (components path).length) := by
  fun_induction elems path name with
  | case1 path name h =>
    simp [(skipelem_eq_none_iff path name).mp h]
  | case2 path name rest name' h _ ih =>
    obtain ⟨c, hc, hold, hlast, -, -⟩ := skipelem_some h
    obtain ⟨hlen, hih⟩ := ih
    rw [hc]
    refine ⟨by simp [hlen], ?_⟩
    intro i hi hi'
    cases i with
    | zero =>
      -- the first call: its component and whether it was the last
      simp only [List.getElem_cons_zero, List.length_cons, Nat.zero_add, Nat.right_eq_add]
      exact ⟨hold, hlast.trans List.length_eq_zero_iff.symm⟩
    | succ i =>
      simp only [List.getElem_cons_succ, List.length_cons, Nat.add_right_cancel_iff]
      simp only [List.length_cons, Nat.add_lt_add_iff_right] at hi hi'
      exact hih i hi hi'

/-! ## `namex` -/

/-- What `namex` asks of the file system: the root inode (`iget(ROOTDEV, ROOTINO)`), whether an
inode is a directory, and `dirlookup`, given the name as `namecmp` reads it. -/
structure Dirs (I : Type) where
  root : I
  isDir : I → Bool
  dirlookup : I → List UInt8 → Option I

/-- The walk along a list of components from `ip`: each component is looked up in a directory. -/
def Dirs.walk {I : Type} (fs : Dirs I) (ip : I) : List (List UInt8) → Option I
  | [] => some ip
  | c :: cs =>
    if fs.isDir ip then (fs.dirlookup ip (c.take DIRSIZ)).bind (fs.walk · cs) else none

/-- The same walk stopped before the last component, at a directory. -/
def Dirs.walkParent {I : Type} (fs : Dirs I) (ip : I) : List (List UInt8) → Option I
  | [] => none
  | [_] => if fs.isDir ip then some ip else none
  | c :: cs =>
    if fs.isDir ip then (fs.dirlookup ip (c.take DIRSIZ)).bind (fs.walkParent · cs) else none

section Namex

variable {I : Type} (fs : Dirs I)

/-- The loop of `namex` from the inode `ip`; `none` stands for a return of 0. With `nameiparent`
set it stops before the last element, once it has checked that `ip` is a directory. -/
def namexLoop (nameiparent : Bool) (ip : I) (path : List UInt8) (name : NameBuf) :
    Option I × NameBuf :=
  match h : skipelem path name with
  | none => (if nameiparent then none else some ip, name)
  | some (rest, name') =>
    have : rest.length < path.length := skipelem_length_lt h
    if fs.isDir ip = false then (none, name')
    else if nameiparent = true ∧ rest = [] then (some ip, name')
    else
      match fs.dirlookup ip name'.read with
      | none => (none, name')
      | some next => namexLoop nameiparent next rest name'
termination_by path.length

/-- `namex(path, nameiparent, name)`: from the root for a path that starts with a slash, else
from the current directory `cwd`. -/
def namex (cwd : I) (path : List UInt8) (nameiparent : Bool) (name : NameBuf) :
    Option I × NameBuf :=
  namexLoop fs nameiparent (if path.head? = some SLASH then fs.root else cwd) path name

/-- `namei(path)`; `name` is what its local `char name[DIRSIZ]` holds. -/
def namei (cwd : I) (path : List UInt8) (name : NameBuf) : Option I :=
  (namex fs cwd path false name).1

/-- `nameiparent(path, name)`: the parent's inode, and the last element in `name`. -/
def nameiparent (cwd : I) (path : List UInt8) (name : NameBuf) : Option I × NameBuf :=
  namex fs cwd path true name

theorem Dirs.walkParent_cons {I : Type} (fs : Dirs I) (ip : I) (c : List UInt8)
    {cs : List (List UInt8)} (hcs : cs ≠ []) :
    fs.walkParent ip (c :: cs) =
      if fs.isDir ip then (fs.dirlookup ip (c.take DIRSIZ)).bind (fs.walkParent · cs) else none := by
  cases cs with
  | nil => exact absurd rfl hcs
  | cons d ds => rfl

/-- The loop of `namex` without `nameiparent` is the walk along the path's components. -/
theorem namexLoop_walk (ip : I) (path : List UInt8) (name : NameBuf) (hnul : 0 ∉ path) :
    (namexLoop fs false ip path name).1 = fs.walk ip (components path) := by
  fun_induction namexLoop fs false ip path name with
  | case1 ip path name h => simp [(skipelem_eq_none_iff path name).mp h, Dirs.walk]
  | case2 ip path name rest name' h _ hdir =>
    obtain ⟨c, hc, -⟩ := skipelem_some h
    simp [hc, Dirs.walk, hdir]
  | case3 ip path name rest name' h _ hdir hstop => simp at hstop
  | case4 ip path name rest name' h _ hdir hstop hl =>
    obtain ⟨c, hc, hold, -, hsub, -⟩ := skipelem_some h
    rw [NameBuf.read_of_holds hold (fun h0 => hnul (hsub h0))] at hl
    simp [hc, Dirs.walk, hdir, hl]
  | case5 ip path name rest name' h _ hdir hstop next hl ih =>
    obtain ⟨c, hc, hold, -, hsub, hrest⟩ := skipelem_some h
    rw [NameBuf.read_of_holds hold (fun h0 => hnul (hsub h0))] at hl
    simp [hc, Dirs.walk, hdir, hl, ih (fun h0 => hnul (hrest h0))]

/-- With `nameiparent` the loop is the walk stopped one component early, and when it returns an
inode the buffer holds the last component. -/
theorem namexLoop_walkParent (ip : I) (path : List UInt8) (name : NameBuf) (hnul : 0 ∉ path) :
    (namexLoop fs true ip path name).1 = fs.walkParent ip (components path) ∧
      ((namexLoop fs true ip path name).1.isSome = true →
        ∃ c, (components path).getLast? = some c ∧
          (namexLoop fs true ip path name).2.read = c.take DIRSIZ) := by
  fun_induction namexLoop fs true ip path name with
  | case1 ip path name h => simp [(skipelem_eq_none_iff path name).mp h, Dirs.walkParent]
  | case2 ip path name rest name' h _ hdir =>
    obtain ⟨c, hc, -⟩ := skipelem_some h
    rw [hc]
    cases components rest <;> simp [Dirs.walkParent, hdir]
  | case3 ip path name rest name' h _ hdir hstop =>
    -- the last component: stop at `ip`, with the component in the buffer
    obtain ⟨c, hc, hold, hlast, hsub, -⟩ := skipelem_some h
    have hnil : components rest = [] := hlast.mp hstop.2
    simp only [Bool.not_eq_false] at hdir
    simp [hc, hnil, Dirs.walkParent, hdir, NameBuf.read_of_holds hold (fun h0 => hnul (hsub h0))]
  | case4 ip path name rest name' h _ hdir hstop hl =>
    obtain ⟨c, hc, hold, hlast, hsub, -⟩ := skipelem_some h
    have hne : components rest ≠ [] := fun h0 => hstop ⟨rfl, hlast.mpr h0⟩
    rw [NameBuf.read_of_holds hold (fun h0 => hnul (hsub h0))] at hl
    simp only [Bool.not_eq_false] at hdir
    simp [hc, fs.walkParent_cons ip c hne, hdir, hl]
  | case5 ip path name rest name' h _ hdir hstop next hl ih =>
    obtain ⟨c, hc, hold, hlast, hsub, hrest⟩ := skipelem_some h
    have hne : components rest ≠ [] := fun h0 => hstop ⟨rfl, hlast.mpr h0⟩
    obtain ⟨ih1, ih2⟩ := ih (fun h0 => hnul (hrest h0))
    rw [NameBuf.read_of_holds hold (fun h0 => hnul (hsub h0))] at hl
    simp only [Bool.not_eq_false] at hdir
    refine ⟨by simp [hc, fs.walkParent_cons ip c hne, hdir, hl, ih1], fun hsome => ?_⟩
    obtain ⟨c', hc', hread⟩ := ih2 hsome
    exact ⟨c', by simp [hc, List.getLast?_cons, hc'], hread⟩

/-- `namei` and `nameiparent`: the path's components, each met by one call of `skipelem` (cut to
`DIRSIZ` bytes, with a NUL after it when shorter; the path returned is empty exactly after the
last), are walked from the root when the path starts with a slash and from `cwd` otherwise;
`nameiparent` stops one component early and leaves the last one in the buffer. -/
theorem namex_components (cwd : I) (path : List UInt8) (name : NameBuf) (hnul : 0 ∉ path) :
    ((elems path name).length = (components path).length ∧
      ∀ i (h : i < (elems path name).length) (h' : i < (components path).length),
        (elems path name)[i].1.Holds (components path)[i] ∧
          ((elems path name)[i].2 = [] ↔ i + 1 = (components path).length)) ∧
    namei fs cwd path name =
      fs.walk (if path.head? = some SLASH then fs.root else cwd) (components path) ∧
    (nameiparent fs cwd path name).1 =
      fs.walkParent (if path.head? = some SLASH then fs.root else cwd) (components path) ∧
    ((nameiparent fs cwd path name).1.isSome = true →
      ∃ c, (components path).getLast? = some c ∧
        (nameiparent fs cwd path name).2.read = c.take DIRSIZ) :=
  ⟨skipelem_iterate path name, namexLoop_walk fs _ path name hnul,
    (namexLoop_walkParent fs _ path name hnul).1, (namexLoop_walkParent fs _ path name hnul).2⟩

end Namex

/-- A one-directory file system in which every lookup fails, and an empty name buffer. -/
def emptyDirs : Dirs Nat := ⟨1, fun _ => true, fun _ _ => none⟩

def zeroName : NameBuf := ⟨List.replicate DIRSIZ 0, by simp⟩

theorem namex_components_usr :
    0 ∉ [SLASH, 117, 115, 114, SLASH, SLASH, 98] ∧
      (namei emptyDirs 5 [SLASH, 117, 115, 114, SLASH, SLASH, 98] zeroName =
        emptyDirs.walk emptyDirs.root (components [SLASH, 117, 115, 114, SLASH, SLASH, 98])) :=
  ⟨by decide, (namex_components emptyDirs 5 _ zeroName (by decide)).2.1.trans (by rfl)⟩

end Xv6.Fs
