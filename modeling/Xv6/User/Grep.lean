import Mathlib

/-!
# Xv6.User.Grep — the Kernighan–Pike matcher and grep's read loop

`matchhere`, `matchstar` and `match` are the recursive matcher of `user/grep.c`, on the
characters of a C string (the list ends where the string's NUL stands). What they compute is
given by a reading of the pattern: `parse` cuts the body into tokens the way `matchhere` tests
them (`c*` first, then a final `$`, then one character), each token denotes a language of
Mathlib's `Language Char`, and a body matches a prefix of the text when that prefix is in the
product of its tokens' languages (`matchhere_iff`). `match_iff` lifts this to the whole text: some
suffix, or the text itself after a leading `^`.

`grep` is the read loop around the matcher: it reads into a 1024-byte buffer at the offset `m`,
cuts the buffer at each newline that `strchr` finds, writes the matching lines, and moves the
incomplete line to the front. `read` may cut the stream anywhere (`readSize`). Over every such
cut, a stream of complete lines shorter than the buffer is filtered exactly (`grepLoop_unlines`);
a final segment without `'\n'` is never written, since only `strchr` ends a line
(`grep_unlines_append`), and a line that fills the buffer asks `read` for 0 bytes and ends the loop
as if at the end of the stream (`grep_long_line`).
-/

open Computability

namespace Xv6.Grep

/-! ## The matcher -/

/-- `matchstar(c, re, text)`: a `c*` in front of `re`, with `here` the test `matchhere(re, ·)`.
The do-while loop tries `here` at `text` and moves on while the next character is `c` (any
character when `c` is `'.'`). -/
def matchstar (c : Char) (here : List Char → Bool) : List Char → Bool
  | [] => here []
  | d :: text => here (d :: text) || ((d == c || c == '.') && matchstar c here text)

/-- `matchhere(re, text)`: does `re` match at the beginning of `text`. The branches are tested in
the source's order: an empty pattern, a `c*`, a final `$`, then one character. -/
def matchhere : List Char → List Char → Bool
  | [], _ => true
  | c :: '*' :: re, text => matchstar c (fun t => matchhere re t) text
  | ['$'], text => text.isEmpty
  | c :: re, d :: text => (c == '.' || c == d) && matchhere re text
  | _ :: _, [] => false

/-- The do-while loop of `match`: `matchhere` at `text` and at every suffix of it, the empty one
included. -/
def matchLoop (re : List Char) : List Char → Bool
  | [] => matchhere re []
  | d :: text => matchhere re (d :: text) || matchLoop re text

/-- `match(re, text)`: a leading `^` anchors the rest of the pattern at the start of the text. -/
def «match» : List Char → List Char → Bool
  | '^' :: re, text => matchhere re text
  | re, text => matchLoop re text

/-! ## What a pattern means -/

/-- One pattern character: `.` matches any character, any other character itself. -/
inductive Atom where
  | lit (c : Char)
  | any
  deriving DecidableEq, Repr

def Atom.ofChar (c : Char) : Atom := if c = '.' then .any else .lit c

def Atom.Ok : Atom → Char → Prop
  | .lit c, d => d = c
  | .any, _ => True

/-- A token of a pattern's body: one character, or a starred one. -/
inductive Tok where
  | one (a : Atom)
  | star (a : Atom)
  deriving DecidableEq, Repr

/-- The body of a pattern as tokens, and whether a final `$` ends it. A `*` right after a
character stars it, so `x**` is `x*` and a literal `*`; a `$` anywhere but last is literal. -/
def parse : List Char → List Tok × Bool
  | [] => ([], false)
  | c :: '*' :: re => (.star (.ofChar c) :: (parse re).1, (parse re).2)
  | ['$'] => ([], true)
  | c :: re => (.one (.ofChar c) :: (parse re).1, (parse re).2)

def Atom.lang (a : Atom) : Language Char := {u | ∃ d, u = [d] ∧ a.Ok d}

def Tok.lang : Tok → Language Char
  | .one a => a.lang
  | .star a => a.lang∗

/-- A body matches the concatenations of its tokens' languages. -/
def bodyLang (ts : List Tok) : Language Char := (ts.map Tok.lang).prod

/-- `text` begins with a word of `L`, which must be all of `text` when `eol` is set. -/
def PrefixIn (L : Language Char) (eol : Bool) (text : List Char) : Prop :=
  ∃ p q, text = p ++ q ∧ p ∈ L ∧ (eol = true → q = [])

/-- A pattern read as anchors and a body. -/
structure Regexp where
  bol : Bool
  body : List Tok
  eol : Bool

def compile : List Char → Regexp
  | '^' :: re => ⟨true, (parse re).1, (parse re).2⟩
  | re => ⟨false, (parse re).1, (parse re).2⟩

/-- Some suffix of `text` (`text` itself when anchored at the start) begins with a word of the
body, ending where the text ends when anchored at the end. -/
def Regexp.Matches (r : Regexp) (text : List Char) : Prop :=
  ∃ s, (if r.bol then s = text else s <:+ text) ∧ PrefixIn (bodyLang r.body) r.eol s

@[simp] theorem mem_atom_lang (a : Atom) (u : List Char) :
    u ∈ a.lang ↔ ∃ d, u = [d] ∧ a.Ok d :=
  Iff.rfl

@[simp] theorem bodyLang_nil : bodyLang [] = 1 := rfl

@[simp] theorem bodyLang_cons (t : Tok) (ts : List Tok) :
    bodyLang (t :: ts) = t.lang * bodyLang ts := by
  simp [bodyLang]

theorem ofChar_ok_iff (c d : Char) : (Atom.ofChar c).Ok d ↔ d = c ∨ c = '.' := by
  unfold Atom.ofChar
  by_cases hc : c = '.' <;> simp [hc, Atom.Ok]

/-- The star of a one-character language holds the words all of whose characters it admits. -/
theorem mem_star_lang (a : Atom) (u : List Char) : u ∈ a.lang∗ ↔ ∀ d ∈ u, a.Ok d := by
  rw [Language.mem_kstar]
  constructor
  · rintro ⟨L, rfl, hL⟩ d hd
    obtain ⟨y, hy, hdy⟩ := List.mem_flatten.mp hd
    obtain ⟨e, rfl, he⟩ := hL y hy
    simp only [List.mem_singleton] at hdy
    exact hdy ▸ he
  · intro h
    refine ⟨u.map ([·]), by rw [← List.flatMap_def, List.flatMap_singleton'], ?_⟩
    intro y hy
    obtain ⟨d, hd, rfl⟩ := List.mem_map.mp hy
    exact ⟨d, rfl, h d hd⟩

theorem prefixIn_mul (A L : Language Char) (e : Bool) (text : List Char) :
    PrefixIn (A * L) e text ↔ ∃ x ∈ A, ∃ r, text = x ++ r ∧ PrefixIn L e r := by
  simp only [PrefixIn, Language.mem_mul]
  constructor
  · rintro ⟨p, q, rfl, ⟨x, hx, y, hy, rfl⟩, hq⟩
    exact ⟨x, hx, y ++ q, by simp, y, q, rfl, hy, hq⟩
  · rintro ⟨x, hx, r, rfl, y, q, rfl, hy, hq⟩
    exact ⟨x ++ y, q, by simp, ⟨x, hx, y, hy, rfl⟩, hq⟩

theorem prefixIn_atom (a : Atom) (L : Language Char) (e : Bool) (text : List Char) :
    PrefixIn (a.lang * L) e text ↔ ∃ d t, text = d :: t ∧ a.Ok d ∧ PrefixIn L e t := by
  rw [prefixIn_mul]
  constructor
  · rintro ⟨_, ⟨d, rfl, hd⟩, r, rfl, hr⟩
    exact ⟨d, r, rfl, hd, hr⟩
  · rintro ⟨d, t, rfl, hd, ht⟩
    exact ⟨[d], ⟨d, rfl, hd⟩, t, rfl, ht⟩

/-- A star in front of `L`: a prefix of `text` made of characters the atom admits, then a match
of `L`. These are the split points `matchstar` tries one after another. -/
theorem prefixIn_star (a : Atom) (L : Language Char) (e : Bool) (text : List Char) :
    PrefixIn (a.lang∗ * L) e text ↔
      ∃ k, (∀ d ∈ text.take k, a.Ok d) ∧ PrefixIn L e (text.drop k) := by
  rw [prefixIn_mul]
  constructor
  · rintro ⟨x, hx, r, rfl, hr⟩
    exact ⟨x.length, by simpa [mem_star_lang] using hx, by simpa using hr⟩
  · rintro ⟨k, hk, hr⟩
    exact ⟨_, (mem_star_lang a _).mpr hk, _, (List.take_append_drop k text).symm, hr⟩

/-! ## The matcher computes the meaning -/

/-- `matchstar` succeeds exactly when `here` holds after some run of admitted characters. -/
theorem matchstar_iff (c : Char) (here : List Char → Bool) (text : List Char) :
    matchstar c here text = true ↔
      ∃ k, (∀ d ∈ text.take k, (Atom.ofChar c).Ok d) ∧ here (text.drop k) = true := by
  induction text with
  | nil => simp [matchstar]
  | cons d text ih =>
    simp only [matchstar, Bool.or_eq_true, Bool.and_eq_true, beq_iff_eq, ih, ← ofChar_ok_iff]
    constructor
    · rintro (h | ⟨hd, k, hk, h⟩)
      · exact ⟨0, by simp, h⟩
      · exact ⟨k + 1, by simpa [hd] using hk, h⟩
    · -- the run is empty, or it takes `d` and goes on in `text`
      rintro ⟨_ | k, hk, h⟩
      · exact .inl h
      · simp only [List.take_succ_cons, List.mem_cons, forall_eq_or_imp] at hk
        exact .inr ⟨hk.1, k, hk.2, h⟩

theorem parse_one {c : Char} {re : List Char} (hstar : ∀ r, re = '*' :: r → False)
    (heol : c = '$' → re = [] → False) :
    parse (c :: re) = (.one (.ofChar c) :: (parse re).1, (parse re).2) :=
  parse.eq_4 _ _ hstar heol

/-- `matchhere` decides whether the body of `re` matches a prefix of `text`. The induction follows
`matchhere`'s own branches, so each case meets the token `parse` makes there. -/
theorem matchhere_iff (re text : List Char) :
    matchhere re text = true ↔ PrefixIn (bodyLang (parse re).1) (parse re).2 text := by
  fun_induction matchhere re text with
  | case1 text =>
    -- the empty body matches the empty prefix
    simp only [parse, bodyLang_nil, true_iff]
    exact ⟨[], text, rfl, rfl, nofun⟩
  | case2 c re text ih =>
    simp only [parse, bodyLang_cons, Tok.lang]
    rw [matchstar_iff, prefixIn_star]
    simp only [ih]
  | case3 text =>
    simp [parse, PrefixIn, Language.mem_one]
  | case4 c re d text hstar heol ih =>
    rw [parse_one hstar heol, bodyLang_cons, Tok.lang, prefixIn_atom]
    have hok : (c == '.' || c == d) = true ↔ (Atom.ofChar c).Ok d := by
      rw [ofChar_ok_iff]
      simp only [Bool.or_eq_true, beq_iff_eq]
      exact ⟨fun h => h.elim .inr (fun h => .inl h.symm),
        fun h => h.elim (fun h => .inr h.symm) .inl⟩
    simp [hok, ih]
  | case5 c re hstar heol =>
    -- a one-character token needs a character
    rw [parse_one hstar heol, bodyLang_cons, Tok.lang, prefixIn_atom]
    simp

theorem matchLoop_iff (re text : List Char) :
    matchLoop re text = true ↔ ∃ s, s <:+ text ∧ matchhere re s = true := by
  induction text with
  | nil => simp [matchLoop]
  | cons d text ih =>
    simp only [matchLoop, Bool.or_eq_true, ih, List.suffix_cons_iff]
    constructor
    · rintro (h | ⟨s, hs, h⟩)
      · exact ⟨_, .inl rfl, h⟩
      · exact ⟨s, .inr hs, h⟩
    · rintro ⟨s, rfl | hs, h⟩
      · exact .inl h
      · exact .inr ⟨s, hs, h⟩

theorem match_iff (re text : List Char) : «match» re text = true ↔ (compile re).Matches text := by
  by_cases hbol : ∃ r, re = '^' :: r
  · obtain ⟨re, rfl⟩ := hbol
    simp [«match», compile, Regexp.Matches, matchhere_iff]
  · have hnot : ∀ r, re = '^' :: r → False := fun r h => hbol ⟨r, h⟩
    rw [«match».eq_2 _ _ hnot, compile.eq_2 _ hnot, matchLoop_iff]
    simp [Regexp.Matches, matchhere_iff]

example : «match» "^ab*c$".toList "abbbc".toList = true := by decide
example : «match» "a.$".toList "xyab".toList = true := by decide
example : «match» "^x**".toList "xx".toList = false := by decide

/-! ## The read loop -/

/-- `sizeof(buf)`. -/
def BUFSIZE : Nat := 1024

/-- `strchr(s, c)` on the C string whose characters are `s`: the index of the first `c`, if one
comes before the string's NUL (or the end of `s`). -/
def strchr : List Char → Char → Option Nat
  | [], _ => none
  | d :: s, c => if d = '\x00' then none else if d = c then some 0 else (strchr s c).map (· + 1)

theorem strchr_lt {s : List Char} {c : Char} {q : Nat} (h : strchr s c = some q) :
    q < s.length := by
  induction s generalizing q with
  | nil => simp [strchr] at h
  | cons d s ih =>
    simp only [strchr] at h
    split_ifs at h with h0 hc
    · cases h; simp
    · obtain ⟨q', hq', rfl⟩ := Option.map_eq_some_iff.mp h
      simpa using ih hq'

/-- The inner loop of `grep`, from `p` on: each `'\n'` that `strchr` finds ends a line, which is
written with its `'\n'` when it matches. Returns what was written and the characters from the
last `p` to `buf + m`, which `memmove` brings to the front. -/
def grepLines (pattern p : List Char) : List Char × List Char :=
  match h : strchr p '\n' with
  | none => ([], p)
  | some q =>
    have : q < p.length := strchr_lt h
    let w := if «match» pattern (p.take q) then p.take q ++ ['\n'] else []
    let r := grepLines pattern (p.drop (q + 1))
    (w ++ r.1, r.2)
termination_by p.length

/-- How many characters `read(fd, buf+m, want)` returns: at most `want` and what is left of the
stream, at most the next limit of `lims` (a file read takes all it may once `lims` runs out), and
at least one while both allow. -/
def readSize (want : Nat) (input : List Char) (lims : List Nat) : Nat :=
  min (min want input.length) (max (lims.headD want) 1)

/-- The outer loop of `grep`: `buf` holds `buf[0..m)`, `input` is what the stream has left and
`out` what has been written to fd 1. The test `m > 0` before the `memmove` always holds after a
read of at least one character, so the model takes the branch directly. -/
def grepLoop (pattern buf input : List Char) (lims : List Nat) (out : List Char) : List Char :=
  let n := readSize (BUFSIZE - buf.length - 1) input lims
  if h : n = 0 then out
  else
    have : 0 < n ∧ n ≤ input.length := ⟨Nat.pos_of_ne_zero h, by simp only [n, readSize]; omega⟩
    let r := grepLines pattern (buf ++ input.take n)
    grepLoop pattern r.2 (input.drop n) lims.tail (out ++ r.1)
termination_by input.length

/-- `grep(pattern, fd)` on the stream `input`, with `read` cutting it as `lims` says. -/
def grep (pattern input : List Char) (lims : List Nat) : List Char :=
  grepLoop pattern [] input lims []

/-- The lines of a stream: its maximal `'\n'`-terminated segments, and a final segment without
`'\n'` when there is one. -/
def lines (s : List Char) : List (List Char) :=
  let segs := s.splitOn '\n'
  if segs.getLast? = some [] then segs.dropLast else segs

/-- Each matching line, in order, followed by `'\n'`. -/
def emit (pattern : List Char) (ls : List (List Char)) : List Char :=
  (ls.filter («match» pattern)).flatMap (· ++ ['\n'])

/-- What `grep` should write for the stream `s`. -/
def grepSpec (pattern s : List Char) : List Char := emit pattern (lines s)

/-- A stream of complete lines. -/
def unlines (ls : List (List Char)) : List Char := ls.flatMap (· ++ ['\n'])

@[simp] theorem unlines_nil : unlines [] = [] := rfl

@[simp] theorem unlines_cons (l : List Char) (ls : List (List Char)) :
    unlines (l :: ls) = l ++ '\n' :: unlines ls := by
  simp [unlines]

@[simp] theorem unlines_append (ls ls' : List (List Char)) :
    unlines (ls ++ ls') = unlines ls ++ unlines ls' := by
  simp [unlines]

@[simp] theorem emit_nil (pattern : List Char) : emit pattern [] = [] := rfl

theorem emit_append (pattern : List Char) (ls ls' : List (List Char)) :
    emit pattern (ls ++ ls') = emit pattern ls ++ emit pattern ls' := by
  simp [emit]

theorem emit_cons (pattern l : List Char) (ls : List (List Char)) :
    emit pattern (l :: ls) =
      (if «match» pattern l then l ++ ['\n'] else []) ++ emit pattern ls := by
  by_cases h : «match» pattern l <;> simp [emit, h]

/-- A line `grep` can hold: no `'\n'` and no NUL in it, and room for it and its `'\n'` in the
1023 characters the buffer takes before its terminating NUL. -/
def Short (l : List Char) : Prop := '\n' ∉ l ∧ '\x00' ∉ l ∧ l.length + 1 < BUFSIZE

theorem strchr_line {l : List Char} (hnl : '\n' ∉ l) (hnul : '\x00' ∉ l) (r : List Char) :
    strchr (l ++ '\n' :: r) '\n' = some l.length := by
  induction l with
  | nil => simp [strchr]
  | cons d l ih =>
    simp only [List.mem_cons, not_or] at hnl hnul
    simp [strchr, Ne.symm hnl.1, Ne.symm hnul.1, ih hnl.2 hnul.2]

theorem strchr_none {t : List Char} (hnl : '\n' ∉ t) : strchr t '\n' = none := by
  induction t with
  | nil => rfl
  | cons d t ih =>
    simp only [List.mem_cons, not_or] at hnl
    simp [strchr, Ne.symm hnl.1, ih hnl.2]

theorem grepLines_of_none {pattern p : List Char} (h : strchr p '\n' = none) :
    grepLines pattern p = ([], p) := by
  rw [grepLines]
  split <;> simp_all

theorem grepLines_of_some {pattern p : List Char} {q : Nat} (h : strchr p '\n' = some q) :
    grepLines pattern p =
      ((if «match» pattern (p.take q) then p.take q ++ ['\n'] else []) ++
        (grepLines pattern (p.drop (q + 1))).1, (grepLines pattern (p.drop (q + 1))).2) := by
  rw [grepLines]
  split <;> simp_all

/-- One pass of the inner loop over complete lines and a tail without `'\n'`: every complete
line is examined, and the tail is what is left at the front of the buffer. -/
theorem grepLines_unlines (pattern : List Char) {ls : List (List Char)} {tail : List Char}
    (hls : ∀ l ∈ ls, '\n' ∉ l ∧ '\x00' ∉ l) (htail : '\n' ∉ tail) :
    grepLines pattern (unlines ls ++ tail) = (emit pattern ls, tail) := by
  induction ls with
  | nil => simpa using (grepLines_of_none (strchr_none htail) : grepLines pattern tail = ([], tail))
  | cons l ls ih =>
    obtain ⟨hnl, hnul⟩ := hls l (by simp)
    have hs := strchr_line hnl hnul (unlines ls ++ tail)
    simp only [unlines_cons, List.append_assoc, List.cons_append] at hs ⊢
    rw [grepLines_of_some hs, List.take_left, List.drop_length_add_append, List.drop_one,
      List.tail_cons, ih (fun l hl => hls l (by simp [hl])), emit_cons]

/-- Where a read cuts a stream of lines: a prefix `x` without the rest is some complete lines
and a piece `t` without `'\n'`, and `t` continues into the remaining lines. -/
theorem unlines_split {ls : List (List Char)} {tail : List Char}
    (hls : ∀ l ∈ ls, '\n' ∉ l) (htail : '\n' ∉ tail) {x y : List Char}
    (h : x ++ y = unlines ls ++ tail) :
    ∃ ls₁ ls₂ t, ls = ls₁ ++ ls₂ ∧ x = unlines ls₁ ++ t ∧ '\n' ∉ t ∧
      t ++ y = unlines ls₂ ++ tail := by
  induction ls generalizing x with
  | nil =>
    refine ⟨[], [], x, rfl, rfl, fun hx => htail ?_, by simpa using h⟩
    simp only [unlines_nil, List.nil_append] at h
    exact h ▸ List.mem_append_left y hx
  | cons l ls ih =>
    have hl : '\n' ∉ l := hls l (by simp)
    simp only [unlines_cons, List.append_assoc, List.cons_append] at h
    rcases List.append_eq_append_iff.mp h with ⟨a, hla, hy⟩ | ⟨c, hxc, hc⟩
    · -- the cut falls inside `l`
      refine ⟨[], l :: ls, x, rfl, rfl, fun hx => hl (hla ▸ List.mem_append_left a hx), ?_⟩
      simp [hla, hy]
    · cases c with
      | nil =>
        -- the cut falls just before the `'\n'` of `l`
        have hy : y = '\n' :: (unlines ls ++ tail) := by simpa using hc.symm
        exact ⟨[], l :: ls, l, rfl, by simp [hxc], hl, by simp [hy]⟩
      | cons d c =>
        -- the cut falls after `l`: go on in the remaining lines
        simp only [List.cons_append, List.cons.injEq] at hc
        obtain ⟨rfl, hc⟩ := hc
        obtain ⟨ls₁, ls₂, t, rfl, rfl, ht, hty⟩ :=
          ih (fun l hl => hls l (by simp [hl])) hc.symm
        exact ⟨l :: ls₁, ls₂, t, rfl, by simp [hxc], ht, hty⟩

/-- A buffer without `'\n'` in front of a stream of lines lies inside the first line, and the
`'\n'` that ends that line is still to be read. -/
theorem buf_within_line {x y l r : List Char} (hx : '\n' ∉ x) (h : x ++ y = l ++ '\n' :: r) :
    x.length ≤ l.length ∧ y ≠ [] := by
  rcases List.append_eq_append_iff.mp h with ⟨a, rfl, rfl⟩ | ⟨c, rfl, hc⟩
  · simp
  · cases c with
    | nil =>
      have hy : y = '\n' :: r := by simpa using hc.symm
      exact ⟨by simp, by simp [hy]⟩
    | cons d c =>
      simp only [List.cons_append, List.cons.injEq] at hc
      obtain ⟨rfl, -⟩ := hc
      simp at hx

/-- The read loop over a stream of short lines followed by a tail without `'\n'`: whatever sizes
`read` returns, every line is written once, in order, when it matches, and the tail never is.
The induction follows `grepLoop`; the invariant is that the buffer holds no `'\n'`. -/
theorem grepLoop_unlines (pattern : List Char) (lims : List Nat) {buf input out tail : List Char}
    {ls : List (List Char)} (hls : ∀ l ∈ ls, Short l) (htail : '\n' ∉ tail)
    (hbuf : '\n' ∉ buf) (h : buf ++ input = unlines ls ++ tail) :
    grepLoop pattern buf input lims out = out ++ emit pattern ls := by
  fun_induction grepLoop pattern buf input lims out generalizing ls with
  | case1 buf input lims out n =>
    rename_i hn
    -- a read of nothing: the stream is over or the buffer is full, and neither can happen
    -- inside a line, so no line is left
    cases ls with
    | nil => simp
    | cons l ls =>
      obtain ⟨-, -, hlen⟩ := hls l (by simp)
      simp only [unlines_cons, List.append_assoc, List.cons_append] at h
      obtain ⟨hle, hy⟩ := buf_within_line hbuf h
      have hy : 0 < input.length := List.length_pos_iff.mpr hy
      simp only [n, readSize] at hn
      omega
  | case2 buf input lims out n hn hsize r =>
    rename_i ih
    obtain ⟨ls₁, ls₂, t, rfl, hx, ht, hty⟩ :=
      unlines_split (fun l hl => (hls l hl).1) htail (x := buf ++ input.take n)
        (y := input.drop n) (by simpa using h)
    have hr : r = (emit pattern ls₁, t) := by
      simp only [r, hx]
      exact grepLines_unlines pattern
        (fun l hl => ⟨(hls l (by simp [hl])).1, (hls l (by simp [hl])).2.1⟩) ht
    rw [ih (fun l (hl : l ∈ ls₂) => hls l (by simp [hl])) (by simpa [hr] using ht) (by simpa [hr] using hty),
      hr, emit_append, List.append_assoc]

theorem grep_unlines_append (pattern : List Char) (lims : List Nat) {ls : List (List Char)}
    {tail : List Char} (hls : ∀ l ∈ ls, Short l) (htail : '\n' ∉ tail) :
    grep pattern (unlines ls ++ tail) lims = emit pattern ls := by
  unfold grep
  rw [grepLoop_unlines pattern lims hls htail List.not_mem_nil (List.nil_append _), List.nil_append]

/-- A line that fills the buffer: each read adds to a buffer that stays inside the line, so no
`'\n'` is ever found, until the buffer holds 1023 characters and the loop asks `read` for none.
The loop then ends as at the end of the stream, writing nothing more. -/
theorem grepLoop_long_line (pattern : List Char) (lims : List Nat) {l rest buf input out : List Char}
    (hl : '\n' ∉ l) (hlen : BUFSIZE - 1 ≤ l.length) (hbuf : buf <+: l)
    (h : buf ++ input = l ++ rest) :
    grepLoop pattern buf input lims out = out := by
  fun_induction grepLoop pattern buf input lims out with
  | case1 buf input lims out n => rfl
  | case2 buf input lims out n hn hsize r =>
    rename_i ih
    -- the buffer after the read is still a prefix of the line
    have hpre : buf ++ input.take n <+: l := by
      refine List.prefix_of_prefix_length_le ?_ (List.prefix_append l rest) ?_
      · rw [← h]
        exact (List.prefix_append_right_inj buf).mpr (List.take_prefix n input)
      · have hb := hbuf.length_le
        have hn' : n ≤ BUFSIZE - buf.length - 1 := by simp only [n, readSize]; omega
        simp only [List.length_append, List.length_take]
        omega
    have hr : r = ([], buf ++ input.take n) :=
      grepLines_of_none (strchr_none fun hx => hl (hpre.subset hx))
    rw [ih (by simpa [hr] using hpre) (by simp [hr, h]), hr, List.append_nil]

theorem grep_long_line (pattern : List Char) (lims : List Nat) {l : List Char} (rest : List Char)
    (hl : '\n' ∉ l) (hlen : BUFSIZE - 1 ≤ l.length) :
    grep pattern (l ++ rest) lims = [] :=
  grepLoop_long_line pattern lims hl hlen (List.nil_prefix) rfl

theorem splitOn_unlines_append {ls : List (List Char)} {tail : List Char}
    (hls : ∀ l ∈ ls, '\n' ∉ l) (htail : '\n' ∉ tail) :
    (unlines ls ++ tail).splitOn '\n' = ls ++ [tail] := by
  induction ls with
  | nil => simpa using List.splitOn_eq_singleton htail
  | cons l ls ih =>
    simp only [unlines_cons, List.append_assoc, List.cons_append]
    rw [List.splitOn_append_cons_self_of_not_mem (hls l (by simp)),
      ih (fun l hl => hls l (by simp [hl]))]

theorem lines_unlines_append {ls : List (List Char)} {tail : List Char}
    (hls : ∀ l ∈ ls, '\n' ∉ l) (htail : '\n' ∉ tail) :
    lines (unlines ls ++ tail) = if tail = [] then ls else ls ++ [tail] := by
  simp only [lines, splitOn_unlines_append hls htail]
  by_cases h : tail = [] <;> simp [h]

/-- On a stream of complete lines that fit the buffer, `grep` writes what it should, however
`read` cuts the stream. -/
theorem grep_unlines (pattern : List Char) (lims : List Nat) {ls : List (List Char)}
    (hls : ∀ l ∈ ls, Short l) :
    grep pattern (unlines ls) lims = grepSpec pattern (unlines ls) := by
  have h := grep_unlines_append pattern lims hls (List.not_mem_nil (a := '\n'))
  rw [List.append_nil] at h
  have hl := lines_unlines_append (fun l hl => (hls l hl).1) (List.not_mem_nil (a := '\n'))
  rw [List.append_nil, if_pos rfl] at hl
  rw [h, grepSpec, hl]

theorem grep_drops_final_line :
    (∀ lims, grep ['a'] ['a'] lims = []) ∧ grepSpec ['a'] ['a'] = ['a', '\n'] := by
  refine ⟨fun lims => ?_, by decide⟩
  have h := grep_unlines_append ['a'] lims (fun l (hl : l ∈ ([] : List (List Char))) => nomatch hl)
    (show '\n' ∉ ['a'] by decide)
  simpa using h

end Xv6.Grep
