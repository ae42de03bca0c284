import Xv6.Bio.Basic
import Xv6.Lib.Tally
import Xv6.Lib.Run

/-!
# Xv6.Bio.Cache — what the buffer cache keeps over every interleaving

Every state reached from `binit` satisfies `Ok` along the list order `l`:
- `next` and `prev` link all `NBUF` buffers, each once, into one cycle through `bcache.head`;
- each buffer's `refcnt` is the number of references the processes hold plus its pins;
- of the buffers carrying one block, every one after the first on the list is neither valid
  nor referenced (`Shadows`);
- among buffers no one references, the list puts the more recently released first (`Newer`).

`brelse` moves a buffer to the front only when its `refcnt` reaches zero, and `bpin` and
`bunpin` do not move it; the order stays right because a process unpins only a buffer it holds,
so `refcnt` reaches zero in `brelse` alone.
-/

namespace Xv6.Bio

open Xv6.Lib

variable {ι : Type*}

/-! ## The order along the list -/

/-- `a` before `b` on the list: if they carry the same block, `b` is neither valid nor
referenced, so `bget`, which meets `a` first, never uses `b` for it. -/
def Shadows (buf : Fin NBUF → Buf) (a b : Fin NBUF) : Prop :=
  Buf.Same (buf a) (buf b) → (buf b).valid = false ∧ (buf b).refcnt = 0

/-- `a` before `b` on the list: if no one references either, `b` was released no later. -/
def Newer (buf : Fin NBUF → Buf) (released : Fin NBUF → Nat) (a b : Fin NBUF) : Prop :=
  (buf a).refcnt = 0 → (buf b).refcnt = 0 → released b ≤ released a

theorem Buf.same_comm {x y : Buf} : Buf.Same x y ↔ Buf.Same y x :=
  ⟨fun h => ⟨h.1.symm, h.2.symm⟩, fun h => ⟨h.1.symm, h.2.symm⟩⟩

section Update

variable {buf : Fin NBUF → Buf} {l : List (Fin NBUF)} {b : Fin NBUF} {x : Buf}

/-- A referenced buffer may change anything but its block: no buffer before it carries its
block, and what it shadows it still shadows. -/
theorem shadows_update (h : l.Pairwise (Shadows buf)) (hnd : l.Nodup) (hb : 0 < (buf b).refcnt)
    (hx : ∀ y, Buf.Same x y ↔ Buf.Same (buf b) y) :
    l.Pairwise (Shadows (Function.update buf b x)) := by
  refine pairwise_imp_of_ne h hnd fun a _ c _ hac hr hsame => ?_
  by_cases hcb : c = b
  · subst hcb
    rw [Function.update_self, Function.update_of_ne hac, Buf.same_comm, hx, Buf.same_comm]
      at hsame
    exact absurd (hr hsame).2 (Nat.pos_iff_ne_zero.mp hb)
  · rw [Function.update_of_ne hcb] at hsame ⊢
    by_cases hab : a = b
    · subst hab
      rw [Function.update_self, hx] at hsame
      exact hr hsame
    · rw [Function.update_of_ne hab] at hsame
      exact hr hsame

/-- A buffer that stays referenced drops out of the release order. -/
theorem newer_update {released released' : Fin NBUF → Nat} (h : l.Pairwise (Newer buf released))
    (hnd : l.Nodup) (hx : x.refcnt ≠ 0) (hrel : ∀ a, a ≠ b → released' a = released a) :
    l.Pairwise (Newer (Function.update buf b x) released') := by
  refine pairwise_imp_of_ne h hnd fun a _ c _ _ hr ha hc => ?_
  have hab : a ≠ b := fun e => by
    subst e
    rw [Function.update_self] at ha
    exact hx ha
  have hcb : c ≠ b := fun e => by
    subst e
    rw [Function.update_self] at hc
    exact hx hc
  rw [Function.update_of_ne hab] at ha
  rw [Function.update_of_ne hcb] at hc
  rw [hrel a hab, hrel c hcb]
  exact hr ha hc

/-- `refcnt` is the holders plus the pins again, when one buffer's three counts change. -/
theorem refcnt_update {hold hold' pins pins' : Fin NBUF → Nat}
    (h : ∀ a, (buf a).refcnt = hold a + pins a) (hb : x.refcnt = hold' b + pins' b)
    (hother : ∀ a, a ≠ b → hold' a = hold a ∧ pins' a = pins a) (a : Fin NBUF) :
    (Function.update buf b x a).refcnt = hold' a + pins' a := by
  by_cases hab : a = b
  · subst hab
    rw [Function.update_self, hb]
  · rw [Function.update_of_ne hab, h, (hother a hab).1, (hother a hab).2]

end Update

/-! ## The references held -/

variable [Fintype ι]

/-- The references the processes hold on buffer `b`. -/
def holders (held : ι → List (Fin NBUF)) (b : Fin NBUF) : Nat := ∑ c, (held c).count b

theorem holders_update [DecidableEq ι] (held : ι → List (Fin NBUF)) (c : ι) (w : List (Fin NBUF))
    (b : Fin NBUF) :
    holders (Function.update held c w) b + (held c).count b = holders held b + w.count b := by
  have h := sum_add_eq_of_agree (f := fun x => (held x).count b)
    (g := fun x => (Function.update held c w x).count b) c
    fun x hx => by rw [Function.update_of_ne hx]
  simpa only [holders, Function.update_self] using h

/-- `bget` gives process `c` one more reference to `b`. -/
theorem holders_append [DecidableEq ι] (held : ι → List (Fin NBUF)) (c : ι) (b a : Fin NBUF) :
    holders (Function.update held c (held c ++ [b])) a = holders held a + if a = b then 1 else 0 := by
  have h := holders_update held c (held c ++ [b]) a
  rw [List.count_append] at h
  by_cases hab : a = b
  · subst hab
    rw [List.count_singleton_self] at h
    rw [if_pos rfl]
    omega
  · rw [List.count_singleton, if_neg fun e => hab (beq_iff_eq.mp e).symm] at h
    rw [if_neg hab]
    omega

/-- `brelse` takes one of process `c`'s references to `b` away. -/
theorem holders_erase [DecidableEq ι] (held : ι → List (Fin NBUF)) (c : ι) {b : Fin NBUF}
    (hb : b ∈ held c) (a : Fin NBUF) :
    holders (Function.update held c ((held c).erase b)) a + (if a = b then 1 else 0) =
      holders held a := by
  have h := holders_update held c ((held c).erase b) a
  by_cases hab : a = b
  · subst hab
    have hcnt := List.count_pos_iff.mpr hb
    rw [List.count_erase_self] at h
    rw [if_pos rfl]
    omega
  · rw [List.count_erase_of_ne hab] at h
    rw [if_neg hab]
    omega

theorem holders_pos {held : ι → List (Fin NBUF)} {c : ι} {b : Fin NBUF} (hb : b ∈ held c) :
    0 < holders held b := by
  have hle := Finset.single_le_sum (fun x _ => Nat.zero_le ((held x).count b)) (Finset.mem_univ c)
  have hpos := List.count_pos_iff.mpr hb
  unfold holders
  omega

/-! ## The invariant -/

/-- What every state reached from `binit` satisfies, `l` being the order of the list. -/
structure Ok (s : Sys ι) (l : List (Fin NBUF)) : Prop where
  forms : s.links.Forms l
  mem : ∀ b, b ∈ l
  refcnt_eq : ∀ b, (s.buf b).refcnt = holders s.held b + s.pins b
  shadows : l.Pairwise (Shadows s.buf)
  newer : l.Pairwise (Newer s.buf s.released)
  released_le : ∀ b, s.released b ≤ s.clock

theorem ok_init : Ok (Sys.init : Sys ι) (List.finRange NBUF).reverse where
  forms := by
    have h := Links.forms_empty.foldl_pushFront (List.nodup_finRange NBUF)
      fun b _ hb => List.not_mem_nil hb
    rwa [List.append_nil] at h
  mem b := List.mem_reverse.mpr (List.mem_finRange b)
  refcnt_eq b := by simp [Sys.init, holders, Buf.zero]
  shadows := List.pairwise_of_forall fun _ _ _ => ⟨rfl, rfl⟩
  newer := List.pairwise_of_forall fun _ _ _ _ => Nat.le_refl 0
  released_le _ := Nat.le_refl 0

variable {s : Sys ι} {l : List (Fin NBUF)}

theorem Ok.length_le (h : Ok s l) : l.length ≤ NBUF := by
  have := h.forms.nodup.length_le_card
  rwa [Fintype.card_fin] at this

/-- `bget`'s first loop meets the buffers in list order. -/
theorem Ok.lookup_eq (h : Ok s l) (dev blockno : Nat) :
    s.lookup dev blockno =
      l.find? fun b => (s.buf b).dev == dev && (s.buf b).blockno == blockno :=
  h.forms.scan_next _ h.length_le

/-- `bget`'s second loop meets them in reverse. -/
theorem Ok.victim_eq (h : Ok s l) : s.victim = l.reverse.find? fun b => (s.buf b).refcnt == 0 :=
  h.forms.scan_prev _ h.length_le

/-- A buffer a process holds is referenced. -/
theorem Ok.refcnt_pos (h : Ok s l) {c : ι} {b : Fin NBUF} (hb : b ∈ s.held c) :
    0 < (s.buf b).refcnt := by
  rw [h.refcnt_eq]
  have := holders_pos hb
  omega

theorem Ok.panic (h : Ok s l) (msg : String) : Ok (s.panic msg) l :=
  ⟨h.forms, h.mem, h.refcnt_eq, h.shadows, h.newer, h.released_le⟩

/-! ## Every step -/

/-- The rest of `bread`: the holder marks the buffer valid. -/
theorem Ok.fill (h : Ok s l) {c : ι} {b : Fin NBUF} (hb : b ∈ s.held c) :
    Ok { s with buf := Function.update s.buf b { s.buf b with valid := true } } l := by
  have hpos := h.refcnt_pos hb
  refine ⟨h.forms, h.mem, refcnt_update h.refcnt_eq (h.refcnt_eq b) fun _ _ => ⟨rfl, rfl⟩,
    shadows_update h.shadows h.forms.nodup hpos fun _ => Iff.rfl,
    newer_update h.newer h.forms.nodup (Nat.pos_iff_ne_zero.mp hpos) fun _ _ => rfl,
    h.released_le⟩

/-- `bpin` by the holder: one more reference, a pin. -/
theorem Ok.bpin (h : Ok s l) {c : ι} {b : Fin NBUF} (hb : b ∈ s.held c) :
    Ok { s.bpin b with pins := Function.update s.pins b (s.pins b + 1) } l := by
  have hpos := h.refcnt_pos hb
  refine ⟨h.forms, h.mem, refcnt_update h.refcnt_eq ?_ fun a hab => ⟨rfl, ?_⟩,
    shadows_update h.shadows h.forms.nodup hpos fun _ => Iff.rfl,
    newer_update h.newer h.forms.nodup (Nat.succ_ne_zero _) fun _ _ => rfl, h.released_le⟩
  · show (s.buf b).refcnt + 1 = holders s.held b + Function.update s.pins b (s.pins b + 1) b
    rw [Function.update_self, h.refcnt_eq]
    omega
  · exact Function.update_of_ne hab _ _

/-- `bunpin` by the holder of a pinned buffer: one reference fewer, and the holder's own
reference keeps it referenced. -/
theorem Ok.bunpin (h : Ok s l) {c : ι} {b : Fin NBUF} (hb : b ∈ s.held c) (hpin : 0 < s.pins b) :
    Ok { s.bunpin b with pins := Function.update s.pins b (s.pins b - 1) } l := by
  have hpos := holders_pos hb
  have hrefcnt := h.refcnt_eq b
  refine ⟨h.forms, h.mem, refcnt_update h.refcnt_eq ?_ fun a hab => ⟨rfl, ?_⟩,
    shadows_update h.shadows h.forms.nodup (by omega) fun _ => Iff.rfl,
    newer_update h.newer h.forms.nodup (show (s.buf b).refcnt - 1 ≠ 0 by omega) fun _ _ => rfl,
    h.released_le⟩
  · show (s.buf b).refcnt - 1 = holders s.held b + Function.update s.pins b (s.pins b - 1) b
    rw [Function.update_self]
    omega
  · exact Function.update_of_ne hab _ _

variable [DecidableEq ι]

/-- `bget` finds the block cached: the first buffer carrying it gets one more reference. -/
theorem Ok.bget_hit (h : Ok s l) {c : ι} {dev blockno : Nat} {b : Fin NBUF}
    (hl : s.lookup dev blockno = some b) :
    Ok { s with buf := Function.update s.buf b { s.buf b with refcnt := (s.buf b).refcnt + 1 },
                held := Function.update s.held c (s.held c ++ [b]) } l := by
  have hnd := h.forms.nodup
  rw [h.lookup_eq] at hl
  obtain ⟨hpb, l₁, l₂, hl₁₂, hbefore⟩ := List.find?_eq_some_iff_append.mp hl
  refine ⟨h.forms, h.mem, refcnt_update h.refcnt_eq ?_ fun a hab => ⟨?_, rfl⟩, ?_,
    newer_update h.newer hnd (Nat.succ_ne_zero _) fun _ _ => rfl, h.released_le⟩
  · show (s.buf b).refcnt + 1 = holders (Function.update s.held c (s.held c ++ [b])) b + s.pins b
    rw [holders_append, if_pos rfl, h.refcnt_eq]
    omega
  · show holders (Function.update s.held c (s.held c ++ [b])) a = holders s.held a
    rw [holders_append, if_neg hab, Nat.add_zero]
  · -- no buffer before `b` carries the block, and `b`'s block is unchanged
    show l.Pairwise (Shadows (Function.update s.buf b _))
    have hshadows := h.shadows
    rw [hl₁₂] at hnd hshadows ⊢
    have hb₂ : b ∉ l₂ := fun hm =>
      (List.nodup_middle.mp hnd |> List.nodup_cons.mp).1 (List.mem_append_right _ hm)
    refine pairwise_frame hshadows hnd (fun x y hx hy hr => ?_) (fun x hx _ hsame => ?_)
      fun y hy hr hsame => ?_
    · unfold Shadows at hr ⊢
      rwa [Function.update_of_ne hx, Function.update_of_ne hy]
    · have hx := hbefore x hx
      have hxb : x ≠ b := fun e => by
        subst e
        simp [hpb] at hx
      rw [Function.update_of_ne hxb, Function.update_self] at hsame
      have hpb' : (s.buf b).dev = dev ∧ (s.buf b).blockno = blockno := by simpa using hpb
      have hxd : (s.buf x).dev = dev := hsame.1.trans hpb'.1
      have hxn : (s.buf x).blockno = blockno := hsame.2.trans hpb'.2
      simp [hxd, hxn] at hx
    · have hyb : y ≠ b := fun e => hb₂ (e ▸ hy)
      rw [Function.update_self, Function.update_of_ne hyb] at hsame
      rw [Function.update_of_ne hyb]
      exact hr hsame

/-- `bget` recycles buffer `b`, unreferenced, for a block no buffer carries. -/
theorem Ok.bget_recycle (h : Ok s l) {c : ι} {dev blockno : Nat} {b : Fin NBUF}
    (hl : s.lookup dev blockno = none) (hv : s.victim = some b) :
    Ok { s with
      buf := Function.update s.buf b
        { s.buf b with dev := dev, blockno := blockno, valid := false, refcnt := 1 }
      held := Function.update s.held c (s.held c ++ [b]) } l := by
  have hnd := h.forms.nodup
  rw [h.lookup_eq, List.find?_eq_none] at hl
  rw [h.victim_eq] at hv
  have hfree : (s.buf b).refcnt = 0 := by simpa using List.find?_some hv
  have hzero := h.refcnt_eq b
  -- no block carries the new block
  have hcarry : ∀ a, (s.buf a).dev = dev → (s.buf a).blockno = blockno → False :=
    fun a hd hn => hl a (h.mem a) (by simp [hd, hn])
  refine ⟨h.forms, h.mem, refcnt_update h.refcnt_eq ?_ fun a hab => ⟨?_, rfl⟩, ?_,
    newer_update h.newer hnd Nat.one_ne_zero fun _ _ => rfl, h.released_le⟩
  · show 1 = holders (Function.update s.held c (s.held c ++ [b])) b + s.pins b
    rw [holders_append, if_pos rfl]
    omega
  · show holders (Function.update s.held c (s.held c ++ [b])) a = holders s.held a
    rw [holders_append, if_neg hab, Nat.add_zero]
  · show l.Pairwise (Shadows (Function.update s.buf b _))
    refine pairwise_imp_of_ne h.shadows hnd fun a _ c _ hac hr hsame => ?_
    by_cases hcb : c = b
    · subst hcb
      rw [Function.update_self, Function.update_of_ne hac] at hsame
      exact (hcarry a hsame.1 hsame.2).elim
    · by_cases hab : a = b
      · subst hab
        rw [Function.update_self, Function.update_of_ne hcb] at hsame
        exact (hcarry c hsame.1.symm hsame.2.symm).elim
      · rw [Function.update_of_ne hab, Function.update_of_ne hcb] at hsame
        rw [Function.update_of_ne hcb]
        exact hr hsame

theorem Ok.bget (h : Ok s l) {c : ι} {dev blockno : Nat} {b : Fin NBUF} {buf : Fin NBUF → Buf}
    (hg : s.bget dev blockno = some (b, buf)) :
    Ok { s with buf := buf, held := Function.update s.held c (s.held c ++ [b]) } l := by
  rcases Sys.bget_cases hg with ⟨hl, rfl⟩ | ⟨hl, hv, rfl⟩
  · exact h.bget_hit hl
  · exact h.bget_recycle hl hv

/-- `brelse` by the holder. While others reference the buffer it stays where it is; the last
reference released moves it to the front, as the most recently released. -/
theorem Ok.brelse (h : Ok s l) {c : ι} {b : Fin NBUF} (hb : b ∈ s.held c) :
    ∃ l', Ok { s.brelse b with
      held := Function.update s.held c ((s.held c).erase b)
      clock := s.clock + 1
      released := Function.update s.released b (s.clock + 1) } l' := by
  have hpos := h.refcnt_pos hb
  have hnd := h.forms.nodup
  have hrefcnt : ∀ a, (Function.update s.buf b { s.buf b with refcnt := (s.buf b).refcnt - 1 }
      a).refcnt = holders (Function.update s.held c ((s.held c).erase b)) a + s.pins a := by
    refine refcnt_update h.refcnt_eq ?_ fun a hab => ⟨?_, rfl⟩
    · have := holders_erase s.held c hb b
      rw [if_pos rfl] at this
      show (s.buf b).refcnt - 1 = _
      rw [h.refcnt_eq]
      omega
    · have := holders_erase s.held c hb a
      rw [if_neg hab, Nat.add_zero] at this
      exact this
  have hrel : ∀ a, a ≠ b → Function.update s.released b (s.clock + 1) a = s.released a :=
    fun a hab => Function.update_of_ne hab _ _
  have hle : ∀ a, Function.update s.released b (s.clock + 1) a ≤ s.clock + 1 := fun a => by
    by_cases hab : a = b
    · rw [hab, Function.update_self]
    · rw [hrel a hab]
      exact Nat.le_succ_of_le (h.released_le a)
  by_cases hz : (s.buf b).refcnt - 1 = 0
  · -- the last reference: unlink `b` and link it in at the front
    rw [Sys.brelse_last hz]
    have hnot : b ∉ l.erase b := fun hm => ((List.Nodup.mem_erase_iff hnd).mp hm).1 rfl
    refine ⟨b :: l.erase b, (h.forms.unlink (h.mem b)).pushFront hnot,
      fun a => ?_, hrefcnt, ?_, ?_, hle⟩
    · by_cases hab : a = b
      · rw [hab]
        exact List.mem_cons_self ..
      · exact List.mem_cons_of_mem _ ((List.Nodup.mem_erase_iff hnd).mpr ⟨hab, h.mem a⟩)
    · -- `b` was referenced, so every other buffer carrying its block came after it
      show (b :: l.erase b).Pairwise (Shadows (Function.update s.buf b _))
      refine pairwise_moveFront h.shadows hnd (fun x y hx hy hr => ?_) fun y hy hyb hsame => ?_
      · unfold Shadows at hr ⊢
        rwa [Function.update_of_ne hx, Function.update_of_ne hy]
      · rw [Function.update_self, Function.update_of_ne hyb] at hsame
        rw [Function.update_of_ne hyb]
        rcases pairwise_rel_or_rel h.shadows (h.mem b) hy (Ne.symm hyb) with hr | hr
        · exact hr hsame
        · exact absurd (hr (Buf.same_comm.mp hsame)).2 (Nat.pos_iff_ne_zero.mp hpos)
    · show (b :: l.erase b).Pairwise
        (Newer (Function.update s.buf b _) (Function.update s.released b (s.clock + 1)))
      refine pairwise_moveFront h.newer hnd (fun x y hx hy hr hx0 hy0 => ?_)
        fun y _ hyb _ _ => ?_
      · rw [Function.update_of_ne hx] at hx0
        rw [Function.update_of_ne hy] at hy0
        rw [hrel x hx, hrel y hy]
        exact hr hx0 hy0
      · rw [Function.update_self]
        exact hle y
  · -- others still reference `b`: it stays where it is
    rw [Sys.brelse_keep hz]
    exact ⟨l, h.forms, h.mem, hrefcnt,
      shadows_update h.shadows hnd hpos fun _ => Iff.rfl, newer_update h.newer hnd hz hrel, hle⟩

/-- Every step keeps the invariant, along the new order of the list. -/
theorem Ok.step (h : Ok s l) {c : ι} {a : Act} {s' : Sys ι} (hs : Xv6.Bio.step s c a = some s') :
    ∃ l', Ok s' l' := by
  by_cases hp : s.panicked.isSome
  · unfold Xv6.Bio.step at hs
    rw [if_pos hp] at hs
    cases hs
  unfold Xv6.Bio.step at hs
  rw [if_neg hp] at hs
  cases a with
  | bget dev blockno =>
    dsimp only at hs
    split at hs
    · rename_i b buf hg
      cases hs
      exact ⟨l, h.bget hg⟩
    · cases hs
      exact ⟨l, h.panic _⟩
  | fill b =>
    dsimp only at hs
    split at hs
    · rename_i hb
      cases hs
      exact ⟨l, h.fill hb⟩
    · cases hs
  | brelse b =>
    dsimp only at hs
    split at hs
    · rename_i hb
      cases hs
      exact h.brelse hb
    · cases hs
      exact ⟨l, h.panic _⟩
  | bpin b =>
    dsimp only at hs
    split at hs
    · rename_i hb
      cases hs
      exact ⟨l, h.bpin hb⟩
    · cases hs
  | bunpin b =>
    dsimp only at hs
    split at hs
    · rename_i hb
      cases hs
      exact ⟨l, h.bunpin hb.1 hb.2⟩
    · cases hs

theorem ok_of_reachable (hs : Reachable s) : ∃ l, Ok s l := by
  induction hs with
  | init => exact ⟨_, ok_init⟩
  | step c a _ hstep ih =>
    obtain ⟨l, h⟩ := ih
    exact h.step hstep

/-! ## What the invariant gives -/

omit [DecidableEq ι] in
/-- Two buffers that are valid or referenced never carry the same block: the one further down
the list would be shadowed. -/
theorem Ok.unique (h : Ok s l) {b b' : Fin NBUF} (hne : b ≠ b')
    (hb : (s.buf b).valid = true ∨ 0 < (s.buf b).refcnt)
    (hb' : (s.buf b').valid = true ∨ 0 < (s.buf b').refcnt) :
    ¬ Buf.Same (s.buf b) (s.buf b') := by
  have hused : ∀ x, (s.buf x).valid = true ∨ 0 < (s.buf x).refcnt →
      ¬((s.buf x).valid = false ∧ (s.buf x).refcnt = 0) := by
    rintro x (hv | hr) ⟨hv', hr'⟩
    · rw [hv] at hv'
      cases hv'
    · omega
  intro hsame
  rcases pairwise_rel_or_rel h.shadows (h.mem b) (h.mem b') hne with hr | hr
  · exact hused b' hb' (hr hsame)
  · exact hused b hb (hr (Buf.same_comm.mp hsame))

omit [DecidableEq ι] in
/-- `bget`'s second loop returns an unreferenced buffer, one released least recently: the last
unreferenced one on the list. -/
theorem Ok.victim_lru (h : Ok s l) {b : Fin NBUF} (hv : s.victim = some b) :
    (s.buf b).refcnt = 0 ∧ ∀ b', (s.buf b').refcnt = 0 → s.released b ≤ s.released b' := by
  rw [h.victim_eq] at hv
  obtain ⟨hpb, r₁, r₂, hrev, hafter⟩ := List.find?_eq_some_iff_append.mp hv
  have hfree : (s.buf b).refcnt = 0 := by simpa using hpb
  have hl : l = r₂.reverse ++ b :: r₁.reverse := by
    rw [← List.reverse_reverse l, hrev]
    simp
  have hnewer := h.newer
  have hmem := h.mem
  rw [hl, List.pairwise_append] at hnewer
  refine ⟨hfree, fun b' hb' => ?_⟩
  have hm := hmem b'
  rw [hl] at hm
  rcases List.mem_append.mp hm with hm | hm
  · exact hnewer.2.2 b' hm b (List.mem_cons_self ..) hb' hfree
  · rcases List.mem_cons.mp hm with rfl | hm
    · exact Nat.le_refl _
    · -- every buffer after `b` on the list is referenced
      have := hafter b' (List.mem_reverse.mp hm)
      simp [hb'] at this

omit [Fintype ι] in
theorem reachable_runSteps (h : Reachable s) (as : List (ι × Act)) :
    Reachable (runSteps (fun s x => step s x.1 x.2) s as) :=
  runSteps_induction (fun _ x _ hs hx => .step x.1 x.2 hs hx) as h

/-- Process 0 reads block 33 of device 1, pins it and releases it; process 1 reads block 34 and
releases it. -/
def bioRun : Sys (Fin 2) :=
  runSteps (fun s x => step s x.1 x.2) Sys.init
    [(0, .bget 1 33), (0, .fill 0), (0, .bpin 0), (0, .brelse 0), (1, .bget 1 34), (1, .fill 1),
      (1, .brelse 1)]

set_option maxRecDepth 20000 in
/-- Block 33 is cached in buffer 0, which its pin keeps referenced. -/
example : bioRun.lookup 1 33 = some 0 := by decide

set_option maxRecDepth 20000 in
/-- Buffer 1 was released last and went to the front; the next buffer to recycle is one no
process has used since `binit`. -/
example : bioRun.victim = some 2 := by decide

theorem bcache_invariants (hs : Reachable s) :
    (∃ l, s.links.Forms l ∧ ∀ b, b ∈ l) ∧
    (∀ b, (s.buf b).refcnt = ∑ c, (s.held c).count b + s.pins b) ∧
    (∀ b b', b ≠ b' → ((s.buf b).valid = true ∨ 0 < (s.buf b).refcnt) →
      ((s.buf b').valid = true ∨ 0 < (s.buf b').refcnt) → ¬ Buf.Same (s.buf b) (s.buf b')) ∧
    (∀ dev blockno b buf, s.bget dev blockno = some (b, buf) → s.lookup dev blockno = none →
      (s.buf b).refcnt = 0 ∧ ∀ b', (s.buf b').refcnt = 0 → s.released b ≤ s.released b') := by
  obtain ⟨l, h⟩ := ok_of_reachable hs
  refine ⟨⟨l, h.forms, h.mem⟩, h.refcnt_eq, fun b b' hne hb hb' => h.unique hne hb hb',
    fun dev blockno b buf hg hl => ?_⟩
  rcases Sys.bget_cases hg with ⟨hl', _⟩ | ⟨_, hv, _⟩
  · rw [hl] at hl'
    cases hl'
  · exact h.victim_lru hv

theorem bioRun_invariants :
    Reachable bioRun ∧
    ((∃ l, bioRun.links.Forms l ∧ ∀ b, b ∈ l) ∧
    (∀ b, (bioRun.buf b).refcnt = ∑ c, (bioRun.held c).count b + bioRun.pins b) ∧
    (∀ b b', b ≠ b' → ((bioRun.buf b).valid = true ∨ 0 < (bioRun.buf b).refcnt) →
      ((bioRun.buf b').valid = true ∨ 0 < (bioRun.buf b').refcnt) →
        ¬ Buf.Same (bioRun.buf b) (bioRun.buf b')) ∧
    (∀ dev blockno b buf, bioRun.bget dev blockno = some (b, buf) →
      bioRun.lookup dev blockno = none →
      (bioRun.buf b).refcnt = 0 ∧
        ∀ b', (bioRun.buf b').refcnt = 0 → bioRun.released b ≤ bioRun.released b')) :=
  have hr : Reachable bioRun := reachable_runSteps .init _
  ⟨hr, bcache_invariants hr⟩

end Xv6.Bio
