import Xv6.Lib.Loop

/-!
# Xv6.Virtio.Disk — the descriptor table of `kernel/virtio_disk.c`

The driver owns `NUM` descriptors. `disk.free[i]` says whether descriptor `i` is free;
`virtio_disk_rw` takes three with `alloc3_desc`, links them into a chain by
`VRING_DESC_F_NEXT`, records the request's buffer in `disk.info[head].b` and publishes the head in
the avail ring; `virtio_disk_intr` takes completed heads off the used ring and clears `b->disk`,
and the requester then frees its chain with `free_chain`.

Any number of callers issue requests, each on its own buffer (the buffer's sleep-lock keeps
two requests off one buffer), so a caller stands for its buffer. `disk.vdisk_lock` is held from
the call of `virtio_disk_rw` to its first `sleep`, from each wakeup to the next `sleep` or the
return, and through `virtio_disk_intr`: each such critical section is one step. A sleeper may be
woken at any time. The device is an environment: it completes any published head, in any order,
writing 0 to its status byte; `virtio_disk_intr` handles one used ring entry per step, which
also covers the device adding entries while the handler runs.

Panics are errors of `Except String`, with the source's messages. `addr` and `len` of a
descriptor, the request headers in `disk.ops`, and the ring indices (whose wrap-around at
`2^16` is a multiple of `NUM`) are left out: the rings are the lists of their live entries.
-/

namespace Xv6.Virtio

open Function

/-- `NUM` of `virtio.h`: the size of the descriptor table and of the rings. -/
def NUM : Nat := 8

instance : NeZero NUM := ⟨by decide⟩

/-- `VRING_DESC_F_NEXT`: the chain continues with `next`. -/
def VRING_DESC_F_NEXT : UInt16 := 1

/-- `VRING_DESC_F_WRITE`: the device writes the buffer. -/
def VRING_DESC_F_WRITE : UInt16 := 2

/-- The fields of `struct virtq_desc` that the driver's chains use. -/
structure Desc where
  flags : UInt16
  next : UInt16
  deriving DecidableEq, Repr

/-- A descriptor as `free_desc` leaves it. -/
def Desc.zero : Desc := ⟨0, 0⟩

/-- `disk.info[i]`: the buffer of the request whose chain starts at `i` (`none` for 0), and the
status byte the device writes. -/
structure Info (ι : Type) where
  b : Option ι
  status : UInt8

/-- `int idx[3]` of `virtio_disk_rw`: the header, data and status descriptors. -/
structure Idx3 where
  i0 : Fin NUM
  i1 : Fin NUM
  i2 : Fin NUM
  deriving DecidableEq, Repr

def Idx3.toList (idx : Idx3) : List (Fin NUM) := [idx.i0, idx.i1, idx.i2]

@[simp] theorem Idx3.mem_toList {idx : Idx3} {j : Fin NUM} :
    j ∈ idx.toList ↔ j = idx.i0 ∨ j = idx.i1 ∨ j = idx.i2 := by
  simp [Idx3.toList]

theorem Idx3.nodup_iff {idx : Idx3} :
    idx.toList.Nodup ↔ idx.i0 ≠ idx.i1 ∧ idx.i0 ≠ idx.i2 ∧ idx.i1 ≠ idx.i2 := by
  simp [Idx3.toList, and_assoc]

/-- Where a caller of `virtio_disk_rw` is. -/
inductive Pc where
  /-- Not in `virtio_disk_rw`. -/
  | idle
  /-- Asleep on `&disk.free[0]` in the allocation loop. -/
  | allocWait (write : Bool)
  /-- Asleep on `b` until `b->disk` is 0, with its chain `idx`. -/
  | doneWait (idx : Idx3)
  deriving DecidableEq

/-- The driver's state, the callers and what the device has been given and has completed. -/
structure Disk (ι : Type) where
  free : Fin NUM → Bool
  desc : Fin NUM → Desc
  info : Fin NUM → Info ι
  /-- Heads published in the avail ring that the device has not completed. -/
  avail : List (Fin NUM)
  /-- Heads the device put in the used ring that `virtio_disk_intr` has not handled. -/
  used : List (Fin NUM)
  /-- `b->disk` of each caller's buffer. -/
  bdisk : ι → Bool
  pc : ι → Pc

variable {ι : Type}

/-! ## Descriptors -/

/-- `alloc_desc`: the first free descriptor, marked in use. -/
def Disk.allocDesc (d : Disk ι) : Option (Fin NUM) × Disk ι :=
  match (List.finRange NUM).find? (d.free ·) with
  | none => (none, d)
  | some i => (some i, { d with free := update d.free i false })

/-- `free_desc(i)`: clear descriptor `i` and mark it free. -/
def Disk.freeDesc (d : Disk ι) (i : Nat) : Except String (Disk ι) :=
  if h : i < NUM then
    if d.free ⟨i, h⟩ then .error "free_desc 2"
    else .ok { d with desc := update d.desc ⟨i, h⟩ Desc.zero, free := update d.free ⟨i, h⟩ true }
  else .error "free_desc 1"

/-- How many descriptors are in use. -/
def Disk.busy (d : Disk ι) : Nat := (Finset.univ.filter (fun i => d.free i = false)).card

/-- Freeing a descriptor in use lowers the count of those in use. -/
theorem busy_update_true (free : Fin NUM → Bool) (i : Fin NUM) (h : free i = false) :
    (Finset.univ.filter (fun j => update free i true j = false)).card <
      (Finset.univ.filter (fun j => free j = false)).card := by
  apply Finset.card_lt_card
  rw [Finset.ssubset_iff_of_subset]
  · exact ⟨i, by simp [h], by simp⟩
  · intro j hj
    by_cases hji : j = i
    · subst hji
      simp at hj
    · simpa [update_of_ne hji] using hj

theorem Disk.freeDesc_busy {d d' : Disk ι} {i : Nat} (h : d.freeDesc i = .ok d') :
    d'.busy < d.busy := by
  unfold Disk.freeDesc at h
  split at h
  · split at h
    · cases h
    · rename_i hi hfree
      cases h
      exact busy_update_true d.free ⟨i, hi⟩ (by simpa using hfree)
  · cases h

/-- `free_chain(i)`: free descriptors along the `next` links while `VRING_DESC_F_NEXT` is set.
The loop ends since each round frees a descriptor in use or panics. -/
def Disk.freeChain (d : Disk ι) (i : Nat) : Except String (Disk ι) :=
  if h : i < NUM then
    let flag := (d.desc ⟨i, h⟩).flags
    let nxt := (d.desc ⟨i, h⟩).next
    match hf : d.freeDesc i with
    | .error e => .error e
    | .ok d' =>
      have : d'.busy < d.busy := Disk.freeDesc_busy hf
      if flag &&& VRING_DESC_F_NEXT != 0 then d'.freeChain nxt.toNat else .ok d'
  -- `disk.desc[i]` is read out of bounds before `free_desc(i)` panics
  else .error "free_desc 1"
termination_by d.busy

/-- The loop of `alloc3_desc` with `taken` the descriptors `idx[0..i)` and `k = 3 - i` rounds to
go: on a failed `alloc_desc`, free what was taken, in order, and return -1. -/
def Disk.alloc3Loop (d : Disk ι) (taken : List (Fin NUM)) : Nat →
    Except String (Option (List (Fin NUM)) × Disk ι)
  | 0 => .ok (some taken, d)
  | k + 1 =>
    match d.allocDesc with
    | (none, d) =>
      (taken.foldlM (fun (d : Disk ι) (j : Fin NUM) => d.freeDesc j.val) d).map fun d => (none, d)
    | (some i, d) => d.alloc3Loop (taken ++ [i]) k

/-- `alloc3_desc(idx)`: three descriptors, or `none` for -1. -/
def Disk.alloc3Desc (d : Disk ι) : Except String (Option Idx3 × Disk ι) :=
  (d.alloc3Loop [] 3).map fun r =>
    match r.1 with
    | some [i0, i1, i2] => (some ⟨i0, i1, i2⟩, r.2)
    | _ => (none, r.2)


/-! ## What the descriptor operations do -/

/-- `d` with the descriptors of `l` marked in use. -/
def Disk.take (d : Disk ι) (l : List (Fin NUM)) : Disk ι :=
  { d with free := fun j => if j ∈ l then false else d.free j }

/-- `d` with the descriptors of `l` cleared and marked free. -/
def Disk.release (d : Disk ι) (l : List (Fin NUM)) : Disk ι :=
  { d with
    desc := fun j => if j ∈ l then Desc.zero else d.desc j
    free := fun j => if j ∈ l then true else d.free j }

section Fields

variable (d : Disk ι) (l : List (Fin NUM))

@[simp] theorem Disk.take_free : (d.take l).free = fun j => if j ∈ l then false else d.free j :=
  rfl
@[simp] theorem Disk.take_desc : (d.take l).desc = d.desc := rfl
@[simp] theorem Disk.take_info : (d.take l).info = d.info := rfl
@[simp] theorem Disk.take_avail : (d.take l).avail = d.avail := rfl
@[simp] theorem Disk.take_used : (d.take l).used = d.used := rfl
@[simp] theorem Disk.take_bdisk : (d.take l).bdisk = d.bdisk := rfl
@[simp] theorem Disk.take_pc : (d.take l).pc = d.pc := rfl

@[simp] theorem Disk.release_free :
    (d.release l).free = fun j => if j ∈ l then true else d.free j := rfl
@[simp] theorem Disk.release_desc :
    (d.release l).desc = fun j => if j ∈ l then Desc.zero else d.desc j := rfl
@[simp] theorem Disk.release_info : (d.release l).info = d.info := rfl
@[simp] theorem Disk.release_avail : (d.release l).avail = d.avail := rfl
@[simp] theorem Disk.release_used : (d.release l).used = d.used := rfl
@[simp] theorem Disk.release_bdisk : (d.release l).bdisk = d.bdisk := rfl
@[simp] theorem Disk.release_pc : (d.release l).pc = d.pc := rfl

end Fields

/-- Free descriptors are cleared, as `virtio_disk_init` and `free_desc` leave them. -/
def Disk.FreeZero (d : Disk ι) : Prop := ∀ i, d.free i = true → d.desc i = Desc.zero

/-- The chain `virtio_disk_rw` builds: three distinct descriptors in use, linked by `next`, with
`VRING_DESC_F_NEXT` set on the first two and clear on the last. -/
structure Disk.Linked (d : Disk ι) (idx : Idx3) : Prop where
  nodup : idx.toList.Nodup
  busy : ∀ j ∈ idx.toList, d.free j = false
  flags0 : (d.desc idx.i0).flags &&& VRING_DESC_F_NEXT ≠ 0
  next0 : (d.desc idx.i0).next.toNat = idx.i1.val
  flags1 : (d.desc idx.i1).flags &&& VRING_DESC_F_NEXT ≠ 0
  next1 : (d.desc idx.i1).next.toNat = idx.i2.val
  flags2 : (d.desc idx.i2).flags &&& VRING_DESC_F_NEXT = 0

/-- A chain stays linked while its own descriptors are left alone. -/
theorem Disk.Linked.of_agree {d d' : Disk ι} {idx : Idx3} (h : d.Linked idx)
    (hfree : ∀ j ∈ idx.toList, d'.free j = d.free j)
    (hdesc : ∀ j ∈ idx.toList, d'.desc j = d.desc j) : d'.Linked idx := by
  obtain ⟨hnd, hbusy, h0, h1, h2, h3, h4⟩ := h
  have e0 := hdesc idx.i0 (by simp)
  have e1 := hdesc idx.i1 (by simp)
  have e2 := hdesc idx.i2 (by simp)
  exact ⟨hnd, fun j hj => (hfree j hj).trans (hbusy j hj), e0 ▸ h0, e0 ▸ h1, e1 ▸ h2, e1 ▸ h3,
    e2 ▸ h4⟩

theorem Disk.allocDesc_cases (d : Disk ι) :
    (d.allocDesc = (none, d) ∧ ∀ i, d.free i = false) ∨
      ∃ i, d.free i = true ∧ d.allocDesc = (some i, { d with free := update d.free i false }) := by
  unfold Disk.allocDesc
  cases h : (List.finRange NUM).find? (d.free ·) with
  | none =>
    refine .inl ⟨rfl, fun i => ?_⟩
    simpa using List.find?_eq_none.mp h i (List.mem_finRange i)
  | some i => exact .inr ⟨i, List.find?_some h, rfl⟩

/-- What `free_desc(i)` leaves when `i` is in use. -/
def Disk.freeOne (d : Disk ι) (i : Fin NUM) : Disk ι :=
  { d with desc := update d.desc i Desc.zero, free := update d.free i true }

@[simp] theorem Disk.freeOne_free (d : Disk ι) (i : Fin NUM) :
    (d.freeOne i).free = update d.free i true := rfl
@[simp] theorem Disk.freeOne_desc (d : Disk ι) (i : Fin NUM) :
    (d.freeOne i).desc = update d.desc i Desc.zero := rfl

theorem Disk.freeDesc_of_busy (d : Disk ι) (i : Fin NUM) (h : d.free i = false) :
    d.freeDesc i.val = .ok (d.freeOne i) := by
  simp [Disk.freeDesc, Disk.freeOne, h]

/-- Freeing the first of the taken descriptors gives back its state. -/
theorem Disk.freeDesc_take_cons (d0 : Disk ι) (hz : d0.FreeZero) {t : Fin NUM}
    {ts : List (Fin NUM)} (hnodup : (t :: ts).Nodup) (hfree : d0.free t = true) :
    (d0.take (t :: ts)).freeDesc t.val = .ok (d0.take ts) := by
  rw [Disk.freeDesc_of_busy _ t (by simp [Disk.take])]
  have ht : t ∉ ts := (List.nodup_cons.mp hnodup).1
  simp only [Disk.take, Disk.freeOne, Except.ok.injEq, Disk.mk.injEq, and_true]
  refine ⟨?_, ?_⟩
  · funext j
    by_cases hj : j = t
    · subst hj
      simp [ht, hfree]
    · simp [hj]
  · funext j
    by_cases hj : j = t
    · subst hj
      simp [hz j hfree]
    · simp [update_of_ne hj]

/-- Freeing, in order, descriptors taken from a state whose free descriptors are cleared gives
that state back. -/
theorem Disk.foldlM_freeDesc_take (d0 : Disk ι) (hz : d0.FreeZero) (l : List (Fin NUM))
    (hnodup : l.Nodup) (hfree : ∀ j ∈ l, d0.free j = true) :
    l.foldlM (fun (d : Disk ι) (j : Fin NUM) => d.freeDesc j.val) (d0.take l) = .ok d0 := by
  induction l with
  | nil => simp [Disk.take]; rfl
  | cons t ts ih =>
    rw [List.foldlM_cons, d0.freeDesc_take_cons hz hnodup (hfree t (by simp))]
    exact ih (List.nodup_cons.mp hnodup).2 (fun j hj => hfree j (by simp [hj]))

/-- The rounds of `alloc3_desc` after taking `taken` from `d0`: `k` more free descriptors are
taken, or none is left and what was taken is given back. -/
theorem Disk.alloc3Loop_cases (d0 : Disk ι) (hz : d0.FreeZero) (k : Nat) :
    ∀ taken : List (Fin NUM), taken.Nodup → (∀ j ∈ taken, d0.free j = true) →
      (∃ more : List (Fin NUM), more.length = k ∧ (taken ++ more).Nodup ∧
          (∀ j ∈ more, d0.free j = true) ∧
          (d0.take taken).alloc3Loop taken k = .ok (some (taken ++ more), d0.take (taken ++ more)))
        ∨ (d0.take taken).alloc3Loop taken k = .ok (none, d0) := by
  induction k with
  | zero =>
    intro taken hnodup _
    exact .inl ⟨[], rfl, by simpa using hnodup, by simp, by simp [Disk.alloc3Loop]⟩
  | succ k ih =>
    intro taken hnodup hfree
    rcases (d0.take taken).allocDesc_cases with ⟨hnone, -⟩ | ⟨i, hi, hsome⟩
    · -- nothing free: give back what was taken
      right
      simp only [Disk.alloc3Loop, hnone]
      rw [d0.foldlM_freeDesc_take hz taken hnodup hfree]
      rfl
    · -- take `i`, which was free in `d0` and is not among those taken
      have hi0 : d0.free i = true ∧ i ∉ taken := by
        by_cases hit : i ∈ taken <;> simp_all [Disk.take]
      have htake : { d0.take taken with free := update (d0.take taken).free i false } =
          d0.take (taken ++ [i]) := by
        simp only [Disk.take, Disk.mk.injEq, and_true]
        funext j
        by_cases hj : j = i
        · subst hj; simp
        · simp [hj]
      have hnodup' : (taken ++ [i]).Nodup := List.nodup_append.mpr
        ⟨hnodup, List.nodup_singleton i, fun a ha b hb hab => by simp at hb; subst hb; subst hab; exact hi0.2 ha⟩
      have hfree' : ∀ j ∈ taken ++ [i], d0.free j = true := by
        intro j hj
        rcases List.mem_append.mp hj with hj | hj
        · exact hfree j hj
        · simp at hj; subst hj; exact hi0.1
      simp only [Disk.alloc3Loop, hsome, htake]
      rcases ih (taken ++ [i]) hnodup' hfree' with ⟨more, hlen, hnd, hmore, hrun⟩ | hrun
      · refine .inl ⟨i :: more, by simp [hlen], by simpa using hnd, ?_, by simpa using hrun⟩
        intro j hj
        rcases List.mem_cons.mp hj with rfl | hj
        · exact hi0.1
        · exact hmore j hj
      · exact .inr hrun

/-- `alloc3_desc` takes three distinct free descriptors and marks them in use, or, when fewer
than three are free, frees the ones it took and leaves the table as it was. -/
theorem Disk.alloc3Desc_cases (d : Disk ι) (hz : d.FreeZero) :
    (∃ idx : Idx3, idx.toList.Nodup ∧ (∀ j ∈ idx.toList, d.free j = true) ∧
        d.alloc3Desc = .ok (some idx, d.take idx.toList)) ∨
      d.alloc3Desc = .ok (none, d) := by
  have hd : d.take [] = d := by simp [Disk.take]
  rcases d.alloc3Loop_cases hz 3 [] List.nodup_nil (by simp) with
    ⟨more, hlen, hnd, hmore, hrun⟩ | hrun
  · match more, hlen with
    | [i0, i1, i2], _ =>
      refine .inl ⟨⟨i0, i1, i2⟩, by simpa [Idx3.toList] using hnd,
        by simpa [Idx3.toList] using hmore, ?_⟩
      rw [hd] at hrun
      rw [Disk.alloc3Desc, hrun]
      rfl
  · rw [hd] at hrun
    rw [Disk.alloc3Desc, hrun]
    exact .inr rfl

/-- One round of `free_chain` at a descriptor in use. -/
theorem Disk.freeChain_of_busy (d : Disk ι) (i : Fin NUM) (h : d.free i = false) :
    d.freeChain i.val =
      if (d.desc i).flags &&& VRING_DESC_F_NEXT != 0 then
        (d.freeOne i).freeChain (d.desc i).next.toNat
      else .ok (d.freeOne i) := by
  rw [Disk.freeChain, dif_pos i.isLt]
  split
  · rename_i e he
    rw [d.freeDesc_of_busy i h] at he
    cases he
  · rename_i d' hd'
    rw [d.freeDesc_of_busy i h] at hd'
    cases hd'
    rfl

/-- `free_chain` of a linked chain frees exactly its three descriptors. -/
theorem Disk.freeChain_linked (d : Disk ι) {idx : Idx3} (h : d.Linked idx) :
    d.freeChain idx.i0.val = .ok (d.release idx.toList) := by
  obtain ⟨hnd, hbusy, hf0, hn0, hf1, hn1, hf2⟩ := h
  obtain ⟨h01, h02, h12⟩ := Idx3.nodup_iff.mp hnd
  have hb0 := hbusy idx.i0 (by simp)
  have hb1 := hbusy idx.i1 (by simp)
  have hb2 := hbusy idx.i2 (by simp)
  -- the header, whose flag sends the loop on to the data descriptor
  have hb1' : (d.freeOne idx.i0).free idx.i1 = false := by simp [update_of_ne (Ne.symm h01), hb1]
  rw [d.freeChain_of_busy idx.i0 hb0, if_pos (by simpa using hf0), hn0,
    Disk.freeChain_of_busy _ idx.i1 hb1']
  -- the data descriptor, on to the status descriptor
  have hd1 : (d.freeOne idx.i0).desc idx.i1 = d.desc idx.i1 := by
    simp [update_of_ne (Ne.symm h01)]
  have hb2' : ((d.freeOne idx.i0).freeOne idx.i1).free idx.i2 = false := by
    simp [update_of_ne (Ne.symm h02), update_of_ne (Ne.symm h12), hb2]
  rw [hd1, if_pos (by simpa using hf1), hn1, Disk.freeChain_of_busy _ idx.i2 hb2']
  -- the status descriptor ends the chain
  have hd2 : ((d.freeOne idx.i0).freeOne idx.i1).desc idx.i2 = d.desc idx.i2 := by
    simp [update_of_ne (Ne.symm h02), update_of_ne (Ne.symm h12)]
  rw [hd2, if_neg (by simpa using hf2)]
  congr 1
  simp only [Disk.release, Disk.freeOne, Idx3.mem_toList, Disk.mk.injEq, and_true]
  constructor <;> funext j <;> simp only [update_apply] <;> split_ifs <;> simp_all

/-! ## The driver's critical sections -/

variable [DecidableEq ι]

/-- `virtio_disk_rw` after `alloc3_desc` succeeded: format the chain, record `b` in
`disk.info[idx[0]]`, set `b->disk`, publish the head, and sleep until `b->disk` is 0. -/
def Disk.submit (d : Disk ι) (c : ι) (idx : Idx3) (write : Bool) : Disk ι :=
  { d with
    desc := update (update (update d.desc
      idx.i0 ⟨VRING_DESC_F_NEXT, idx.i1.val.toUInt16⟩)
      idx.i1 ⟨(if write then 0 else VRING_DESC_F_WRITE) ||| VRING_DESC_F_NEXT,
        idx.i2.val.toUInt16⟩)
      idx.i2 ⟨VRING_DESC_F_WRITE, 0⟩
    info := update d.info idx.i0 ⟨some c, 0xff⟩
    bdisk := update d.bdisk c true
    avail := d.avail ++ [idx.i0]
    pc := update d.pc c (.doneWait idx) }

section Submit

variable (d : Disk ι) (c : ι) (idx : Idx3) (write : Bool)

@[simp] theorem Disk.submit_free : (d.submit c idx write).free = d.free := rfl
@[simp] theorem Disk.submit_info :
    (d.submit c idx write).info = update d.info idx.i0 ⟨some c, 0xff⟩ := rfl
@[simp] theorem Disk.submit_avail : (d.submit c idx write).avail = d.avail ++ [idx.i0] := rfl
@[simp] theorem Disk.submit_used : (d.submit c idx write).used = d.used := rfl
@[simp] theorem Disk.submit_bdisk : (d.submit c idx write).bdisk = update d.bdisk c true := rfl
@[simp] theorem Disk.submit_pc : (d.submit c idx write).pc = update d.pc c (.doneWait idx) := rfl

theorem Disk.submit_desc_of_not_mem {j : Fin NUM} (hj : j ∉ idx.toList) :
    (d.submit c idx write).desc j = d.desc j := by
  simp only [Idx3.mem_toList, not_or] at hj
  simp [Disk.submit, update_of_ne hj.1, update_of_ne hj.2.1, update_of_ne hj.2.2]

variable {idx} in
/-- The chain as `virtio_disk_rw` formats it. -/
theorem Disk.submit_desc (hnd : idx.toList.Nodup) :
    (d.submit c idx write).desc idx.i0 = ⟨VRING_DESC_F_NEXT, idx.i1.val.toUInt16⟩ ∧
    (d.submit c idx write).desc idx.i1 =
      ⟨(if write then 0 else VRING_DESC_F_WRITE) ||| VRING_DESC_F_NEXT, idx.i2.val.toUInt16⟩ ∧
    (d.submit c idx write).desc idx.i2 = ⟨VRING_DESC_F_WRITE, 0⟩ := by
  obtain ⟨h01, h02, h12⟩ := Idx3.nodup_iff.mp hnd
  simp [Disk.submit, update_of_ne h01, update_of_ne h02, update_of_ne h12]

end Submit

/-- One round of the allocation loop of `virtio_disk_rw`: take three descriptors and submit, or
sleep on `&disk.free[0]`. -/
def Disk.tryRw (d : Disk ι) (c : ι) (write : Bool) : Except String (Disk ι) :=
  match d.alloc3Desc with
  | .error e => .error e
  | .ok (none, d) => .ok { d with pc := update d.pc c (.allocWait write) }
  | .ok (some idx, d) => .ok (d.submit c idx write)

/-- The end of `virtio_disk_rw` once `b->disk` is 0: forget `b`, free the chain, return. -/
def Disk.finish (d : Disk ι) (c : ι) (idx : Idx3) : Except String (Disk ι) :=
  let d := { d with info := update d.info idx.i0 { d.info idx.i0 with b := none } }
  (d.freeChain idx.i0).map fun d => { d with pc := update d.pc c .idle }

/-- The device completes the request whose chain starts at `h`: status 0, head to the used
ring. -/
def Disk.complete (d : Disk ι) (h : Fin NUM) : Disk ι :=
  { d with
    avail := d.avail.erase h
    used := d.used ++ [h]
    info := update d.info h { d.info h with status := 0 } }

/-- One round of `virtio_disk_intr`'s loop over the used ring. -/
def Disk.intrOne (d : Disk ι) (id : Fin NUM) (rest : List (Fin NUM)) : Except String (Disk ι) :=
  if (d.info id).status != 0 then .error "virtio_disk_intr status"
  else
    match (d.info id).b with
    -- `b->disk = 0` through a null `b`
    | none => .error "virtio_disk_intr: null buf"
    | some c => .ok { d with bdisk := update d.bdisk c false, used := rest }

/-- What can happen next. -/
inductive Act (ι : Type) where
  /-- Caller `c` calls `virtio_disk_rw(b, write)`. -/
  | rw (c : ι) (write : Bool)
  /-- Caller `c` wakes in the allocation loop. -/
  | retry (c : ι)
  /-- Caller `c` wakes with its request done. -/
  | finish (c : ι)
  /-- The device completes the request whose chain starts at `h`. -/
  | device (h : Fin NUM)
  /-- The disk interrupt handles one used ring entry. -/
  | intr

/-- One step; a step that is not enabled leaves the state as it is. -/
def Disk.step (d : Disk ι) : Act ι → Except String (Disk ι)
  | .rw c write => if d.pc c = .idle then d.tryRw c write else .ok d
  | .retry c =>
    match d.pc c with
    | .allocWait write => d.tryRw c write
    | _ => .ok d
  | .finish c =>
    match d.pc c with
    | .doneWait idx => if d.bdisk c = false then d.finish c idx else .ok d
    | _ => .ok d
  | .device h => if h ∈ d.avail then .ok (d.complete h) else .ok d
  | .intr =>
    match d.used with
    | [] => .ok d
    | id :: rest => d.intrOne id rest

/-- After `virtio_disk_init`: every descriptor free and zeroed, nothing in flight. -/
def Disk.init : Disk ι where
  free := fun _ => true
  desc := fun _ => Desc.zero
  info := fun _ => ⟨none, 0⟩
  avail := []
  used := []
  bdisk := fun _ => false
  pc := fun _ => .idle

/-- A run of steps, stopped at the first panic. -/
def Disk.run (d : Disk ι) (acts : List (Act ι)) : Except String (Disk ι) :=
  acts.foldlM Disk.step d

end Xv6.Virtio
