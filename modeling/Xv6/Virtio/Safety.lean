import Xv6.Virtio.Disk
import Xv6.Lib.Run

/-!
# Xv6.Virtio.Safety — the descriptor table over every interleaving

Every state reached from `virtio_disk_init` satisfies `Inv`: the descriptors in use are exactly
those of the chains of requests in flight (callers asleep in `virtio_disk_rw` with their
chain), these chains are disjoint and linked as `virtio_disk_rw` linked them, each with its
caller in `disk.info[head].b`; and a head is in the avail or used ring, once, exactly while the
caller's `b->disk` is set, with status 0 once in the used ring. No step from such a state panics
(`Inv.step`), so no run does (`run_inv`).

The steps keep `Inv` because `alloc3_desc` takes only free descriptors, or gives back what it
took (`Disk.alloc3Desc_cases`), and `free_chain` frees exactly the three descriptors of a linked
chain (`Disk.freeChain_linked`); a request's head leaves the rings before its caller can wake.
-/

namespace Xv6.Virtio

open Function

variable {ι : Type} [DecidableEq ι] {d : Disk ι}

/-- What every reachable state satisfies. -/
structure Inv (d : Disk ι) : Prop where
  freeZero : d.FreeZero
  linked : ∀ c idx, d.pc c = .doneWait idx → d.Linked idx ∧ (d.info idx.i0).b = some c
  disjoint : ∀ c c' idx idx', c ≠ c' → d.pc c = .doneWait idx → d.pc c' = .doneWait idx' →
    ∀ j ∈ idx.toList, j ∉ idx'.toList
  owned : ∀ j, d.free j = false → ∃ c idx, d.pc c = .doneWait idx ∧ j ∈ idx.toList
  ringNodup : (d.avail ++ d.used).Nodup
  ringHead : ∀ h ∈ d.avail ++ d.used, ∃ c idx, d.pc c = .doneWait idx ∧ idx.i0 = h ∧
    d.bdisk c = true
  inRing : ∀ c idx, d.pc c = .doneWait idx → d.bdisk c = true → idx.i0 ∈ d.avail ++ d.used
  usedDone : ∀ h ∈ d.used, (d.info h).status = 0

omit [DecidableEq ι] in
theorem inv_init : Inv (Disk.init : Disk ι) where
  freeZero _ _ := rfl
  linked c idx h := by simp [Disk.init] at h
  disjoint c c' idx idx' _ h := by simp [Disk.init] at h
  owned j h := by simp [Disk.init] at h
  ringNodup := by simp [Disk.init]
  ringHead h hh := by simp [Disk.init] at hh
  inRing c idx h := by simp [Disk.init] at h
  usedDone h hh := by simp [Disk.init] at hh

omit [DecidableEq ι] in
/-- The partition: a descriptor is free exactly when no request in flight holds it. -/
theorem Inv.free_iff (hinv : Inv d) (j : Fin NUM) :
    d.free j = true ↔ ∀ c idx, d.pc c = .doneWait idx → j ∉ idx.toList := by
  constructor
  · intro hj c idx hc hmem
    have := (hinv.linked c idx hc).1.busy j hmem
    simp [hj] at this
  · intro hnone
    by_contra hj
    obtain ⟨c, idx, hc, hmem⟩ := hinv.owned j (by simpa using hj)
    exact hnone c idx hc hmem

omit [DecidableEq ι] in
/-- A free descriptor is the head of no request in the rings. -/
theorem Inv.not_mem_ring (hinv : Inv d) {j : Fin NUM} (hj : d.free j = true) :
    j ∉ d.avail ++ d.used := by
  intro hmem
  obtain ⟨c, idx, hc, rfl, -⟩ := hinv.ringHead _ hmem
  exact (hinv.free_iff idx.i0).mp hj c idx hc (by simp [Idx3.toList])

/-- Where callers are after one of them moves. -/
theorem pc_update_eq_doneWait {pc : ι → Pc} {c c' : ι} {p : Pc} {idx : Idx3} :
    update pc c p c' = .doneWait idx ↔ (c' = c ∧ p = .doneWait idx) ∨
      (c' ≠ c ∧ pc c' = .doneWait idx) := by
  by_cases hc : c' = c
  · subst hc
    simp
  · simp [hc]

omit [DecidableEq ι] in
/-- `Inv` depends on the callers only through which of them are asleep with a chain. -/
theorem Inv.of_doneWait_iff (hinv : Inv d) {d' : Disk ι} (hfree : d'.free = d.free)
    (hdesc : d'.desc = d.desc) (hinfo : d'.info = d.info) (havail : d'.avail = d.avail)
    (hused : d'.used = d.used) (hbdisk : d'.bdisk = d.bdisk)
    (hpc : ∀ c idx, d'.pc c = .doneWait idx ↔ d.pc c = .doneWait idx) : Inv d' where
  freeZero j hj := by
    rw [hdesc]
    exact hinv.freeZero j (hfree ▸ hj)
  linked c idx hc := by
    obtain ⟨⟨hnd, hbusy, h0, h1, h2, h3, h4⟩, hb⟩ := hinv.linked c idx ((hpc c idx).mp hc)
    exact ⟨⟨hnd, by rwa [hfree], by rwa [hdesc], by rwa [hdesc], by rwa [hdesc], by rwa [hdesc],
      by rwa [hdesc]⟩, by rwa [hinfo]⟩
  disjoint c c' idx idx' hne hc hc' :=
    hinv.disjoint c c' idx idx' hne ((hpc c idx).mp hc) ((hpc c' idx').mp hc')
  owned j hj := by
    obtain ⟨c, idx, hc, hmem⟩ := hinv.owned j (hfree ▸ hj)
    exact ⟨c, idx, (hpc c idx).mpr hc, hmem⟩
  ringNodup := by
    rw [havail, hused]
    exact hinv.ringNodup
  ringHead h hh := by
    rw [havail, hused] at hh
    obtain ⟨c, idx, hc, hhead, hb⟩ := hinv.ringHead h hh
    exact ⟨c, idx, (hpc c idx).mpr hc, hhead, hbdisk ▸ hb⟩
  inRing c idx hc hb := by
    rw [havail, hused]
    exact hinv.inRing c idx ((hpc c idx).mp hc) (hbdisk ▸ hb)
  usedDone h hh := by
    rw [hinfo]
    exact hinv.usedDone h (hused ▸ hh)

/-- A caller that holds no chain moves to another point that holds none. -/
theorem Inv.setPc (hinv : Inv d) {c : ι} {p : Pc} (hc : ∀ idx, d.pc c ≠ .doneWait idx)
    (hp : ∀ idx, p ≠ .doneWait idx) : Inv { d with pc := update d.pc c p } := by
  refine hinv.of_doneWait_iff rfl rfl rfl rfl rfl rfl fun c' idx => ?_
  simp only [pc_update_eq_doneWait]
  constructor
  · rintro (⟨rfl, hpi⟩ | ⟨-, h⟩)
    · exact absurd hpi (hp idx)
    · exact h
  · intro h
    by_cases hc' : c' = c
    · subst hc'
      exact absurd h (hc idx)
    · exact .inr ⟨hc', h⟩

theorem fin_toUInt16_toNat : ∀ i : Fin NUM, i.val.toUInt16.toNat = i.val := by decide

/-- `virtio_disk_rw` submits a request on three descriptors that were free. -/
theorem Inv.submit (hinv : Inv d) {c : ι} (hc : ∀ idx, d.pc c ≠ .doneWait idx) {idx : Idx3}
    (hnd : idx.toList.Nodup) (hfree : ∀ j ∈ idx.toList, d.free j = true) (write : Bool) :
    Inv ((d.take idx.toList).submit c idx write) := by
  -- the chains in flight hold none of the new descriptors, and no ring holds the new head
  have hother : ∀ c' idx', d.pc c' = .doneWait idx' → ∀ j ∈ idx'.toList, j ∉ idx.toList := by
    intro c' idx' hc' j hj hmem
    have := (hinv.linked c' idx' hc').1.busy j hj
    simp [hfree j hmem] at this
  have hhead : idx.i0 ∈ idx.toList := by simp
  have hring : idx.i0 ∉ d.avail ++ d.used := hinv.not_mem_ring (hfree _ hhead)
  have hne : ∀ c' idx', d.pc c' = .doneWait idx' → c' ≠ c := fun c' idx' hc' h => hc idx' (h ▸ hc')
  obtain ⟨hd0, hd1, hd2⟩ := (d.take idx.toList).submit_desc c write hnd
  obtain ⟨h01, h02, h12⟩ := Idx3.nodup_iff.mp hnd
  constructor
  · -- free descriptors are the old free ones outside the chain, untouched
    intro j hj
    simp only [Disk.submit_free, Disk.take_free] at hj
    split_ifs at hj with hmem
    rw [Disk.submit_desc_of_not_mem _ _ _ _ hmem]
    exact hinv.freeZero j hj
  · intro c' idx' hc'
    simp only [Disk.submit_pc, pc_update_eq_doneWait] at hc'
    rcases hc' with ⟨rfl, hidx⟩ | ⟨hc'c, hc'⟩
    · -- the new chain, as `virtio_disk_rw` formats it
      cases hidx
      refine ⟨⟨hnd, fun j hj => by simp only [Disk.submit_free, Disk.take_free, if_pos hj],
        ?_, ?_, ?_, ?_, ?_⟩, by simp⟩
      · rw [hd0]
        exact (by decide : VRING_DESC_F_NEXT &&& VRING_DESC_F_NEXT ≠ 0)
      · rw [hd0]
        exact fin_toUInt16_toNat idx.i1
      · rw [hd1]
        dsimp only
        cases write <;> decide
      · rw [hd1]
        exact fin_toUInt16_toNat idx.i2
      · rw [hd2]
        exact (by decide : VRING_DESC_F_WRITE &&& VRING_DESC_F_NEXT = 0)
    · -- a chain in flight keeps its descriptors and its head's buffer
      obtain ⟨⟨hnd', hbusy', h0, h1, h2, h3, h4⟩, hb'⟩ := hinv.linked c' idx' hc'
      have hout := hother c' idx' hc'
      have hi0 : idx'.i0 ≠ idx.i0 := fun h => hout _ (by simp) (h ▸ hhead)
      refine ⟨⟨hnd', fun j hj => by simp [hout j hj, hbusy' j hj], ?_, ?_, ?_, ?_, ?_⟩, ?_⟩
      · rwa [Disk.submit_desc_of_not_mem _ _ _ _ (hout _ (by simp))]
      · rwa [Disk.submit_desc_of_not_mem _ _ _ _ (hout _ (by simp))]
      · rwa [Disk.submit_desc_of_not_mem _ _ _ _ (hout _ (by simp))]
      · rwa [Disk.submit_desc_of_not_mem _ _ _ _ (hout _ (by simp))]
      · rwa [Disk.submit_desc_of_not_mem _ _ _ _ (hout _ (by simp))]
      · simpa [update_of_ne hi0] using hb'
  · intro c₁ c₂ idx₁ idx₂ hne12 h₁ h₂
    simp only [Disk.submit_pc, pc_update_eq_doneWait] at h₁ h₂
    rcases h₁ with ⟨rfl, h₁⟩ | ⟨h₁c, h₁⟩ <;> rcases h₂ with ⟨rfl, h₂⟩ | ⟨h₂c, h₂⟩
    · exact absurd rfl hne12
    · cases h₁
      exact fun j hj hj' => hother c₂ idx₂ h₂ j hj' hj
    · cases h₂
      exact hother c₁ idx₁ h₁
    · exact hinv.disjoint c₁ c₂ idx₁ idx₂ hne12 h₁ h₂
  · intro j hj
    simp only [Disk.submit_free, Disk.take_free] at hj
    by_cases hmem : j ∈ idx.toList
    · exact ⟨c, idx, by simp, hmem⟩
    · simp only [hmem, if_false] at hj
      obtain ⟨c', idx', hc', hj'⟩ := hinv.owned j hj
      exact ⟨c', idx', by simp [update_of_ne (hne c' idx' hc'), hc'], hj'⟩
  · simp only [Disk.submit_avail, Disk.submit_used, Disk.take_avail, Disk.take_used]
    rw [List.append_assoc, List.singleton_append]
    exact List.nodup_middle.mpr (List.nodup_cons.mpr ⟨hring, hinv.ringNodup⟩)
  · intro h hh
    simp only [Disk.submit_avail, Disk.submit_used, Disk.take_avail, Disk.take_used,
      List.mem_append, List.mem_singleton] at hh
    rcases hh with (hh | rfl) | hh
    · obtain ⟨c', idx', hc', hh', hb⟩ := hinv.ringHead h (List.mem_append_left _ hh)
      exact ⟨c', idx', by simp [update_of_ne (hne c' idx' hc'), hc'], hh',
        by simp [update_of_ne (hne c' idx' hc'), hb]⟩
    · exact ⟨c, idx, by simp, rfl, by simp⟩
    · obtain ⟨c', idx', hc', hh', hb⟩ := hinv.ringHead h (List.mem_append_right _ hh)
      exact ⟨c', idx', by simp [update_of_ne (hne c' idx' hc'), hc'], hh',
        by simp [update_of_ne (hne c' idx' hc'), hb]⟩
  · intro c' idx' hc' hb
    simp only [Disk.submit_pc, pc_update_eq_doneWait] at hc'
    simp only [Disk.submit_avail, Disk.submit_used, Disk.take_avail, Disk.take_used]
    rcases hc' with ⟨rfl, hidx⟩ | ⟨hc'c, hc'⟩
    · cases hidx
      simp
    · have := hinv.inRing c' idx' hc' (by simpa [update_of_ne hc'c] using hb)
      simp only [List.mem_append] at this ⊢
      tauto
  · intro h hh
    simp only [Disk.submit_used, Disk.take_used] at hh
    have hh0 : h ≠ idx.i0 := fun e => hring (e ▸ List.mem_append_right _ hh)
    simpa [update_of_ne hh0] using hinv.usedDone h hh

/-- A round of the allocation loop never panics: it submits, or sleeps with the table as it
was. -/
theorem Inv.tryRw (hinv : Inv d) {c : ι} (hc : ∀ idx, d.pc c ≠ .doneWait idx) (write : Bool) :
    ∃ d', d.tryRw c write = .ok d' ∧ Inv d' := by
  rcases d.alloc3Desc_cases hinv.freeZero with ⟨idx, hnd, hfree, halloc⟩ | halloc
  · exact ⟨_, by simp [Disk.tryRw, halloc], hinv.submit hc hnd hfree write⟩
  · exact ⟨_, by simp [Disk.tryRw, halloc], hinv.setPc (p := .allocWait write) hc (fun _ => nofun)⟩

/-- A caller woken with `b->disk` clear frees its chain and returns. -/
theorem Inv.finish (hinv : Inv d) {c : ι} {idx : Idx3} (hc : d.pc c = .doneWait idx)
    (hb : d.bdisk c = false) : ∃ d', d.finish c idx = .ok d' ∧ Inv d' := by
  obtain ⟨hlinked, hinfo⟩ := hinv.linked c idx hc
  -- the chain's head has left the rings, since `b->disk` is clear
  have hring : idx.i0 ∉ d.avail ++ d.used := by
    intro hmem
    obtain ⟨c', idx', hc', hh, hb'⟩ := hinv.ringHead _ hmem
    by_cases hcc : c' = c
    · subst hcc
      simp [hb] at hb'
    · exact hinv.disjoint c' c idx' idx hcc hc' hc idx'.i0 (by simp) (hh ▸ by simp)
  -- forgetting `b` leaves the chain linked, so `free_chain` frees exactly its descriptors
  set d₁ := { d with info := update d.info idx.i0 { d.info idx.i0 with b := none } }
  have hfree := d₁.freeChain_linked (hlinked.of_agree (fun _ _ => rfl) (fun _ _ => rfl))
  refine ⟨_, by simp only [Disk.finish, d₁] at hfree ⊢; rw [hfree]; rfl, ?_⟩
  -- the other chains in flight hold none of the freed descriptors
  have hother : ∀ c' idx', c' ≠ c → d.pc c' = .doneWait idx' → ∀ j ∈ idx'.toList,
      j ∉ idx.toList := fun c' idx' hne hc' => hinv.disjoint c' c idx' idx hne hc' hc
  have hpc : ∀ c' idx', update d.pc c .idle c' = .doneWait idx' ↔
      c' ≠ c ∧ d.pc c' = .doneWait idx' := by
    intro c' idx'
    simp [pc_update_eq_doneWait]
  have hstatus : ∀ h, (update d.info idx.i0 { d.info idx.i0 with b := none } h).status =
      (d.info h).status := by
    intro h
    by_cases hh : h = idx.i0
    · subst hh; simp
    · simp [update_of_ne hh]
  constructor
  · intro j hj
    simp only [Disk.release_free, Disk.release_desc] at hj ⊢
    split_ifs at hj ⊢ with hmem
    · rfl
    · exact hinv.freeZero j hj
  · intro c' idx' hc'
    obtain ⟨hne, hc'⟩ := (hpc c' idx').mp hc'
    obtain ⟨hl', hb'⟩ := hinv.linked c' idx' hc'
    have hout := hother c' idx' hne hc'
    have hi0 : idx'.i0 ≠ idx.i0 := by
      intro h
      exact hout idx'.i0 (by simp) (by rw [h]; simp)
    refine ⟨hl'.of_agree (fun j hj => ?_) (fun j hj => ?_), ?_⟩
    · simp [hout j hj]
    · simp [hout j hj]
    · simpa [d₁, update_of_ne hi0] using hb'
  · intro c₁ c₂ idx₁ idx₂ hne12 h₁ h₂
    exact hinv.disjoint c₁ c₂ idx₁ idx₂ hne12 ((hpc c₁ idx₁).mp h₁).2 ((hpc c₂ idx₂).mp h₂).2
  · intro j hj
    simp only [Disk.release_free] at hj
    split_ifs at hj with hmem
    obtain ⟨c', idx', hc', hj'⟩ := hinv.owned j hj
    have hne : c' ≠ c := fun h => hmem (by subst h; rw [hc] at hc'; cases hc'; exact hj')
    exact ⟨c', idx', (hpc c' idx').mpr ⟨hne, hc'⟩, hj'⟩
  · exact hinv.ringNodup
  · intro h hh
    obtain ⟨c', idx', hc', hh', hb'⟩ := hinv.ringHead h hh
    have hne : c' ≠ c := fun e => by subst e; simp [hb] at hb'
    exact ⟨c', idx', (hpc c' idx').mpr ⟨hne, hc'⟩, hh', hb'⟩
  · intro c' idx' hc' hb'
    exact hinv.inRing c' idx' ((hpc c' idx').mp hc').2 hb'
  · intro h hh
    simpa [d₁, hstatus] using hinv.usedDone h hh

omit [DecidableEq ι] in
/-- The device completes a published request. -/
theorem Inv.complete (hinv : Inv d) {h : Fin NUM} (hh : h ∈ d.avail) : Inv (d.complete h) := by
  -- the rings hold the same heads, `h` moved from one to the other
  have hperm : (d.avail.erase h ++ (d.used ++ [h])).Perm (d.avail ++ d.used) := by
    rw [← List.append_assoc]
    exact (List.perm_append_singleton _ _).trans ((List.perm_cons_erase hh).symm.append_right _)
  have hmem : ∀ x, x ∈ (d.complete h).avail ++ (d.complete h).used ↔ x ∈ d.avail ++ d.used :=
    fun x => hperm.mem_iff
  have hb : ∀ j, ((d.complete h).info j).b = (d.info j).b := by
    intro j
    by_cases hj : j = h
    · subst hj; simp [Disk.complete]
    · simp [Disk.complete, update_of_ne hj]
  constructor
  · exact hinv.freeZero
  · intro c idx hc
    obtain ⟨hl, hb'⟩ := hinv.linked c idx hc
    exact ⟨hl.of_agree (fun _ _ => rfl) (fun _ _ => rfl), (hb idx.i0).trans hb'⟩
  · exact hinv.disjoint
  · exact hinv.owned
  · exact hperm.nodup_iff.mpr hinv.ringNodup
  · intro x hx
    exact hinv.ringHead x ((hmem x).mp hx)
  · intro c idx hc hbd
    exact (hmem _).mpr (hinv.inRing c idx hc hbd)
  · intro x hx
    simp only [Disk.complete, List.mem_append, List.mem_singleton] at hx
    by_cases hxh : x = h
    · subst hxh
      simp [Disk.complete]
    · simpa [Disk.complete, update_of_ne hxh] using hinv.usedDone x (hx.resolve_right hxh)

/-- `virtio_disk_intr` handles the first used ring entry: its status is 0 and its `b` is the
caller asleep on that chain, whose `b->disk` it clears. -/
theorem Inv.intrOne (hinv : Inv d) {id : Fin NUM} {rest : List (Fin NUM)}
    (hu : d.used = id :: rest) : ∃ d', d.intrOne id rest = .ok d' ∧ Inv d' := by
  have hid : id ∈ d.avail ++ d.used := by simp [hu]
  obtain ⟨c, idx, hc, hhead, hbc⟩ := hinv.ringHead id hid
  subst hhead
  obtain ⟨-, hinfo⟩ := hinv.linked c idx hc
  have hstatus : (d.info idx.i0).status = 0 := hinv.usedDone idx.i0 (by simp [hu])
  have hnd : (d.avail ++ idx.i0 :: rest).Nodup := hu ▸ hinv.ringNodup
  have hid' : idx.i0 ∉ d.avail ++ rest := (List.nodup_middle.mp hnd |> List.nodup_cons.mp).1
  have hmem : ∀ x, x ∈ d.avail ++ rest → x ∈ d.avail ++ d.used := by
    intro x hx
    rw [hu]
    simp only [List.mem_append, List.mem_cons] at hx ⊢
    tauto
  refine ⟨{ d with bdisk := update d.bdisk c false, used := rest }, ?_, ?_⟩
  · simp [Disk.intrOne, hstatus, hinfo]
  constructor
  · exact hinv.freeZero
  · intro c' idx' hc'
    obtain ⟨hl, hb⟩ := hinv.linked c' idx' hc'
    exact ⟨hl.of_agree (fun _ _ => rfl) (fun _ _ => rfl), hb⟩
  · exact hinv.disjoint
  · exact hinv.owned
  · exact (List.nodup_middle.mp hnd |> List.nodup_cons.mp).2
  · intro x hx
    obtain ⟨c', idx', hc', hx', hb'⟩ := hinv.ringHead x (hmem x hx)
    -- the caller of the handled request no longer has its head in the rings
    have hne : c' ≠ c := by
      rintro rfl
      rw [hc] at hc'
      cases hc'
      exact hid' (hx' ▸ hx)
    exact ⟨c', idx', hc', hx', by simpa [update_of_ne hne] using hb'⟩
  · intro c' idx' hc' hb'
    have hne : c' ≠ c := by
      rintro rfl
      simp at hb'
    have hr := hinv.inRing c' idx' hc' (by simpa [update_of_ne hne] using hb')
    have hi0 : idx'.i0 ≠ idx.i0 := by
      intro h
      exact hinv.disjoint c' c idx' idx hne hc' hc idx'.i0 (by simp) (by rw [h]; simp)
    rw [hu] at hr
    simp only [List.mem_append, List.mem_cons] at hr ⊢
    tauto
  · intro x hx
    exact hinv.usedDone x (by simp [hu, hx])

/-- No step from a state satisfying `Inv` panics, and every step keeps `Inv`. -/
theorem Inv.step (hinv : Inv d) (a : Act ι) : ∃ d', d.step a = .ok d' ∧ Inv d' := by
  cases a with
  | rw c write =>
    by_cases hc : d.pc c = .idle
    · simpa [Disk.step, hc] using hinv.tryRw (fun idx h => by rw [hc] at h; cases h) write
    · exact ⟨d, by simp [Disk.step, hc], hinv⟩
  | retry c =>
    cases hc : d.pc c with
    | allocWait write =>
      simpa [Disk.step, hc] using hinv.tryRw (fun idx h => by rw [hc] at h; cases h) write
    | idle => exact ⟨d, by simp [Disk.step, hc], hinv⟩
    | doneWait idx => exact ⟨d, by simp [Disk.step, hc], hinv⟩
  | finish c =>
    cases hc : d.pc c with
    | doneWait idx =>
      by_cases hb : d.bdisk c = false
      · simpa [Disk.step, hc, hb] using hinv.finish hc hb
      · exact ⟨d, by simp [Disk.step, hc, hb], hinv⟩
    | idle => exact ⟨d, by simp [Disk.step, hc], hinv⟩
    | allocWait write => exact ⟨d, by simp [Disk.step, hc], hinv⟩
  | device h =>
    by_cases hh : h ∈ d.avail
    · exact ⟨_, by simp [Disk.step, hh], hinv.complete hh⟩
    · exact ⟨d, by simp [Disk.step, hh], hinv⟩
  | intr =>
    cases hu : d.used with
    | nil => exact ⟨d, by simp [Disk.step, hu], hinv⟩
    | cons id rest => simpa [Disk.step, hu] using hinv.intrOne hu

/-- Every run from `virtio_disk_init` completes without a panic, in a state satisfying `Inv`. -/
theorem run_inv (acts : List (Act ι)) : ∃ d, (Disk.init : Disk ι).run acts = .ok d ∧ Inv d := by
  obtain ⟨d, hrun, hd⟩ := Lib.foldlM_ok_of_inv (fun _ d => Inv d) (l := acts)
    (fun _ a _ d _ hd => hd.step a) inv_init
  exact ⟨d, hrun, hd⟩

/-- Two requests in flight hold six of the eight descriptors, so a third caller sleeps in the
allocation loop. -/
example : ((Disk.init : Disk (Fin 3)).run [.rw 0 true, .rw 1 false, .rw 2 true]).map
    (fun d => d.pc 2) = .ok (.allocWait true) := by decide

/-- The descriptor table over every interleaving of requests, device completions and
interrupts: no run panics, and in every state it reaches the descriptors are split into the
free ones and the disjoint chains of the requests in flight, each linked by
`VRING_DESC_F_NEXT` with its caller's buffer in `disk.info[head].b`. `alloc3_desc` takes only
free descriptors, or gives back all it took, and `free_chain` frees exactly the three
descriptors of a chain. -/
theorem virtio_descriptors_partitioned :
    (∀ acts : List (Act ι), ∃ d, (Disk.init : Disk ι).run acts = .ok d ∧
      (∀ j, d.free j = true ↔ ∀ c idx, d.pc c = .doneWait idx → j ∉ idx.toList) ∧
      (∀ c c' idx idx', c ≠ c' → d.pc c = .doneWait idx → d.pc c' = .doneWait idx' →
        ∀ j ∈ idx.toList, j ∉ idx'.toList) ∧
      (∀ c idx, d.pc c = .doneWait idx → d.Linked idx ∧ (d.info idx.i0).b = some c)) ∧
    (∀ d : Disk ι, d.FreeZero →
      (∃ idx : Idx3, idx.toList.Nodup ∧ (∀ j ∈ idx.toList, d.free j = true) ∧
          d.alloc3Desc = .ok (some idx, d.take idx.toList)) ∨
        d.alloc3Desc = .ok (none, d)) ∧
    (∀ (d : Disk ι) (idx : Idx3), d.Linked idx →
      d.freeChain idx.i0.val = .ok (d.release idx.toList)) := by
  refine ⟨fun acts => ?_, fun d hz => d.alloc3Desc_cases hz, fun d _ h => d.freeChain_linked h⟩
  obtain ⟨d, hrun, hinv⟩ := run_inv acts
  exact ⟨d, hrun, hinv.free_iff, hinv.disjoint, hinv.linked⟩

/-- Two callers submit a read and a write from `virtio_disk_init`: the first takes descriptors
0, 1 and 2, the second 3, 4 and 5, and the first's chain frees exactly its own three. -/
theorem virtio_descriptors_partitioned_twoCallers :
    ∃ d : Disk (Fin 2), (Disk.init : Disk (Fin 2)).run [.rw 0 false, .rw 1 true] = .ok d ∧
      d.pc 0 = .doneWait ⟨0, 1, 2⟩ ∧ d.pc 1 = .doneWait ⟨3, 4, 5⟩ ∧
      (∀ j ∈ (⟨0, 1, 2⟩ : Idx3).toList, j ∉ (⟨3, 4, 5⟩ : Idx3).toList) ∧
      d.Linked ⟨0, 1, 2⟩ ∧ d.freeChain 0 = .ok (d.release [0, 1, 2]) ∧
      (Disk.init : Disk (Fin 2)).alloc3Desc = .ok (some ⟨0, 1, 2⟩, Disk.init.take [0, 1, 2]) := by
  obtain ⟨hrun, halloc, hfree⟩ := virtio_descriptors_partitioned (ι := Fin 2)
  obtain ⟨d, hd, -, hdisj, hlinked⟩ := hrun [.rw 0 false, .rw 1 true]
  have hpc : ((Disk.init : Disk (Fin 2)).run [.rw 0 false, .rw 1 true]).map
      (fun d => (d.pc 0, d.pc 1)) = .ok (.doneWait ⟨0, 1, 2⟩, .doneWait ⟨3, 4, 5⟩) := by
    decide
  rw [hd] at hpc
  obtain ⟨hpc0, hpc1⟩ := Prod.mk.inj (Except.ok.inj hpc)
  have hlink := (hlinked 0 _ hpc0).1
  -- the first allocation from `virtio_disk_init` takes the three lowest descriptors
  have hfst : (Disk.init : Disk (Fin 2)).alloc3Desc.map Prod.fst = .ok (some ⟨0, 1, 2⟩) := by
    decide
  refine ⟨d, hd, hpc0, hpc1, hdisj 0 1 _ _ (by decide) hpc0 hpc1, hlink, hfree d _ hlink, ?_⟩
  rcases halloc Disk.init fun _ _ => rfl with ⟨idx, -, -, h⟩ | h
  · rw [h] at hfst ⊢
    cases Except.ok.inj hfst
    rfl
  · rw [h] at hfst
    cases hfst

end Xv6.Virtio
