import Mathlib

/-!
# Xv6.Lib.DList — a doubly linked list through a sentinel

A circular doubly linked list threads its nodes through a sentinel, the list's `head`:
`head.next` is the first node and `head.prev` the last. A pointer is an `Option α`, `none` being
the sentinel. `Links.Forms L l` says that the `next` and `prev` fields of `L` link the distinct
nodes `l`, in this order, into one cycle through the sentinel; the fields of nodes outside `l`
are unconstrained.

Linking a node in right after the sentinel and unlinking a node keep `Forms`
(`Forms.pushFront`, `Forms.unlink`), and a walk along `next` from the sentinel meets the nodes of
`l` in order, along `prev` in reverse order (`Forms.scan_next`, `Forms.scan_prev`).

What a list keeps about its nodes in order, such as "older than every node before it", is a
`List.Pairwise` relation over `l`; `pairwise_frame` and `pairwise_moveFront` carry one across a
change of a single node.
-/

namespace Xv6.Lib

variable {α : Type*}

/-- The `next` and `prev` fields of the sentinel and of every node. -/
structure Links (α : Type*) where
  next : Option α → Option α
  prev : Option α → Option α

/-- The pointers from the first node on, back to the sentinel. -/
def trail (l : List α) : List (Option α) := l.map some ++ [none]

@[simp] theorem trail_nil : trail ([] : List α) = [none] := rfl

@[simp] theorem trail_cons (a : α) (l : List α) : trail (a :: l) = some a :: trail l := rfl

theorem trail_append (l₁ l₂ : List α) : trail (l₁ ++ l₂) = l₁.map some ++ trail l₂ := by
  simp [trail]

@[simp] theorem head?_trail (l : List α) : (trail l).head? = some l.head? := by
  cases l <;> rfl

@[simp] theorem some_mem_trail {a : α} {l : List α} : some a ∈ trail l ↔ a ∈ l := by
  simp [trail]

/-- The first pointer of a trail of distinct nodes is not met again. -/
theorem head?_not_mem_tail {l : List α} (h : l.Nodup) : l.head? ∉ (trail l).tail := by
  cases l with
  | nil => simp
  | cons a l =>
    rw [trail_cons, List.tail_cons, List.head?_cons, some_mem_trail]
    exact (List.nodup_cons.mp h).1

/-- The pointer before `trail l`: the sentinel, or the last node of `l`. -/
theorem getLast?_none_cons (l : List α) :
    (none :: l.map some).getLast? = some l.getLast? := by
  induction l using List.reverseRecOn with
  | nil => rfl
  | append_singleton l a _ =>
    rw [List.map_append, List.map_singleton, ← List.cons_append, List.getLast?_append,
      List.getLast?_append]
    simp

namespace Links

/-- One step round the list: `next` leads from `x` to `y` and `prev` leads back. -/
def Step (L : Links α) (x y : Option α) : Prop := L.next x = y ∧ L.prev y = x

/-- The same links, walked the other way. -/
def flip (L : Links α) : Links α := ⟨L.prev, L.next⟩

/-- The list with no node: the sentinel points at itself both ways. -/
def empty : Links α := ⟨fun _ => none, fun _ => none⟩

/-- `L` links the distinct nodes of `l`, in order, into a cycle through the sentinel. -/
structure Forms (L : Links α) (l : List α) : Prop where
  nodup : l.Nodup
  chain : (none :: trail l).IsChain L.Step

theorem forms_empty : (empty : Links α).Forms [] :=
  ⟨List.nodup_nil, List.isChain_pair.mpr ⟨rfl, rfl⟩⟩

variable {L : Links α} {l : List α}

theorem Forms.trail_chain (h : L.Forms l) : (trail l).IsChain L.Step := h.chain.tail

theorem Forms.step_none (h : L.Forms l) : L.Step none l.head? :=
  (List.isChain_cons.mp h.chain).1 _ (by rw [head?_trail]; rfl)

theorem Forms.next_none (h : L.Forms l) : L.next none = l.head? := h.step_none.1

/-- Walking back is walking forward along the reversed list. -/
theorem Forms.flip (h : L.Forms l) : L.flip.Forms l.reverse := by
  refine ⟨List.nodup_reverse.mpr h.nodup, ?_⟩
  have hrev : none :: trail l.reverse = (none :: trail l).reverse := by
    simp [trail, List.map_reverse]
  rw [hrev, List.isChain_reverse]
  exact h.chain.imp fun x y hxy => ⟨hxy.2, hxy.1⟩

/-! ## Walking the list -/

/-- Follow `step` from `x` until the sentinel: the first node met that satisfies `p`. At most
`fuel` nodes are visited. -/
def scan (step : Option α → Option α) (p : α → Bool) : Nat → Option α → Option α
  | 0, _ => none
  | _ + 1, none => none
  | fuel + 1, some a => if p a then some a else scan step p fuel (step (some a))

/-- A walk along a trail finds what `List.find?` finds, given a node of fuel per node. -/
theorem scan_trail {step : Option α → Option α} (p : α → Bool) :
    ∀ {l : List α} {fuel : Nat}, (trail l).IsChain (fun x y => step x = y) → l.length ≤ fuel →
      scan step p fuel l.head? = l.find? p
  | [], 0, _, _ => rfl
  | [], _ + 1, _, _ => rfl
  | a :: l, fuel + 1, hc, hfuel => by
    rw [trail_cons, List.isChain_cons, head?_trail] at hc
    have hstep : step (some a) = l.head? := hc.1 _ rfl
    rw [List.head?_cons, scan, List.find?_cons, hstep]
    cases p a with
    | true => rfl
    | false =>
      exact scan_trail p hc.2 (Nat.le_of_succ_le_succ hfuel)

/-- `bget`-style lookup: from `head.next` along `next`, the first node that satisfies `p`. -/
theorem Forms.scan_next (h : L.Forms l) (p : α → Bool) {fuel : Nat} (hfuel : l.length ≤ fuel) :
    scan L.next p fuel (L.next none) = l.find? p := by
  rw [h.next_none]
  exact scan_trail p (h.trail_chain.imp fun _ _ hxy => hxy.1) hfuel

/-- From `head.prev` along `prev`: the last node that satisfies `p`. -/
theorem Forms.scan_prev (h : L.Forms l) (p : α → Bool) {fuel : Nat} (hfuel : l.length ≤ fuel) :
    scan L.prev p fuel (L.prev none) = l.reverse.find? p :=
  h.flip.scan_next p (by rw [List.length_reverse]; exact hfuel)

/-! ## Changing the list -/

variable [DecidableEq α]

/-- `x->next = y`. -/
def setNext (L : Links α) (x y : Option α) : Links α := { L with next := Function.update L.next x y }

/-- `x->prev = y`. -/
def setPrev (L : Links α) (x y : Option α) : Links α := { L with prev := Function.update L.prev x y }

/-- Link node `b` in right after the sentinel:
`b->next = head.next; b->prev = &head; head.next->prev = b; head.next = b`. -/
def pushFront (L : Links α) (b : α) : Links α :=
  let L := L.setNext (some b) (L.next none)
  let L := L.setPrev (some b) none
  let L := L.setPrev (L.next none) (some b)
  L.setNext none (some b)

/-- Unlink node `b`: `b->next->prev = b->prev; b->prev->next = b->next`. -/
def unlink (L : Links α) (b : α) : Links α :=
  let L := L.setPrev (L.next (some b)) (L.prev (some b))
  L.setNext (L.prev (some b)) (L.next (some b))

theorem pushFront_next (L : Links α) (b : α) (x : Option α) :
    (L.pushFront b).next x =
      if x = none then some b else if x = some b then L.next none else L.next x := by
  simp only [pushFront, setNext, setPrev, Function.update_apply]

theorem pushFront_prev (L : Links α) (b : α) (y : Option α) :
    (L.pushFront b).prev y =
      if y = L.next none then some b else if y = some b then none else L.prev y := by
  simp [pushFront, setNext, setPrev, Function.update_apply]

theorem unlink_next (L : Links α) {b : α} (hb : L.next (some b) ≠ some b) (x : Option α) :
    (L.unlink b).next x = if x = L.prev (some b) then L.next (some b) else L.next x := by
  simp only [unlink, setNext, setPrev, Function.update_apply, if_neg (Ne.symm hb)]

theorem unlink_prev (L : Links α) (b : α) (y : Option α) :
    (L.unlink b).prev y = if y = L.next (some b) then L.prev (some b) else L.prev y := by
  simp only [unlink, setNext, setPrev, Function.update_apply]

variable {b : α}

/-- Linking a new node in after the sentinel puts it first. -/
theorem Forms.pushFront (h : L.Forms l) (hb : b ∉ l) : (L.pushFront b).Forms (b :: l) := by
  have hnext := h.next_none
  have hhead : l.head? ≠ some b := fun e => hb (List.mem_of_mem_head? e)
  refine ⟨List.nodup_cons.mpr ⟨hb, h.nodup⟩, ?_⟩
  rw [trail_cons, List.isChain_cons_cons, List.isChain_cons, head?_trail]
  refine ⟨⟨by simp [pushFront_next], ?_⟩, fun y hy => ?_, ?_⟩
  · -- `head.next->prev = b` went to the old first node, not to `b`
    rw [pushFront_prev, hnext, if_neg (Ne.symm hhead), if_pos rfl]
  · obtain rfl := Option.some.inj hy
    refine ⟨by simp [pushFront_next, hnext], ?_⟩
    rw [pushFront_prev, hnext, if_pos rfl]
  · refine h.trail_chain.imp_of_mem_tail_imp fun x y hx hy hxy => ?_
    have hyb : y ≠ some b := fun e => hb (some_mem_trail.mp (e ▸ List.mem_of_mem_tail hy))
    have hyh : y ≠ l.head? := fun e => head?_not_mem_tail h.nodup (e ▸ hy)
    have hxb : x ≠ some b := fun e => hb (some_mem_trail.mp (e ▸ hx))
    -- from the sentinel `next` leads to the first node, which is not met again
    have hxn : x ≠ none := fun e => hyh (by rw [← hnext, ← hxy.1, e])
    refine ⟨?_, ?_⟩
    · rw [pushFront_next, if_neg hxn, if_neg hxb]
      exact hxy.1
    · rw [pushFront_prev, hnext, if_neg hyh, if_neg hyb]
      exact hxy.2

/-- Unlinking a node of the list leaves the others in order. -/
theorem Forms.unlink (h : L.Forms l) (hb : b ∈ l) : (L.unlink b).Forms (l.erase b) := by
  obtain ⟨l₁, l₂, rfl⟩ := List.append_of_mem hb
  have hnd := h.nodup
  have hb₁ : b ∉ l₁ := fun hm => (List.nodup_middle.mp hnd |> List.nodup_cons.mp).1
    (List.mem_append_left _ hm)
  have hb₂ : b ∉ l₂ := fun hm => (List.nodup_middle.mp hnd |> List.nodup_cons.mp).1
    (List.mem_append_right _ hm)
  have hnd' : (l₁ ++ l₂).Nodup := (List.nodup_middle.mp hnd |> List.nodup_cons.mp).2
  have hdisj : ∀ a ∈ l₁, a ∉ l₂ := fun a ha ha' =>
    List.disjoint_of_nodup_append hnd' ha ha'
  rw [List.erase_append_right _ hb₁, List.erase_cons_head]
  -- the cycle splits at `b` into the part up to its predecessor and the part from its successor
  have hsplit : none :: trail (l₁ ++ b :: l₂) = (none :: l₁.map some) ++ some b :: trail l₂ := by
    rw [trail_append]
    rfl
  have hc := h.chain
  rw [hsplit, List.isChain_split] at hc
  obtain ⟨hleft, hright⟩ := hc
  have hp : L.Step l₁.getLast? (some b) :=
    (List.isChain_append.mp hleft).2.2 _ (by rw [getLast?_none_cons]; rfl) _ rfl
  have hn : L.Step (some b) l₂.head? :=
    (List.isChain_cons.mp hright).1 _ (by rw [head?_trail]; rfl)
  have hnb : L.next (some b) ≠ some b := by
    rw [hn.1]
    exact fun e => hb₂ (List.mem_of_mem_head? e)
  refine ⟨hnd', ?_⟩
  rw [trail_append, ← List.cons_append, List.isChain_append]
  refine ⟨?_, ?_, ?_⟩
  · -- before `b`: nothing there pointed at `b`'s neighbours except its predecessor
    refine (List.isChain_append.mp hleft).1.imp_of_mem_tail_imp fun x y hx hy hxy => ?_
    have hyb : y ∈ l₁.map some := hy
    have hxp : x ≠ l₁.getLast? := fun e => by
      have : y = some b := by rw [← hxy.1, e, hp.1]
      rw [this, List.mem_map] at hyb
      obtain ⟨a, ha, hab⟩ := hyb
      exact hb₁ (Option.some.inj hab ▸ ha)
    have hyn : y ≠ l₂.head? := fun e => by
      rw [List.mem_map] at hyb
      obtain ⟨a, ha, rfl⟩ := hyb
      exact hdisj a ha (List.mem_of_mem_head? e.symm)
    refine ⟨?_, ?_⟩
    · rw [unlink_next L hnb, hp.2, if_neg hxp]
      exact hxy.1
    · rw [unlink_prev, hn.1, if_neg hyn]
      exact hxy.2
  · -- after `b`: the same, with the first node after `b` not met again
    refine (List.isChain_cons.mp hright).2.imp_of_mem_tail_imp fun x y hx hy hxy => ?_
    have hxp : x ≠ l₁.getLast? := fun e => by
      have : y = some b := by rw [← hxy.1, e, hp.1]
      exact hb₂ (some_mem_trail.mp (this ▸ List.mem_of_mem_tail hy))
    have hyn : y ≠ l₂.head? := fun e =>
      head?_not_mem_tail (List.nodup_append.mp hnd').2.1 (e ▸ hy)
    refine ⟨?_, ?_⟩
    · rw [unlink_next L hnb, hp.2, if_neg hxp]
      exact hxy.1
    · rw [unlink_prev, hn.1, if_neg hyn]
      exact hxy.2
  · -- the predecessor and the successor of `b` now point at each other
    intro x hx y hy
    rw [getLast?_none_cons] at hx
    rw [head?_trail] at hy
    obtain rfl := Option.some.inj hx
    obtain rfl := Option.some.inj hy
    refine ⟨?_, ?_⟩
    · rw [unlink_next L hnb, hp.2, if_pos rfl, hn.1]
    · rw [unlink_prev, hn.1, if_pos rfl, hp.2]

/-- Linking nodes in one after another, as `binit` does, lists them in reverse. -/
theorem Forms.foldl_pushFront (h : L.Forms l) {bs : List α} (hbs : bs.Nodup)
    (hdisj : ∀ b ∈ bs, b ∉ l) : (bs.foldl Links.pushFront L).Forms (bs.reverse ++ l) := by
  induction bs generalizing L l with
  | nil => exact h
  | cons b bs ih =>
    rw [List.foldl_cons, List.reverse_cons, List.append_assoc, List.singleton_append]
    have hb := hdisj b (List.mem_cons_self ..)
    refine ih (h.pushFront hb) (List.nodup_cons.mp hbs).2 fun x hx hmem => ?_
    rcases List.mem_cons.mp hmem with rfl | hmem
    · exact (List.nodup_cons.mp hbs).1 hx
    · exact hdisj x (List.mem_cons_of_mem _ hx) hmem

end Links

/-! ## Relations along the list -/

section Pairwise

variable {R S : α → α → Prop} {l l₁ l₂ : List α} {b : α}

/-- Of two distinct members of a list, one comes first. -/
theorem pairwise_rel_or_rel (h : l.Pairwise R) {x y : α} (hx : x ∈ l) (hy : y ∈ l)
    (hxy : x ≠ y) : R x y ∨ R y x := by
  obtain ⟨l₁, l₂, rfl⟩ := List.append_of_mem hx
  rw [List.pairwise_append, List.pairwise_cons] at h
  rcases List.mem_append.mp hy with hy | hy
  · exact Or.inr (h.2.2 y hy x (List.mem_cons_self ..))
  · rcases List.mem_cons.mp hy with rfl | hy
    · exact absurd rfl hxy
    · exact Or.inl (h.2.1.1 y hy)

/-- Along a list of distinct elements a relation is only ever asked between two different
ones. -/
theorem pairwise_imp_of_ne (h : l.Pairwise R) (hnd : l.Nodup)
    (himp : ∀ x ∈ l, ∀ y ∈ l, x ≠ y → R x y → S x y) : l.Pairwise S :=
  (hnd.and h).imp_of_mem fun hx hy hxy => himp _ hx _ hy hxy.1 hxy.2

/-- A relation along a list of distinct elements, changed only at `b`, still holds when it holds
between each element before `b` and `b`, and between `b` and each element after it. -/
theorem pairwise_frame (h : (l₁ ++ b :: l₂).Pairwise R) (hnd : (l₁ ++ b :: l₂).Nodup)
    (hframe : ∀ x y, x ≠ b → y ≠ b → R x y → S x y)
    (hbefore : ∀ x ∈ l₁, R x b → S x b) (hafter : ∀ y ∈ l₂, R b y → S b y) :
    (l₁ ++ b :: l₂).Pairwise S := by
  have hnd' := List.nodup_cons.mp (List.nodup_middle.mp hnd)
  have hne₁ : ∀ x ∈ l₁, x ≠ b := fun x hx e => hnd'.1 (List.mem_append_left _ (e ▸ hx))
  have hne₂ : ∀ y ∈ l₂, y ≠ b := fun y hy e => hnd'.1 (List.mem_append_right _ (e ▸ hy))
  rw [List.pairwise_append, List.pairwise_cons] at h ⊢
  obtain ⟨h₁, ⟨hb₂, h₂⟩, h₁₂⟩ := h
  refine ⟨h₁.imp_of_mem fun hx hy => hframe _ _ (hne₁ _ hx) (hne₁ _ hy),
    ⟨fun y hy => hafter y hy (hb₂ y hy),
      h₂.imp_of_mem fun hx hy => hframe _ _ (hne₂ _ hx) (hne₂ _ hy)⟩, fun x hx y hy => ?_⟩
  rcases List.mem_cons.mp hy with rfl | hy
  · exact hbefore x hx (h₁₂ x hx y (List.mem_cons_self ..))
  · exact hframe x y (hne₁ x hx) (hne₂ y hy) (h₁₂ x hx y (List.mem_cons_of_mem _ hy))

variable [DecidableEq α]

/-- Moving `b` to the front of a list of distinct elements, with the relation changed only at
`b`: it must hold between `b` and every other element. -/
theorem pairwise_moveFront (h : l.Pairwise R) (hnd : l.Nodup)
    (hframe : ∀ x y, x ≠ b → y ≠ b → R x y → S x y) (hfront : ∀ y ∈ l, y ≠ b → S b y) :
    (b :: l.erase b).Pairwise S := by
  refine List.pairwise_cons.mpr ⟨fun y hy => ?_, ?_⟩
  · obtain ⟨hyb, hy⟩ := (List.Nodup.mem_erase_iff hnd).mp hy
    exact hfront y hy hyb
  · refine (h.sublist List.erase_sublist).imp_of_mem fun hx hy => ?_
    exact hframe _ _ ((List.Nodup.mem_erase_iff hnd).mp hx).1 ((List.Nodup.mem_erase_iff hnd).mp hy).1

end Pairwise

end Xv6.Lib
