import Mathlib.Data.List.Nodup
import Ns2XPass.Library.LinkedList

/-! # Circular doubly linked lists

The links of a ring lead from each node to the next one and from the last back
to the first. A ring has no end, so turning it changes nothing, and what is done
to the links in one direction is done in the same way to the others.
-/

namespace Ns2XPass

variable {α : Type*} {next : α → Option α} {as bs : List α} {a b : α}

/-- The links lead from the first node through all others back to it. -/
def Loops (next : α → Option α) (as : List α) : Prop := Segment next as.head? as as.head?

@[simp] theorem loops_nil : Loops next [] := rfl

theorem loops_concat : Loops next (as ++ [a]) ↔
    Segment next (as ++ [a]).head? as (some a) ∧ next a = (as ++ [a]).head? := segment_concat

theorem Loops.turn (h : Loops next (a :: as)) : Loops next (as ++ [a]) := by
  cases as with
  | nil => exact h
  | cons b bs =>
    obtain ⟨-, hb, h⟩ := h
    exact loops_concat.mpr ⟨⟨rfl, h⟩, hb⟩

theorem Loops.rotate (h : Loops next (as ++ bs)) : Loops next (bs ++ as) := by
  induction as generalizing bs with
  | nil => simpa using h
  | cons a as ih =>
    have ht : Loops next (as ++ (bs ++ [a])) := by
      rw [← List.append_assoc]
      exact h.turn
    have := ih ht
    rwa [List.append_assoc] at this

section Update

variable [DecidableEq α]

/-- A node is put at the end of the ring, behind the last node `b`. -/
theorem Loops.insert (h : Loops next (as ++ [b])) (ha : a ∉ as ++ [b]) (hb : b ∉ as) :
    Loops (Function.update (Function.update next a (as ++ [b]).head?) b (some a))
      (as ++ [b] ++ [a]) := by
  have hab : a ≠ b := by
    rintro rfl
    simp at ha
  have hhead : (as ++ [b] ++ [a]).head? = (as ++ [b]).head? := by cases as <;> rfl
  rw [loops_concat, hhead, Function.update_of_ne hab, Function.update_self]
  refine ⟨segment_concat.mpr ⟨?_, Function.update_self ..⟩, rfl⟩
  have has : a ∉ as := fun hm => ha (List.mem_append_left _ hm)
  exact ((loops_concat.mp h).1.update has).update hb

/-- The first node is taken out of a ring whose last node is `b`. -/
theorem Loops.remove (h : Loops next (a :: (as ++ [b]))) (hb : b ∉ as) :
    Loops (Function.update next b (next a)) (as ++ [b]) := by
  obtain ⟨-, h⟩ := h
  obtain ⟨hs, -⟩ := segment_concat.mp h
  have hhead : next a = (as ++ [b]).head? := by
    cases as with
    | nil => exact hs
    | cons c cs => exact hs.1
  rw [loops_concat, Function.update_self, ← hhead]
  exact ⟨hs.update hb, rfl⟩

end Update

/-! ## Both directions -/

structure RingLinks (α : Type*) where
  next : α → Option α
  prev : α → Option α

namespace RingLinks

variable {ls : RingLinks α}

/-- The ring seen the other way round. -/
def flip (ls : RingLinks α) : RingLinks α := ⟨ls.prev, ls.next⟩

structure Spells (ls : RingLinks α) (as : List α) : Prop where
  nodup : as.Nodup
  forward : Loops ls.next as
  backward : Loops ls.prev as.reverse

theorem Spells.turn (h : ls.Spells (a :: as)) : ls.Spells (as ++ [a]) where
  nodup := by
    obtain ⟨ha, hd⟩ := List.nodup_cons.mp h.nodup
    rw [← List.concat_eq_append]
    exact hd.concat ha
  forward := h.forward.turn
  backward := by
    have hb := h.backward
    rw [List.reverse_cons] at hb
    rw [List.reverse_concat]
    exact hb.rotate

theorem Spells.rotate (h : ls.Spells (as ++ bs)) : ls.Spells (bs ++ as) where
  nodup := List.nodup_append_comm.mp h.nodup
  forward := h.forward.rotate
  backward := by
    have hb := h.backward
    rw [List.reverse_append] at hb ⊢
    exact hb.rotate

theorem Spells.next_eq (h : ls.Spells (a :: as)) : ls.next a = (as ++ [a]).head? :=
  (loops_concat.mp h.turn.forward).2

theorem Spells.prev_eq (h : ls.Spells (a :: as)) : ls.prev a = (a :: as).getLast? := by
  have hb := h.backward
  rw [List.reverse_cons, loops_concat] at hb
  rw [hb.2, ← List.reverse_cons, List.head?_reverse]

theorem spells_nil : ls.Spells [] := ⟨List.nodup_nil, rfl, rfl⟩

/-- A ring depends only on the links of its own nodes. -/
theorem Spells.congr {ls' : RingLinks α} (h : ls.Spells as)
    (hn : ∀ a ∈ as, ls'.next a = ls.next a) (hp : ∀ a ∈ as, ls'.prev a = ls.prev a) :
    ls'.Spells as :=
  ⟨h.nodup, h.forward.congr hn, h.backward.congr fun a ha => hp a (List.mem_reverse.mp ha)⟩

/-- Two neighbours in a ring. -/
theorem Spells.neighbours (h : ls.Spells (as ++ a :: b :: bs)) :
    ls.next a = some b ∧ ls.prev b = some a := by
  have hassoc : as ++ a :: b :: bs = (as ++ [a]) ++ b :: bs := by simp
  constructor
  · have hr : ls.Spells (a :: b :: bs ++ as) := h.rotate
    rw [hr.next_eq]
    rfl
  · rw [hassoc] at h
    have hr : ls.Spells (b :: (bs ++ (as ++ [a]))) := h.rotate
    rw [hr.prev_eq, ← List.append_assoc, ← List.cons_append, List.getLast?_concat]

/-- The last node of a ring leads to the first one. -/
theorem Spells.next_last (h : ls.Spells (as ++ [a])) : ls.next a = (as ++ [a]).head? := by
  have hr : ls.Spells (a :: as) := h.rotate
  exact hr.next_eq

/-- The neighbours of a node, which may be the node itself, lead back to it. -/
theorem Spells.around (h : ls.Spells (a :: as)) :
    ∃ t c, ls.prev a = some t ∧ ls.next a = some c ∧ ls.next t = some a ∧ ls.prev c = some a ∧
      (a :: as).getLast? = some t ∧ (as ++ [a]).head? = some c := by
  obtain ⟨ts, t, ht⟩ := (List.eq_nil_or_concat' (a :: as)).resolve_left (List.cons_ne_nil a as)
  obtain ⟨c, cs, hc⟩ := List.exists_cons_of_ne_nil (by simp : as ++ [a] ≠ [])
  have hlast : (a :: as).getLast? = some t := by rw [ht, List.getLast?_concat]
  have hnext : ls.next t = some a := by
    have hs := h
    rw [ht] at hs
    rw [hs.next_last, ← ht]
    rfl
  have hprev : ls.prev c = some a := by
    have hs : ls.Spells (c :: cs) := by
      rw [← hc]
      exact h.turn
    rw [hs.prev_eq, ← hc, List.getLast?_concat]
  refine ⟨t, c, h.prev_eq.trans hlast, h.next_eq.trans ?_, hnext, hprev, hlast, ?_⟩ <;>
  · rw [hc]
    rfl

section Update

variable [DecidableEq α]

/-- A ring of one node. -/
def single (ls : RingLinks α) (a : α) : RingLinks α where
  next := Function.update ls.next a (some a)
  prev := Function.update ls.prev a (some a)

/-- Link the node `a` in between the node `t` and the node `h`. -/
def insert (ls : RingLinks α) (t a h : α) : RingLinks α where
  next := Function.update (Function.update ls.next a (some h)) t (some a)
  prev := Function.update (Function.update ls.prev a (some t)) h (some a)

/-- Link the node `t` before the node `a` and the node `h` after it to each other. -/
def unlink (ls : RingLinks α) (t a h : α) : RingLinks α where
  next := Function.update ls.next t (ls.next a)
  prev := Function.update ls.prev h (ls.prev a)

theorem spells_single : (ls.single a).Spells [a] := by
  refine ⟨List.nodup_singleton a, ?_, ?_⟩ <;> exact ⟨rfl, Function.update_self ..⟩

/-- A node is put at the end of a ring by linking it in before the first node. -/
theorem Spells.insert (h : ls.Spells (b :: as)) (ha : a ∉ b :: as) :
    ∃ t, ls.prev b = some t ∧ (ls.insert t a b).Spells (b :: as ++ [a]) := by
  obtain ⟨bs, t, hbs⟩ := List.eq_nil_or_concat (b :: as) |>.resolve_left (List.cons_ne_nil b as)
  rw [List.concat_eq_append] at hbs
  have ht : ls.prev b = some t := by rw [h.prev_eq, hbs, List.getLast?_concat]
  refine ⟨t, ht, ?_, ?_, ?_⟩
  · rw [← List.concat_eq_append]
    exact h.nodup.concat ha
  · have hf := h.forward
    have hd := h.nodup
    rw [hbs] at hf hd ha ⊢
    have := hf.insert ha ((List.nodup_concat bs t).mp (by rwa [List.concat_eq_append])).1
    rwa [← hbs] at this ⊢
  · have hb := h.backward
    have hr : (as.reverse ++ [b]).head? = some t := by
      rw [← List.reverse_cons, List.head?_reverse, hbs, List.getLast?_concat]
    rw [List.reverse_cons] at hb
    have := hb.insert (a := a) (by simpa [and_comm] using ha)
      (by simpa using (List.nodup_cons.mp h.nodup).1)
    rw [hr] at this
    simpa [RingLinks.insert] using this.rotate

/-- A node is put between two nodes of a ring, which are its last and its first one if one of the
lists is empty. -/
theorem Spells.insert_between (h : ls.Spells (as ++ bs)) (hne : as ++ bs ≠ []) (ha : a ∉ as ++ bs) :
    ∃ t b, (bs ++ as).getLast? = some t ∧ (bs ++ as).head? = some b ∧ ls.prev b = some t ∧
      ls.next t = some b ∧ (ls.insert t a b).Spells (as ++ a :: bs) := by
  have hr : ls.Spells (bs ++ as) := h.rotate
  have hne' : bs ++ as ≠ [] := by simpa [and_comm] using hne
  obtain ⟨b, cs, hb⟩ := List.exists_cons_of_ne_nil hne'
  obtain ⟨ts, t, ht⟩ := List.eq_nil_or_concat (bs ++ as) |>.resolve_left hne'
  rw [List.concat_eq_append] at ht
  have hnext : ls.next t = some b := by
    rw [ht] at hr
    rw [hr.next_last, ← ht, hb]
    rfl
  have hab : a ∉ b :: cs := by
    rw [← hb]
    simpa [and_comm] using ha
  obtain ⟨t', ht', hs⟩ := Spells.insert (hb ▸ hr) hab
  have hlast : (bs ++ as).getLast? = some t' := by
    rw [← ht', hb]
    exact (Spells.prev_eq (hb ▸ hr)).symm
  obtain rfl : t' = t := by
    rw [ht, List.getLast?_concat] at hlast
    exact (Option.some.inj hlast).symm
  refine ⟨t', b, hlast, by rw [hb]; rfl, ht', hnext, ?_⟩
  rw [← hb, List.append_assoc] at hs
  have hrot := hs.rotate
  rwa [List.append_assoc] at hrot

/-- The links of a node are taken away. -/
def clear (ls : RingLinks α) (a : α) : RingLinks α where
  next := Function.update ls.next a none
  prev := Function.update ls.prev a none

theorem Spells.clear (h : ls.Spells as) (ha : a ∉ as) : (ls.clear a).Spells as :=
  h.congr (fun _ hb => Function.update_of_ne (ne_of_mem_of_not_mem hb ha) _ _)
    fun _ hb => Function.update_of_ne (ne_of_mem_of_not_mem hb ha) _ _

/-- Links of other nodes stay when a node is linked in between two others. -/
theorem insert_of_ne {t c : α} (ha : b ≠ a) (ht : b ≠ t) (hc : b ≠ c) :
    (ls.insert t a c).next b = ls.next b ∧ (ls.insert t a c).prev b = ls.prev b := by
  unfold RingLinks.insert
  dsimp only
  rw [Function.update_of_ne ht, Function.update_of_ne ha, Function.update_of_ne hc,
    Function.update_of_ne ha]
  exact ⟨rfl, rfl⟩

theorem unlink_of_ne {t c : α} (ht : b ≠ t) (hc : b ≠ c) :
    (ls.unlink t a c).next b = ls.next b ∧ (ls.unlink t a c).prev b = ls.prev b :=
  ⟨Function.update_of_ne ht _ _, Function.update_of_ne hc _ _⟩

/-- A node is taken out by linking its neighbours to each other. -/
theorem Spells.unlink (h : ls.Spells (as ++ a :: bs)) (hne : as ++ bs ≠ []) :
    ∃ t c, ls.next a = some c ∧ ls.prev a = some t ∧ (ls.unlink t a c).Spells (as ++ bs) := by
  -- The ring is turned until the node is its first one.
  have hr : ls.Spells (a :: (bs ++ as)) := by
    rw [← List.cons_append]
    exact h.rotate
  have hne : bs ++ as ≠ [] := by simpa [and_comm] using hne
  obtain ⟨c, cs, hc⟩ := List.exists_cons_of_ne_nil hne
  obtain ⟨ts, t, ht⟩ := List.eq_nil_or_concat (bs ++ as) |>.resolve_left hne
  rw [List.concat_eq_append] at ht
  have hd := (List.nodup_cons.mp hr.nodup).2
  refine ⟨t, c, by rw [hr.next_eq, hc]; rfl, ?_, Spells.rotate ⟨hd, ?_, ?_⟩⟩
  · rw [hr.prev_eq, ht, List.getLast?_cons, List.getLast?_concat, Option.getD_some]
  · have hf := hr.forward
    rw [ht] at hf hd ⊢
    exact hf.remove ((List.nodup_concat ts t).mp (by rwa [List.concat_eq_append])).1
  · have hb : Loops ls.prev (a :: (bs ++ as).reverse) := by
      have := hr.backward
      rw [List.reverse_cons] at this
      exact this.rotate
    rw [hc, List.reverse_cons] at hb ⊢
    rw [hc] at hd
    exact hb.remove (by simpa using (List.nodup_cons.mp hd).1)

end Update

end RingLinks

end Ns2XPass
