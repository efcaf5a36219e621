import Mathlib.Data.List.Perm.Subperm
import Mathlib.Data.List.Count
import Ns2XPass.Reassembly.Basic

/-! # The links of the reassembly queue

Every block that has been allocated is on the FIFO, on the free list, or in the
hands of the operation that is under way. The LIFO threads the blocks of the
FIFO in another order.
-/

namespace Ns2XPass

variable {brk : ℕ} {as bs pre post out out' free : List ℕ} {a b n : ℕ}

/-- Different blocks, all of which have been allocated. -/
structure Allocated (brk : ℕ) (as : List ℕ) : Prop where
  nodup : as.Nodup
  lt : ∀ a ∈ as, a < brk

namespace Allocated

theorem perm (h : Allocated brk as) (hp : as.Perm bs) : Allocated brk bs :=
  ⟨hp.nodup_iff.mp h.nodup, fun a ha => h.lt a (hp.mem_iff.mpr ha)⟩

theorem length_le (h : Allocated brk as) : as.length ≤ brk := by
  have hsub : as.Subperm (List.range brk) :=
    h.nodup.subperm fun a ha => List.mem_range.mpr (h.lt a ha)
  simpa using hsub.length_le

end Allocated

/-- The FIFO spells `as` and the free list `free`, and the blocks `out` are on neither. -/
structure FifoLinked (ls : Links ℕ) (freelist : Option ℕ) (brk : ℕ) (as out free : List ℕ) :
    Prop where
  spells : ls.Spells as
  unused : Segment ls.next freelist free none
  allocated : Allocated brk (out ++ as ++ free)

namespace FifoLinked

variable {ls : Links ℕ} {freelist : Option ℕ}

theorem nodup (h : FifoLinked ls freelist brk as out free) : as.Nodup :=
  (List.nodup_append.mp (List.nodup_append.mp h.allocated.nodup).1).2.1

theorem length_le (h : FifoLinked ls freelist brk as out free) : as.length ≤ brk := by
  have hl := h.allocated.length_le
  rw [List.length_append, List.length_append] at hl
  omega

theorem notMem_free (h : FifoLinked ls freelist brk as out free) (ha : a ∈ out ++ as) : a ∉ free :=
  fun hm => (List.nodup_append.mp h.allocated.nodup).2.2 a ha a hm rfl

theorem notMem_of_out (h : FifoLinked ls freelist brk as out free) (ha : a ∈ out) : a ∉ as :=
  fun hm => (List.nodup_append.mp (List.nodup_append.mp h.allocated.nodup).1).2.2 a ha a hm rfl

theorem remove (h : FifoLinked ls freelist brk (pre ++ a :: post) out free) :
    FifoLinked (ls.remove a) freelist brk (pre ++ post) (a :: out) free where
  spells := h.spells.remove h.nodup
  unused := by
    refine h.unused.relink_of_notMem fun b hb => h.notMem_free ?_
    rw [h.spells.prev_eq] at hb
    simp [List.mem_of_getLast? hb]
  allocated := h.allocated.perm <| List.perm_iff_count.mpr fun x => by
    simp [List.count_cons]; omega

theorem insert (h : FifoLinked ls freelist brk (pre ++ post) (n :: out) free) :
    FifoLinked (ls.insert pre.getLast? n post.head?) freelist brk (pre ++ n :: post) out free := by
  have halloc : Allocated brk (out ++ (pre ++ n :: post) ++ free) :=
    h.allocated.perm <| List.perm_iff_count.mpr fun x => by simp [List.count_cons]; omega
  have hnd := (List.nodup_append.mp (List.nodup_append.mp halloc.nodup).1).2.1
  refine ⟨h.spells.insert hnd, ?_, halloc⟩
  refine (h.unused.update (h.notMem_free (by simp))).relink_of_notMem fun b hb => h.notMem_free ?_
  simp [List.mem_of_getLast? hb]

/-- A block is put in front of the free list. -/
theorem delete (out out' : List ℕ) (h : FifoLinked ls freelist brk as (out ++ a :: out') free) :
    FifoLinked { ls with next := Function.update ls.next a freelist } (some a) brk as (out ++ out')
      (a :: free) where
  spells := ⟨h.spells.forward.update (h.notMem_of_out (by simp)), h.spells.backward⟩
  unused := ⟨rfl, by
    simp only [Function.update_self]
    exact h.unused.update (h.notMem_free (by simp))⟩
  allocated := h.allocated.perm <| List.perm_iff_count.mpr fun x => by
    simp [List.count_cons]; omega

end FifoLinked

/-- The links spell the blocks in some order. -/
def Stacked (ls : Links ℕ) (as : List ℕ) : Prop := ∃ stack, ls.Spells stack ∧ stack.Perm as

namespace Stacked

variable {ls : Links ℕ}

theorem remove (h : Stacked ls (pre ++ a :: post)) (hd : (pre ++ a :: post).Nodup) :
    Stacked (ls.remove a) (pre ++ post) := by
  obtain ⟨stack, hs, hp⟩ := h
  obtain ⟨xs, ys, rfl⟩ := List.append_of_mem (hp.mem_iff.mpr (by simp : a ∈ pre ++ a :: post))
  refine ⟨xs ++ ys, hs.remove (hp.nodup_iff.mpr hd), ?_⟩
  exact ((List.perm_middle.symm.trans hp).trans List.perm_middle).cons_inv

theorem push (h : Stacked ls (pre ++ post)) (hd : (pre ++ n :: post).Nodup) :
    Stacked (ls.insert none n ls.head) (pre ++ n :: post) := by
  obtain ⟨stack, hs, hp⟩ := h
  have hp' : (n :: stack).Perm (pre ++ n :: post) := (hp.cons n).trans List.perm_middle.symm
  refine ⟨n :: stack, ?_, hp'⟩
  have hs' : ls.Spells ([] ++ stack) := hs
  rw [hs.head_eq]
  exact hs'.insert (hp'.nodup_iff.mpr hd)

end Stacked

namespace ReassemblyQueue

variable {rq : ReassemblyQueue}

/-- The blocks `as` are on the FIFO, and the LIFO threads the same. -/
structure Threaded (rq : ReassemblyQueue) (as : List ℕ) : Prop where
  linked : ∃ free, FifoLinked rq.fifo rq.freelist rq.brk as [] free
  stacked : Stacked rq.lifo as

namespace Threaded

variable (h : rq.Threaded as)
include h

theorem spells : rq.fifo.Spells as :=
  let ⟨_, hl⟩ := h.linked
  hl.spells

theorem nodup : as.Nodup :=
  let ⟨_, hl⟩ := h.linked
  hl.nodup

theorem length_le : as.length ≤ rq.brk :=
  let ⟨_, hl⟩ := h.linked
  hl.length_le

end Threaded

/-- A block leaves the lists for the free list. -/
theorem Threaded.remove (h : rq.Threaded (pre ++ a :: post)) :
    (((rq.fremove a).sremove a).deleteseginfo a).Threaded (pre ++ post) := by
  obtain ⟨free, hl⟩ := h.linked
  exact ⟨⟨a :: free, hl.remove.delete [] []⟩, h.stacked.remove h.nodup⟩

/-- Two neighbours leave the lists before either is deleted. -/
theorem Threaded.remove_two (h : rq.Threaded (pre ++ a :: b :: post)) :
    ((((((rq.sremove a).fremove a).sremove b).fremove b).deleteseginfo a).deleteseginfo
      b).Threaded (pre ++ post) := by
  obtain ⟨free, hl⟩ := h.linked
  have hr : FifoLinked ((rq.fifo.remove a).remove b) rq.freelist rq.brk (pre ++ post) [b, a] free :=
    hl.remove.remove
  have hd : (pre ++ b :: post).Nodup :=
    h.nodup.sublist ((List.sublist_cons_self a (b :: post)).append_left pre)
  refine ⟨⟨b :: a :: free, ?_⟩, (h.stacked.remove h.nodup).remove hd⟩
  exact (hr.delete [b] []).delete [] []

/-- An allocated block is on none of the lists. -/
theorem newseginfo_eq {free : List ℕ} (h : FifoLinked rq.fifo rq.freelist rq.brk as [] free) :
    ∃ n freelist brk free', rq.newseginfo = (n, { rq with freelist, brk }) ∧
      FifoLinked rq.fifo freelist brk as [n] free' := by
  unfold newseginfo
  have hfree := h.unused
  cases free with
  | nil =>
    have hnone : rq.freelist = none := hfree
    have hlt := h.allocated.lt
    rw [hnone]
    refine ⟨_, none, rq.brk + 1, [], rfl, h.spells, rfl, ?_, ?_⟩
    · exact List.nodup_cons.mpr ⟨fun hm => lt_irrefl _ (hlt _ hm), h.allocated.nodup⟩
    · exact List.forall_mem_cons.mpr
        ⟨Nat.lt_succ_self _, fun b hb => (hlt b hb).trans (Nat.lt_succ_self _)⟩
  | cons s free =>
    obtain ⟨hs, hfree⟩ := hfree
    rw [hs]
    refine ⟨s, _, rq.brk, free, rfl, h.spells, hfree, ?_⟩
    exact h.allocated.perm List.perm_middle

end ReassemblyQueue

end Ns2XPass
