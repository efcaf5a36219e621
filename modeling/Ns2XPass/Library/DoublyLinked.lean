import Mathlib.Data.List.Nodup
import Ns2XPass.Library.LinkedList

/-! # Doubly linked lists

Every node holds a link to the next node and one to the previous node, and the
list keeps its two ends. What is done to one direction is done in the same way
to the other, which is the list seen from its tail.
-/

namespace Ns2XPass

variable {α : Type*} {next : α → Option α} {start finish m l : Option α} {a : α}
  {as pre post : List α}

structure Links (α : Type*) where
  next : α → Option α
  prev : α → Option α
  head : Option α
  tail : Option α

section Relink

variable [DecidableEq α]

/-- The links when the one after the node `p` leads to `l`. Before the first node there is no
link to change. -/
def relink (next : α → Option α) (p l : Option α) : α → Option α :=
  match p with
  | none => next
  | some b => Function.update next b l

/-- The start of the list when what comes after the node `p` is `l`. -/
def restart (start p l : Option α) : Option α :=
  match p with
  | none => l
  | some _ => start

/-- Two segments are joined by the link of the last node of the first one. -/
theorem Segment.join (hpre : Segment next start pre m) (hpost : Segment next l post finish)
    (hd : (pre ++ post).Nodup) :
    Segment (relink next pre.getLast? l) (restart start pre.getLast? l) (pre ++ post) finish := by
  rcases List.eq_nil_or_concat pre with rfl | ⟨pre, b, rfl⟩
  · exact hpost
  · rw [List.concat_eq_append] at hpre hd ⊢
    obtain ⟨hpd, -, hne⟩ := List.nodup_append.mp hd
    have hb : b ∉ pre := ((List.nodup_concat pre b).mp (by rwa [List.concat_eq_append])).1
    have hbp : b ∉ post := fun hm => hne b (by simp) b hm rfl
    rw [List.getLast?_concat]
    exact segment_append.mpr ⟨l, hpre.link hb, hpost.update hbp⟩

/-- A segment without the node `p` does not notice where the link after `p` leads. -/
theorem Segment.relink_of_notMem {p : Option α} (h : Segment next start as finish)
    (hp : ∀ b ∈ p, b ∉ as) : Segment (relink next p l) start as finish := by
  cases p with
  | none => exact h
  | some b => exact h.update (hp b rfl)

end Relink

namespace Links

variable {ls : Links α}

/-- The list seen from its tail. -/
def flip (ls : Links α) : Links α := ⟨ls.prev, ls.next, ls.tail, ls.head⟩

/-- The links lead through the nodes of the list in both directions. -/
structure Spells (ls : Links α) (as : List α) : Prop where
  forward : Segment ls.next ls.head as none
  backward : Segment ls.prev ls.tail as.reverse none

namespace Spells

theorem flip (h : ls.Spells as) : ls.flip.Spells as.reverse :=
  ⟨h.backward, by rw [List.reverse_reverse]; exact h.forward⟩

theorem head_eq (h : ls.Spells as) : ls.head = as.head? := h.forward.start_eq_head?

theorem tail_eq (h : ls.Spells as) : ls.tail = as.getLast? := by
  rw [← List.head?_reverse]
  exact h.flip.head_eq

theorem next_eq (h : ls.Spells (pre ++ a :: post)) : ls.next a = post.head? := by
  obtain ⟨-, -, -, hpost⟩ := segment_append.mp h.forward
  exact hpost.start_eq_head?

theorem flip_append_cons (h : ls.Spells (pre ++ a :: post)) :
    ls.flip.Spells (post.reverse ++ a :: pre.reverse) := by
  have hf := h.flip
  rwa [List.reverse_append, List.reverse_cons, List.append_assoc, List.singleton_append] at hf

theorem prev_eq (h : ls.Spells (pre ++ a :: post)) : ls.prev a = pre.getLast? := by
  rw [← List.head?_reverse]
  exact h.flip_append_cons.next_eq

end Spells

section Update

variable [DecidableEq α]

/-- Take out a node by linking its neighbours. -/
def remove (ls : Links α) (p : α) : Links α where
  next := relink ls.next (ls.prev p) (ls.next p)
  prev := relink ls.prev (ls.next p) (ls.prev p)
  head := restart ls.head (ls.prev p) (ls.next p)
  tail := restart ls.tail (ls.next p) (ls.prev p)

/-- Put a node between two neighbours. -/
def insert (ls : Links α) (p : Option α) (n : α) (q : Option α) : Links α where
  next := relink (Function.update ls.next n q) p (some n)
  prev := relink (Function.update ls.prev n p) q (some n)
  head := restart ls.head p (some n)
  tail := restart ls.tail q (some n)

theorem Spells.remove_forward (h : ls.Spells (pre ++ a :: post))
    (hd : (pre ++ a :: post).Nodup) :
    Segment (ls.remove a).next (ls.remove a).head (pre ++ post) none := by
  obtain ⟨m, hpre, -, hpost⟩ := segment_append.mp h.forward
  rw [Links.remove, h.prev_eq]
  exact hpre.join hpost (hd.sublist ((List.sublist_cons_self a post).append_left pre))

theorem Spells.remove (h : ls.Spells (pre ++ a :: post)) (hd : (pre ++ a :: post).Nodup) :
    (ls.remove a).Spells (pre ++ post) := by
  refine ⟨h.remove_forward hd, ?_⟩
  have hdr := List.nodup_reverse.mpr hd
  rw [List.reverse_append, List.reverse_cons, List.append_assoc, List.singleton_append] at hdr
  rw [List.reverse_append]
  exact h.flip_append_cons.remove_forward hdr

/-- A node is taken out wherever it is. -/
theorem Spells.remove_filter (h : ls.Spells as) (hd : as.Nodup) (ha : a ∈ as) :
    (ls.remove a).Spells (as.filter fun b => b ≠ a) := by
  obtain ⟨pre, post, rfl⟩ := List.append_of_mem ha
  have hn := (List.nodup_cons.mp (List.nodup_middle.mp hd)).1
  have hfilter : (pre ++ a :: post).filter (fun b => b ≠ a) = pre ++ post := by
    rw [List.filter_append, List.filter_cons_of_neg (by simp), ← List.filter_append]
    exact List.filter_eq_self.mpr fun b hb => by simpa using ne_of_mem_of_not_mem hb hn
  rw [hfilter]
  exact h.remove hd

theorem Spells.insert_forward (h : ls.Spells (pre ++ post)) (hd : (pre ++ a :: post).Nodup) :
    Segment (ls.insert pre.getLast? a post.head?).next
      (ls.insert pre.getLast? a post.head?).head (pre ++ a :: post) none := by
  obtain ⟨m, hpre, hpost⟩ := segment_append.mp h.forward
  obtain rfl := hpost.start_eq_head?
  obtain ⟨hap, hnd⟩ := List.nodup_cons.mp (List.nodup_middle.mp hd)
  have hpre' := hpre.update (l := post.head?) fun hm => hap (List.mem_append_left post hm)
  have hpost' := hpost.update (l := post.head?) fun hm => hap (List.mem_append_right pre hm)
  exact hpre'.join ⟨rfl, by rwa [Function.update_self]⟩ hd

theorem Spells.insert (h : ls.Spells (pre ++ post)) (hd : (pre ++ a :: post).Nodup) :
    (ls.insert pre.getLast? a post.head?).Spells (pre ++ a :: post) := by
  refine ⟨h.insert_forward hd, ?_⟩
  have hf := h.flip
  have hdr := List.nodup_reverse.mpr hd
  rw [List.reverse_append] at hf
  rw [List.reverse_append, List.reverse_cons, List.append_assoc, List.singleton_append] at hdr ⊢
  have hs := hf.insert_forward hdr
  rwa [List.getLast?_reverse, List.head?_reverse] at hs

end Update

end Links

section Seek

/-- Follow the links while the nodes are to be skipped, for at most `n` of them. -/
def seek (next : α → Option α) (skip : α → Prop) [DecidablePred skip] :
    ℕ → Option α → Option (Option α)
  | _, none => some none
  | 0, some _ => none
  | n + 1, some a => if skip a then seek next skip n (next a) else some (some a)

/-- A walk passes the nodes that are skipped and stops at the first that is not. -/
theorem Segment.seek_eq {skip : α → Prop} [DecidablePred skip] {n : ℕ}
    (h : Segment next start (pre ++ post) none) (hpre : ∀ a ∈ pre, skip a)
    (hpost : ∀ a ∈ post.head?, ¬ skip a) (hn : pre.length < n) :
    seek next skip n start = some post.head? := by
  induction pre generalizing start n with
  | nil =>
    obtain ⟨n, rfl⟩ : ∃ k, n = k + 1 := ⟨n - 1, by omega⟩
    cases post with
    | nil =>
      obtain rfl := h
      rfl
    | cons b post =>
      obtain ⟨rfl, -⟩ := h
      rw [seek, if_neg (hpost b rfl)]
      rfl
  | cons a pre ih =>
    obtain ⟨n, rfl⟩ : ∃ k, n = k + 1 := ⟨n - 1, by omega⟩
    obtain ⟨rfl, h⟩ := h
    rw [seek, if_pos (hpre a List.mem_cons_self)]
    exact ih h (fun b hb => hpre b (List.mem_cons_of_mem a hb))
      (by rw [List.length_cons] at hn; omega)

/-- A walk stops at a node of the segment that is not skipped. -/
theorem Segment.of_seek {skip : α → Prop} [DecidablePred skip] {n : ℕ} {a : α}
    (h : Segment next start as none) (hs : seek next skip n start = some (some a)) :
    a ∈ as ∧ ¬ skip a := by
  induction as generalizing start n with
  | nil =>
    obtain rfl := h
    cases n <;> simp [seek] at hs
  | cons b as ih =>
    obtain ⟨rfl, h⟩ := h
    cases n with
    | zero => simp [seek] at hs
    | succ n =>
      rw [seek] at hs
      split_ifs at hs with hb
      · obtain ⟨ha, hn⟩ := ih h hs
        exact ⟨List.mem_cons_of_mem b ha, hn⟩
      · obtain rfl : b = a := by simpa using hs
        exact ⟨List.mem_cons_self, hb⟩

end Seek

end Ns2XPass
