import Mathlib.Algebra.BigOperators.Group.List.Basic
import Mathlib.Algebra.Ring.Int.Defs
import Mathlib.Data.List.Nodup
import Ns2XPass.Library.LinkedList
import Ns2XPass.Queue.PacketQueue

/-! # Packet queues in memory

The packets of a `PacketQueue` are linked through their own `next_` fields. The
queue keeps the first and the last of them and two counters, and `remove` walks
along the links to find its target.
-/

namespace Ns2XPass

/-- What the memory of a packet holds: the link to its successor and its headers. -/
structure PacketCell (α : Type*) where
  next : Option α
  header : Packet

abbrev PacketMemory (α : Type*) := α → PacketCell α

structure LinkedQueue (α : Type*) where
  head : Option α := none
  tail : Option α := none
  len : ℤ := 0
  bytes : ℤ := 0

namespace PacketMemory

variable {α : Type*} [DecidableEq α] (m : PacketMemory α)

def next (m : PacketMemory α) (p : α) : Option α := (m p).next

def header (m : PacketMemory α) (p : α) : Packet := (m p).header

def size (m : PacketMemory α) (p : α) : ℤ := (m.header p).size

def setNext (p : α) (l : Option α) : PacketMemory α :=
  Function.update m p { m p with next := l }

variable {m} {p : α} {l : Option α}

@[simp] theorem next_setNext : (m.setNext p l).next = Function.update m.next p l := by
  ext1 q
  by_cases h : q = p
  · subst h; simp [next, setNext]
  · simp [next, setNext, Function.update_of_ne h]

@[simp] theorem header_setNext : (m.setNext p l).header = m.header := by
  ext1 q
  by_cases h : q = p
  · subst h; simp [header, setNext]
  · simp [header, setNext, Function.update_of_ne h]

@[simp] theorem size_setNext : (m.setNext p l).size = m.size := by
  ext1 q
  rw [size, header_setNext, size]

end PacketMemory

/-- The ways a call of `remove` can fail: the target is not found, or the walk does not end
within the number of steps it is given. -/
inductive RemoveError
  | notFound
  | outOfSteps
  deriving DecidableEq

namespace LinkedQueue

variable {α : Type*} [DecidableEq α] (q : LinkedQueue α) (m : PacketMemory α) (p : α)

def enque : PacketMemory α × LinkedQueue α :=
  let linked : PacketMemory α × Option α :=
    match q.tail with
    | none => (m, some p)
    | some t => (m.setNext t (some p), q.head)
  (linked.1.setNext p none,
    { head := linked.2, tail := some p, len := q.len + 1, bytes := q.bytes + m.size p })

def deque : Option α × LinkedQueue α :=
  match q.head with
  | none => (none, q)
  | some p =>
    (some p,
      { head := if q.tail = some p then none else m.next p
        tail := if q.tail = some p then none else q.tail
        len := q.len - 1
        bytes := q.bytes - m.size p })

/-- What `remove` does once it has found the packet `p` after the packet `pp`. -/
def unlink (pp : Option α) : PacketMemory α × LinkedQueue α :=
  match pp with
  | none => (m, (q.deque m).2)
  | some pp =>
    (m.setNext pp (m.next p),
      { q with
        tail := if q.tail = some p then some pp else q.tail
        len := q.len - 1
        bytes := q.bytes - m.size p })

/-- The loop of `remove` at the node `p`, whose predecessor is `pp`. -/
def removeFrom (target : α) : ℕ → Option α → Option α →
    Except RemoveError (PacketMemory α × LinkedQueue α)
  | _, _, none => .error .notFound
  | 0, _, some _ => .error .outOfSteps
  | n + 1, pp, some p =>
    if p = target then .ok (q.unlink m p pp) else removeFrom target n (some p) (m.next p)

/-- `remove`, whose walk meets at most `len_` packets. -/
def remove (target : α) : Except RemoveError (PacketMemory α × LinkedQueue α) :=
  q.removeFrom m target q.len.toNat none q.head

/-- The packets met from `head_` on. -/
def contents (q : LinkedQueue α) (m : PacketMemory α) : List α := walk m.next q.len.toNat q.head

/-- The packets of the queue are linked from `head_` to `tail_` and counted by `len_` and
`bytes_`. -/
structure Holds (q : LinkedQueue α) (m : PacketMemory α) (as : List α) : Prop where
  nodup : as.Nodup
  linked : Segment m.next q.head as none
  tail : q.tail = as.getLast?
  len : q.len = as.length
  bytes : q.bytes = (as.map m.size).sum

variable {q m p} {as : List α}

omit [DecidableEq α] in
theorem Holds.contents_eq (h : q.Holds m as) : q.contents m = as := by
  rw [contents, h.len]
  exact h.linked.walk_eq

omit [DecidableEq α] in
theorem holds_empty : ({} : LinkedQueue α).Holds m [] :=
  ⟨List.nodup_nil, rfl, rfl, rfl, rfl⟩

omit [DecidableEq α] in
/-- A queue does not notice what happens to the packets of others. -/
theorem Holds.congr {m' : PacketMemory α} (h : q.Holds m as) (he : ∀ a ∈ as, m' a = m a) :
    q.Holds m' as where
  nodup := h.nodup
  linked := h.linked.congr fun a ha => congrArg PacketCell.next (he a ha)
  tail := h.tail
  len := h.len
  bytes := by
    rw [h.bytes]
    congr 1
    exact List.map_congr_left fun a ha => congrArg (·.header.size) (he a ha).symm

/-! ## What each operation does to the packets -/

omit [DecidableEq α] in
theorem Holds.tail_iff {pre : List α} (h : q.Holds m (pre ++ p :: as)) :
    q.tail = some p ↔ as = [] := by
  rw [h.tail]
  rcases List.eq_nil_or_concat as with rfl | ⟨as, b, rfl⟩
  · simp
  · have hb : b ≠ p := by
      rintro rfl
      have := h.nodup
      simp [List.nodup_append] at this
    rw [List.concat_eq_append, ← List.cons_append, ← List.append_assoc, List.getLast?_concat]
    simp [hb]

theorem Holds.enque (h : q.Holds m as) (hp : p ∉ as) :
    (q.enque m p).2.Holds (q.enque m p).1 (as ++ [p]) ∧ (q.enque m p).1.header = m.header ∧
      ∀ a, a ≠ p → a ∉ as → (q.enque m p).1 a = m a := by
  have hnd : (as ++ [p]).Nodup := by
    rw [← List.concat_eq_append]
    exact h.nodup.concat hp
  unfold LinkedQueue.enque
  rcases List.eq_nil_or_concat as with rfl | ⟨as, t, rfl⟩
  · have ht : q.tail = none := h.tail
    simp only [ht]
    refine ⟨⟨hnd, by simp, by simp, by simp [h.len], by simp [h.bytes]⟩, by simp, ?_⟩
    rintro a ha -
    simp [PacketMemory.setNext, Function.update_of_ne ha]
  · rw [List.concat_eq_append] at h hp hnd ⊢
    have ht : q.tail = some t := by rw [h.tail, List.getLast?_concat]
    have htas : t ∉ as := ((List.nodup_concat as t).mp (by simpa using h.nodup)).1
    simp only [ht]
    refine ⟨⟨hnd, ?_, by simp, by simp [h.len, add_assoc], by simp [h.bytes, add_assoc]⟩,
      by simp, ?_⟩
    · simp only [PacketMemory.next_setNext]
      rw [segment_concat]
      exact ⟨(h.linked.link htas).update hp, Function.update_self ..⟩
    · rintro a ha hat
      have hat : a ≠ t := fun he => hat (by simp [he])
      simp [PacketMemory.setNext, Function.update_of_ne ha, Function.update_of_ne hat]

theorem Holds.deque (h : q.Holds m (p :: as)) :
    (q.deque m).1 = some p ∧ (q.deque m).2.Holds m as := by
  have hhead : q.head = some p := h.linked.1
  have htail : q.tail = some p ↔ as = [] := by
    rw [← List.nil_append (p :: as)] at h
    exact h.tail_iff
  have hrest : Segment m.next (m.next p) as none := h.linked.2
  simp only [LinkedQueue.deque, hhead]
  refine ⟨trivial, (List.nodup_cons.mp h.nodup).2, ?_, ?_, by simp [h.len], by simp [h.bytes]⟩
  · by_cases has : as = []
    · simp [htail.mpr has, has]
    · rwa [if_neg (mt htail.mp has)]
  · by_cases has : as = []
    · simp [htail.mpr has, has]
    · simp only [if_neg (mt htail.mp has)]
      rw [h.tail, List.getLast?_cons_of_ne_nil has]

omit [DecidableEq α] in
theorem Holds.head_eq (h : q.Holds m as) : q.head = as.head? := h.linked.start_eq_head?

theorem Holds.unlink {pre : List α} (h : q.Holds m (pre ++ p :: as)) :
    (q.unlink m p pre.getLast?).2.Holds (q.unlink m p pre.getLast?).1 (pre ++ as) ∧
      (q.unlink m p pre.getLast?).1.header = m.header ∧
      ∀ a, a ∉ pre → (q.unlink m p pre.getLast?).1 a = m a := by
  rcases List.eq_nil_or_concat pre with rfl | ⟨pre, pp, rfl⟩
  · exact ⟨h.deque.2, rfl, fun _ _ => rfl⟩
  · have htail := h.tail_iff
    have hnd := h.nodup
    rw [List.concat_eq_append] at h hnd ⊢
    rw [List.append_assoc, List.singleton_append] at h hnd
    rw [List.getLast?_concat, List.append_assoc, List.singleton_append]
    have hsub : (pre ++ pp :: as).Sublist (pre ++ pp :: p :: as) :=
      ((List.sublist_cons_self p as).cons_cons pp).append_left pre
    refine ⟨⟨hnd.sublist hsub, ?_, ?_, ?_, ?_⟩, by simp [LinkedQueue.unlink], ?_⟩
    · simpa [LinkedQueue.unlink] using h.linked.unlink hnd
    · by_cases has : as = []
      · simp [LinkedQueue.unlink, htail.mpr has, has]
      · simp only [LinkedQueue.unlink, if_neg (mt htail.mp has)]
        obtain ⟨b, bs, rfl⟩ := List.exists_cons_of_ne_nil has
        rw [h.tail]
        simp
    · simp only [LinkedQueue.unlink, h.len, List.length_append, List.length_cons]
      omega
    · simp only [LinkedQueue.unlink, h.bytes, PacketMemory.size_setNext, List.map_append,
        List.map_cons, List.sum_append, List.sum_cons]
      omega
    · rintro a ha
      have ha : a ≠ pp := fun he => ha (by simp [he])
      simp [LinkedQueue.unlink, PacketMemory.setNext, Function.update_of_ne ha]

/-- The walk passes the packets `mid`, none of which is the target. -/
theorem Holds.removeFrom {pre mid : List α} (h : q.Holds m (pre ++ mid ++ p :: as)) (n : ℕ) :
    q.removeFrom m p (mid.length + 1 + n) pre.getLast? (mid ++ p :: as).head? =
      .ok (q.unlink m p (pre ++ mid).getLast?) := by
  induction mid generalizing pre with
  | nil =>
    rw [List.length_nil, zero_add, add_comm, List.nil_append, List.head?_cons,
      LinkedQueue.removeFrom, if_pos rfl, List.append_nil]
  | cons a mid ih =>
    have hap : a ≠ p := by
      rintro rfl
      have := h.nodup
      simp [List.nodup_append] at this
    have hnext : m.next a = (mid ++ p :: as).head? := by
      have := h.linked
      rw [List.append_assoc, segment_append] at this
      obtain ⟨_, -, -, hs⟩ := this
      exact hs.start_eq_head?
    have hpre : pre ++ a :: mid = (pre ++ [a]) ++ mid := by simp
    have hlen : (a :: mid).length + 1 + n = (mid.length + 1 + n) + 1 := by
      rw [List.length_cons]; omega
    rw [hpre] at h ⊢
    rw [hlen, List.cons_append, List.head?_cons, LinkedQueue.removeFrom, if_neg hap, hnext, ← ih h,
      List.getLast?_concat]

/-- `remove` finds any packet of the queue, and takes out this one only. -/
theorem Holds.remove {pre : List α} (h : q.Holds m (pre ++ p :: as)) :
    ∃ m' q', q.remove m p = .ok (m', q') ∧ q'.Holds m' (pre ++ as) ∧ m'.header = m.header ∧
      ∀ a, a ∉ pre → m' a = m a := by
  refine ⟨_, _, ?_, h.unlink⟩
  have hlen : q.len.toNat = pre.length + 1 + as.length := by
    rw [h.len, List.length_append, List.length_cons]
    omega
  rw [LinkedQueue.remove, hlen, h.head_eq]
  rw [← List.nil_append (pre ++ p :: as), ← List.append_assoc] at h
  exact h.removeFrom as.length

/-- A packet that is removed as soon as it has been enqueued leaves the others as they were. -/
theorem Holds.enque_remove (h : q.Holds m as) (hp : p ∉ as) :
    ∃ m' q', (q.enque m p).2.remove (q.enque m p).1 p = .ok (m', q') ∧ q'.Holds m' as ∧
      m'.header = m.header ∧ ∀ a, a ≠ p → a ∉ as → m' a = m a := by
  obtain ⟨he, hm, hf⟩ := h.enque hp
  obtain ⟨m', q', hr, hq, hm', hf'⟩ := he.remove
  refine ⟨m', q', hr, by simpa using hq, hm'.trans hm, ?_⟩
  rintro a ha has
  rw [hf' a has, hf a ha has]

end LinkedQueue

end Ns2XPass
