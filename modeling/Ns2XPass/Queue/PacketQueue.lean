import Mathlib.Algebra.BigOperators.Group.List.Basic
import Mathlib.Algebra.Ring.Int.Defs
import Ns2XPass.Common.Packet

/-! # Packet queues

A `PacketQueue` keeps the number of its packets and of their bytes beside the
packets themselves.
-/

namespace Ns2XPass

/-- The packets from `head_` to `tail_`, with the counters `len_` and `bytes_`. -/
structure PacketQueue where
  packets : List Packet := []
  length : ℤ := 0
  byteLength : ℤ := 0
  length_eq : length = packets.length := by rfl
  byteLength_eq : byteLength = (packets.map (·.size)).sum := by rfl

namespace PacketQueue

variable (q : PacketQueue) (p : Packet)

def head : Option Packet := q.packets.head?

def enque : PacketQueue where
  packets := q.packets ++ [p]
  length := q.length + 1
  byteLength := q.byteLength + p.size
  length_eq := by simp [q.length_eq]
  byteLength_eq := by simp [q.byteLength_eq]

def deque : Option Packet × PacketQueue :=
  match h : q.packets with
  | [] => (none, q)
  | p :: rest =>
    (some p,
      { packets := rest
        length := q.length - 1
        byteLength := q.byteLength - p.size
        length_eq := by simp [q.length_eq, h]
        byteLength_eq := by simp [q.byteLength_eq, h] })

/-- `remove` of the packet at the tail. -/
def removeTail : PacketQueue :=
  match h : q.packets.getLast? with
  | none => q
  | some p =>
    have hq : q.packets.dropLast ++ [p] = q.packets := List.dropLast_append_getLast? p h
    { packets := q.packets.dropLast
      length := q.length - 1
      byteLength := q.byteLength - p.size
      length_eq := by rw [q.length_eq, ← hq]; simp
      byteLength_eq := by rw [q.byteLength_eq, ← hq]; simp }

variable {q p}

@[ext] theorem ext {q' : PacketQueue} (h : q.packets = q'.packets) : q = q' := by
  obtain ⟨ps, l, b, hl, hb⟩ := q
  obtain ⟨ps', l', b', hl', hb'⟩ := q'
  obtain rfl : ps = ps' := h
  simp [hl, hl', hb, hb']

theorem removeTail_enque : (q.enque p).removeTail = q := by
  ext1
  unfold removeTail
  split
  · next h => simp [enque] at h
  · simp [enque]

theorem head_of_cons {rest : List Packet} (h : q.packets = p :: rest) : q.head = some p := by
  rw [head, h]
  rfl

theorem head_of_nil (h : q.packets = []) : q.head = none := by
  rw [head, h]
  rfl

theorem deque_of_cons {rest : List Packet} (h : q.packets = p :: rest) :
    q.deque.1 = some p ∧ q.deque.2.packets = rest := by
  unfold deque
  split
  · next h' => simp [h] at h'
  · next p' rest' h' =>
    obtain ⟨rfl, rfl⟩ : p = p' ∧ rest = rest' := by simpa [h] using h'
    exact ⟨rfl, rfl⟩

theorem length_pos_iff : 0 < q.length ↔ q.packets ≠ [] := by
  rw [q.length_eq, ← List.length_pos_iff]
  omega

/-- The queue with the given packets. -/
def ofList (ps : List Packet) : PacketQueue where
  packets := ps
  length := ps.length
  byteLength := (ps.map (·.size)).sum

@[simp] theorem enque_ofList (ps : List Packet) : (ofList ps).enque p = ofList (ps ++ [p]) := by
  ext1
  rfl

theorem deque_ofList (ps : List Packet) : (ofList (p :: ps)).deque = (some p, ofList ps) := by
  ext1
  · exact (deque_of_cons rfl).1
  · ext1
    exact (deque_of_cons rfl).2

theorem byteLength_of_nil (h : q.packets = []) : q.byteLength = 0 := by
  simp [q.byteLength_eq, h]

end PacketQueue

end Ns2XPass
