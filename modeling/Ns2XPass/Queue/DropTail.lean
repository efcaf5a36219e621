import Mathlib.Algebra.Order.BigOperators.Group.List
import Ns2XPass.Common.Numeric
import Ns2XPass.Queue.Conservation

/-! # The drop-tail queue

A packet that would bring the queue to its limit is dropped, or takes its place
at the end and the first packet is dropped. The limit counts packets or bytes.
-/

namespace Ns2XPass

structure DropTailConfig where
  qlim : ℤ
  meanPktsize : ℤ
  dropFront : Bool
  qib : Bool

def DropTailConfig.qlimBytes (cfg : DropTailConfig) : ℤ := wrap32 (cfg.qlim * cfg.meanPktsize)

structure DropTail (α : Type) where
  memory : PacketMemory α
  q : LinkedQueue α := {}

/-- The ways a call can fail: a `drop` of no packet, a failed `remove`, a loop without end. -/
inductive DropTailExit
  | noPacket
  | remove (e : RemoveError)
  | outOfSteps
  deriving DecidableEq

inductive DropTailCall (α : Type)
  | write (p : α) (cell : PacketCell α)
  | enque (p : α)
  | deque
  | shrinkQueue

def DropTailCall.arrival {α : Type} : DropTailCall α → Option α
  | .enque p => some p
  | .write _ _ | .deque | .shrinkQueue => none

namespace DropTail

variable {α : Type} (cfg : DropTailConfig) (s : DropTail α) (p : α)

/-- Whether the queue would overflow with one more packet. -/
def Full : Prop :=
  ¬ cfg.qib ∧ cfg.qlim ≤ s.q.len + 1 ∨ cfg.qib ∧ cfg.qlimBytes ≤ s.q.bytes + s.memory.size p

def Excessive : Prop :=
  ¬ cfg.qib ∧ cfg.qlim < s.q.len ∨ cfg.qib ∧ cfg.qlimBytes < s.q.bytes

instance : Decidable (s.Full cfg p) := inferInstanceAs (Decidable (_ ∧ _ ∨ _ ∧ _))

instance : Decidable (s.Excessive cfg) := inferInstanceAs (Decidable (_ ∧ _ ∨ _ ∧ _))

variable [DecidableEq α]

/-- `drop(q_->deque())` -/
def dropHead : Except DropTailExit (DropTail α × List (LinkedEffect α)) :=
  match s.q.deque s.memory with
  | (some p, q) => .ok ({ s with q := q }, [.drop p])
  | (none, _) => .error .noPacket

/-- The tail is removed and dropped. -/
def dropLast : Except DropTailExit (DropTail α × List (LinkedEffect α)) :=
  match s.q.tail with
  | some p => ((s.q.remove s.memory p).mapError .remove).map fun r => (⟨r.1, r.2⟩, [.drop p])
  | none => .error (.remove .notFound)

def append : DropTail α := ⟨(s.q.enque s.memory p).1, (s.q.enque s.memory p).2⟩

def enque : Except DropTailExit (DropTail α × List (LinkedEffect α)) :=
  if s.Full cfg p then
    if cfg.dropFront then (s.append p).dropHead else .ok (s, [.drop p])
  else .ok (s.append p, [])

def dropOne : Except DropTailExit (DropTail α × List (LinkedEffect α)) :=
  if cfg.dropFront then s.dropHead else s.dropLast

/-- The loop of `shrink_queue`. -/
def shrinkFrom (cfg : DropTailConfig) :
    ℕ → DropTail α → Except DropTailExit (DropTail α × List (LinkedEffect α))
  | 0, s => if s.Excessive cfg then .error .outOfSteps else .ok (s, [])
  | n + 1, s =>
    if s.Excessive cfg then do
      let (s, one) ← s.dropOne cfg
      let (s, rest) ← shrinkFrom cfg n s
      pure (s, one ++ rest)
    else .ok (s, [])

/-- Each turn of the loop takes a packet from the queue, and fails when there is none. -/
def shrinkQueue : Except DropTailExit (DropTail α × List (LinkedEffect α)) :=
  shrinkFrom cfg (s.q.len.toNat + 1) s

def deque : DropTail α × Option α :=
  ({ s with q := (s.q.deque s.memory).2 }, (s.q.deque s.memory).1)

def react : DropTailCall α → Except DropTailExit (DropTail α × List (LinkedEffect α))
  | .write p cell => .ok ({ s with memory := Function.update s.memory p cell }, [])
  | .enque p => s.enque cfg p
  | .deque => .ok (s.deque.1, s.deque.2.toList.map .forward)
  | .shrinkQueue => s.shrinkQueue cfg

/-- A packet that is in the queue does not arrive and is not written to. -/
def Enabled : DropTailCall α → Prop
  | .write p _ => p ∉ s.q.contents s.memory
  | .enque p => p ∉ s.q.contents s.memory ∧ 0 ≤ s.memory.size p
  | .deque | .shrinkQueue => True

instance : DecidablePred s.Enabled
  | .write p _ => inferInstanceAs (Decidable (p ∉ s.q.contents s.memory))
  | .enque p => inferInstanceAs (Decidable (p ∉ s.q.contents s.memory ∧ 0 ≤ s.memory.size p))
  | .deque | .shrinkQueue => inferInstanceAs (Decidable True)

def logAfter (x : DropTailCall α) (l : ArrivalLog α) : ArrivalLog α :=
  match s.react cfg x with
  | .ok r => r.2.foldl ArrivalLog.record (l.arrive s.memory x.arrival)
  | .error _ => l

def machine (α : Type) [DecidableEq α] (cfg : DropTailConfig) :
    Machine (DropTail α) (DropTailCall α) DropTailExit where
  Init s := s = { memory := s.memory }
  Enabled := DropTail.Enabled
  step s x := (s.react cfg x).map (·.1)

def loggedMachine (α : Type) [DecidableEq α] (cfg : DropTailConfig) :
    Machine (DropTail α × ArrivalLog α) (DropTailCall α) DropTailExit :=
  (machine α cfg).withHistory {} fun s x _ l => s.logAfter cfg x l

instance (r : DropTail α × ArrivalLog α) (x : DropTailCall α) :
    Decidable ((loggedMachine α cfg).Enabled r x) :=
  inferInstanceAs (Decidable (r.1.Enabled x))

end DropTail

/-! ## The numbers of the packets -/

namespace ArrivalLog

variable {α : Type} {l : ArrivalLog α} {as pre : List α} {p : α}

/-- Every arrival is forwarded once, dropped once or queued, and those that are not dropped keep
their order. -/
structure Keeps (l : ArrivalLog α) (as : List α) : Prop where
  once : (l.forwarded ++ l.dropped ++ as.map l.latest).Perm (List.range l.arrived.length)
  order : (l.forwarded ++ as.map l.latest).Pairwise (· < ·)

theorem keeps_start : ({} : ArrivalLog α).Keeps [] := ⟨.refl _, .nil⟩

theorem Keeps.arrive [DecidableEq α] (h : l.Keeps as) (m : PacketMemory α) (hp : p ∉ as) :
    (l.arrive m (some p)).Keeps (as ++ [p]) := by
  have hmap : (as ++ [p]).map (l.arrive m (some p)).latest =
      as.map l.latest ++ [l.arrived.length] := by
    rw [List.map_append, List.map_singleton, arrive_latest]
    congr 1
    exact List.map_congr_left fun a ha =>
      Function.update_of_ne (ne_of_mem_of_not_mem ha hp) _ l.latest
  constructor
  · rw [hmap, ← List.append_assoc]
    change (l.forwarded ++ l.dropped ++ as.map l.latest ++ [l.arrived.length]).Perm
      (List.range (l.arrived ++ [m.header p]).length)
    rw [List.length_append, List.length_singleton, List.range_succ]
    exact h.once.append_right _
  · rw [hmap, ← List.append_assoc]
    refine List.pairwise_append.mpr ⟨h.order, List.pairwise_singleton _ _, ?_⟩
    rintro n hn k hk
    rw [List.mem_singleton.mp hk]
    have hmem : n ∈ l.forwarded ++ l.dropped ++ as.map l.latest := by
      rcases List.mem_append.mp hn with hn | hn
      · exact List.mem_append_left _ (List.mem_append_left _ hn)
      · exact List.mem_append_right _ hn
    exact List.mem_range.mp (h.once.mem_iff.mp hmem)

theorem Keeps.forward (h : l.Keeps (p :: as)) : (l.record (.forward p)).Keeps as := by
  constructor
  · apply List.Perm.trans _ h.once
    change (l.forwarded ++ [l.latest p] ++ l.dropped ++ as.map l.latest).Perm _
    simp only [List.map_cons, List.append_assoc, List.singleton_append]
    exact (List.perm_middle.symm).append_left _
  · change (l.forwarded ++ [l.latest p] ++ as.map l.latest).Pairwise (· < ·)
    rw [List.append_assoc]
    exact h.order

theorem Keeps.drop (h : l.Keeps (pre ++ p :: as)) : (l.record (.drop p)).Keeps (pre ++ as) := by
  constructor
  · apply List.Perm.trans _ h.once
    change (l.forwarded ++ (l.dropped ++ [l.latest p]) ++ (pre ++ as).map l.latest).Perm _
    simp only [List.map_append, List.map_cons, List.append_assoc, List.singleton_append]
    exact ((List.perm_middle.symm).append_left _).append_left _
  · apply List.Pairwise.sublist _ h.order
    exact (((List.sublist_cons_self p as).append_left pre).map _).append_left _

end ArrivalLog

/-! ## Runs -/

namespace DropTail

variable {α : Type} {cfg : DropTailConfig} {s s' : DropTail α} {l l' : ArrivalLog α}
  {as as' : List α} {p : α} {out : List (LinkedEffect α)}

/-- The queue holds at most `qlim_` packets, or the bytes of so many mean packets. -/
def Within (cfg : DropTailConfig) (s : DropTail α) : Prop :=
  if cfg.qib then s.q.bytes ≤ cfg.qlim * cfg.meanPktsize else s.q.len ≤ cfg.qlim

/-- The first packet is not too small to make room for the one that arrives. -/
def Room (cfg : DropTailConfig) (s : DropTail α) (p : α) : Prop :=
  cfg.qib → 0 ≤ cfg.meanPktsize ∧ (s.Full cfg p → cfg.dropFront → ∀ a ∈ s.q.head,
    s.q.bytes + s.memory.size p ≤ cfg.qlim * cfg.meanPktsize + s.memory.size a)

structure Logged (cfg : DropTailConfig) (s : DropTail α) (l : ArrivalLog α) (as : List α) :
    Prop where
  holds : s.q.Holds s.memory as
  keeps : l.Keeps as
  sizes : ∀ a ∈ as, 0 ≤ s.memory.size a
  packets : ¬ cfg.qib → s.q.len ≤ cfg.qlim
  bytes : cfg.qib → ¬ cfg.dropFront → 0 ≤ cfg.meanPktsize →
    s.q.bytes ≤ cfg.qlim * cfg.meanPktsize

theorem qlimBytes_le (hq : 1 ≤ cfg.qlim) (hm : 0 ≤ cfg.meanPktsize) :
    cfg.qlimBytes ≤ cfg.qlim * cfg.meanPktsize := by
  have hp : 0 ≤ cfg.qlim * cfg.meanPktsize := Int.mul_nonneg (by omega) hm
  rcases Int.lt_or_le (cfg.qlim * cfg.meanPktsize) (2 ^ 31) with hlt | hle
  · exact le_of_eq (wrap32_of_lt (by omega) hlt)
  · exact (le_of_lt (wrap32_lt _)).trans hle

theorem bytes_nonneg (h : s.q.Holds s.memory as) (hs : ∀ a ∈ as, 0 ≤ s.memory.size a) :
    0 ≤ s.q.bytes := by
  rw [h.bytes]
  apply List.sum_nonneg
  rintro _ hx
  obtain ⟨a, ha, rfl⟩ := List.mem_map.mp hx
  exact hs a ha

/-- When packets have only left the queue, the bounds still hold. -/
theorem Logged.leave (h : Logged cfg s l as) (hs : s'.q.Holds s'.memory as')
    (hm : s'.memory.header = s.memory.header) (hsub : as'.Sublist as) (hl : l'.Keeps as') :
    Logged cfg s' l' as' := by
  have hsize : s'.memory.size = s.memory.size := funext fun a => by
    rw [PacketMemory.size, hm, PacketMemory.size]
  have hsizes : ∀ a ∈ as', 0 ≤ s'.memory.size a := fun a ha => by
    rw [hsize]
    exact h.sizes a (hsub.subset ha)
  refine ⟨hs, hl, hsizes, fun hb => ?_, fun hb hd hp => ?_⟩
  · have := h.packets hb
    have := hsub.length_le
    rw [h.holds.len] at *
    rw [hs.len]
    omega
  · refine le_trans ?_ (h.bytes hb hd hp)
    rw [hs.bytes, h.holds.bytes, hsize]
    apply (hsub.map _).sum_le_sum
    rintro _ hx
    obtain ⟨a, ha, rfl⟩ := List.mem_map.mp hx
    exact h.sizes a ha

variable [DecidableEq α]

theorem Logged.forward (h : Logged cfg s l (p :: as)) :
    s.deque.2 = some p ∧ Logged cfg s.deque.1 (l.record (.forward p)) as := by
  obtain ⟨ho, hq⟩ := h.holds.deque
  exact ⟨ho, h.leave hq rfl (List.sublist_cons_self p as) h.keeps.forward⟩

theorem Logged.dropHead (h : Logged cfg s l (p :: as)) :
    ∃ s', s.dropHead = .ok (s', [.drop p]) ∧ Logged cfg s' (l.record (.drop p)) as := by
  obtain ⟨ho, hq⟩ := h.holds.deque
  have hpair : s.q.deque s.memory = (some p, (s.q.deque s.memory).2) := Prod.ext ho rfl
  refine ⟨{ s with q := (s.q.deque s.memory).2 }, ?_, ?_⟩
  · rw [DropTail.dropHead, hpair]
  · have hk : l.Keeps ([] ++ p :: as) := h.keeps
    exact h.leave hq rfl (List.sublist_cons_self p as) hk.drop

theorem Logged.dropLast (h : Logged cfg s l (as ++ [p])) :
    ∃ s', s.dropLast = .ok (s', [.drop p]) ∧ Logged cfg s' (l.record (.drop p)) as := by
  have htail : s.q.tail = some p := by rw [h.holds.tail, List.getLast?_concat]
  obtain ⟨m, q, hr, hq, hm, -⟩ := h.holds.remove
  refine ⟨⟨m, q⟩, ?_, ?_⟩
  · simp only [DropTail.dropLast, htail, hr]
    rfl
  · have hk := h.keeps.drop
    rw [List.append_nil] at hq hk
    exact h.leave hq hm (List.sublist_append_left as [p]) hk

/-- A turn of the loop of `shrink_queue` drops a packet, if there is one. -/
theorem Logged.dropOne (h : Logged cfg s l as) (hne : as ≠ []) :
    ∃ s' p as', s.dropOne cfg = .ok (s', [.drop p]) ∧
      Logged cfg s' (l.record (.drop p)) as' ∧ as.length = as'.length + 1 := by
  unfold DropTail.dropOne
  by_cases hd : cfg.dropFront
  · obtain ⟨p, as, rfl⟩ := List.exists_cons_of_ne_nil hne
    obtain ⟨s', hs, h'⟩ := h.dropHead
    exact ⟨s', p, as, by rw [if_pos hd, hs], h', rfl⟩
  · obtain ⟨as, p, rfl⟩ := List.eq_nil_or_concat as |>.resolve_left hne
    rw [List.concat_eq_append] at *
    obtain ⟨s', hs, h'⟩ := h.dropLast
    exact ⟨s', p, as, by rw [if_neg hd, hs], h', by simp⟩

omit [DecidableEq α] in
theorem not_excessive_nil (h : s.q.Holds s.memory []) (hq : 1 ≤ cfg.qlim)
    (hb : cfg.qib → 0 ≤ cfg.qlimBytes) : ¬ s.Excessive cfg := by
  have hlen : s.q.len = 0 := h.len
  have hbytes : s.q.bytes = 0 := h.bytes
  rintro (⟨-, hx⟩ | ⟨hi, hx⟩)
  · omega
  · have := hb hi
    omega

/-- No packet can be dropped from an empty queue. -/
theorem dropOne_nil (h : s.q.Holds s.memory []) {r : DropTail α × List (LinkedEffect α)} :
    s.dropOne cfg ≠ .ok r := by
  have hhead : s.q.head = none := h.head_eq
  have htail : s.q.tail = none := h.tail
  unfold dropOne
  split
  · simp [dropHead, LinkedQueue.deque, hhead]
  · simp [DropTail.dropLast, htail]

/-- What the loop drops has been in the queue. -/
theorem Logged.shrinkFrom (h : Logged cfg s l as) {n : ℕ}
    (hr : shrinkFrom cfg n s = .ok (s', out)) :
    ∃ as', Logged cfg s' (out.foldl ArrivalLog.record l) as' := by
  induction n generalizing s l as out with
  | zero =>
    rw [DropTail.shrinkFrom] at hr
    split at hr
    · cases hr
    · cases hr
      exact ⟨as, h⟩
  | succ n ih =>
    rw [DropTail.shrinkFrom] at hr
    split at hr
    · obtain ⟨⟨s₁, one⟩, hone, hr⟩ := bind_eq_ok.mp hr
      obtain ⟨⟨s₂, rest⟩, hrest, hr⟩ := bind_eq_ok.mp hr
      cases pure_eq_ok.mp hr
      have hne : as ≠ [] := by
        rintro rfl
        exact dropOne_nil h.holds hone
      obtain ⟨s₁', p, as₁, hone', h₁, -⟩ := h.dropOne hne
      cases hone.symm.trans hone'
      rw [List.foldl_append]
      exact ih h₁ hrest
    · cases hr
      exact ⟨as, h⟩

/-- The loop ends, unless no queue is short enough for it. -/
theorem Logged.exists_shrinkFrom (h : Logged cfg s l as) (hq : 1 ≤ cfg.qlim)
    (hb : cfg.qib → 0 ≤ cfg.qlimBytes) {n : ℕ} (hn : as.length ≤ n) :
    ∃ r, DropTail.shrinkFrom cfg n s = .ok r := by
  induction n generalizing s l as with
  | zero =>
    obtain rfl := List.length_eq_zero_iff.mp (Nat.le_zero.mp hn)
    exact ⟨(s, []), if_neg (not_excessive_nil h.holds hq hb)⟩
  | succ n ih =>
    by_cases hx : s.Excessive cfg
    · have hne : as ≠ [] := by
        rintro rfl
        exact not_excessive_nil h.holds hq hb hx
      obtain ⟨s₁, p, as₁, hone, h₁, hlen⟩ := h.dropOne hne
      obtain ⟨⟨s₂, rest⟩, hrest⟩ := ih h₁ (by omega)
      refine ⟨(s₂, [.drop p] ++ rest), ?_⟩
      rw [DropTail.shrinkFrom, if_pos hx]
      refine bind_eq_ok.mpr ⟨(s₁, [.drop p]), hone, ?_⟩
      exact bind_eq_ok.mpr ⟨(s₂, rest), hrest, rfl⟩
    · exact ⟨(s, []), if_neg hx⟩

omit [DecidableEq α] in
theorem limit_nonneg_iff (hq : 1 ≤ cfg.qlim) :
    0 ≤ cfg.qlim * cfg.meanPktsize ↔ 0 ≤ cfg.meanPktsize :=
  mul_nonneg_iff_of_pos_left (by omega)

/-- The queue after a packet has come to its end. -/
theorem Logged.append (h : Logged cfg s l as) (hp : p ∉ as) (h0 : 0 ≤ s.memory.size p) :
    (s.append p).q.Holds (s.append p).memory (as ++ [p]) ∧
      (l.arrive s.memory (some p)).Keeps (as ++ [p]) ∧
      (s.append p).memory.size = s.memory.size ∧
      ∀ a ∈ as ++ [p], 0 ≤ (s.append p).memory.size a := by
  obtain ⟨hq, hm, -⟩ := h.holds.enque hp
  have hsize : (s.append p).memory.size = s.memory.size := funext fun a =>
    congrArg Packet.size (congrFun hm a)
  refine ⟨hq, h.keeps.arrive _ hp, hsize, fun a ha => ?_⟩
  rw [hsize]
  rcases List.mem_append.mp ha with ha | ha
  · exact h.sizes a ha
  · rwa [List.mem_singleton.mp ha]

/-- A packet comes to the end and the first one is dropped, which may be the same packet. -/
theorem Logged.replace (h : Logged cfg s l as) (hp : p ∉ as) (h0 : 0 ≤ s.memory.size p) :
    ∃ a as' s', as ++ [p] = a :: as' ∧ (s.append p).dropHead = .ok (s', [.drop a]) ∧
      s'.q.Holds s'.memory as' ∧ ((l.arrive s.memory (some p)).record (.drop a)).Keeps as' ∧
      (∀ b ∈ as', 0 ≤ s'.memory.size b) ∧ s'.q.len = s.q.len ∧
      s'.q.bytes = s.q.bytes + s.memory.size p - s.memory.size a := by
  obtain ⟨hq, hkeeps, hsize, hsizes⟩ := h.append hp h0
  obtain ⟨a, as', hcons⟩ := List.exists_cons_of_ne_nil (List.append_ne_nil_of_right_ne_nil as
    (List.cons_ne_nil p []))
  have hc := congrArg List.length hcons
  rw [List.length_append, List.length_singleton, List.length_cons] at hc
  rw [hcons] at hq hkeeps hsizes
  obtain ⟨ho, hdeq⟩ := hq.deque
  have hpair : (s.append p).q.deque (s.append p).memory =
      (some a, ((s.append p).q.deque (s.append p).memory).2) := Prod.ext ho rfl
  have hkeeps' : (l.arrive s.memory (some p)).Keeps ([] ++ a :: as') := hkeeps
  refine ⟨a, as', { s.append p with q := ((s.append p).q.deque (s.append p).memory).2 }, hcons, ?_,
    hdeq, hkeeps'.drop, fun b hb => hsizes b (List.mem_cons_of_mem a hb), ?_, ?_⟩
  · rw [DropTail.dropHead, hpair]
  · rw [hdeq.len, h.holds.len]
    omega
  · have hb := hq.bytes
    rw [List.map_cons, List.sum_cons, ← hdeq.bytes, hsize] at hb
    change s.q.bytes + s.memory.size p = _ at hb
    change ((s.append p).q.deque (s.append p).memory).2.bytes = _
    omega

/-- An arrival keeps the queue within its limit exactly when there is room for it. -/
theorem Logged.enque (h : Logged cfg s l as) (hq : 1 ≤ cfg.qlim) (hp : p ∉ as)
    (h0 : 0 ≤ s.memory.size p) :
    ∃ s' out as', s.enque cfg p = .ok (s', out) ∧
      Logged cfg s' (out.foldl ArrivalLog.record (l.arrive s.memory (some p))) as' ∧
      (Within cfg s' ↔ Room cfg s p) := by
  obtain ⟨hqueue, hkeeps, hsize, hsizes⟩ := h.append hp h0
  have hlen : (s.append p).q.len = s.q.len + 1 := rfl
  have hbytes : (s.append p).q.bytes = s.q.bytes + s.memory.size p := rfl
  have hlimit := limit_nonneg_iff hq
  have hnonneg := bytes_nonneg h.holds h.sizes
  unfold DropTail.enque
  by_cases hf : s.Full cfg p
  · by_cases hd : cfg.dropFront
    · obtain ⟨a, as', s', hcons, hdrop, hq', hk', hs', hlen', hbytes'⟩ := h.replace hp h0
      have hpackets : ¬ cfg.qib → s'.q.len ≤ cfg.qlim := fun hb => hlen' ▸ h.packets hb
      refine ⟨s', [.drop a], as', by rw [if_pos hf, if_pos hd, hdrop], ⟨hq', hk', hs',
        hpackets, fun _ hd' => absurd hd hd'⟩, ?_⟩
      have hafter := bytes_nonneg hq' hs'
      unfold Within Room
      by_cases hb : cfg.qib
      · rw [if_pos hb, hbytes', h.holds.head_eq]
        rw [hbytes'] at hafter
        cases as with
        | nil =>
          -- the packet itself is dropped, and the queue stays empty
          obtain ⟨rfl, -⟩ := List.cons.inj hcons
          have : s.q.bytes = 0 := h.holds.bytes
          constructor
          · exact fun hw _ => ⟨hlimit.mp (by omega), fun _ _ b hb => absurd hb (by simp)⟩
          · rintro hr
            have := hlimit.mpr (hr hb).1
            omega
        | cons b bs =>
          obtain ⟨rfl, -⟩ := List.cons.inj hcons
          constructor
          · rintro hw -
            refine ⟨hlimit.mp (by omega), fun _ _ c hc => ?_⟩
            obtain rfl := Option.some.inj hc
            omega
          · rintro hr
            have := (hr hb).2 hf hd b rfl
            omega
      · rw [if_neg hb]
        exact ⟨fun _ hb' => absurd hb' hb, fun _ => hpackets hb⟩
    · refine ⟨s, [.drop p], as, by rw [if_pos hf, if_neg hd], ⟨h.holds, ?_, h.sizes, h.packets,
        h.bytes⟩, ?_⟩
      · have := hkeeps.drop
        rwa [List.append_nil] at this
      · unfold Within Room
        by_cases hb : cfg.qib
        · rw [if_pos hb]
          constructor
          · exact fun hw _ => ⟨hlimit.mp (by omega), fun _ hd' => absurd hd' hd⟩
          · exact fun hr => h.bytes hb hd (hr hb).1
        · rw [if_neg hb]
          exact ⟨fun _ hb' => absurd hb' hb, fun _ => h.packets hb⟩
  · have hpackets : ¬ cfg.qib → s.q.len + 1 ≤ cfg.qlim := fun hb => by
      by_contra hlt
      exact hf (.inl ⟨hb, by omega⟩)
    have hroom : cfg.qib → 0 ≤ cfg.meanPktsize →
        s.q.bytes + s.memory.size p ≤ cfg.qlim * cfg.meanPktsize := fun hb hm => by
      have := qlimBytes_le hq hm
      by_contra hlt
      exact hf (.inr ⟨hb, by omega⟩)
    refine ⟨s.append p, [], as ++ [p], if_neg hf, ⟨hqueue, hkeeps, hsizes, hpackets,
      fun hb _ => hroom hb⟩, ?_⟩
    unfold Within Room
    by_cases hb : cfg.qib
    · rw [if_pos hb, hbytes]
      constructor
      · exact fun hw _ => ⟨hlimit.mp (by omega), fun hf' => absurd hf' hf⟩
      · exact fun hr => hroom hb (hr hb).1
    · rw [if_neg hb, hlen]
      exact ⟨fun _ hb' => absurd hb' hb, fun _ => hpackets hb⟩

theorem Logged.step {x : DropTailCall α} {s' : DropTail α} (h : Logged cfg s l as)
    (hq : 1 ≤ cfg.qlim) (he : s.Enabled x) (hs : (machine α cfg).step s x = .ok s') :
    ∃ as', Logged cfg s' (s.logAfter cfg x l) as' := by
  cases x with
  | write p cell =>
    obtain rfl := Except.ok.inj hs
    have hp : p ∉ as := by
      have he : p ∉ s.q.contents s.memory := he
      rwa [h.holds.contents_eq] at he
    have hcell : ∀ a ∈ as, Function.update s.memory p cell a = s.memory a := fun a ha =>
      Function.update_of_ne (ne_of_mem_of_not_mem ha hp) cell s.memory
    refine ⟨as, h.holds.congr hcell, h.keeps, fun a ha => ?_, h.packets, h.bytes⟩
    change 0 ≤ (Function.update s.memory p cell a).header.size
    rw [hcell a ha]
    exact h.sizes a ha
  | enque p =>
    obtain ⟨hp, h0⟩ : p ∉ s.q.contents s.memory ∧ 0 ≤ s.memory.size p := he
    rw [h.holds.contents_eq] at hp
    obtain ⟨s₁, out, as', hr, h', -⟩ := h.enque hq hp h0
    have hreact : s.react cfg (.enque p) = .ok (s₁, out) := hr
    obtain rfl : s₁ = s' := by simpa [machine, hreact, Except.map] using hs
    exact ⟨as', by rwa [logAfter, hreact]⟩
  | deque =>
    obtain rfl := Except.ok.inj hs
    cases as with
    | nil =>
      have hhead : s.q.head = none := h.holds.head_eq
      have hd : s.deque = (s, none) := by simp [DropTail.deque, LinkedQueue.deque, hhead]
      refine ⟨[], ?_⟩
      simp only [logAfter, react, hd]
      exact h
    | cons p as =>
      obtain ⟨ho, h'⟩ := h.forward
      refine ⟨as, ?_⟩
      simp only [logAfter, react, ho]
      exact h'
  | shrinkQueue =>
    cases hr : s.shrinkQueue cfg with
    | error e => simp [machine, react, hr, Except.map] at hs
    | ok r =>
      obtain ⟨s₁, out⟩ := r
      have hreact : s.react cfg .shrinkQueue = .ok (s₁, out) := hr
      obtain rfl : s₁ = s' := by simpa [machine, hreact, Except.map] using hs
      obtain ⟨as', h'⟩ := h.shrinkFrom hr
      exact ⟨as', by rwa [logAfter, hreact]⟩

theorem invariant_logged (hq : 1 ≤ cfg.qlim) :
    (loggedMachine α cfg).Invariant fun r => ∃ as, Logged cfg r.1 r.2 as where
  init := by
    rintro ⟨s, l⟩ ⟨hs, hl⟩
    refine ⟨[], ?_⟩
    have hs : s = { memory := s.memory } := hs
    have hl : l = {} := hl
    rw [hs, hl]
    refine ⟨LinkedQueue.holds_empty, ArrivalLog.keeps_start, by simp, fun _ => by simp; omega,
      fun _ _ hm => (limit_nonneg_iff hq).mpr hm⟩
  step := by
    rintro ⟨s, l⟩ x ⟨s', l'⟩ ⟨as, h⟩ he hs
    obtain ⟨hs, hlog⟩ := (Machine.withHistory_step_iff _).mp hs
    obtain ⟨as', h'⟩ := h.step hq he hs
    exact ⟨as', hlog ▸ h'⟩

end DropTail

/-- A queue of two packets of 500 bytes at most, which counts bytes and drops from the front. -/
def frontBytes : DropTailConfig := ⟨2, 500, true, true⟩

/-- Packet 0 has 40 bytes, packet 1 has 900 and the others have 600. -/
def sizedMemory : PacketMemory ℕ := fun p =>
  ⟨none, { ptype := .other 0, size := if p = 0 then 40 else if p = 1 then 900 else 600 }⟩

end Ns2XPass
