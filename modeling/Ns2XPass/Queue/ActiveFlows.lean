import Mathlib.Algebra.BigOperators.Group.Finset.Basic
import Ns2XPass.Library.RingLinks
import Ns2XPass.Queue.LinkedQueue

/-! # Queues of flows

The fair queues keep one packet queue for each flow, with the number of its
packets. The flows that have packets are linked to a ring, whose head is the
flow to be served.
-/

namespace Ns2XPass

/-- The ways a call can fail: it follows a null pointer, or a loop does not end within the
number of steps it is given. -/
inductive FlowError
  | nullPointer
  | outOfSteps
  deriving DecidableEq, Repr

/-- The calls of a queue by the link it belongs to. -/
inductive QueueCall (α : Type*)
  | enque (p : α)
  | deque

section Ring

variable (ring : RingLinks ℕ) (this : ℕ) (head : Option ℕ)

/-- `activate`, which is the same for all fair queues. -/
def activate : Except FlowError (RingLinks ℕ × Option ℕ) :=
  match head with
  | none => .ok (ring.single this, some this)
  | some h =>
    match ring.prev h with
    | none => .error .nullPointer
    | some t => .ok (ring.insert t this h, some h)

/-- Link the two neighbours of a flow to each other. -/
def unlinkFlow : Except FlowError (RingLinks ℕ) :=
  match ring.next this, ring.prev this with
  | some n, some p => .ok (ring.unlink p this n)
  | _, _ => .error .nullPointer

/-- What `idle` does to the flow at the head of the ring. -/
def idleHead : Except FlowError (RingLinks ℕ × Option ℕ) :=
  if ring.next this = some this then .ok (ring, none)
  else (unlinkFlow ring this).map fun r => (r, r.next this)

def PacketSFQ.idle : Except FlowError (RingLinks ℕ × Option ℕ) :=
  if head = some this then idleHead ring this else .ok (ring, head)

def PacketDRR.idle : Except FlowError (RingLinks ℕ × Option ℕ) :=
  if head = some this then idleHead ring this
  else (unlinkFlow ring this).map fun r => (r, head)

variable {ring this} {as bs : List ℕ}

theorem activate_eq (h : ring.Spells as) (hb : this ∉ as) :
    ∃ r, activate ring this as.head? = .ok (r, (as ++ [this]).head?) ∧ r.Spells (as ++ [this]) := by
  cases as with
  | nil => exact ⟨_, rfl, RingLinks.spells_single⟩
  | cons a as =>
    obtain ⟨t, ht, hr⟩ := h.insert hb
    refine ⟨ring.insert t this a, ?_, hr⟩
    simp [activate, ht]

theorem unlinkFlow_eq (h : ring.Spells (as ++ this :: bs)) (hne : as ++ bs ≠ []) :
    ∃ r, unlinkFlow ring this = .ok r ∧ r.Spells (as ++ bs) ∧ r.next this = ring.next this := by
  obtain ⟨t, c, hc, ht, hr⟩ := h.unlink hne
  have hmem : t ∈ as ++ bs := by
    have hrot : ring.Spells (this :: (bs ++ as)) := by
      rw [← List.cons_append]
      exact h.rotate
    rw [hrot.prev_eq, List.getLast?_cons, Option.some.injEq] at ht
    cases hl : (bs ++ as).getLast? with
    | none =>
      rw [List.getLast?_eq_none_iff, List.append_eq_nil_iff] at hl
      exact absurd (List.append_eq_nil_iff.mpr hl.symm) hne
    | some u =>
      rw [hl, Option.getD_some] at ht
      have := List.mem_of_getLast? hl
      rw [← ht]
      simpa [or_comm] using this
  have hthis : this ∉ as ++ bs := by
    have := h.nodup
    rw [List.nodup_middle, List.nodup_cons] at this
    exact this.1
  have hne : this ≠ t := fun he => hthis (he ▸ hmem)
  exact ⟨ring.unlink t this c, by simp [unlinkFlow, hc, ht], hr, Function.update_of_ne hne _ _⟩

theorem idleHead_eq (h : ring.Spells (this :: bs)) :
    ∃ r, idleHead ring this = .ok (r, bs.head?) ∧ r.Spells bs := by
  have hn := h.next_eq
  cases bs with
  | nil =>
    have hs : ring.next this = some this := hn
    exact ⟨ring, by rw [idleHead, if_pos hs]; rfl, RingLinks.spells_nil⟩
  | cons b bs =>
    have h₀ : ring.Spells ([] ++ this :: b :: bs) := h
    obtain ⟨r, hu, hr, hnext⟩ := unlinkFlow_eq h₀ (by simp)
    have hb : ring.next this = some b := hn
    have hne : b ≠ this := by
      rintro rfl
      simpa using h.nodup
    refine ⟨r, ?_, hr⟩
    simp [idleHead, hb, hne, hu, Except.map, hnext]

/-- The flow that is served leaves the ring, and the next one is served after it. -/
theorem PacketSFQ.idle_eq (h : ring.Spells (this :: bs)) :
    ∃ r, PacketSFQ.idle ring this (some this) = .ok (r, bs.head?) ∧ r.Spells bs := by
  rw [PacketSFQ.idle, if_pos rfl]
  exact idleHead_eq h

/-- A flow leaves the ring from any place. -/
theorem PacketDRR.idle_eq (h : ring.Spells (as ++ this :: bs)) :
    ∃ r, PacketDRR.idle ring this (as ++ this :: bs).head? = .ok (r, (as ++ bs).head?) ∧
      r.Spells (as ++ bs) := by
  cases as with
  | nil =>
    rw [PacketDRR.idle, if_pos (by rfl)]
    exact idleHead_eq h
  | cons a as =>
    have hne : a ≠ this := by
      rintro rfl
      simpa using h.nodup
    obtain ⟨r, hu, hr, -⟩ := unlinkFlow_eq h (by simp)
    refine ⟨r, ?_, hr⟩
    simp [PacketDRR.idle, hne, hu, Except.map]

end Ring

/-! ## The packets of the flows -/

/-- The memory of the packets, and for each flow its queue and the number of its packets. -/
structure FlowQueues (α : Type*) where
  memory : PacketMemory α
  queue : ℕ → LinkedQueue α := fun _ => {}
  pkts : ℕ → ℤ := fun _ => 0

namespace FlowQueues

variable {α : Type*} [DecidableEq α] (f : FlowQueues α) (p : α) (b : ℕ)

def contents (f : FlowQueues α) (b : ℕ) : List α := (f.queue b).contents f.memory

def enque : FlowQueues α :=
  let r := (f.queue b).enque f.memory p
  { memory := r.1
    queue := Function.update f.queue b r.2
    pkts := Function.update f.pkts b (f.pkts b + 1) }

def deque : Option α × FlowQueues α :=
  let r := (f.queue b).deque f.memory
  (r.1, { f with
    queue := Function.update f.queue b r.2
    pkts := Function.update f.pkts b (f.pkts b - 1) })

/-- The queues hold the given packets, and no packet is in two of them. -/
structure Holds (f : FlowQueues α) (contents : ℕ → List α) : Prop where
  queue : ∀ b, (f.queue b).Holds f.memory (contents b)
  apart : ∀ a b c, a ∈ contents b → a ∈ contents c → b = c
  pkts : ∀ b, f.pkts b = (contents b).length

variable {f p b} {contents : ℕ → List α} {ps : List α}

omit [DecidableEq α] in
theorem Holds.contents_eq (h : f.Holds contents) : f.contents = contents :=
  funext fun b => (h.queue b).contents_eq

omit [DecidableEq α] in
theorem holds_empty (m : PacketMemory α) : Holds { memory := m } fun _ => [] where
  queue _ := LinkedQueue.holds_empty
  apart _ _ _ h := absurd h List.not_mem_nil
  pkts _ := rfl

omit [DecidableEq α] in
theorem Holds.pkts_eq_zero (h : f.Holds contents) : f.pkts b = 0 ↔ contents b = [] := by
  rw [h.pkts, Int.natCast_eq_zero, List.length_eq_zero_iff]

theorem Holds.enque (h : f.Holds contents) (hp : ∀ c, p ∉ contents c) :
    (f.enque p b).Holds (Function.update contents b (contents b ++ [p])) ∧
      (f.enque p b).memory.header = f.memory.header := by
  obtain ⟨hq, hm, hf⟩ := (h.queue b).enque (hp b)
  refine ⟨⟨?_, ?_, ?_⟩, hm⟩
  · intro c
    by_cases hc : c = b
    · subst hc
      simpa [FlowQueues.enque] using hq
    · simp only [FlowQueues.enque, Function.update_of_ne hc]
      apply (h.queue c).congr
      rintro a ha
      exact hf a (ne_of_mem_of_not_mem ha (hp c)) fun hb => hc (h.apart a c b ha hb)
  · intro a c d
    by_cases hc : c = b <;> by_cases hd : d = b
    · rintro - -
      rw [hc, hd]
    · subst hc
      rw [Function.update_self, Function.update_of_ne hd, List.mem_append, List.mem_singleton]
      rintro (ha | rfl) hb
      · exact h.apart a c d ha hb
      · exact absurd hb (hp d)
    · subst hd
      rw [Function.update_self, Function.update_of_ne hc, List.mem_append, List.mem_singleton]
      rintro ha (hb | rfl)
      · exact h.apart a c d ha hb
      · exact absurd ha (hp c)
    · rw [Function.update_of_ne hc, Function.update_of_ne hd]
      exact h.apart a c d
  · intro c
    by_cases hc : c = b
    · subst hc
      simp [FlowQueues.enque, h.pkts]
    · simp [FlowQueues.enque, Function.update_of_ne hc, h.pkts]

theorem Holds.deque (h : f.Holds contents) (hb : contents b = p :: ps) :
    (f.deque b).1 = some p ∧ (f.deque b).2.Holds (Function.update contents b ps) := by
  have hq := h.queue b
  rw [hb] at hq
  refine ⟨hq.deque.1, ?_, ?_, ?_⟩
  · intro c
    by_cases hc : c = b
    · subst hc
      simpa [FlowQueues.deque] using hq.deque.2
    · simpa [FlowQueues.deque, Function.update_of_ne hc] using h.queue c
  · have hsub : ∀ a c, a ∈ Function.update contents b ps c → a ∈ contents c := by
      intro a c ha
      by_cases hc : c = b
      · subst hc
        rw [Function.update_self] at ha
        rw [hb]
        exact List.mem_cons_of_mem p ha
      · rwa [Function.update_of_ne hc] at ha
    exact fun a c d hac had => h.apart a c d (hsub a c hac) (hsub a d had)
  · intro c
    by_cases hc : c = b
    · subst hc
      simp [FlowQueues.deque, h.pkts, hb]
    · simp [FlowQueues.deque, Function.update_of_ne hc, h.pkts]

omit [DecidableEq α] in
theorem Holds.head_eq (h : f.Holds contents) (b : ℕ) : (f.queue b).head = (contents b).head? :=
  (h.queue b).head_eq

end FlowQueues

/-- What a change of one flow does to a sum over all of them. -/
theorem sum_range_eq {n b : ℕ} {f g : ℕ → ℤ} (hb : b < n) (h : ∀ c, c ≠ b → f c = g c) :
    ∑ c ∈ Finset.range n, f c = ∑ c ∈ Finset.range n, g c + f b - g b := by
  have hm : b ∈ Finset.range n := Finset.mem_range.mpr hb
  have hrest : ∑ c ∈ (Finset.range n).erase b, f c = ∑ c ∈ (Finset.range n).erase b, g c :=
    Finset.sum_congr rfl fun c hc => h c (Finset.ne_of_mem_erase hc)
  rw [← Finset.add_sum_erase _ f hm, ← Finset.add_sum_erase _ g hm, hrest]
  omega

/-! ## The flows on the ring -/

/-- A flow joins the ring with its first packet. -/
def FlowQueues.join {α : Type*} (f : FlowQueues α) (ring : RingLinks ℕ) (head : Option ℕ) (b : ℕ) :
    Except FlowError (RingLinks ℕ × Option ℕ) :=
  if f.pkts b = 1 then activate ring b head else .ok (ring, head)

/-- The ring consists of the flows that have packets. -/
structure OnRing {α : Type*} (ring : RingLinks ℕ) (head : Option ℕ) (contents : ℕ → List α)
    (as : List ℕ) : Prop where
  spells : ring.Spells as
  head : head = as.head?
  mem : ∀ b, b ∈ as ↔ contents b ≠ []

namespace OnRing

variable {α : Type*} {ring : RingLinks ℕ} {head : Option ℕ} {contents contents' : ℕ → List α}
  {as bs : List ℕ} {b : ℕ}

theorem congr (h : OnRing ring head contents as) (he : ∀ b, contents' b = [] ↔ contents b = []) :
    OnRing ring head contents' as :=
  ⟨h.spells, h.head, fun b => (h.mem b).trans (he b).not.symm⟩

theorem turn (h : OnRing ring head contents (b :: as)) :
    OnRing ring (ring.next b) contents (as ++ [b]) where
  spells := h.spells.turn
  head := by
    rw [h.spells.next_eq]
  mem c := by
    rw [← h.mem c, List.mem_append, List.mem_singleton, List.mem_cons, or_comm]

theorem leave {r : RingLinks ℕ} (h : OnRing ring head contents (as ++ b :: bs))
    (hr : r.Spells (as ++ bs)) :
    OnRing r (as ++ bs).head? (Function.update contents b []) (as ++ bs) where
  spells := hr
  head := rfl
  mem c := by
    have hd := h.spells.nodup
    rw [List.nodup_middle, List.nodup_cons] at hd
    by_cases hc : c = b
    · subst hc
      simpa using hd.1
    · rw [Function.update_of_ne hc, ← h.mem c]
      simp [hc]

theorem join {f : FlowQueues α} {ps : List α} (h : OnRing ring head contents as)
    (hf : f.Holds (Function.update contents b ps)) (hps : ps.length = (contents b).length + 1) :
    ∃ r hd, f.join ring head b = .ok (r, hd) ∧
      OnRing r hd (Function.update contents b ps) (if contents b = [] then as ++ [b] else as) := by
  have hpkts : f.pkts b = 1 ↔ contents b = [] := by
    rw [hf.pkts, Function.update_self, hps, ← List.length_eq_zero_iff]
    omega
  have hne : ps ≠ [] := by
    rintro rfl
    simp at hps
  by_cases hb : contents b = []
  · have hnot : b ∉ as := fun hm => (h.mem b).mp hm hb
    obtain ⟨r, ha, hr⟩ := activate_eq h.spells hnot
    refine ⟨r, (as ++ [b]).head?, by rw [FlowQueues.join, if_pos (hpkts.mpr hb), h.head, ha], ?_⟩
    rw [if_pos hb]
    refine ⟨hr, rfl, fun c => ?_⟩
    by_cases hc : c = b
    · subst hc
      simp [hne]
    · simp [hc, h.mem]
  · refine ⟨ring, head, by rw [FlowQueues.join, if_neg (mt hpkts.mp hb)], ?_⟩
    rw [if_neg hb]
    apply h.congr
    intro c
    by_cases hc : c = b
    · subst hc
      simp [hne, hb]
    · rw [Function.update_of_ne hc]

end OnRing

end Ns2XPass
