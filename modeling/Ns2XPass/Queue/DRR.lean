import Mathlib.Algebra.Order.BigOperators.Group.Finset
import Mathlib.Algebra.Order.Ring.Int
import Ns2XPass.Library.Path
import Ns2XPass.Queue.ActiveFlows

/-! # Deficit round robin

Each flow is visited in turn. A visit gives it a quantum of bytes, and it sends
packets as long as its bytes suffice. When the queue holds too many bytes, the
flow with most bytes loses packets.
-/

namespace Ns2XPass

structure DRR (α : Type) where
  buckets : ℤ
  blimit : ℤ
  quantum : ℤ
  mask : Bool
  drr : FlowQueues α
  ring : RingLinks ℕ := ⟨fun _ => none, fun _ => none⟩
  bcount : ℕ → ℤ := fun _ => 0
  deficitCounter : ℕ → ℤ := fun _ => 0
  turn : ℕ → Bool := fun _ => false
  bytecnt : ℤ := 0
  pktcnt : ℤ := 0
  flwcnt : ℤ := 0
  curr : Option ℕ := none

namespace DRR

variable {α : Type} [DecidableEq α]

def hash (mask : Bool) (iph : IpHeader) : ℤ :=
  let i := if mask then iph.saddr &&& 0xfff0 else iph.saddr
  (i + i.sshiftRight 8 + ~~~ i.sshiftRight 4).toInt.tmod (2 ^ 24 - 1) + 1

section Calls

variable (ip : α → IpHeader) (s : DRR α) (p : α) (c : ℕ)

def bucketIndex : ℤ := (hash s.mask (ip p)).tmod s.buckets

def which : ℕ := (s.bucketIndex ip p).toNat

def size (s : DRR α) (p : α) : ℤ := s.drr.memory.size p

/-- The loop of `getMaxflow` at the flow `tmp`. -/
def maxflowFrom (s : DRR α) : ℕ → Option ℕ → ℕ → Except FlowError ℕ
  | 0, _, maxflow => .ok maxflow
  | _ + 1, none, _ => .error .nullPointer
  | n + 1, some tmp, maxflow =>
    maxflowFrom s n (s.ring.next tmp) (if s.bcount maxflow < s.bcount tmp then tmp else maxflow)

def getMaxflow : Except FlowError ℕ :=
  match s.curr with
  | none => .error .nullPointer
  | some c => s.maxflowFrom s.flwcnt.toNat s.curr c

/-- What happens to the counters when the packet `p` has been taken from the flow `c`. -/
def taken : DRR α :=
  { s with
    drr := (s.drr.deque c).2
    bcount := Function.update s.bcount c (s.bcount c - s.size p)
    bytecnt := s.bytecnt - s.size p
    pktcnt := s.pktcnt - 1 }

/-- The flow leaves the ring. -/
def leave : Except FlowError (DRR α) :=
  (PacketDRR.idle s.ring c s.curr).map fun r =>
    { s with ring := r.1, curr := r.2, flwcnt := s.flwcnt - 1 }

/-- One iteration of the loop that drops packets. -/
def dropOne : Except FlowError (α × DRR α) := do
  let remq ← s.getMaxflow
  match (s.drr.deque remq).1 with
  | none => .error .nullPointer
  | some p =>
    let s := s.taken p remq
    if s.drr.pkts remq = 0 then (s.leave remq).map fun s => (p, s) else .ok (p, s)

/-- The loop of `enque`, with the packets that it drops. -/
def dropFrom : ℕ → DRR α → Except FlowError (List α × DRR α)
  | n, s =>
    if s.blimit < s.bytecnt then
      match n with
      | 0 => .error .outOfSteps
      | n + 1 => do
        let (p, s) ← s.dropOne
        let (ps, s) ← dropFrom n s
        .ok (p :: ps, s)
    else .ok ([], s)

/-- `enque` up to its loop. -/
def accept : Except FlowError (DRR α) :=
  let b := s.which ip p
  let f := s.drr.enque p b
  let s := { s with
    drr := f
    bcount := Function.update s.bcount b (s.bcount b + s.size p)
    bytecnt := s.bytecnt + s.size p
    pktcnt := s.pktcnt + 1 }
  (f.join s.ring s.curr b).map fun r =>
    let s := { s with ring := r.1, curr := r.2 }
    if f.pkts b = 1 then
      { s with deficitCounter := Function.update s.deficitCounter b 0, flwcnt := s.flwcnt + 1 }
    else s

/-- `enque`, with the packets that it drops. No iteration drops fewer than one packet. -/
def enque : Except FlowError (List α × DRR α) := do
  let s ← s.accept ip p
  dropFrom s.pktcnt.toNat s

/-- A flow that is not on its turn gets a quantum. -/
def grant : DRR α :=
  if s.turn c then s
  else { s with
    deficitCounter := Function.update s.deficitCounter c (s.deficitCounter c + s.quantum)
    turn := Function.update s.turn c true }

/-- The flow gives its first packet `p`. -/
def serve : Except FlowError (DRR α) :=
  let s := { s with
    deficitCounter := Function.update s.deficitCounter c (s.deficitCounter c - s.size p) }
  let s := s.taken p c
  if s.drr.pkts c = 0 then
    { s with
      turn := Function.update s.turn c false
      deficitCounter := Function.update s.deficitCounter c 0 }.leave c
  else .ok s

/-- The flow has too few bytes left for its first packet. -/
def pass : DRR α := { s with turn := Function.update s.turn c false, curr := s.ring.next c }

/-- The loop of `deque`. -/
def serveFrom : ℕ → DRR α → Except FlowError (α × DRR α)
  | 0, _ => .error .outOfSteps
  | n + 1, s =>
    match s.curr with
    | none => .error .nullPointer
    | some c =>
      let s := s.grant c
      match (s.drr.queue c).head with
      | none => .error .nullPointer
      | some p =>
        if s.size p ≤ s.deficitCounter c then (s.serve p c).map fun s => (p, s)
        else serveFrom n (s.pass c)

/-- A bound for the steps of `deque`: every flow has sent its first packet before it has been given
more bytes than there are. -/
def steps : ℕ := s.flwcnt.toNat * s.bytecnt.toNat + 2

def deque : Except FlowError (Option α × DRR α) :=
  if s.bytecnt = 0 then .ok (none, s)
  else (serveFrom s.steps s).map fun r => (some r.1, r.2)

def contents (s : DRR α) (b : ℕ) : List α := s.drr.contents b

def step : QueueCall α → Except FlowError (DRR α)
  | .enque p => (s.enque ip p).map (·.2)
  | .deque => s.deque.map (·.2)

/-- A packet of at most `max` bytes that is not in the queue, and has a bucket. -/
def Enabled (max : ℤ) : QueueCall α → Prop
  | .enque p => (∀ b < s.buckets.toNat, p ∉ s.contents b) ∧ 0 ≤ s.bucketIndex ip p ∧
      0 < s.size p ∧ s.size p ≤ max
  | .deque => True

instance (max : ℤ) (x : QueueCall α) : Decidable (s.Enabled ip max x) :=
  match x with
  | .enque _ => inferInstanceAs (Decidable (_ ∧ _))
  | .deque => inferInstanceAs (Decidable True)

end Calls

def machine (ip : α → IpHeader) (max : ℤ) : Machine (DRR α) (QueueCall α) FlowError where
  Init s := ∃ buckets blimit quantum mask memory, 1 ≤ buckets ∧ 0 ≤ blimit ∧ 1 ≤ quantum ∧
    s = { buckets := buckets, blimit := blimit, quantum := quantum, mask := mask,
          drr := { memory := memory } }
  Enabled s := s.Enabled ip max
  step s := s.step ip

instance (ip : α → IpHeader) (max : ℤ) (s : DRR α) (x : QueueCall α) :
    Decidable ((machine ip max).Enabled s x) :=
  inferInstanceAs (Decidable (s.Enabled ip max x))

/-! ## The counters -/

variable {ip : α → IpHeader} {max : ℤ} {s s' : DRR α} {p : α} {b c : ℕ} {ps : List α}
  {contents : ℕ → List α} {as bs : List ℕ}

structure Holds (ip : α → IpHeader) (max : ℤ) (s : DRR α) (contents : ℕ → List α)
    (as : List ℕ) : Prop where
  queues : s.drr.Holds contents
  onRing : OnRing s.ring s.curr contents as
  some_bucket : 1 ≤ s.buckets
  blimit : 0 ≤ s.blimit
  quantum : 1 ≤ s.quantum
  home : ∀ b, ∀ p ∈ contents b, s.which ip p = b ∧ 0 ≤ s.bucketIndex ip p
  sizes : ∀ b, ∀ p ∈ contents b, 0 < s.size p ∧ s.size p ≤ max
  bcount : ∀ b, s.bcount b = ((contents b).map s.size).sum
  bytecnt : s.bytecnt = ∑ b ∈ Finset.range s.buckets.toNat, s.bcount b
  pktcnt : s.pktcnt = ∑ b ∈ Finset.range s.buckets.toNat, ((contents b).length : ℤ)
  flwcnt : s.flwcnt = as.length

omit [DecidableEq α] in
theorem which_lt (hb : 1 ≤ s.buckets) : s.which ip p < s.buckets.toNat := by
  have hlt : s.bucketIndex ip p < s.buckets := Int.tmod_lt_of_pos _ (by omega)
  unfold which
  omega

namespace Holds

omit [DecidableEq α] in
theorem contents_eq (h : Holds ip max s contents as) : s.contents = contents :=
  h.queues.contents_eq

omit [DecidableEq α] in
theorem lt (h : Holds ip max s contents as) (hb : contents b ≠ []) : b < s.buckets.toNat := by
  obtain ⟨p, hp⟩ := List.exists_mem_of_ne_nil _ hb
  obtain ⟨rfl, -⟩ := h.home b p hp
  exact which_lt h.some_bucket

omit [DecidableEq α] in
/-- The counters do not depend on the bytes that the flows may send. -/
theorem account (h : Holds ip max s contents as) (d : ℕ → ℤ) (t : ℕ → Bool) :
    Holds ip max { s with deficitCounter := d, turn := t } contents as :=
  ⟨h.queues, h.onRing, h.some_bucket, h.blimit, h.quantum, h.home, h.sizes, h.bcount, h.bytecnt,
    h.pktcnt, h.flwcnt⟩

omit [DecidableEq α] in
theorem bcount_nonneg (h : Holds ip max s contents as) (b : ℕ) : 0 ≤ s.bcount b := by
  rw [h.bcount]
  apply List.sum_nonneg
  simp only [List.mem_map]
  rintro n ⟨p, hp, rfl⟩
  exact (h.sizes b p hp).1.le

omit [DecidableEq α] in
theorem size_le_bytecnt (h : Holds ip max s contents as) (hp : p ∈ contents b) :
    s.size p ≤ s.bytecnt := by
  have hle : s.size p ≤ s.bcount b := by
    rw [h.bcount]
    apply List.single_le_sum
    · simp only [List.mem_map]
      rintro n ⟨a, ha, rfl⟩
      exact (h.sizes b a ha).1.le
    · exact List.mem_map_of_mem hp
  rw [h.bytecnt]
  exact hle.trans (Finset.single_le_sum (fun c _ => h.bcount_nonneg c)
    (Finset.mem_range.mpr (h.lt (List.ne_nil_of_mem hp))))

omit [DecidableEq α] in
theorem bytecnt_eq_zero (h : Holds ip max s contents as) : s.bytecnt = 0 ↔ as = [] := by
  constructor
  · intro h0
    by_contra hne
    obtain ⟨b, bs, rfl⟩ := List.exists_cons_of_ne_nil hne
    obtain ⟨p, hp⟩ := List.exists_mem_of_ne_nil _ ((h.onRing.mem b).mp List.mem_cons_self)
    have := h.size_le_bytecnt hp
    have := (h.sizes b p hp).1
    omega
  · rintro rfl
    rw [h.bytecnt]
    apply Finset.sum_eq_zero
    rintro b -
    rw [h.bcount, not_not.mp ((h.onRing.mem b).not.mp List.not_mem_nil)]
    rfl

omit [DecidableEq α] in
theorem mem_of_update {q : α} (hb : contents b = p :: ps) (c : ℕ)
    (hq : q ∈ Function.update contents b ps c) : q ∈ contents c := by
  by_cases hc : c = b
  · subst hc
    rw [Function.update_self] at hq
    rw [hb]
    exact List.mem_cons_of_mem p hq
  · rwa [Function.update_of_ne hc] at hq

section Take

variable (h : Holds ip max s contents as) (hb : contents b = p :: ps)
include h hb

omit [DecidableEq α] in
theorem bcount_taken (c : ℕ) : Function.update s.bcount b (s.bcount b - s.size p) c =
    ((Function.update contents b ps c).map s.size).sum := by
  by_cases hc : c = b
  · subst hc
    rw [Function.update_self, Function.update_self, h.bcount, hb, List.map_cons, List.sum_cons]
    omega
  · rw [Function.update_of_ne hc, Function.update_of_ne hc, h.bcount]

omit [DecidableEq α] in
theorem bytecnt_taken : s.bytecnt - s.size p = ∑ c ∈ Finset.range s.buckets.toNat,
    Function.update s.bcount b (s.bcount b - s.size p) c := by
  rw [sum_range_eq (h.lt (hb ▸ List.cons_ne_nil p ps)) fun c hc => Function.update_of_ne hc _ _,
    Function.update_self, ← h.bytecnt]
  omega

omit [DecidableEq α] in
theorem pktcnt_taken : s.pktcnt - 1 = ∑ c ∈ Finset.range s.buckets.toNat,
    ((Function.update contents b ps c).length : ℤ) := by
  rw [sum_range_eq (g := fun c => ((contents c).length : ℤ))
    (h.lt (hb ▸ List.cons_ne_nil p ps)) fun c hc => by rw [Function.update_of_ne hc],
    Function.update_self, ← h.pktcnt, hb, List.length_cons]
  omega

/-- A flow that keeps packets stays where it is. -/
theorem taken (hne : ps ≠ []) : Holds ip max (s.taken p b) (Function.update contents b ps) as where
  queues := (h.queues.deque hb).2
  onRing := h.onRing.congr fun c => by
    by_cases hc : c = b
    · subst hc
      simp [hne, hb]
    · rw [Function.update_of_ne hc]
  some_bucket := h.some_bucket
  blimit := h.blimit
  quantum := h.quantum
  home c q hq := h.home c q (mem_of_update hb c hq)
  sizes c q hq := h.sizes c q (mem_of_update hb c hq)
  bcount := h.bcount_taken hb
  bytecnt := h.bytecnt_taken hb
  pktcnt := h.pktcnt_taken hb
  flwcnt := h.flwcnt

end Take

/-- A flow leaves the ring with its last packet. -/
theorem leave (h : Holds ip max s contents (as ++ b :: bs)) (hb : contents b = [p]) :
    ∃ r, (s.taken p b).leave b = .ok { s.taken p b with
        ring := r, curr := (as ++ bs).head?, flwcnt := s.flwcnt - 1 } ∧
      Holds ip max { s.taken p b with
        ring := r, curr := (as ++ bs).head?, flwcnt := s.flwcnt - 1 }
        (Function.update contents b []) (as ++ bs) := by
  obtain ⟨r, hi, hr⟩ := PacketDRR.idle_eq h.onRing.spells
  refine ⟨r, ?_, (h.queues.deque hb).2, h.onRing.leave hr, h.some_bucket, h.blimit, h.quantum,
    fun c q hq => h.home c q (mem_of_update hb c hq),
    fun c q hq => h.sizes c q (mem_of_update hb c hq),
    h.bcount_taken hb, h.bytecnt_taken hb, h.pktcnt_taken hb, ?_⟩
  · have hc : s.curr = (as ++ b :: bs).head? := h.onRing.head
    rw [DRR.leave, DRR.taken, hc, hi]
    rfl
  · have := h.flwcnt
    simp only [List.length_append, List.length_cons] at this ⊢
    change s.flwcnt - 1 = _
    omega

theorem pkts_taken (h : Holds ip max s contents as) (hb : contents b = p :: ps) :
    (s.taken p b).drr.pkts b = 0 ↔ ps = [] := by
  have := (h.queues.deque hb).2.pkts_eq_zero (b := b)
  rwa [Function.update_self] at this

/-! ### Dropping -/

omit [DecidableEq α] in
theorem next_mem (h : Holds ip max s contents as) (hc : c ∈ as) :
    ∃ d ∈ as, s.ring.next c = some d := by
  obtain ⟨xs, ys, rfl⟩ := List.append_of_mem hc
  have hr : s.ring.Spells (c :: (ys ++ xs)) := by
    rw [← List.cons_append]
    exact h.onRing.spells.rotate
  rw [hr.next_eq]
  cases hl : ys ++ xs with
  | nil => exact ⟨c, hc, rfl⟩
  | cons d ds =>
    have : d ∈ ys ++ xs := by rw [hl]; exact List.mem_cons_self
    refine ⟨d, ?_, rfl⟩
    simp only [List.mem_append, List.mem_cons] at this ⊢
    tauto

omit [DecidableEq α] in
theorem maxflowFrom (h : Holds ip max s contents as) (n : ℕ) (hb : b ∈ as) (hc : c ∈ as) :
    ∃ d ∈ as, s.maxflowFrom n (some b) c = .ok d := by
  induction n generalizing b c with
  | zero => exact ⟨c, hc, rfl⟩
  | succ n ih =>
    obtain ⟨b', hb', hn⟩ := h.next_mem hb
    rw [DRR.maxflowFrom, hn]
    split
    · exact ih hb' hb
    · exact ih hb' hc

omit [DecidableEq α] in
theorem getMaxflow (h : Holds ip max s contents as) (hne : as ≠ []) :
    ∃ d ∈ as, s.getMaxflow = .ok d := by
  obtain ⟨b, bs, rfl⟩ := List.exists_cons_of_ne_nil hne
  have hc : s.curr = some b := h.onRing.head
  rw [DRR.getMaxflow, hc]
  exact h.maxflowFrom _ List.mem_cons_self List.mem_cons_self

end Holds

/-- What one iteration of the loop does: a flow loses its first packet, and leaves the ring if
this was its last one. The bytes that the flows may send stay as they are. -/
structure Drops (ip : α → IpHeader) (max : ℤ) (s : DRR α) (contents : ℕ → List α) (as : List ℕ)
    (b : ℕ) (p : α) (ps : List α) (s' : DRR α) : Prop where
  flow : s.getMaxflow = .ok b
  mem : b ∈ as
  first : contents b = p :: ps
  result : s.dropOne = .ok (p, s')
  holds : Holds ip max s' (Function.update contents b ps)
    (if ps = [] then as.filter (· ≠ b) else as)
  deficit : s'.deficitCounter = s.deficitCounter
  turn : s'.turn = s.turn
  quantum : s'.quantum = s.quantum
  pktcnt : s'.pktcnt = s.pktcnt - 1

namespace Holds

theorem dropOne (h : Holds ip max s contents as) (hne : as ≠ []) :
    ∃ b p ps s', Drops ip max s contents as b p ps s' := by
  obtain ⟨b, hb, hm⟩ := h.getMaxflow hne
  obtain ⟨p, ps, hps⟩ := List.exists_cons_of_ne_nil ((h.onRing.mem b).mp hb)
  have hp : (s.drr.deque b).1 = some p := (h.queues.deque hps).1
  have hpkts := h.pkts_taken hps
  by_cases hnil : ps = []
  · subst hnil
    obtain ⟨xs, ys, rfl⟩ := List.append_of_mem hb
    obtain ⟨r, hl, hh⟩ := h.leave hps
    refine ⟨b, p, [], { s.taken p b with
      ring := r, curr := (xs ++ ys).head?, flwcnt := s.flwcnt - 1 }, hm, hb, hps, ?_, ?_,
      rfl, rfl, rfl, rfl⟩
    · simp only [DRR.dropOne, hm, hp, Bind.bind, Except.bind, hpkts, if_true, hl]
      rfl
    · have hd := h.onRing.spells.nodup
      rw [List.nodup_middle, List.nodup_cons, List.mem_append, not_or] at hd
      have hfilter : (xs ++ b :: ys).filter (· ≠ b) = xs ++ ys := by
        rw [List.filter_append, List.filter_cons_of_neg (by simp),
          List.filter_eq_self.mpr fun c hc => by simpa using ne_of_mem_of_not_mem hc hd.1.1,
          List.filter_eq_self.mpr fun c hc => by simpa using ne_of_mem_of_not_mem hc hd.1.2]
      rw [if_pos rfl, hfilter]
      exact hh
  · refine ⟨b, p, ps, s.taken p b, hm, hb, hps, ?_, ?_, rfl, rfl, rfl, rfl⟩
    · simp only [DRR.dropOne, hm, hp, Bind.bind, Except.bind, hpkts, if_neg hnil]
    · rw [if_neg hnil]
      exact h.taken hps hnil

omit [DecidableEq α] in
theorem pktcnt_pos (h : Holds ip max s contents as) (hne : as ≠ []) : 0 < s.pktcnt := by
  obtain ⟨b, bs, rfl⟩ := List.exists_cons_of_ne_nil hne
  have hb := (h.onRing.mem b).mp List.mem_cons_self
  rw [h.pktcnt]
  apply Finset.sum_pos'
  · exact fun c _ => Int.natCast_nonneg _
  · refine ⟨b, Finset.mem_range.mpr (h.lt hb), ?_⟩
    exact Int.natCast_pos.mpr (List.length_pos_of_ne_nil hb)

/-- The loop drops packets until there are not too many bytes, and keeps what each of its
iterations keeps. -/
theorem dropFrom {R : ℕ → DRR α → (ℕ → List α) → List ℕ → Prop} {n : ℕ}
    (h : Holds ip max s contents as) (hn : s.pktcnt ≤ n) (hs : R n s contents as)
    (hR : ∀ n s contents as b p ps s', Holds ip max s contents as → s.blimit < s.bytecnt →
      Drops ip max s contents as b p ps s' → R (n + 1) s contents as →
      R n s' (Function.update contents b ps) (if ps = [] then as.filter (· ≠ b) else as)) :
    ∃ ps s' contents' as' m, dropFrom n s = .ok (ps, s') ∧ Holds ip max s' contents' as' ∧
      R m s' contents' as' := by
  induction n generalizing s contents as with
  | zero =>
    have hnil : as = [] := by
      by_contra hne
      have := h.pktcnt_pos hne
      omega
    have hle : ¬ s.blimit < s.bytecnt := by
      have := h.bytecnt_eq_zero.mpr hnil
      have := h.blimit
      omega
    exact ⟨[], s, contents, as, 0, by rw [DRR.dropFrom, if_neg hle], h, hs⟩
  | succ n ih =>
    by_cases hlt : s.blimit < s.bytecnt
    · have hne : as ≠ [] := by
        have := h.blimit
        exact mt h.bytecnt_eq_zero.mpr (by omega)
      obtain ⟨b, p, ps, s₁, hd⟩ := h.dropOne hne
      obtain ⟨qs, s₂, contents₂, as₂, m, hd₂, h₂, hs₂⟩ :=
        ih hd.holds (by rw [hd.pktcnt]; omega) (hR n s contents as b p ps s₁ h hlt hd hs)
      refine ⟨p :: qs, s₂, contents₂, as₂, m, ?_, h₂, hs₂⟩
      simp only [DRR.dropFrom, if_pos hlt, hd.result, Bind.bind, Except.bind, hd₂]
    · exact ⟨[], s, contents, as, n + 1, by rw [DRR.dropFrom, if_neg hlt], h, hs⟩

/-! ### Accepting -/

/-- A packet comes to the end of its flow, which joins the ring without any bytes if it had no
packets. -/
theorem accept (h : Holds ip max s contents as) (he : s.Enabled ip max (.enque p)) :
    ∃ s', s.accept ip p = .ok s' ∧
      Holds ip max s' (Function.update contents (s.which ip p) (contents (s.which ip p) ++ [p]))
        (if contents (s.which ip p) = [] then as ++ [s.which ip p] else as) ∧
      s'.deficitCounter = (if contents (s.which ip p) = [] then
        Function.update s.deficitCounter (s.which ip p) 0 else s.deficitCounter) ∧
      s'.turn = s.turn ∧ s'.quantum = s.quantum ∧ s'.size = s.size := by
  obtain ⟨hnew, h0, hpos, hmax⟩ := he
  have hfresh : ∀ c, p ∉ contents c := by
    intro c hc
    rw [h.contents_eq] at hnew
    exact hnew c (h.lt (List.ne_nil_of_mem hc)) hc
  obtain ⟨hf, hheader⟩ := h.queues.enque (b := s.which ip p) hfresh
  obtain ⟨r, hd, hj, ho⟩ := h.onRing.join hf (by simp)
  have hsize : (s.drr.enque p (s.which ip p)).memory.size = s.drr.memory.size := by
    funext q
    rw [PacketMemory.size, hheader, PacketMemory.size]
  have hpkts : (s.drr.enque p (s.which ip p)).pkts (s.which ip p) = 1 ↔
      contents (s.which ip p) = [] := by
    rw [hf.pkts, Function.update_self, List.length_append, List.length_singleton,
      ← List.length_eq_zero_iff]
    omega
  have hmem : ∀ c, ∀ q ∈ Function.update contents (s.which ip p)
      (contents (s.which ip p) ++ [p]) c, q ∈ contents c ∨ q = p ∧ c = s.which ip p := by
    intro c q hq
    by_cases hc : c = s.which ip p
    · subst hc
      rw [Function.update_self, List.mem_append, List.mem_singleton] at hq
      exact hq.imp_right fun hq => ⟨hq, rfl⟩
    · rw [Function.update_of_ne hc] at hq
      exact .inl hq
  have hb : s.which ip p < s.buckets.toNat := which_lt h.some_bucket
  let s' : DRR α := { s with
    drr := s.drr.enque p (s.which ip p)
    bcount := Function.update s.bcount (s.which ip p) (s.bcount (s.which ip p) + s.size p)
    bytecnt := s.bytecnt + s.size p
    pktcnt := s.pktcnt + 1
    ring := r
    curr := hd
    flwcnt := if contents (s.which ip p) = [] then s.flwcnt + 1 else s.flwcnt
    deficitCounter := if contents (s.which ip p) = [] then
      Function.update s.deficitCounter (s.which ip p) 0 else s.deficitCounter }
  have hsz : s'.size = s.size := hsize
  refine ⟨s', ?_, ⟨hf, ho, h.some_bucket, h.blimit, h.quantum, ?_, ?_, ?_, ?_, ?_, ?_⟩,
    rfl, rfl, rfl, hsz⟩
  · simp only [DRR.accept, hj, Except.map, hpkts]
    by_cases hnil : contents (s.which ip p) = []
    · simp only [s', if_pos hnil]
    · simp only [s', if_neg hnil]
  · rintro c q hq
    obtain hq | ⟨rfl, rfl⟩ := hmem c q hq
    · exact h.home c q hq
    · exact ⟨rfl, h0⟩
  · rintro c q hq
    rw [hsz]
    obtain hq | ⟨rfl, -⟩ := hmem c q hq
    · exact h.sizes c q hq
    · exact ⟨hpos, hmax⟩
  · intro c
    rw [hsz]
    change Function.update s.bcount _ _ c = _
    by_cases hc : c = s.which ip p
    · subst hc
      rw [Function.update_self, Function.update_self, h.bcount, List.map_append, List.sum_append]
      simp
    · rw [Function.update_of_ne hc, Function.update_of_ne hc, h.bcount]
  · change s.bytecnt + s.size p = ∑ c ∈ Finset.range s.buckets.toNat, Function.update _ _ _ c
    rw [sum_range_eq hb fun c hc => Function.update_of_ne hc _ _, Function.update_self, ← h.bytecnt]
    omega
  · change s.pktcnt + 1 = ∑ c ∈ Finset.range s.buckets.toNat, _
    rw [sum_range_eq (g := fun c => ((contents c).length : ℤ)) hb
      fun c hc => by rw [Function.update_of_ne hc], Function.update_self, ← h.pktcnt,
      List.length_append, List.length_singleton]
    omega
  · change (if _ then s.flwcnt + 1 else s.flwcnt) = _
    rw [h.flwcnt]
    split
    · rw [List.length_append, List.length_singleton]
      rfl
    · rfl

/-! ### Visits -/

omit [DecidableEq α] in
theorem grant (h : Holds ip max s contents as) (c : ℕ) : Holds ip max (s.grant c) contents as := by
  unfold DRR.grant
  split
  · exact h
  · exact h.account _ _

omit [DecidableEq α] in
theorem pass (h : Holds ip max s contents (c :: as)) :
    Holds ip max (s.pass c) contents (as ++ [c]) := by
  refine ⟨h.queues, h.onRing.turn, h.some_bucket, h.blimit, h.quantum, h.home, h.sizes, h.bcount,
    h.bytecnt, h.pktcnt, ?_⟩
  have := h.flwcnt
  simp only [List.length_append, List.length_cons, List.length_nil] at this ⊢
  exact this

/-- A flow pays for the packet that it gives, and leaves the ring without any bytes if this was its
last one. -/
theorem serve (h : Holds ip max s contents (c :: as)) (hc : contents c = p :: ps) :
    ∃ s', s.serve p c = .ok s' ∧
      Holds ip max s' (Function.update contents c ps) (if ps = [] then as else c :: as) ∧
      s'.deficitCounter = Function.update s.deficitCounter c
        (if ps = [] then 0 else s.deficitCounter c - s.size p) ∧
      s'.turn = (if ps = [] then Function.update s.turn c false else s.turn) ∧
      s'.quantum = s.quantum ∧ s'.size = s.size := by
  have hpaid := h.account (Function.update s.deficitCounter c (s.deficitCounter c - s.size p)) s.turn
  have hpkts := hpaid.pkts_taken hc
  by_cases hnil : ps = []
  · subst hnil
    have h₀ : Holds ip max s contents ([] ++ c :: as) := h
    obtain ⟨r, hl, hh⟩ := (h₀.account (Function.update s.deficitCounter c 0)
      (Function.update s.turn c false)).leave hc
    refine ⟨_, ?_, hh, rfl, rfl, rfl, rfl⟩
    unfold DRR.serve
    dsimp only
    rw [if_pos (hpkts.mpr rfl)]
    simp only [DRR.taken, Function.update_idem] at hl ⊢
    exact hl
  · simp only [if_neg hnil]
    refine ⟨_, ?_, hpaid.taken hc hnil, rfl, rfl, rfl, rfl⟩
    unfold DRR.serve
    dsimp only
    rw [if_neg (mt hpkts.mp hnil)]

end Holds

end DRR

end Ns2XPass
