import Ns2XPass.Queue.LinkedQueue
import Ns2XPass.Queue.XPassDropTail

/-! # The queue of a switch port, in memory

The statements of `XPassDropTail` on packets that are linked in memory. Each of
them does to the linked packets what the model on lists does to their headers.
-/

namespace Ns2XPass

structure LinkedDropTail (α : Type) where
  memory : PacketMemory α
  dataQ : LinkedQueue α := {}
  creditQ : LinkedQueue α := {}
  tokens : ℤ := 0
  tokenBucketClock : ℚ := 0
  creditTimer : TimerHandler := {}
  blocked : Bool := false

/-- The calls of `exit` and `abort`. -/
inductive LinkedExit
  | queue (e : QueueExit)
  | remove (e : RemoveError)
  deriving DecidableEq

/-- What becomes of the packet at an address. -/
inductive LinkedEffect (α : Type)
  | forward (p : α)
  | drop (p : α)
  deriving DecidableEq

namespace LinkedDropTail

variable {α : Type} [DecidableEq α] (cfg : QueueConfig) (now : ℚ)

def updateTokenBucket (q : LinkedDropTail α) : LinkedDropTail α :=
  let elapsedTime := now - q.tokenBucketClock
  if elapsedTime ≤ 0 then q
  else
    let newTokens := toInt (elapsedTime * cfg.tokenRefreshRate)
    { q with
      tokens := min (q.tokens + newTokens) cfg.maxTokens
      tokenBucketClock := q.tokenBucketClock + newTokens / cfg.tokenRefreshRate }

def enque (p : α) (q : LinkedDropTail α) :
    Except LinkedExit (LinkedDropTail α × List (LinkedEffect α)) := do
  if (q.memory.header p).ptype = .xpassCredit then
    let (memory, creditQ) := q.creditQ.enque q.memory p
    if cfg.creditQLimit < creditQ.bytes then
      let (memory, creditQ) ← (creditQ.remove memory p).mapError .remove
      pure ({ q with memory := memory, creditQ := creditQ }, [.drop p])
    else pure ({ q with memory := memory, creditQ := creditQ }, [])
  else
    let (memory, dataQ) := q.dataQ.enque q.memory p
    if cfg.dataQLimit < dataQ.bytes then
      let (memory, dataQ) ← (dataQ.remove memory p).mapError .remove
      pure ({ q with memory := memory, dataQ := dataQ }, [.drop p])
    else pure ({ q with memory := memory, dataQ := dataQ }, [])

def creditDelay (q : LinkedDropTail α) (p : α) : WithTop ℚ :=
  if cfg.tokenRefreshRate = 0 then ⊤
  else (((q.memory.size p - q.tokens : ℤ) / cfg.tokenRefreshRate : ℚ) : WithTop ℚ)

/-- The first two statements of `deque`. -/
def refreshed (q : LinkedDropTail α) : LinkedDropTail α :=
  { q with creditTimer := q.creditTimer.forceCancel }.updateTokenBucket cfg now

def deque (q : LinkedDropTail α) : Except LinkedExit (LinkedDropTail α × Option α) :=
  let q := q.refreshed cfg now
  match q.creditQ.head with
  | some p =>
    if q.memory.size p ≤ q.tokens then
      .ok ({ q with creditQ := (q.creditQ.deque q.memory).2, tokens := q.tokens - q.memory.size p },
        (q.creditQ.deque q.memory).1)
    else if 0 < q.dataQ.len then
      .ok ({ q with dataQ := (q.dataQ.deque q.memory).2 }, (q.dataQ.deque q.memory).1)
    else .ok ({ q with creditTimer := .resched now (q.creditDelay cfg p) }, none)
  | none =>
    if 0 < q.dataQ.len then
      .ok ({ q with dataQ := (q.dataQ.deque q.memory).2 }, (q.dataQ.deque q.memory).1)
    else if 0 < q.creditQ.bytes ∧ 0 < q.dataQ.bytes then .error (.queue .timerNotSet)
    else .ok (q, none)

def forwardUnlessBlocked (q : LinkedDropTail α) :
    Except LinkedExit (LinkedDropTail α × List (LinkedEffect α)) := do
  if q.blocked then pure (q, [])
  else
    let (q, p) ← q.deque cfg now
    match p with
    | some p => pure ({ q with blocked := true }, [.forward p])
    | none => pure (q, [])

def recv (p : α) (q : LinkedDropTail α) :
    Except LinkedExit (LinkedDropTail α × List (LinkedEffect α)) := do
  let (q, dropped) ← q.enque cfg p
  let (q, out) ← q.forwardUnlessBlocked cfg now
  pure (q, dropped ++ out)

def resume (q : LinkedDropTail α) :
    Except LinkedExit (LinkedDropTail α × List (LinkedEffect α)) := do
  let (q, p) ← q.deque cfg now
  match p with
  | some p => pure (q, [.forward p])
  | none => pure ({ q with blocked := !cfg.unblockOnResume }, [])

/-- `TimerHandler::handle` of the credit timer. -/
def handle (q : LinkedDropTail α) :
    Except LinkedExit (LinkedDropTail α × List (LinkedEffect α)) := do
  let h ← q.creditTimer.beginHandle.mapError fun e => .queue (.timer e)
  let (q, out) ← { q with creditTimer := h }.forwardUnlessBlocked cfg now
  pure ({ q with creditTimer := q.creditTimer.endHandle }, out)

end LinkedDropTail

/-- The actions of a queue, given packets by their addresses, and those of other code, which
writes to packets that are elsewhere. -/
inductive LinkedAction (α : Type)
  | tick (t : ℚ)
  | write (p : α) (cell : PacketCell α)
  | enque (p : α)
  | deque
  | recv (p : α)
  | resume
  | expire

structure LinkedState (α : Type) where
  queue : LinkedDropTail α
  clock : ℚ

namespace LinkedState

variable {α : Type} [DecidableEq α] (cfg : QueueConfig) (s : LinkedState α)

def react : LinkedAction α → Except LinkedExit (LinkedDropTail α × List (LinkedEffect α))
  | .tick _ => .ok (s.queue, [])
  | .write p cell => .ok ({ s.queue with memory := Function.update s.queue.memory p cell }, [])
  | .enque p => s.queue.enque cfg p
  | .deque => (s.queue.deque cfg s.clock).map fun r => (r.1, r.2.toList.map .forward)
  | .recv p => s.queue.recv cfg s.clock p
  | .resume => s.queue.resume cfg s.clock
  | .expire => s.queue.handle cfg s.clock

def clockAfter : LinkedAction α → ℚ
  | .tick t => t
  | .write _ _ | .enque _ | .deque | .recv _ | .resume | .expire => s.clock

def step (x : LinkedAction α) : Except LinkedExit (LinkedState α) :=
  (s.react cfg x).map fun r => { queue := r.1, clock := s.clockAfter x }

/-- The packets in either of the two queues. -/
def Queued (p : α) : Prop :=
  p ∈ s.queue.creditQ.contents s.queue.memory ∨ p ∈ s.queue.dataQ.contents s.queue.memory

/-- A packet that is in the queue does not arrive and is not written to. -/
def Enabled : LinkedAction α → Prop
  | .tick t => s.clock ≤ t
  | .write p _ | .enque p | .recv p => ¬ s.Queued p
  | .expire => s.queue.creditTimer.status = .pending
  | .deque | .resume => True

instance : DecidablePred s.Queued := fun p =>
  inferInstanceAs (Decidable (p ∈ s.queue.creditQ.contents s.queue.memory ∨
    p ∈ s.queue.dataQ.contents s.queue.memory))

instance : DecidablePred s.Enabled
  | .tick t => inferInstanceAs (Decidable (s.clock ≤ t))
  | .write p _ | .enque p | .recv p => inferInstanceAs (Decidable (¬ s.Queued p))
  | .expire => inferInstanceAs (Decidable (s.queue.creditTimer.status = .pending))
  | .deque | .resume => inferInstanceAs (Decidable True)

def effects (x : LinkedAction α) : List (LinkedEffect α) :=
  match s.react cfg x with
  | .ok r => r.2
  | .error _ => []

end LinkedState

/-- A queue in memory that any sequence of calls may reach. -/
def linkedQueueMachine (α : Type) [DecidableEq α] (cfg : QueueConfig) :
    Machine (LinkedState α) (LinkedAction α) LinkedExit where
  Init s := s.queue = { memory := s.queue.memory } ∧ 0 ≤ s.clock
  Enabled := LinkedState.Enabled
  step := LinkedState.step cfg

instance {α : Type} [DecidableEq α] (cfg : QueueConfig) (s : LinkedState α) (x : LinkedAction α) :
    Decidable ((linkedQueueMachine α cfg).Enabled s x) :=
  inferInstanceAs (Decidable (s.Enabled x))

/-! ## What the calls do to the packets in the two queues -/

section Contents

variable {α : Type} {cfg : QueueConfig} {now : ℚ} {q q' : LinkedDropTail α} {p : α}
  {cs ds cs' ds' : List α} {out : List (LinkedEffect α)}

/-- The queue has the credits `cs` and the data packets `ds`. -/
structure LinkedDropTail.Holds (q : LinkedDropTail α) (cs ds : List α) : Prop where
  credits : q.creditQ.Holds q.memory cs
  data : q.dataQ.Holds q.memory ds
  disjoint : ∀ a ∈ cs, a ∉ ds
  creditType : ∀ a ∈ cs, (q.memory.header a).ptype = .xpassCredit
  dataType : ∀ a ∈ ds, (q.memory.header a).ptype ≠ .xpassCredit

/-- A packet that arrives joins the packets of its class, unless their bytes would exceed the
limit of the class. -/
inductive Arrival (cfg : QueueConfig) (m : PacketMemory α) (p : α) (cs ds : List α) :
    List α → List α → List (LinkedEffect α) → Prop
  | credit : (m.header p).ptype = .xpassCredit → (cs.map m.size).sum + m.size p ≤ cfg.creditQLimit →
      Arrival cfg m p cs ds (cs ++ [p]) ds []
  | dropCredit : (m.header p).ptype = .xpassCredit →
      cfg.creditQLimit < (cs.map m.size).sum + m.size p → Arrival cfg m p cs ds cs ds [.drop p]
  | data : (m.header p).ptype ≠ .xpassCredit → (ds.map m.size).sum + m.size p ≤ cfg.dataQLimit →
      Arrival cfg m p cs ds cs (ds ++ [p]) []
  | dropData : (m.header p).ptype ≠ .xpassCredit →
      cfg.dataQLimit < (ds.map m.size).sum + m.size p → Arrival cfg m p cs ds cs ds [.drop p]

/-- At most one packet leaves, the first of its class. -/
inductive Departure (cs ds : List α) : List α → List α → Option α → Prop
  | credit {p : α} {cs' : List α} : cs = p :: cs' → Departure cs ds cs' ds (some p)
  | data {p : α} {ds' : List α} : ds = p :: ds' → Departure cs ds cs ds' (some p)
  | none : Departure cs ds cs ds none

/-- The headers of the packets, in the queue on lists. -/
def LinkedDropTail.onLists (q : LinkedDropTail α) (cs ds : List α) : XPassDropTail where
  dataQ := .ofList (ds.map q.memory.header)
  creditQ := .ofList (cs.map q.memory.header)
  tokens := q.tokens
  tokenBucketClock := q.tokenBucketClock
  creditTimer := q.creditTimer
  blocked := q.blocked

def LinkedEffect.onHeaders (m : PacketMemory α) : LinkedEffect α → QueueEffect
  | .forward p => .forward (m.header p)
  | .drop p => .drop (m.header p)

namespace LinkedDropTail

theorem byteLength_onLists (as : List α) (m : PacketMemory α) :
    (PacketQueue.ofList (as.map m.header ++ [m.header p])).byteLength =
      (as.map m.size).sum + m.size p := by
  simp only [PacketQueue.ofList, List.map_append, List.map_map, List.sum_append, List.map_cons,
    List.map_nil, List.sum_cons, List.sum_nil, add_zero]
  rfl

theorem deque_dataQ_onLists :
    (q.onLists cs (p :: ds)).dataQ.deque =
      (some (q.memory.header p), .ofList (ds.map q.memory.header)) :=
  PacketQueue.deque_ofList _

theorem deque_creditQ_onLists :
    (q.onLists (p :: cs) ds).creditQ.deque =
      (some (q.memory.header p), .ofList (cs.map q.memory.header)) :=
  PacketQueue.deque_ofList _

theorem length_dataQ_onLists : (q.onLists cs ds).dataQ.length = ds.length := by
  simp [onLists, PacketQueue.ofList]

/-- The other fields do not matter to the packets. -/
theorem Holds.congr (h : q.Holds cs ds) (hm : q'.memory = q.memory) (hc : q'.creditQ = q.creditQ)
    (hd : q'.dataQ = q.dataQ) : q'.Holds cs ds := by
  constructor
  · rw [hc, hm]; exact h.credits
  · rw [hd, hm]; exact h.data
  · exact h.disjoint
  · rw [hm]; exact h.creditType
  · rw [hm]; exact h.dataType

/-- Nothing but the credits changes. -/
theorem Holds.withCredits {m : PacketMemory α} {c : LinkedQueue α} (h : q.Holds cs ds)
    (hc : c.Holds m cs') (hm : m.header = q.memory.header) (hf : ∀ a ∈ ds, m a = q.memory a)
    (hcs : ∀ a ∈ cs', a ∉ ds ∧ (q.memory.header a).ptype = .xpassCredit) :
    { q with memory := m, creditQ := c }.Holds cs' ds where
  credits := hc
  data := h.data.congr hf
  disjoint a ha := (hcs a ha).1
  creditType a ha := by rw [hm]; exact (hcs a ha).2
  dataType a ha := by rw [hm]; exact h.dataType a ha

/-- Nothing but the data packets changes. -/
theorem Holds.withData {m : PacketMemory α} {d : LinkedQueue α} (h : q.Holds cs ds)
    (hd : d.Holds m ds') (hm : m.header = q.memory.header) (hf : ∀ a ∈ cs, m a = q.memory a)
    (hds : ∀ a ∈ ds', a ∉ cs ∧ (q.memory.header a).ptype ≠ .xpassCredit) :
    { q with memory := m, dataQ := d }.Holds cs ds' where
  credits := h.credits.congr hf
  data := hd
  disjoint a ha had := (hds a had).1 ha
  creditType a ha := by rw [hm]; exact h.creditType a ha
  dataType a ha := by rw [hm]; exact (hds a ha).2

variable [DecidableEq α]

theorem Holds.enque (cfg : QueueConfig) (h : q.Holds cs ds) (hcs : p ∉ cs) (hds : p ∉ ds) :
    ∃ q' out cs' ds', q.enque cfg p = .ok (q', out) ∧ Arrival cfg q.memory p cs ds cs' ds' out ∧
      q'.Holds cs' ds' ∧ q'.memory.header = q.memory.header ∧
      (q.onLists cs ds).enque cfg (q.memory.header p) =
        (q'.onLists cs' ds', out.map (·.onHeaders q.memory)) := by
  have hdc : ∀ a ∈ ds, a ≠ p ∧ a ∉ cs := fun a ha =>
    ⟨ne_of_mem_of_not_mem ha hds, fun hac => h.disjoint a hac ha⟩
  have hcd : ∀ a ∈ cs, a ≠ p ∧ a ∉ ds := fun a ha =>
    ⟨ne_of_mem_of_not_mem ha hcs, h.disjoint a ha⟩
  unfold LinkedDropTail.enque XPassDropTail.enque
  by_cases hp : (q.memory.header p).ptype = .xpassCredit
  · have hb : (q.creditQ.enque q.memory p).2.bytes =
        (cs.map q.memory.size).sum + q.memory.size p := by
      rw [LinkedQueue.enque, h.credits.bytes]
    simp only [if_pos hp, hb, onLists, PacketQueue.enque_ofList, byteLength_onLists]
    by_cases hl : cfg.creditQLimit < (cs.map q.memory.size).sum + q.memory.size p
    · obtain ⟨m', c', hr, hc, hm, hf⟩ := h.credits.enque_remove hcs
      refine ⟨{ q with memory := m', creditQ := c' }, [.drop p], cs, ds, ?_, .dropCredit hp hl, ?_,
        hm, ?_⟩
      · rw [if_pos hl]
        exact bind_eq_ok.mpr ⟨(m', c'), mapError_eq_ok.mpr hr, rfl⟩
      · exact h.withCredits hc hm (fun a ha => hf a (hdc a ha).1 (hdc a ha).2)
          fun a ha => ⟨h.disjoint a ha, h.creditType a ha⟩
      · rw [if_pos hl, ← PacketQueue.enque_ofList, PacketQueue.removeTail_enque, hm]
        rfl
    · obtain ⟨hc, hm, hf⟩ := h.credits.enque hcs
      refine ⟨_, [], cs ++ [p], ds, by rw [if_neg hl]; rfl, .credit hp (not_lt.mp hl), ?_, hm, ?_⟩
      · apply h.withCredits hc hm fun a ha => hf a (hdc a ha).1 (hdc a ha).2
        rintro a ha
        rcases List.mem_append.mp ha with ha | ha
        · exact ⟨h.disjoint a ha, h.creditType a ha⟩
        · rw [List.mem_singleton.mp ha]
          exact ⟨hds, hp⟩
      · rw [if_neg hl, hm, List.map_append]
        rfl
  · have hb : (q.dataQ.enque q.memory p).2.bytes =
        (ds.map q.memory.size).sum + q.memory.size p := by
      rw [LinkedQueue.enque, h.data.bytes]
    simp only [if_neg hp, hb, onLists, PacketQueue.enque_ofList, byteLength_onLists]
    by_cases hl : cfg.dataQLimit < (ds.map q.memory.size).sum + q.memory.size p
    · obtain ⟨m', d', hr, hd, hm, hf⟩ := h.data.enque_remove hds
      refine ⟨{ q with memory := m', dataQ := d' }, [.drop p], cs, ds, ?_, .dropData hp hl, ?_,
        hm, ?_⟩
      · rw [if_pos hl]
        exact bind_eq_ok.mpr ⟨(m', d'), mapError_eq_ok.mpr hr, rfl⟩
      · exact h.withData hd hm (fun a ha => hf a (hcd a ha).1 (hcd a ha).2)
          fun a ha => ⟨(hdc a ha).2, h.dataType a ha⟩
      · rw [if_pos hl, ← PacketQueue.enque_ofList, PacketQueue.removeTail_enque, hm]
        rfl
    · obtain ⟨hd, hm, hf⟩ := h.data.enque hds
      refine ⟨_, [], cs, ds ++ [p], by rw [if_neg hl]; rfl, .data hp (not_lt.mp hl), ?_, hm, ?_⟩
      · apply h.withData hd hm fun a ha => hf a (hcd a ha).1 (hcd a ha).2
        rintro a ha
        rcases List.mem_append.mp ha with ha | ha
        · exact ⟨(hdc a ha).2, h.dataType a ha⟩
        · rw [List.mem_singleton.mp ha]
          exact ⟨hcs, hp⟩
      · rw [if_neg hl, hm, List.map_append]
        rfl

/-! ### Departures -/

omit [DecidableEq α] in
theorem refreshed_eq (cfg : QueueConfig) (now : ℚ) (q : LinkedDropTail α) :
    ∃ n t, q.refreshed cfg now =
      { q with creditTimer := q.creditTimer.forceCancel, tokens := n, tokenBucketClock := t } := by
  unfold refreshed updateTokenBucket
  dsimp only
  split_ifs
  · exact ⟨_, _, rfl⟩
  · exact ⟨_, _, rfl⟩

omit [DecidableEq α] in
theorem onLists_refreshed :
    (q.refreshed cfg now).onLists cs ds = (q.onLists cs ds).refreshed cfg now := by
  unfold refreshed updateTokenBucket XPassDropTail.refreshed XPassDropTail.updateTokenBucket
  dsimp only [onLists]
  split_ifs
  · rfl
  · rfl

omit [DecidableEq α] in
theorem Holds.refreshed (h : q.Holds cs ds) : (q.refreshed cfg now).Holds cs ds := by
  obtain ⟨n, t, hr⟩ := refreshed_eq cfg now q
  rw [hr]
  exact h.congr rfl rfl rfl

omit [DecidableEq α] in
theorem refreshed_memory : (q.refreshed cfg now).memory = q.memory := by
  obtain ⟨n, t, hr⟩ := refreshed_eq cfg now q
  rw [hr]

theorem Holds.takeCredit (h : q.Holds (p :: cs) ds) (n : ℤ) :
    { q with creditQ := (q.creditQ.deque q.memory).2, tokens := n }.Holds cs ds :=
  ⟨h.credits.deque.2, h.data, fun a ha => h.disjoint a (List.mem_cons_of_mem p ha),
    fun a ha => h.creditType a (List.mem_cons_of_mem p ha), h.dataType⟩

theorem Holds.takeData (h : q.Holds cs (p :: ds)) :
    { q with dataQ := (q.dataQ.deque q.memory).2 }.Holds cs ds :=
  ⟨h.credits, h.data.deque.2, fun a ha hd => h.disjoint a ha (List.mem_cons_of_mem p hd),
    h.creditType, fun a ha => h.dataType a (List.mem_cons_of_mem p ha)⟩

/-- `deque` takes the same packet from the linked queues as from the lists. -/
theorem Holds.deque (cfg : QueueConfig) (now : ℚ) (h : q.Holds cs ds) :
    ∃ q' o cs' ds', q.deque cfg now = .ok (q', o) ∧ Departure cs ds cs' ds' o ∧
      q'.Holds cs' ds' ∧ q'.memory = q.memory ∧
      (q.onLists cs ds).deque cfg now = .ok (q'.onLists cs' ds', o.map q.memory.header) := by
  unfold LinkedDropTail.deque XPassDropTail.deque
  have hr : (q.refreshed cfg now).Holds cs ds := h.refreshed
  have hm : (q.refreshed cfg now).memory = q.memory := refreshed_memory
  rw [← onLists_refreshed, ← hm]
  generalize q.refreshed cfg now = r at hr
  dsimp only
  rw [hr.credits.head_eq, hr.data.len, length_dataQ_onLists]
  cases cs with
  | nil =>
    rw [show (r.onLists [] ds).creditQ.head = none from rfl, List.head?_nil]
    dsimp only
    cases ds with
    | nil =>
      have hb : ¬ 0 < (r.onLists [] []).creditQ.byteLength := lt_irrefl 0
      have hb' : ¬ 0 < r.creditQ.bytes := by simp [hr.credits.bytes]
      rw [if_neg (by simp), if_neg (fun hh => hb' hh.1), if_neg (by simp),
        if_neg (fun hh => hb hh.1)]
      exact ⟨r, none, [], [], rfl, .none, hr, rfl, rfl⟩
    | cons p ds =>
      rw [if_pos (by simp), if_pos (by simp), hr.data.deque.1, deque_dataQ_onLists]
      exact ⟨_, some p, [], ds, rfl, .data rfl, hr.takeData, rfl, rfl⟩
  | cons c cs =>
    rw [show (r.onLists (c :: cs) ds).creditQ.head = some (r.memory.header c) from rfl,
      List.head?_cons]
    dsimp only
    by_cases ht : r.memory.size c ≤ r.tokens
    · rw [if_pos ht, if_pos (show (r.memory.header c).size ≤ (r.onLists (c :: cs) ds).tokens from ht),
        hr.credits.deque.1, deque_creditQ_onLists]
      exact ⟨_, some c, cs, ds, rfl, .credit rfl, hr.takeCredit _, rfl, rfl⟩
    · rw [if_neg ht,
        if_neg (show ¬ (r.memory.header c).size ≤ (r.onLists (c :: cs) ds).tokens from ht)]
      cases ds with
      | nil =>
        rw [if_neg (by simp), if_neg (by simp)]
        exact ⟨_, none, c :: cs, [], rfl, .none,
          hr.congr rfl rfl rfl, rfl, rfl⟩
      | cons p ds =>
        rw [if_pos (by simp), if_pos (by simp), hr.data.deque.1, deque_dataQ_onLists]
        exact ⟨_, some p, c :: cs, ds, rfl, .data rfl, hr.takeData, rfl, rfl⟩

theorem Holds.forwardUnlessBlocked (cfg : QueueConfig) (now : ℚ) (h : q.Holds cs ds) :
    ∃ q' o cs' ds', q.forwardUnlessBlocked cfg now = .ok (q', o.toList.map .forward) ∧
      Departure cs ds cs' ds' o ∧ q'.Holds cs' ds' ∧ q'.memory = q.memory ∧
      (q.onLists cs ds).forwardUnlessBlocked cfg now =
        .ok (q'.onLists cs' ds', o.toList.map fun p => .forward (q.memory.header p)) := by
  unfold LinkedDropTail.forwardUnlessBlocked XPassDropTail.forwardUnlessBlocked
  by_cases hb : q.blocked = true
  · rw [if_pos hb, if_pos (show (q.onLists cs ds).blocked = true from hb)]
    exact ⟨q, none, cs, ds, rfl, .none, h, rfl, rfl⟩
  · rw [if_neg hb, if_neg (show ¬ (q.onLists cs ds).blocked = true from hb)]
    obtain ⟨q', o, cs', ds', hq, hd, h', hm, hl⟩ := h.deque cfg now
    rw [hq, hl]
    cases o with
    | none => exact ⟨q', none, cs', ds', rfl, hd, h', hm, rfl⟩
    | some p =>
      exact ⟨_, some p, cs', ds', rfl, hd,
        h'.congr rfl rfl rfl, hm, rfl⟩

theorem Holds.recv (cfg : QueueConfig) (now : ℚ) (h : q.Holds cs ds) (hcs : p ∉ cs) (hds : p ∉ ds) :
    ∃ q' out o cs₁ ds₁ cs' ds', q.recv cfg now p = .ok (q', out ++ o.toList.map .forward) ∧
      Arrival cfg q.memory p cs ds cs₁ ds₁ out ∧ Departure cs₁ ds₁ cs' ds' o ∧ q'.Holds cs' ds' ∧
      q'.memory.header = q.memory.header ∧
      (q.onLists cs ds).recv cfg now (q.memory.header p) =
        .ok (q'.onLists cs' ds', out.map (·.onHeaders q.memory) ++
          o.toList.map fun p => .forward (q.memory.header p)) := by
  obtain ⟨q₁, out, cs₁, ds₁, hq, ha, h₁, hm, hl⟩ := h.enque cfg hcs hds
  obtain ⟨q', o, cs', ds', hq', hd, h', hm', hl'⟩ := h₁.forwardUnlessBlocked cfg now
  refine ⟨q', out, o, cs₁, ds₁, cs', ds', ?_, ha, hd, h', by rw [hm', hm], ?_⟩
  · exact bind_eq_ok.mpr ⟨_, hq, bind_eq_ok.mpr ⟨_, hq', rfl⟩⟩
  · rw [XPassDropTail.recv, hl, ← hm]
    exact bind_eq_ok.mpr ⟨_, hl', rfl⟩

theorem Holds.resume (cfg : QueueConfig) (now : ℚ) (h : q.Holds cs ds) :
    ∃ q' o cs' ds', q.resume cfg now = .ok (q', o.toList.map .forward) ∧
      Departure cs ds cs' ds' o ∧ q'.Holds cs' ds' ∧ q'.memory = q.memory ∧
      (q.onLists cs ds).resume cfg now =
        .ok (q'.onLists cs' ds', o.toList.map fun p => .forward (q.memory.header p)) := by
  obtain ⟨q', o, cs', ds', hq, hd, h', hm, hl⟩ := h.deque cfg now
  unfold LinkedDropTail.resume XPassDropTail.resume
  rw [hq, hl]
  cases o with
  | none =>
    exact ⟨_, none, cs', ds', rfl, hd,
      h'.congr rfl rfl rfl, hm, rfl⟩
  | some p => exact ⟨q', some p, cs', ds', rfl, hd, h', hm, rfl⟩

theorem Holds.handle (cfg : QueueConfig) (now : ℚ) (h : q.Holds cs ds)
    (hp : q.creditTimer.status = .pending) :
    ∃ q' o cs' ds', q.handle cfg now = .ok (q', o.toList.map .forward) ∧
      Departure cs ds cs' ds' o ∧ q'.Holds cs' ds' ∧ q'.memory = q.memory ∧
      (q.onLists cs ds).handle cfg now =
        .ok (q'.onLists cs' ds', o.toList.map fun p => .forward (q.memory.header p)) := by
  have hb : q.creditTimer.beginHandle = .ok { q.creditTimer with status := .handling } :=
    TimerHandler.beginHandle_eq_ok_iff.mpr ⟨hp, rfl⟩
  have h₀ : { q with creditTimer := { q.creditTimer with status := .handling } }.Holds cs ds :=
    h.congr rfl rfl rfl
  obtain ⟨q', o, cs', ds', hq, hd, h', hm, hl⟩ :=
    h₀.forwardUnlessBlocked cfg now
  refine ⟨{ q' with creditTimer := q'.creditTimer.endHandle }, o, cs', ds', ?_, hd, ?_, hm, ?_⟩
  · unfold LinkedDropTail.handle
    rw [hb]
    exact bind_eq_ok.mpr ⟨_, rfl, bind_eq_ok.mpr ⟨_, hq, rfl⟩⟩
  · exact h'.congr rfl rfl rfl
  · unfold XPassDropTail.handle
    rw [show (q.onLists cs ds).creditTimer.beginHandle = _ from hb]
    exact bind_eq_ok.mpr ⟨_, rfl, bind_eq_ok.mpr ⟨_, hl, rfl⟩⟩

theorem Holds.write (cell : PacketCell α) (h : q.Holds cs ds) (hcs : p ∉ cs) (hds : p ∉ ds) :
    { q with memory := Function.update q.memory p cell }.Holds cs ds ∧
      { q with memory := Function.update q.memory p cell }.onLists cs ds = q.onLists cs ds := by
  have hf : ∀ as : List α, p ∉ as → ∀ a ∈ as, Function.update q.memory p cell a = q.memory a :=
    fun as has a ha => Function.update_of_ne (ne_of_mem_of_not_mem ha has) cell q.memory
  have hm : ∀ as : List α, p ∉ as → ∀ a ∈ as,
      PacketMemory.header (Function.update q.memory p cell) a = q.memory.header a :=
    fun as has a ha => congrArg PacketCell.header (hf as has a ha)
  constructor
  · constructor
    · exact h.credits.congr (hf cs hcs)
    · exact h.data.congr (hf ds hds)
    · exact h.disjoint
    · rintro a ha
      simp only [hm cs hcs a ha]
      exact h.creditType a ha
    · rintro a ha
      simp only [hm ds hds a ha]
      exact h.dataType a ha
  · simp only [onLists, List.map_congr_left (hm cs hcs), List.map_congr_left (hm ds hds)]

end LinkedDropTail

/-- The packet that an action gives to `enque`. -/
def LinkedAction.arrival : LinkedAction α → Option α
  | .enque p | .recv p => some p
  | .tick _ | .write _ _ | .deque | .resume | .expire => none

namespace LinkedState

variable {s : LinkedState α} {x : LinkedAction α}

/-- What the first part of an action does to the packets in the two queues. -/
def Arrives (cfg : QueueConfig) (m : PacketMemory α) (cs ds cs' ds' : List α)
    (out : List (LinkedEffect α)) : Option α → Prop
  | some p => p ∉ cs ∧ p ∉ ds ∧ Arrival cfg m p cs ds cs' ds' out
  | none => cs' = cs ∧ ds' = ds ∧ out = []

variable [DecidableEq α]

/-- The memory that an action finds once other code has written to it. -/
def memoryAfter (s : LinkedState α) : LinkedAction α → PacketMemory α
  | .write p cell => Function.update s.queue.memory p cell
  | .tick _ | .enque _ | .deque | .recv _ | .resume | .expire => s.queue.memory

/-- The action that the queue on lists takes meanwhile. -/
def actionOnLists (s : LinkedState α) : LinkedAction α → QueueAction
  | .tick t => .tick t
  | .write _ _ => .tick s.clock
  | .enque p => .enque (s.queue.memory.header p)
  | .deque => .deque
  | .recv p => .recv (s.queue.memory.header p)
  | .resume => .resume
  | .expire => .expire

def onLists (s : LinkedState α) (cs ds : List α) : QueueState where
  queue := s.queue.onLists cs ds
  clock := s.clock

omit [DecidableEq α] in
theorem queued_iff (h : s.queue.Holds cs ds) : s.Queued p ↔ p ∈ cs ∨ p ∈ ds := by
  rw [Queued, h.credits.contents_eq, h.data.contents_eq]

/-- Every action succeeds: what arrives joins its class or is dropped, then at most one packet
leaves, and the queue on lists does the same to the headers. -/
theorem react_holds (cfg : QueueConfig) (h : s.queue.Holds cs ds) (he : s.Enabled x) :
    ∃ q' out o cs₁ ds₁ cs' ds', s.react cfg x = .ok (q', out ++ o.toList.map .forward) ∧
      Arrives cfg s.queue.memory cs ds cs₁ ds₁ out x.arrival ∧ Departure cs₁ ds₁ cs' ds' o ∧
      q'.Holds cs' ds' ∧ q'.memory.header = (s.memoryAfter x).header ∧
      (s.onLists cs ds).react cfg (s.actionOnLists x) =
        .ok (q'.onLists cs' ds', out.map (·.onHeaders s.queue.memory) ++
          o.toList.map fun p => .forward (s.queue.memory.header p)) := by
  cases x with
  | tick t => exact ⟨s.queue, [], none, cs, ds, cs, ds, rfl, ⟨rfl, rfl, rfl⟩, .none, h, rfl, rfl⟩
  | write p cell =>
    have hp : ¬ (p ∈ cs ∨ p ∈ ds) := (queued_iff h).not.mp he
    rw [not_or] at hp
    obtain ⟨hw, hl⟩ := h.write cell hp.1 hp.2
    refine ⟨_, [], none, cs, ds, cs, ds, rfl, ⟨rfl, rfl, rfl⟩, .none, hw, rfl, ?_⟩
    rw [hl]
    rfl
  | enque p =>
    have hp : ¬ (p ∈ cs ∨ p ∈ ds) := (queued_iff h).not.mp he
    rw [not_or] at hp
    obtain ⟨q', out, cs', ds', hq, ha, h', hm, hl⟩ := h.enque cfg hp.1 hp.2
    refine ⟨q', out, none, cs', ds', cs', ds', ?_, ⟨hp.1, hp.2, ha⟩, .none, h', hm, ?_⟩
    · rw [Option.toList_none, List.map_nil, List.append_nil]
      exact hq
    · rw [Option.toList_none, List.map_nil, List.append_nil]
      exact congrArg Except.ok hl
  | deque =>
    obtain ⟨q', o, cs', ds', hq, hd, h', hm, hl⟩ := h.deque cfg s.clock
    refine ⟨q', [], o, cs, ds, cs', ds', ?_, ⟨rfl, rfl, rfl⟩, hd, h', by rw [hm]; rfl, ?_⟩
    · rw [react, hq]
      rfl
    · have hr : (s.onLists cs ds).react cfg .deque =
          ((s.queue.onLists cs ds).deque cfg s.clock).map fun r => (r.1, r.2.toList.map .forward) :=
        rfl
      rw [actionOnLists, hr, hl]
      cases o <;> rfl
  | recv p =>
    have hp : ¬ (p ∈ cs ∨ p ∈ ds) := (queued_iff h).not.mp he
    rw [not_or] at hp
    obtain ⟨q', out, o, cs₁, ds₁, cs', ds', hq, ha, hd, h', hm, hl⟩ :=
      h.recv cfg s.clock hp.1 hp.2
    exact ⟨q', out, o, cs₁, ds₁, cs', ds', hq, ⟨hp.1, hp.2, ha⟩, hd, h', hm, hl⟩
  | resume =>
    obtain ⟨q', o, cs', ds', hq, hd, h', hm, hl⟩ := h.resume cfg s.clock
    exact ⟨q', [], o, cs, ds, cs', ds', hq, ⟨rfl, rfl, rfl⟩, hd, h', by rw [hm]; rfl, hl⟩
  | expire =>
    obtain ⟨q', o, cs', ds', hq, hd, h', hm, hl⟩ := h.handle cfg s.clock he
    exact ⟨q', [], o, cs, ds, cs', ds', hq, ⟨rfl, rfl, rfl⟩, hd, h', by rw [hm]; rfl, hl⟩

end LinkedState

/-- The linked queues do what the queues on lists do: a state that is reachable in memory stands
for one that is reachable there. -/
theorem linked_refines [DecidableEq α] {s : LinkedState α}
    (h : (linkedQueueMachine α cfg).Reachable s) :
    ∃ cs ds, s.queue.Holds cs ds ∧ (queueMachine cfg).Reachable (s.onLists cs ds) := by
  induction h with
  | @init s hi =>
    refine ⟨[], [], ?_, .init ⟨?_, hi.2⟩⟩
    · rw [hi.1]
      exact ⟨LinkedQueue.holds_empty, LinkedQueue.holds_empty, by simp, by simp, by simp⟩
    · rw [LinkedState.onLists, hi.1]
      rfl
  | @step s s' x _ he hs ih =>
    obtain ⟨cs, ds, hq, hr⟩ := ih
    obtain ⟨q', out, o, cs₁, ds₁, cs', ds', hreact, -, -, hq', -, hl⟩ :=
      LinkedState.react_holds cfg hq he
    have hs' : s' = { queue := q', clock := s.clockAfter x } := by
      have : s.step cfg x = .ok s' := hs
      rw [LinkedState.step, hreact] at this
      exact (Except.ok.inj this).symm
    have hclock : (s.onLists cs ds).clockAfter (s.actionOnLists x) = s.clockAfter x := by
      cases x <;> rfl
    have hen : (queueMachine cfg).Enabled (s.onLists cs ds) (s.actionOnLists x) := by
      cases x with
      | tick | expire => exact he
      | write => exact le_rfl
      | _ => trivial
    refine ⟨cs', ds', by rw [hs']; exact hq', hr.step hen ?_⟩
    change (s.onLists cs ds).step cfg (s.actionOnLists x) = _
    rw [QueueState.step, hl, Except.map, hclock, hs']
    rfl

end Contents

end Ns2XPass
