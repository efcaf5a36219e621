import Ns2XPass.Queue.LinkedDropTail

/-! # What becomes of the packets of a switch port

Packets are numbered as they arrive. A log records which of them the queue has
forwarded and dropped; the others are linked in its two queues.
-/

namespace Ns2XPass

/-- Arrivals in order, the number of the latest arrival at each address, and the numbers of the
packets that were forwarded and dropped. -/
structure ArrivalLog (α : Type) where
  arrived : List Packet := []
  latest : α → ℕ := fun _ => 0
  forwarded : List ℕ := []
  dropped : List ℕ := []

namespace ArrivalLog

variable {α : Type} (l : ArrivalLog α)

/-- Whether the arrival of the given number is a credit. -/
def credit (n : ℕ) : Bool := l.arrived[n]?.any (·.ptype = .xpassCredit)

def record (l : ArrivalLog α) : LinkedEffect α → ArrivalLog α
  | .forward p => { l with forwarded := l.forwarded ++ [l.latest p] }
  | .drop p => { l with dropped := l.dropped ++ [l.latest p] }

variable [DecidableEq α]

def arrive (m : PacketMemory α) : Option α → ArrivalLog α
  | none => l
  | some p =>
    { l with
      arrived := l.arrived ++ [m.header p]
      latest := Function.update l.latest p l.arrived.length }

/-- The log after an action. -/
def after (cfg : QueueConfig) (s : LinkedState α) (x : LinkedAction α) : ArrivalLog α :=
  (s.effects cfg x).foldl record (l.arrive s.queue.memory x.arrival)

end ArrivalLog

/-- The queue in memory beside the log of its packets. -/
def loggedMachine (α : Type) [DecidableEq α] (cfg : QueueConfig) :
    Machine (LinkedState α × ArrivalLog α) (LinkedAction α) LinkedExit :=
  (linkedQueueMachine α cfg).withHistory {} fun s x _ l => l.after cfg s x

instance {α : Type} [DecidableEq α] (cfg : QueueConfig) (p : LinkedState α × ArrivalLog α)
    (x : LinkedAction α) : Decidable ((loggedMachine α cfg).Enabled p x) :=
  inferInstanceAs (Decidable (p.1.Enabled x))

namespace ArrivalLog

variable {α : Type} {cfg : QueueConfig} {l : ArrivalLog α} {m : PacketMemory α}
  {cs ds cs' ds' : List α} {out : List (LinkedEffect α)} {p : α}

/-- Every arrival is forwarded once, dropped once or in one of the queues, and the packets of a
class leave in order. -/
structure Accounts (l : ArrivalLog α) (m : PacketMemory α) (cs ds : List α) : Prop where
  once : ∀ n, l.forwarded.count n + l.dropped.count n + (cs.map l.latest).count n +
    (ds.map l.latest).count n = if n < l.arrived.length then 1 else 0
  header : ∀ a, a ∈ cs ∨ a ∈ ds → l.arrived[l.latest a]? = some (m.header a)
  creditOrder : (l.forwarded.filter l.credit ++ cs.map l.latest).Pairwise (· < ·)
  dataOrder : (l.forwarded.filter (!l.credit ·) ++ ds.map l.latest).Pairwise (· < ·)

theorem accounts_start : ({} : ArrivalLog α).Accounts m [] [] where
  once n := by simp
  header a ha := by simp at ha
  creditOrder := .nil
  dataOrder := .nil

theorem Accounts.congr {m' : PacketMemory α} (h : l.Accounts m cs ds)
    (hm : ∀ a, a ∈ cs ∨ a ∈ ds → m'.header a = m.header a) : l.Accounts m' cs ds :=
  ⟨h.once, fun a ha => by rw [hm a ha]; exact h.header a ha, h.creditOrder, h.dataOrder⟩

/-- The numbers in use are those of arrivals. -/
theorem Accounts.lt (h : l.Accounts m cs ds) {n : ℕ}
    (hn : n ∈ l.forwarded ∨ n ∈ cs.map l.latest ∨ n ∈ ds.map l.latest) : n < l.arrived.length := by
  have ho := h.once n
  by_contra hlt
  rw [if_neg hlt] at ho
  simp only [← List.count_pos_iff] at hn
  omega

/-! ## Arrivals -/

section Arrive

variable [DecidableEq α]

/-- A new number at the address of a packet that is not queued changes nothing for the others. -/
theorem Accounts.arrive (h : l.Accounts m cs ds) (hcs : p ∉ cs) (hds : p ∉ ds) :
    cs.map (l.arrive m (some p)).latest = cs.map l.latest ∧
      ds.map (l.arrive m (some p)).latest = ds.map l.latest ∧
      l.forwarded.filter (l.arrive m (some p)).credit = l.forwarded.filter l.credit ∧
      l.forwarded.filter (!(l.arrive m (some p)).credit ·) = l.forwarded.filter (!l.credit ·) ∧
      ∀ a, a ∈ cs ∨ a ∈ ds →
        (l.arrive m (some p)).arrived[(l.arrive m (some p)).latest a]? = some (m.header a) := by
  have hlatest : ∀ a, a ≠ p → (l.arrive m (some p)).latest a = l.latest a := fun a ha =>
    Function.update_of_ne ha _ l.latest
  have hget : ∀ n, n < l.arrived.length → (l.arrive m (some p)).arrived[n]? = l.arrived[n]? :=
    fun n hn => List.getElem?_append_left hn
  have hcredit : ∀ n ∈ l.forwarded, (l.arrive m (some p)).credit n = l.credit n := fun n hn => by
    rw [ArrivalLog.credit, hget n (h.lt (.inl hn)), ArrivalLog.credit]
  refine ⟨?_, ?_, ?_, ?_, ?_⟩
  · exact List.map_congr_left fun a ha => hlatest a (ne_of_mem_of_not_mem ha hcs)
  · exact List.map_congr_left fun a ha => hlatest a (ne_of_mem_of_not_mem ha hds)
  · exact List.filter_congr hcredit
  · exact List.filter_congr fun n hn => by rw [hcredit n hn]
  · rintro a ha
    have hap : a ≠ p := by
      rintro rfl
      exact ha.elim hcs hds
    have hlt : l.latest a < l.arrived.length :=
      h.lt (.inr (ha.imp (List.mem_map_of_mem) (List.mem_map_of_mem)))
    rw [hlatest a hap, hget _ hlt]
    exact h.header a ha

theorem arrive_latest : (l.arrive m (some p)).latest p = l.arrived.length :=
  Function.update_self p _ l.latest

theorem arrive_get : (l.arrive m (some p)).arrived[l.arrived.length]? = some (m.header p) :=
  List.getElem?_concat_length

/-- An arrival is queued behind the packets of its class or dropped. -/
theorem Accounts.arrival (h : l.Accounts m cs ds) (hcs : p ∉ cs) (hds : p ∉ ds)
    (ha : Arrival cfg m p cs ds cs' ds' out) :
    (out.foldl record (l.arrive m (some p))).Accounts m cs' ds' := by
  obtain ⟨hc, hd, hfc, hfd, hget⟩ := h.arrive (m := m) hcs hds
  have hp : (l.arrive m (some p)).latest p = l.arrived.length := arrive_latest
  have hgetp : (l.arrive m (some p)).arrived[l.arrived.length]? = some (m.header p) := arrive_get
  have hlen : (l.arrive m (some p)).arrived.length = l.arrived.length + 1 := List.length_append
  have hfw : (l.arrive m (some p)).forwarded = l.forwarded := rfl
  have hdr : (l.arrive m (some p)).dropped = l.dropped := rfl
  generalize l.arrive m (some p) = l' at hc hd hfc hfd hget hp hgetp hlen hfw hdr ⊢
  have hcount : ∀ n, List.count n l.forwarded + List.count n l.dropped +
      List.count n (cs.map l.latest) + List.count n (ds.map l.latest) +
      List.count n [l.arrived.length] = if n < l'.arrived.length then 1 else 0 := fun n => by
    rw [h.once n, hlen, List.count_singleton]
    grind
  have horder : ∀ ns : List ℕ, (∀ n ∈ ns, n < l.arrived.length) → ns.Pairwise (· < ·) →
      (ns ++ [l.arrived.length]).Pairwise (· < ·) := fun ns hlt hns =>
    List.pairwise_append.mpr ⟨hns, List.pairwise_singleton _ _, fun n hn k hk => by
      rw [List.mem_singleton.mp hk]
      exact hlt n hn⟩
  have hheader : ∀ a, a = p ∨ a ∈ cs ∨ a ∈ ds → l'.arrived[l'.latest a]? = some (m.header a) := by
    rintro a (rfl | ha)
    · rw [hp, hgetp]
    · exact hget a ha
  cases ha with
  | credit ht hle =>
    change l'.Accounts m (cs ++ [p]) ds
    refine ⟨fun n => ?_, fun a ha => hheader a ?_, ?_, ?_⟩
    · rw [← hcount n, hfw, hdr, hd, List.map_append, hc, List.count_append, List.map_singleton, hp]
      omega
    · simp only [List.mem_append, List.mem_singleton] at ha
      tauto
    · rw [hfw, hfc, List.map_append, hc, List.map_singleton, hp, ← List.append_assoc]
      apply horder _ _ h.creditOrder
      rintro n hn
      rcases List.mem_append.mp hn with hn | hn
      · exact h.lt (.inl (List.mem_of_mem_filter hn))
      · exact h.lt (.inr (.inl hn))
    · rw [hfw, hfd, hd]
      exact h.dataOrder
  | data ht hle =>
    change l'.Accounts m cs (ds ++ [p])
    refine ⟨fun n => ?_, fun a ha => hheader a ?_, ?_, ?_⟩
    · rw [← hcount n, hfw, hdr, hc, List.map_append, hd, List.count_append, List.map_singleton, hp]
      omega
    · simp only [List.mem_append, List.mem_singleton] at ha
      tauto
    · rw [hfw, hfc, hc]
      exact h.creditOrder
    · rw [hfw, hfd, List.map_append, hd, List.map_singleton, hp, ← List.append_assoc]
      apply horder _ _ h.dataOrder
      rintro n hn
      rcases List.mem_append.mp hn with hn | hn
      · exact h.lt (.inl (List.mem_of_mem_filter hn))
      · exact h.lt (.inr (.inr hn))
  | dropCredit | dropData =>
    change { l' with dropped := l'.dropped ++ [l'.latest p] }.Accounts m cs ds
    refine ⟨fun n => ?_, hget, ?_, ?_⟩
    · simp only
      rw [← hcount n, hfw, hdr, hc, hd, List.count_append, hp]
      omega
    · change (l'.forwarded.filter l'.credit ++ cs.map l'.latest).Pairwise (· < ·)
      rw [hfw, hfc, hc]
      exact h.creditOrder
    · change (l'.forwarded.filter (!l'.credit ·) ++ ds.map l'.latest).Pairwise (· < ·)
      rw [hfw, hfd, hd]
      exact h.dataOrder

end Arrive

/-! ## Departures -/

theorem Accounts.departure {o : Option α} (h : l.Accounts m cs ds)
    (hcs : ∀ a ∈ cs, (m.header a).ptype = .xpassCredit)
    (hds : ∀ a ∈ ds, (m.header a).ptype ≠ .xpassCredit) (hd : Departure cs ds cs' ds' o) :
    ((o.toList.map LinkedEffect.forward).foldl record l).Accounts m cs' ds' := by
  cases hd with
  | none => exact h
  | @credit p cs' hcons =>
    subst hcons
    have hp : l.credit (l.latest p) = true := by
      rw [ArrivalLog.credit, h.header p (.inl List.mem_cons_self)]
      simpa using hcs p List.mem_cons_self
    change { l with forwarded := l.forwarded ++ [l.latest p] }.Accounts m cs' ds
    refine ⟨fun n => ?_, fun a ha => h.header a (ha.imp_left (List.mem_cons_of_mem p)), ?_, ?_⟩
    · have := h.once n
      simp only [List.map_cons, List.count_cons, List.count_append, List.count_nil] at this ⊢
      omega
    · have := h.creditOrder
      change ((l.forwarded ++ [l.latest p]).filter l.credit ++ cs'.map l.latest).Pairwise (· < ·)
      rwa [List.filter_append, List.filter_singleton, hp, List.append_assoc]
    · change ((l.forwarded ++ [l.latest p]).filter (!l.credit ·) ++ ds.map l.latest).Pairwise (· < ·)
      rw [List.filter_append, List.filter_singleton, hp, List.append_assoc]
      exact h.dataOrder
  | @data p ds' hcons =>
    subst hcons
    have hp : l.credit (l.latest p) = false := by
      rw [ArrivalLog.credit, h.header p (.inr List.mem_cons_self)]
      simpa using hds p List.mem_cons_self
    change { l with forwarded := l.forwarded ++ [l.latest p] }.Accounts m cs ds'
    refine ⟨fun n => ?_, fun a ha => h.header a (ha.imp_right (List.mem_cons_of_mem p)), ?_, ?_⟩
    · have := h.once n
      simp only [List.map_cons, List.count_cons, List.count_append, List.count_nil] at this ⊢
      omega
    · change ((l.forwarded ++ [l.latest p]).filter l.credit ++ cs.map l.latest).Pairwise (· < ·)
      rw [List.filter_append, List.filter_singleton, hp, List.append_assoc]
      exact h.creditOrder
    · have := h.dataOrder
      change ((l.forwarded ++ [l.latest p]).filter (!l.credit ·) ++ ds'.map l.latest).Pairwise (· < ·)
      rwa [List.filter_append, List.filter_singleton, hp, List.append_assoc]

end ArrivalLog

/-! ## Runs -/

namespace LinkedState

variable {α : Type} {cfg : QueueConfig} {s s' : LinkedState α} {l : ArrivalLog α}
  {x : LinkedAction α} {p : α} {cs ds cs₁ ds₁ cs' ds' : List α} {out : List (LinkedEffect α)}

/-- Whether a packet would push the bytes of its class above their limit. -/
def overflows (cfg : QueueConfig) (s : LinkedState α) (p : α) : Bool :=
  if (s.queue.memory.header p).ptype = .xpassCredit then
    cfg.creditQLimit < s.queue.creditQ.bytes + s.queue.memory.size p
  else cfg.dataQLimit < s.queue.dataQ.bytes + s.queue.memory.size p

/-- The queues hold no more bytes than their limits. -/
def Within (cfg : QueueConfig) (m : PacketMemory α) (cs ds : List α) : Prop :=
  (cs.map m.size).sum ≤ cfg.creditQLimit ∧ (ds.map m.size).sum ≤ cfg.dataQLimit

theorem arrival_drops (h : s.queue.Holds cs ds)
    (ha : Arrival cfg s.queue.memory p cs ds cs' ds' out) :
    out = if s.overflows cfg p then [.drop p] else [] := by
  unfold overflows
  rw [h.credits.bytes, h.data.bytes]
  cases ha with
  | credit ht hle => rw [if_pos ht, if_neg (by simpa using hle)]
  | dropCredit ht hlt => rw [if_pos ht, if_pos (by simpa using hlt)]
  | data ht hle => rw [if_neg ht, if_neg (by simpa using hle)]
  | dropData ht hlt => rw [if_neg ht, if_pos (by simpa using hlt)]

theorem arrives_types {o : Option α} (h : s.queue.Holds cs ds)
    (ha : Arrives cfg s.queue.memory cs ds cs₁ ds₁ out o) :
    (∀ a ∈ cs₁, (s.queue.memory.header a).ptype = .xpassCredit) ∧
      ∀ a ∈ ds₁, (s.queue.memory.header a).ptype ≠ .xpassCredit := by
  cases o with
  | none =>
    obtain ⟨rfl, rfl, -⟩ := ha
    exact ⟨h.creditType, h.dataType⟩
  | some p =>
    obtain ⟨-, -, ha⟩ := ha
    cases ha with
    | credit ht =>
      refine ⟨fun a ha => ?_, h.dataType⟩
      rcases List.mem_append.mp ha with ha | ha
      · exact h.creditType a ha
      · rwa [List.mem_singleton.mp ha]
    | data ht =>
      refine ⟨h.creditType, fun a ha => ?_⟩
      rcases List.mem_append.mp ha with ha | ha
      · exact h.dataType a ha
      · rwa [List.mem_singleton.mp ha]
    | dropCredit | dropData => exact ⟨h.creditType, h.dataType⟩

theorem Within.arrival {m : PacketMemory α} (h : Within cfg m cs ds)
    (ha : Arrival cfg m p cs ds cs' ds' out) : Within cfg m cs' ds' := by
  cases ha with
  | credit ht hle => exact ⟨by simpa using hle, h.2⟩
  | data ht hle => exact ⟨h.1, by simpa using hle⟩
  | dropCredit | dropData => exact h

theorem Within.departure {m : PacketMemory α} {o : Option α} (h : Within cfg m cs ds)
    (hs : ∀ a, a ∈ cs ∨ a ∈ ds → 0 ≤ m.size a) (hd : Departure cs ds cs' ds' o) :
    Within cfg m cs' ds' := by
  cases hd with
  | @credit p cs' hcons =>
    subst hcons
    have := hs p (.inl List.mem_cons_self)
    have := h.1
    rw [List.map_cons, List.sum_cons] at this
    exact ⟨by omega, h.2⟩
  | @data p ds' hcons =>
    subst hcons
    have := hs p (.inr List.mem_cons_self)
    have := h.2
    rw [List.map_cons, List.sum_cons] at this
    exact ⟨h.1, by omega⟩
  | none => exact h

theorem mem_of_departure {o : Option α} {a : α} (hd : Departure cs ds cs' ds' o)
    (ha : a ∈ cs' ∨ a ∈ ds') : a ∈ cs ∨ a ∈ ds := by
  cases hd with
  | credit hcons => exact ha.imp_left fun h => hcons ▸ List.mem_cons_of_mem _ h
  | data hcons => exact ha.imp_right fun h => hcons ▸ List.mem_cons_of_mem _ h
  | none => exact ha

/-- The queue holds certain packets, for which the log accounts. -/
structure Logged (cfg : QueueConfig) (s : LinkedState α) (l : ArrivalLog α) (cs ds : List α) :
    Prop where
  holds : s.queue.Holds cs ds
  accounts : l.Accounts s.queue.memory cs ds
  within : (∀ r ∈ l.arrived, 0 ≤ r.size) → Within cfg s.queue.memory cs ds

variable [DecidableEq α]

theorem header_memoryAfter {a : α} (ha : ∀ cell, x ≠ .write a cell) :
    (s.memoryAfter x).header a = s.queue.memory.header a := by
  cases x with
  | write p cell =>
    have hap : a ≠ p := fun he => ha cell (he ▸ rfl)
    exact congrArg PacketCell.header (Function.update_of_ne hap _ s.queue.memory)
  | _ => rfl

/-- The log after the first part of an action. -/
theorem Logged.arrives {o : Option α} (h : s.Logged cfg l cs ds)
    (ha : Arrives cfg s.queue.memory cs ds cs₁ ds₁ out o) :
    ∃ l₁, l₁ = out.foldl ArrivalLog.record (l.arrive s.queue.memory o) ∧
      l₁.Accounts s.queue.memory cs₁ ds₁ ∧
      ((∀ r ∈ l.arrived, 0 ≤ r.size) → Within cfg s.queue.memory cs₁ ds₁) ∧
      l₁.arrived = l.arrived ++ (o.map s.queue.memory.header).toList ∧
      l₁.forwarded = l.forwarded ∧
      l₁.dropped = l.dropped ++ if o.any (s.overflows cfg) then [l.arrived.length] else [] := by
  refine ⟨_, rfl, ?_⟩
  cases o with
  | none =>
    obtain ⟨rfl, rfl, rfl⟩ := ha
    exact ⟨h.accounts, h.within, (List.append_nil _).symm, rfl, (List.append_nil _).symm⟩
  | some p =>
    obtain ⟨hcs, hds, ha⟩ := ha
    have hout := arrival_drops h.holds ha
    refine ⟨h.accounts.arrival hcs hds ha, fun hs => (h.within hs).arrival ha, ?_⟩
    rw [hout, Option.any_some]
    by_cases hov : s.overflows cfg p
    · rw [if_pos hov, if_pos hov]
      refine ⟨rfl, rfl, ?_⟩
      change l.dropped ++ [(l.arrive s.queue.memory (some p)).latest p] = _
      rw [ArrivalLog.arrive_latest]
    · rw [if_neg hov, if_neg hov]
      exact ⟨rfl, rfl, (List.append_nil _).symm⟩

/-- Every action succeeds, and the log accounts for what it does. -/
theorem Logged.step (h : s.Logged cfg l cs ds) (he : s.Enabled x) :
    ∃ s' cs' ds', s.step cfg x = .ok s' ∧ s'.Logged cfg (l.after cfg s x) cs' ds' ∧
      (l.after cfg s x).arrived = l.arrived ++ (x.arrival.map s.queue.memory.header).toList ∧
      l.forwarded <+: (l.after cfg s x).forwarded ∧
      (l.after cfg s x).dropped =
        l.dropped ++ if x.arrival.any (s.overflows cfg) then [l.arrived.length] else [] := by
  obtain ⟨q', out, o, cs₁, ds₁, cs', ds', hr, ha, hd, hq', hm, -⟩ :=
    react_holds cfg h.holds he
  obtain ⟨l₁, hl₁, hacc, hwith, harr, hfw, hdr⟩ := h.arrives ha
  have hlog : l.after cfg s x = (o.toList.map LinkedEffect.forward).foldl ArrivalLog.record l₁ := by
    rw [ArrivalLog.after, effects, hr, List.foldl_append, hl₁]
  have hframe : (l.after cfg s x).arrived = l₁.arrived ∧ (l.after cfg s x).dropped = l₁.dropped ∧
      l₁.forwarded <+: (l.after cfg s x).forwarded := by
    rw [hlog]
    cases o with
    | none => exact ⟨rfl, rfl, List.prefix_rfl⟩
    | some p => exact ⟨rfl, rfl, List.prefix_append _ _⟩
  -- what is still queued was there before and not written to, or has just arrived
  have hheader : ∀ a, a ∈ cs' ∨ a ∈ ds' → q'.memory.header a = s.queue.memory.header a := by
    rintro a hmem
    rw [hm]
    apply header_memoryAfter
    rintro cell rfl
    obtain ⟨rfl, rfl, -⟩ := ha
    exact he ((queued_iff h.holds).mpr (mem_of_departure hd hmem))
  have htype := arrives_types h.holds ha
  refine ⟨{ queue := q', clock := s.clockAfter x }, cs', ds', by rw [LinkedState.step, hr]; rfl,
    ?_, ?_, ?_, ?_⟩
  · refine ⟨hq', ?_, ?_⟩
    · rw [hlog]
      exact (hacc.departure htype.1 htype.2 hd).congr hheader
    · intro hs
      rw [hframe.1] at hs
      have hsize : ∀ a, a ∈ cs₁ ∨ a ∈ ds₁ → 0 ≤ s.queue.memory.size a := fun a hmem =>
        hs _ (List.mem_of_getElem? (hacc.header a hmem))
      have hw := (hwith fun r hr => hs r (by rw [harr]; exact List.mem_append_left _ hr)).departure
        hsize hd
      have hc : cs'.map q'.memory.size = cs'.map s.queue.memory.size :=
        List.map_congr_left fun a ha => congrArg Packet.size (hheader a (.inl ha))
      have hd : ds'.map q'.memory.size = ds'.map s.queue.memory.size :=
        List.map_congr_left fun a ha => congrArg Packet.size (hheader a (.inr ha))
      exact ⟨hc ▸ hw.1, hd ▸ hw.2⟩
  · rw [hframe.1, harr]
  · rw [← hfw]
    exact hframe.2.2
  · rw [hframe.2.1, hdr]

end LinkedState

section Runs

variable {α : Type} [DecidableEq α] {cfg : QueueConfig} {s : LinkedState α} {l : ArrivalLog α}

/-- In a queue whose limits are not negative the log accounts for the packets at all times. -/
theorem logged_invariant (hc : 0 ≤ cfg.creditQLimit) (hd : 0 ≤ cfg.dataQLimit) :
    (loggedMachine α cfg).Invariant fun p => ∃ cs ds, p.1.Logged cfg p.2 cs ds where
  init p hi := by
    obtain ⟨⟨hq, -⟩, hl⟩ := hi
    refine ⟨[], [], ?_, ?_, fun _ => ⟨by simpa using hc, by simpa using hd⟩⟩
    · rw [hq]
      exact ⟨LinkedQueue.holds_empty, LinkedQueue.holds_empty, by simp, by simp, by simp⟩
    · rw [hl]
      exact ArrivalLog.accounts_start
  step p x p' := by
    rintro ⟨cs, ds, h⟩ he hs
    obtain ⟨s', cs', ds', hs', h', -⟩ := h.step he
    obtain ⟨hstep, hlog⟩ := (Machine.withHistory_step_iff _).mp hs
    obtain rfl : s' = p'.1 := Except.ok.inj (hs'.symm.trans hstep)
    exact ⟨cs', ds', hlog ▸ h'⟩

end Runs

end Ns2XPass
