import Mathlib.Algebra.Order.Ring.Rat
import Mathlib.Data.List.MinMax
import Mathlib.Data.Multiset.AddSub
import Mathlib.Data.Prod.Lex
import Ns2XPass.Library.KeyedList
import Ns2XPass.Library.Simulation

/-! # Schedulers

A scheduler hands out its pending events by their times, and events of equal
times in the order in which they were inserted. `ListScheduler` keeps them
sorted. Any other scheduler whose calls do the right thing to the bag of its
events gives the same answers.
-/

namespace Ns2XPass

/-- An event. While it is pending its uid tells it from the others. -/
structure Event (η : Type) where
  time : ℚ
  uid : ℤ
  handler : η
  deriving DecidableEq, Repr

namespace Event

variable {η : Type} {a b : Event η}

/-- Events are due by time, and then in the order of their uids. -/
def key (e : Event η) : ℚ ×ₗ ℤ := toLex (e.time, e.uid)

def negateUid (e : Event η) : Event η := { e with uid := -e.uid }

theorem key_lt_iff : a.key < b.key ↔ a.time < b.time ∨ a.time = b.time ∧ a.uid < b.uid :=
  Prod.Lex.toLex_lt_toLex

theorem key_le_iff : a.key ≤ b.key ↔ a.time < b.time ∨ a.time = b.time ∧ a.uid ≤ b.uid :=
  Prod.Lex.toLex_le_toLex

theorem time_le_of_key (h : a.key ≤ b.key) : a.time ≤ b.time := by
  rcases key_le_iff.mp h with h | h
  · exact h.le
  · exact h.1.le

theorem key_lt_of_time (ht : a.time ≤ b.time) (hu : a.uid < b.uid) : a.key < b.key := by
  rcases ht.lt_or_eq with h | h
  · exact key_lt_iff.mpr (.inl h)
  · exact key_lt_iff.mpr (.inr ⟨h, hu⟩)

end Event

/-- The ways in which a scheduler aborts the simulation. -/
inductive SchedulerAbort | notQueued | assertion | nullEvent
  deriving DecidableEq, Repr

/-- The virtual functions of `Scheduler`. `cancel` also returns the event as it leaves it. -/
structure SchedulerClass (η σ : Type) where
  insert : Event η → σ → Except SchedulerAbort σ
  cancel : Event η → σ → Except SchedulerAbort (Event η × σ)
  lookup : ℤ → σ → Option (Event η)
  deque : σ → Except SchedulerAbort (Option (Event η) × σ)
  head : σ → Except SchedulerAbort (Option (Event η) × σ)

inductive SchedulerCall (η : Type)
  | insert (e : Event η)
  | cancel (e : Event η)
  | lookup (uid : ℤ)
  | deque
  | head
  deriving DecidableEq

variable {η σ : Type}

def SchedulerClass.call (Q : SchedulerClass η σ) :
    SchedulerCall η → σ → Except SchedulerAbort (Option (Event η) × σ)
  | .insert e, s => (Q.insert e s).map fun s => (none, s)
  | .cancel e, s => (Q.cancel e s).map fun r => (some r.1, r.2)
  | .lookup u, s => .ok (Q.lookup u s, s)
  | .deque, s => Q.deque s
  | .head, s => Q.head s

/-! ## The sorted list -/

namespace ListScheduler

def insert (e : Event η) : List (Event η) → List (Event η)
  | [] => [e]
  | p :: q => if e.time < p.time then e :: p :: q else p :: insert e q

/-- The walk of `cancel` along the queue. -/
def remove [DecidableEq η] (e : Event η) : List (Event η) → Except SchedulerAbort (List (Event η))
  | [] => .error .notQueued
  | p :: q => if p = e then .ok q else (remove e q).map (p :: ·)

def cancel [DecidableEq η] (e : Event η) (queue : List (Event η)) :
    Except SchedulerAbort (Event η × List (Event η)) :=
  if e.uid ≤ 0 then .ok (e, queue)
  else (remove e queue).map fun queue => (e.negateUid, queue)

def lookup (uid : ℤ) (queue : List (Event η)) : Option (Event η) := queue.find? (·.uid = uid)

def deque : List (Event η) → Option (Event η) × List (Event η)
  | [] => (none, [])
  | e :: queue => (some e, queue)

end ListScheduler

def listScheduler [DecidableEq η] : SchedulerClass η (List (Event η)) where
  insert e q := .ok (ListScheduler.insert e q)
  cancel := ListScheduler.cancel
  lookup := ListScheduler.lookup
  deque q := .ok (ListScheduler.deque q)
  head q := .ok (q.head?, q)

/-- The calls that callers make: `schedule` numbers the events upwards, and only queued events
are cancelled. -/
def LegalCall (q : List (Event η)) : SchedulerCall η → Prop
  | .insert e => 0 < e.uid ∧ ∀ x ∈ q, x.uid < e.uid
  | .cancel e => e ∈ q
  | .lookup _ => True
  | .deque => True
  | .head => True

instance [DecidableEq η] (q : List (Event η)) : ∀ x, Decidable (LegalCall q x)
  | .insert e => inferInstanceAs (Decidable (0 < e.uid ∧ ∀ x ∈ q, x.uid < e.uid))
  | .cancel e => inferInstanceAs (Decidable (e ∈ q))
  | .lookup _ => .isTrue trivial
  | .deque => .isTrue trivial
  | .head => .isTrue trivial

/-- A legal call that inserts only events of a kind. -/
def AdmittedCall (Admitted : Event η → Prop) (q : List (Event η)) (x : SchedulerCall η) : Prop :=
  LegalCall q x ∧ ∀ e, x = .insert e → Admitted e

instance [DecidableEq η] {Admitted : Event η → Prop} [DecidablePred Admitted]
    (q : List (Event η)) (x : SchedulerCall η) : Decidable (AdmittedCall Admitted q x) :=
  have : Decidable (∀ e, x = .insert e → Admitted e) :=
    match x with
    | .insert e => decidable_of_iff (Admitted e) (by simp)
    | .cancel _ | .lookup _ | .deque | .head => .isTrue (by simp)
  inferInstanceAs (Decidable (LegalCall q x ∧ ∀ e, x = .insert e → Admitted e))

theorem LegalCall.admitted {q : List (Event η)} {x : SchedulerCall η} (h : LegalCall q x) :
    AdmittedCall (fun _ => True) q x := ⟨h, fun _ _ => trivial⟩

/-- What legal calls make of the sorted list. -/
structure Queued (q : List (Event η)) : Prop where
  inOrder : InOrder Event.key q
  positive : ∀ e ∈ q, 0 < e.uid
  eq_of_uid : ∀ a ∈ q, ∀ b ∈ q, a.uid = b.uid → a = b

variable {q : List (Event η)} {e : Event η}

theorem queued_nil : Queued ([] : List (Event η)) :=
  ⟨inOrder_nil, fun _ h => absurd h List.not_mem_nil, fun _ h => absurd h List.not_mem_nil⟩

theorem Queued.sublist {p : List (Event η)} (h : Queued q) (hs : p.Sublist q) : Queued p :=
  ⟨h.inOrder.sublist hs, fun e he => h.positive e (hs.subset he),
    fun a ha b hb => h.eq_of_uid a (hs.subset ha) b (hs.subset hb)⟩

namespace ListScheduler

theorem insert_perm (e : Event η) (q : List (Event η)) : (insert e q).Perm (e :: q) := by
  induction q with
  | nil => rfl
  | cons p q ih =>
    rw [insert]
    split_ifs
    · rfl
    · exact (ih.cons p).trans (.swap e p q)

theorem mem_insert_iff {x : Event η} : x ∈ insert e q ↔ x = e ∨ x ∈ q := by
  rw [(insert_perm e q).mem_iff, List.mem_cons]

theorem inOrder_insert (h : InOrder Event.key q) (hu : ∀ x ∈ q, x.uid < e.uid) :
    InOrder Event.key (insert e q) := by
  induction q with
  | nil => exact List.pairwise_singleton _ e
  | cons p q ih =>
    have hp := inOrder_cons.mp h
    rw [insert]
    split_ifs with ht
    · have hep : e.key < p.key := Event.key_lt_iff.mpr (.inl ht)
      refine inOrder_cons.mpr ⟨fun x hx => ?_, h⟩
      rcases List.mem_cons.mp hx with rfl | hx
      · exact hep
      · exact hep.trans (hp.1 x hx)
    · have hpe : p.key < e.key := Event.key_lt_of_time (not_lt.mp ht) (hu p List.mem_cons_self)
      refine inOrder_cons.mpr ⟨fun x hx => ?_, ih hp.2 fun x hx => hu x (.tail p hx)⟩
      rcases mem_insert_iff.mp hx with rfl | hx
      · exact hpe
      · exact hp.1 x hx

end ListScheduler

theorem Queued.insert (h : Queued q) (hp : 0 < e.uid) (hu : ∀ x ∈ q, x.uid < e.uid) :
    Queued (ListScheduler.insert e q) where
  inOrder := ListScheduler.inOrder_insert h.inOrder hu
  positive x hx := by
    rcases ListScheduler.mem_insert_iff.mp hx with rfl | hx
    · exact hp
    · exact h.positive x hx
  eq_of_uid a ha b hb he := by
    rcases ListScheduler.mem_insert_iff.mp ha with rfl | ha' <;>
      rcases ListScheduler.mem_insert_iff.mp hb with rfl | hb'
    · rfl
    · exact absurd he (hu b hb').ne'
    · exact absurd he (hu a ha').ne
    · exact h.eq_of_uid a ha' b hb' he

namespace ListScheduler

variable [DecidableEq η]

theorem remove_eq (h : e ∈ q) : remove e q = .ok (q.erase e) := by
  induction q with
  | nil => cases h
  | cons p q ih =>
    rw [remove]
    split_ifs with hp
    · rw [hp, List.erase_cons_head]
    · have hq : e ∈ q := (List.mem_cons.mp h).resolve_left fun he => hp he.symm
      rw [ih hq, List.erase_cons_tail (by simpa using hp)]
      rfl

theorem cancel_eq (h : Queued q) (he : e ∈ q) : cancel e q = .ok (e.negateUid, q.erase e) := by
  rw [cancel, if_neg (h.positive e he).not_ge, remove_eq he]
  rfl

end ListScheduler

/-! ## Bags of events -/

/-- An event of a bag that comes before all others, if there is one. -/
def Least (bag : Multiset (Event η)) : Option (Event η) → Prop
  | none => bag = 0
  | some e => e ∈ bag ∧ ∀ x ∈ bag, e.key ≤ x.key

/-- The calls do the right thing to the bag of events that a scheduler holds. `Admits` says which
events may be inserted in a state. -/
structure Serves (Q : SchedulerClass η σ) (Inv : σ → Prop) (events : σ → Multiset (Event η))
    (Admits : σ → Event η → Prop) : Prop where
  insert : ∀ s e, Inv s → Admits s e → (∀ x ∈ events s, x.uid < e.uid) →
    ∃ s', Q.insert e s = .ok s' ∧ Inv s' ∧ events s' = e ::ₘ events s
  cancel : ∀ s e, Inv s → e ∈ events s → 0 < e.uid →
    ∃ s', Q.cancel e s = .ok (e.negateUid, s') ∧ Inv s' ∧ events s = e ::ₘ events s'
  lookup_some : ∀ s u e, Inv s → Q.lookup u s = some e → e ∈ events s ∧ e.uid = u
  lookup_none : ∀ s u, Inv s → Q.lookup u s = none → ∀ e ∈ events s, e.uid ≠ u
  head : ∀ s, Inv s →
    ∃ o s', Q.head s = .ok (o, s') ∧ Inv s' ∧ events s' = events s ∧ Least (events s) o
  deque : ∀ s, Inv s →
    ∃ o s', Q.deque s = .ok (o, s') ∧ Inv s' ∧ Least (events s) o ∧
      events s = (o.toList : Multiset (Event η)) + events s'

variable {Q : SchedulerClass η σ} {Inv : σ → Prop} {events : σ → Multiset (Event η)}
  {Admits : σ → Event η → Prop} {s : σ}

theorem Queued.head?_eq (h : Queued q) {o : Option (Event η)} (hl : Least (q : Multiset _) o) :
    q.head? = o := by
  cases o with
  | none => rw [(Multiset.coe_eq_zero q).mp hl]; rfl
  | some e =>
    obtain ⟨q', rfl⟩ := h.inOrder.cons_of_least hl.1 hl.2
    rfl

theorem Queued.lookup_eq (h : Queued q) (u : ℤ) {o : Option (Event η)}
    (hs : ∀ e, o = some e → e ∈ q ∧ e.uid = u) (hn : o = none → ∀ e ∈ q, e.uid ≠ u) :
    ListScheduler.lookup u q = o := by
  cases hl : ListScheduler.lookup u q with
  | none =>
    cases o with
    | none => rfl
    | some e =>
      obtain ⟨he, hu⟩ := hs e rfl
      simpa [hu] using List.find?_eq_none.mp hl e he
  | some e =>
    have hu : e.uid = u := by simpa using List.find?_some hl
    have he := List.mem_of_find?_eq_some hl
    cases o with
    | none => exact absurd hu (hn rfl e he)
    | some d =>
      obtain ⟨hd, hdu⟩ := hs d rfl
      rw [h.eq_of_uid e he d hd (hu.trans hdu.symm)]

/-- A legal call gets the answer of the sorted list, and the bag is again what the list holds. -/
theorem Serves.step [DecidableEq η] (h : Serves Q Inv events Admits) {x : SchedulerCall η} (hs : Inv s)
    (hq : Queued q) (he : events s = q) (hl : LegalCall q x)
    (ha : ∀ e, x = .insert e → Admits s e) :
    ∃ o s' q', Q.call x s = .ok (o, s') ∧ listScheduler.call x q = .ok (o, q') ∧ Inv s' ∧
      Queued q' ∧ events s' = q' := by
  have hmem : ∀ e, e ∈ events s ↔ e ∈ q := fun e => by rw [he, Multiset.mem_coe]
  cases x with
  | insert e =>
    obtain ⟨s', hc, hs', he'⟩ := h.insert s e hs (ha e rfl) fun x hx => hl.2 x ((hmem x).mp hx)
    refine ⟨none, s', _, by rw [SchedulerClass.call, hc]; rfl, rfl, hs',
      hq.insert hl.1 hl.2, ?_⟩
    rw [he', he, Multiset.cons_coe]
    exact Multiset.coe_eq_coe.mpr (ListScheduler.insert_perm e q).symm
  | cancel e =>
    obtain ⟨s', hc, hs', he'⟩ := h.cancel s e hs ((hmem e).mpr hl) (hq.positive e hl)
    refine ⟨some e.negateUid, s', q.erase e, by rw [SchedulerClass.call, hc]; rfl, ?_, hs',
      hq.sublist List.erase_sublist, ?_⟩
    · change (ListScheduler.cancel e q).map _ = _
      rw [ListScheduler.cancel_eq hq hl]
      rfl
    · rw [← Multiset.coe_erase, ← he, he', Multiset.erase_cons_head]
  | lookup u =>
    have hl : ListScheduler.lookup u q = Q.lookup u s := hq.lookup_eq u
      (fun e h' => (h.lookup_some s u e hs h').imp_left (hmem e).mp)
      (fun h' e hm => h.lookup_none s u hs h' e ((hmem e).mpr hm))
    exact ⟨Q.lookup u s, s, q, rfl, hl ▸ rfl, hs, hq, he⟩
  | head =>
    obtain ⟨o, s', hc, hs', he', hle⟩ := h.head s hs
    have hh : q.head? = o := hq.head?_eq (he ▸ hle)
    exact ⟨o, s', q, hc, hh ▸ rfl, hs', hq, he'.trans he⟩
  | deque =>
    obtain ⟨o, s', hc, hs', hle, he'⟩ := h.deque s hs
    cases o with
    | none =>
      have hz : q = [] := (Multiset.coe_eq_zero q).mp (he ▸ hle)
      subst hz
      refine ⟨none, s', [], hc, rfl, hs', hq, ?_⟩
      rw [← he, he']
      exact (Multiset.zero_add (events s')).symm
    | some e =>
      obtain ⟨q', rfl⟩ := hq.inOrder.cons_of_least ((hmem e).mp hle.1)
        fun x hx => hle.2 x ((hmem x).mpr hx)
      refine ⟨some e, s', q', hc, rfl, hs', hq.sublist (List.sublist_cons_self e q'), ?_⟩
      rw [he, ← Multiset.cons_coe] at he'
      exact ((Multiset.cons_inj_right e).mp (he'.trans (Multiset.singleton_add _ _))).symm

/-! ## What a scheduler is for -/

/-- The pending events in the order in which they were inserted. -/
abbrev Pending (η : Type) := List (Event η)

/-- The event of least time, of several the one inserted first. -/
def Pending.first (p : Pending η) : Option (Event η) := p.argmin Event.time

/-- Each pending event is handed out once, in its turn, unless it is cancelled before. -/
def pendingEvents [DecidableEq η] : SchedulerClass η (Pending η) where
  insert e p := .ok (p ++ [e])
  cancel e p := .ok (e.negateUid, p.erase e)
  lookup u p := p.find? (·.uid = u)
  deque p := .ok (p.first, p.first.elim p p.erase)
  head p := .ok (p.first, p)

/-- The sorted list holds the pending events. -/
structure ListScheduler.Holds (q : List (Event η)) (p : Pending η) : Prop where
  queued : Queued q
  perm : q.Perm p
  uids : p.Pairwise fun a b => a.uid < b.uid

variable {p : Pending η}

theorem ListScheduler.Holds.lookup_eq (h : Holds q p) (u : ℤ) :
    lookup u q = p.find? (·.uid = u) := by
  refine h.queued.lookup_eq u (fun e he => ?_) fun hn e he => ?_
  · exact ⟨h.perm.mem_iff.mpr (List.mem_of_find?_eq_some he), by simpa using List.find?_some he⟩
  · simpa using List.find?_eq_none.mp hn e (h.perm.mem_iff.mp he)

theorem idxOf_le_of_uid [DecidableEq η] {a b : Event η}
    (h : p.Pairwise fun a b => a.uid < b.uid) (ha : a ∈ p) (hb : b ∈ p) (hu : a.uid ≤ b.uid) :
    p.idxOf a ≤ p.idxOf b := by
  by_contra hlt
  have hab := List.pairwise_iff_getElem.mp h _ _ (List.idxOf_lt_length_of_mem hb)
    (List.idxOf_lt_length_of_mem ha) (not_le.mp hlt)
  rw [List.getElem_idxOf, List.getElem_idxOf] at hab
  exact absurd hab hu.not_gt

theorem ListScheduler.Holds.first_eq [DecidableEq η] (h : Holds q p) : p.first = q.head? := by
  cases q with
  | nil => rw [← h.perm.nil_eq]; rfl
  | cons e q =>
    have hmem : ∀ {x}, x ∈ p ↔ x ∈ e :: q := fun {x} => h.perm.mem_iff.symm
    have he : e ∈ p := hmem.mpr List.mem_cons_self
    have hle : ∀ x ∈ p, e.key ≤ x.key := by
      intro x hx
      rcases List.mem_cons.mp (hmem.mp hx) with rfl | hx
      · exact le_rfl
      · exact ((inOrder_cons.mp h.queued.inOrder).1 x hx).le
    refine List.argmin_eq_some_iff.mpr ⟨he, fun x hx => Event.time_le_of_key (hle x hx), ?_⟩
    intro x hx ht
    apply idxOf_le_of_uid h.uids he hx
    rcases Event.key_le_iff.mp (hle x hx) with hlt | hle
    · exact absurd hlt ht.not_gt
    · exact hle.2

theorem ListScheduler.Holds.legalCall (h : Holds q p) {x : SchedulerCall η}
    (hx : LegalCall p x) : LegalCall q x := by
  cases x with
  | insert e => exact ⟨hx.1, fun y hy => hx.2 y (h.perm.mem_iff.mp hy)⟩
  | cancel e => exact h.perm.mem_iff.mpr hx
  | lookup u => trivial
  | deque => trivial
  | head => trivial

variable [DecidableEq η]

/-- The sorted list hands out the pending events in their turn. -/
theorem list_simulates : Simulates listScheduler.call (pendingEvents : SchedulerClass η _).call
    LegalCall ListScheduler.Holds := by
  rintro q p x h hx
  have hq := h.legalCall hx
  cases x with
  | insert e =>
    refine ⟨none, _, _, rfl, rfl, h.queued.insert hq.1 hq.2, ?_, ?_⟩
    · exact (ListScheduler.insert_perm e q).trans
        ((h.perm.cons e).trans (List.perm_append_singleton e p).symm)
    · refine List.pairwise_append.mpr ⟨h.uids, List.pairwise_singleton _ e, fun a ha b hb => ?_⟩
      rw [List.mem_singleton.mp hb]
      exact hx.2 a ha
  | cancel e =>
    refine ⟨some e.negateUid, q.erase e, p.erase e, ?_, rfl,
      h.queued.sublist List.erase_sublist, h.perm.erase e, h.uids.sublist List.erase_sublist⟩
    change (ListScheduler.cancel e q).map _ = _
    rw [ListScheduler.cancel_eq h.queued hq]
    rfl
  | lookup u =>
    have hl := h.lookup_eq u
    exact ⟨p.find? (·.uid = u), q, p, hl ▸ rfl, rfl, h⟩
  | head =>
    have hf := h.first_eq
    exact ⟨p.first, q, p, hf ▸ rfl, rfl, h⟩
  | deque =>
    have hf := h.first_eq
    cases q with
    | nil =>
      obtain rfl : p = [] := h.perm.nil_eq.symm
      exact ⟨none, [], [], rfl, rfl, h⟩
    | cons e q =>
      have hd : pendingEvents.call .deque p = .ok (some e, p.erase e) := by
        change Except.ok (p.first, p.first.elim p p.erase) = _
        rw [hf]
        rfl
      refine ⟨some e, q, p.erase e, rfl, hd, h.queued.sublist (List.sublist_cons_self e q), ?_,
        h.uids.sublist List.erase_sublist⟩
      simpa using h.perm.erase e

variable {Admitted : Event η → Prop}

theorem Serves.simulates (h : Serves Q Inv events fun _ => Admitted) :
    Simulates Q.call listScheduler.call (AdmittedCall Admitted)
      fun s q => Inv s ∧ Queued q ∧ events s = q := by
  rintro s q x ⟨hs, hq, he⟩ ⟨hl, ha⟩
  exact h.step hs hq he hl ha

/-- A scheduler that does the right thing to its bag of events answers every sequence of legal
calls as the sorted list does: it hands out the pending events in their turn. -/
theorem Serves.answers (h : Serves Q Inv events fun _ => Admitted)
    {xs : List (SchedulerCall η)} (hs : Inv s) (he : events s = 0)
    (hx : LegalCalls pendingEvents.call (AdmittedCall Admitted) xs []) :
    ∃ os s' q p, answers Q.call xs s = .ok (os, s') ∧
      answers listScheduler.call xs [] = .ok (os, q) ∧
      answers pendingEvents.call xs [] = .ok (os, p) ∧
      Inv s' ∧ events s' = q ∧ Queued q ∧ q.Perm p := by
  have hstart : ListScheduler.Holds ([] : List (Event η)) [] :=
    ⟨queued_nil, .refl _, List.Pairwise.nil⟩
  have hlist : Simulates listScheduler.call (pendingEvents : SchedulerClass η _).call
      (AdmittedCall Admitted) ListScheduler.Holds :=
    fun q p x hR hx => list_simulates q p x hR hx.1
  have hlegal : ∀ q p x, ListScheduler.Holds q p → AdmittedCall Admitted p x →
      AdmittedCall Admitted q x := fun q p x hR hx => ⟨hR.legalCall hx.1, hx.2⟩
  have hx' := hlist.legalCalls hlegal hstart hx
  obtain ⟨os, q, p, hq, hp, hR⟩ := hlist.answers hstart hx
  obtain ⟨os', s', q', hs', hq', hI, -, hb⟩ := h.simulates.answers ⟨hs, queued_nil, he⟩ hx'
  obtain ⟨rfl, rfl⟩ : os = os' ∧ q = q' := by simpa [hq] using hq'
  exact ⟨os, s', q, p, hs', hq, hp, hI, hb, hR.queued, hR.perm⟩

end Ns2XPass
