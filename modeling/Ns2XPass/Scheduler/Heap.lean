import Mathlib.Algebra.GroupWithZero.Nat
import Ns2XPass.Library.BinaryHeap
import Ns2XPass.Scheduler.Basic

/-! # The heap scheduler

The heap orders its elements by time and then by `h_s_key`, an unsigned counter
of insertions, which wraps modulo `2 ^ 32`. As long as no event is inserted
beside one of its time from before the counter last wrapped, the events come
out as from the sorted list.
-/

namespace Ns2XPass

/-- The elements of the array, which starts out as zeros. -/
structure HeapElem (η : Type) where
  heKey : ℚ := 0
  heSKey : ℕ := 0
  heElem : Option (Event η) := none

structure Heap (η : Type) where
  hElems : ℕ → HeapElem η := fun _ => {}
  hSKey : ℕ := 0
  hSize : ℕ := 0

namespace Heap

variable {η : Type}

def keyLessThan (a b : HeapElem η) : Bool :=
  a.heKey < b.heKey ∨ a.heKey = b.heKey ∧ a.heSKey < b.heSKey

def heapInsert (h : Heap η) (key : ℚ) (elem : Event η) : Heap η where
  hElems := shiftUp keyLessThan ⟨key, h.hSKey, some elem⟩ h.hSize h.hElems
  hSKey := (h.hSKey + 1) % 2 ^ 32
  hSize := h.hSize + 1

def heapMin (h : Heap η) : Option (Event η) := if 0 < h.hSize then (h.hElems 0).heElem else none

def heapExtractMin (h : Heap η) : Option (Event η) × Heap η :=
  if h.hSize = 0 then (none, h)
  else
    let hSize := h.hSize - 1
    ((h.hElems 0).heElem, { h with
      hElems := heapify keyLessThan hSize 0 (Function.update h.hElems 0 (h.hElems hSize))
      hSize })

/-- `heap_member`, without the `+ 1` of its result. -/
def heapMember [DecidableEq η] (h : Heap η) (elem : Event η) : Option ℕ :=
  (List.range h.hSize).find? fun i => (h.hElems i).heElem = some elem

def heapDelete [DecidableEq η] (h : Heap η) (elem : Event η) : Heap η :=
  match h.heapMember elem with
  | none => h
  | some i => ({ h with hElems := toRoot i h.hElems }).heapExtractMin.2

/-- The walk with `heap_iter_init` and `heap_iter`. -/
def lookup (h : Heap η) (uid : ℤ) : Option (Event η) :=
  (List.range h.hSize).findSome? fun i => (h.hElems i).heElem.filter (·.uid = uid)

end Heap

def heapScheduler (η : Type) [DecidableEq η] : SchedulerClass η (Heap η) where
  insert e h := .ok (h.heapInsert e.time e)
  cancel e h := .ok (if e.uid ≤ 0 then (e, h) else (e.negateUid, h.heapDelete e))
  lookup u h := h.lookup u
  deque h := .ok h.heapExtractMin
  head h := .ok (h.heapMin, h)

namespace Heap

variable {η : Type} {h : Heap η} {e : Event η}

/-- The key by which elements are compared. -/
def elemKey (a : HeapElem η) : ℚ ×ₗ ℕ := toLex (a.heKey, a.heSKey)

theorem keyLessThan_iff (a b : HeapElem η) : keyLessThan a b = true ↔ elemKey a < elemKey b := by
  rw [keyLessThan, decide_eq_true_iff, elemKey, elemKey, Prod.Lex.toLex_lt_toLex]

/-- The elements that are in the heap. -/
def elems (h : Heap η) : Multiset (HeapElem η) := heapBag h.hSize h.hElems

/-- The events of the elements. -/
def events (h : Heap η) : Multiset (Event η) := h.elems.filterMap HeapElem.heElem

/-- The heap is in order, and the order of its keys is that of the events. -/
structure Valid (h : Heap η) : Prop where
  ordered : HeapOrdered elemKey h.hSize h.hElems
  elem : ∀ a ∈ h.elems, ∃ e, a.heElem = some e ∧ a.heKey = e.time
  inOrder : ∀ a ∈ h.elems, ∀ b ∈ h.elems, ∀ d e, a.heElem = some d → b.heElem = some e →
    elemKey a ≤ elemKey b → d.key ≤ e.key

/-- No event of this time has waited since before the counter last wrapped. -/
def Unwrapped (h : Heap η) (e : Event η) : Prop :=
  ∀ i < h.hSize, (h.hElems i).heKey = e.time → (h.hElems i).heSKey < h.hSKey

theorem mem_elems {a : HeapElem η} : a ∈ h.elems ↔ ∃ i < h.hSize, h.hElems i = a := mem_heapBag

theorem mem_events : e ∈ h.events ↔ ∃ a ∈ h.elems, a.heElem = some e := by
  rw [events, Multiset.mem_filterMap]

theorem events_of_elems {h' : Heap η} {a : HeapElem η} (he : h.elems = a ::ₘ h'.elems)
    (ha : a.heElem = some e) : h.events = e ::ₘ h'.events := by
  rw [events, he, Multiset.filterMap_cons_some _ _ _ ha, events]

theorem valid_new : ({} : Heap η).Valid := by
  have hno : ∀ a, a ∉ ({} : Heap η).elems := fun a ha => by
    obtain ⟨i, hi, -⟩ := mem_elems.mp ha
    cases hi
  exact ⟨fun j _ hj => absurd hj (Nat.not_lt_zero j), fun a ha => absurd ha (hno a),
    fun a ha => absurd ha (hno a)⟩

theorem Valid.insert (hv : h.Valid) (hw : h.Unwrapped e) (hu : ∀ x ∈ h.events, x.uid < e.uid) :
    (h.heapInsert e.time e).Valid ∧ (h.heapInsert e.time e).events = e ::ₘ h.events := by
  obtain ⟨ho, hb⟩ := hv.ordered.insert keyLessThan_iff (a := ⟨e.time, h.hSKey, some e⟩)
  have hel : (h.heapInsert e.time e).elems = ⟨e.time, h.hSKey, some e⟩ ::ₘ h.elems := hb
  have hcases : ∀ a ∈ (h.heapInsert e.time e).elems,
      a = ⟨e.time, h.hSKey, some e⟩ ∨ a ∈ h.elems := fun a ha => Multiset.mem_cons.mp (hel ▸ ha)
  refine ⟨⟨ho, fun a ha => ?_, fun a ha b hb d x had hbx hab => ?_⟩, events_of_elems hel rfl⟩
  · rcases hcases a ha with rfl | ha
    · exact ⟨e, rfl, rfl⟩
    · exact hv.elem a ha
  · rcases hcases a ha with rfl | ha <;> rcases hcases b hb with rfl | hb
    · cases had
      cases hbx
      exact le_rfl
    · cases had
      obtain ⟨y, hy, hyt⟩ := hv.elem b hb
      obtain rfl : x = y := Option.some.inj (hbx.symm.trans hy)
      rcases Prod.Lex.toLex_le_toLex.mp hab with hlt | ⟨heq, hle⟩
      · exact (Event.key_lt_iff.mpr (.inl (hyt ▸ hlt))).le
      · obtain ⟨i, hi, rfl⟩ := mem_elems.mp hb
        exact absurd (hw i hi heq.symm) hle.not_gt
    · cases hbx
      obtain ⟨y, hy, hyt⟩ := hv.elem a ha
      obtain rfl : d = y := Option.some.inj (had.symm.trans hy)
      refine (Event.key_lt_of_time ?_ (hu d (mem_events.mpr ⟨a, ha, had⟩))).le
      rcases Prod.Lex.toLex_le_toLex.mp hab with hlt | ⟨heq, -⟩
      · exact hyt ▸ hlt.le
      · exact hyt ▸ heq.le
    · exact hv.inOrder a ha b hb d x had hbx hab

/-- A heap whose elements are among those of another one. -/
theorem Valid.of_elems {h' : Heap η} {a : HeapElem η} (hv : h.Valid)
    (ho : HeapOrdered elemKey h'.hSize h'.hElems) (he : h.elems = a ::ₘ h'.elems) : h'.Valid := by
  have hsub : ∀ b ∈ h'.elems, b ∈ h.elems := fun b hb => he ▸ Multiset.mem_cons_of_mem hb
  exact ⟨ho, fun b hb => hv.elem b (hsub b hb),
    fun b hb c hc => hv.inOrder b (hsub b hb) c (hsub c hc)⟩

/-- The root of an array that is in order below it is extracted. -/
theorem extract_spec {up : Prop} (hs : 0 < h.hSize)
    (ho : OrderedOff elemKey h.hSize 0 up True h.hElems) :
    HeapOrdered elemKey h.heapExtractMin.2.hSize h.heapExtractMin.2.hElems ∧
      h.elems = h.hElems 0 ::ₘ h.heapExtractMin.2.elems := by
  obtain ⟨n, hn⟩ : ∃ n, h.hSize = n + 1 := ⟨h.hSize - 1, by omega⟩
  rw [hn] at ho
  obtain ⟨h₁, h₂⟩ := ho.extract keyLessThan_iff
  rw [heapExtractMin, if_neg (by omega), elems, elems, hn]
  exact ⟨h₁, h₂⟩

/-- The root of a valid heap is the least event. -/
theorem Valid.root (hv : h.Valid) (hs : 0 < h.hSize) :
    ∃ e, (h.hElems 0).heElem = some e ∧ e ∈ h.events ∧ ∀ x ∈ h.events, e.key ≤ x.key := by
  have hm : h.hElems 0 ∈ h.elems := mem_elems.mpr ⟨0, hs, rfl⟩
  obtain ⟨e, he, -⟩ := hv.elem _ hm
  refine ⟨e, he, mem_events.mpr ⟨_, hm, he⟩, fun x hx => ?_⟩
  obtain ⟨b, hb, hbx⟩ := mem_events.mp hx
  obtain ⟨i, hi, rfl⟩ := mem_elems.mp hb
  exact hv.inOrder _ hm _ hb e x he hbx (hv.ordered.root_le hi)

theorem events_of_empty (hs : h.hSize = 0) : h.events = 0 := by
  rw [events, elems, hs]
  rfl

theorem Valid.least_min (hv : h.Valid) : Least h.events h.heapMin := by
  rw [heapMin]
  split_ifs with hs
  · obtain ⟨e, he, hle⟩ := hv.root hs
    rw [he]
    exact hle
  · exact events_of_empty (by omega)

theorem Valid.extractMin (hv : h.Valid) :
    h.heapExtractMin.2.Valid ∧ h.heapExtractMin.1 = h.heapMin ∧
      h.events = (h.heapMin.toList : Multiset (Event η)) + h.heapExtractMin.2.events := by
  rw [heapMin]
  split_ifs with hs
  · obtain ⟨ho, he⟩ := extract_spec hs (hv.ordered.off 0 False True)
    obtain ⟨e, hr, -⟩ := hv.root hs
    refine ⟨hv.of_elems ho he, by rw [heapExtractMin, if_neg (by omega)], ?_⟩
    rw [events_of_elems he hr, hr]
    exact (Multiset.singleton_add e _).symm
  · have hz : h.hSize = 0 := by omega
    rw [heapExtractMin, if_pos hz]
    exact ⟨hv, rfl, (Multiset.zero_add h.events).symm⟩

variable [DecidableEq η]

theorem Valid.delete_elems (hv : h.Valid) (he : e ∈ h.events) :
    ∃ a, a.heElem = some e ∧ h.elems = a ::ₘ (h.heapDelete e).elems ∧
      HeapOrdered elemKey (h.heapDelete e).hSize (h.heapDelete e).hElems := by
  rw [heapDelete]
  cases hm : h.heapMember e with
  | none =>
    obtain ⟨a, ha, hae⟩ := mem_events.mp he
    obtain ⟨i, hi, rfl⟩ := mem_elems.mp ha
    have hn := List.find?_eq_none.mp hm i (List.mem_range.mpr hi)
    simp [hae] at hn
  | some i =>
    have hi : i < h.hSize := List.mem_range.mp (List.mem_of_find?_eq_some hm)
    have hie : (h.hElems i).heElem = some e := by simpa using List.find?_some hm
    obtain ⟨ho, hb, hr⟩ := toRoot_spec hi (hv.ordered.off i True True)
    obtain ⟨h₁, h₂⟩ := extract_spec (h := { h with hElems := toRoot i h.hElems })
      (i.zero_le.trans_lt hi) ho
    refine ⟨h.hElems i, hie, ?_, h₁⟩
    rw [← hr, ← h₂]
    exact hb.symm

theorem Valid.delete (hv : h.Valid) (he : e ∈ h.events) :
    (h.heapDelete e).Valid ∧ h.events = e ::ₘ (h.heapDelete e).events := by
  obtain ⟨a, ha, hel, ho⟩ := hv.delete_elems he
  exact ⟨hv.of_elems ho hel, events_of_elems hel ha⟩

theorem serves : Serves (heapScheduler η) Valid events Unwrapped where
  insert h e hv hw hu := ⟨_, rfl, hv.insert hw hu⟩
  cancel h e hv he hp := by
    obtain ⟨h₁, h₂⟩ := hv.delete he
    exact ⟨h.heapDelete e, by simp only [heapScheduler, if_neg hp.not_ge], h₁, h₂⟩
  lookup_some h u e _ hl := by
    obtain ⟨i, hi, hf⟩ := List.exists_of_findSome?_eq_some hl
    obtain ⟨he, hu⟩ := Option.filter_eq_some_iff.mp hf
    exact ⟨mem_events.mpr ⟨_, mem_elems.mpr ⟨i, List.mem_range.mp hi, rfl⟩, he⟩, by simpa using hu⟩
  lookup_none h u _ hl := by
    intro e he
    obtain ⟨a, ha, hae⟩ := mem_events.mp he
    obtain ⟨i, hi, rfl⟩ := mem_elems.mp ha
    have hf := List.findSome?_eq_none_iff.mp hl i (List.mem_range.mpr hi)
    simpa [hae] using hf
  head h hv := ⟨h.heapMin, h, rfl, hv, rfl, hv.least_min⟩
  deque h hv := by
    obtain ⟨h₁, h₂, h₃⟩ := hv.extractMin
    exact ⟨h.heapMin, h.heapExtractMin.2, by rw [← h₂]; rfl, h₁, hv.least_min, h₃⟩

end Heap

/-- The condition on a call: an inserted event meets no event of its time from before the counter
last wrapped. -/
def UnwrappedCall {η : Type} (h : Heap η) (x : SchedulerCall η) : Prop :=
  ∀ e, x = .insert e → h.Unwrapped e

/-- What the heap has in common with the sorted list. -/
def Heap.Holds {η : Type} (h : Heap η) (q : List (Event η)) : Prop :=
  h.Valid ∧ Queued q ∧ h.events = q

section Refinement

variable {η : Type} [DecidableEq η] {h : Heap η} {q : List (Event η)} {x : SchedulerCall η}
  {xs : List (SchedulerCall η)}

theorem Heap.Holds.step (hR : h.Holds q) (hw : UnwrappedCall h x) (hl : LegalCall q x) :
    ∃ o h' q', (heapScheduler η).call x h = .ok (o, h') ∧
      listScheduler.call x q = .ok (o, q') ∧ h'.Holds q' :=
  Heap.serves.step hR.1 hR.2.1 hR.2.2 hl hw

theorem legalCalls_list (hx : LegalCalls pendingEvents.call LegalCall xs []) :
    LegalCalls listScheduler.call LegalCall xs ([] : List (Event η)) :=
  list_simulates.legalCalls (fun _ _ _ hR hx => hR.legalCall hx)
    ⟨queued_nil, .refl _, List.Pairwise.nil⟩ hx

/-! ## Runs with few insertions -/

/-- The counter has not wrapped since the heap was last empty. -/
def Heap.Fresh (h : Heap η) : Prop := ∀ a ∈ h.elems, a.heSKey < h.hSKey

omit [DecidableEq η] in
theorem Heap.Fresh.of_elems {h' : Heap η} {a : HeapElem η} (hf : h.Fresh)
    (he : h.elems = a ::ₘ h'.elems) (hk : h'.hSKey = h.hSKey) : h'.Fresh :=
  fun b hb => hk ▸ hf b (he ▸ Multiset.mem_cons_of_mem hb)

omit [DecidableEq η] in
theorem Heap.hSKey_extractMin (h : Heap η) : h.heapExtractMin.2.hSKey = h.hSKey := by
  rw [heapExtractMin]
  split_ifs <;> rfl

theorem Heap.hSKey_delete (h : Heap η) (e : Event η) : (h.heapDelete e).hSKey = h.hSKey := by
  rw [heapDelete]
  split
  · rfl
  · exact hSKey_extractMin _

/-- What a call adds to the counter. -/
def SchedulerCall.inserts : SchedulerCall η → ℕ
  | .insert _ => 1
  | _ => 0

theorem Heap.Fresh.call {o : Option (Event η)} {h' : Heap η} (hf : h.Fresh) (hR : h.Holds q)
    (hl : LegalCall q x) (hc : (heapScheduler η).call x h = .ok (o, h'))
    (hn : h.hSKey + x.inserts < 2 ^ 32) : h'.Fresh ∧ h'.hSKey = h.hSKey + x.inserts := by
  cases x with
  | insert e =>
    cases hc
    have hk : (h.hSKey + 1) % 2 ^ 32 = h.hSKey + 1 := Nat.mod_eq_of_lt hn
    refine ⟨fun a ha => ?_, hk⟩
    obtain ⟨-, hb⟩ := hR.1.ordered.insert keyLessThan_iff (a := ⟨e.time, h.hSKey, some e⟩)
    have hel : (h.heapInsert e.time e).elems = ⟨e.time, h.hSKey, some e⟩ ::ₘ h.elems := hb
    change a.heSKey < (h.hSKey + 1) % 2 ^ 32
    rw [hk]
    rcases Multiset.mem_cons.mp (hel ▸ ha) with rfl | ha
    · exact Nat.lt_succ_self _
    · exact (hf a ha).trans (Nat.lt_succ_self _)
  | cancel e =>
    have he : e ∈ h.events := by rw [hR.2.2]; exact hl
    obtain ⟨a, -, hel, -⟩ := hR.1.delete_elems he
    obtain rfl : h.heapDelete e = h' := by
      simpa [SchedulerClass.call, heapScheduler, Except.map, (hR.2.1.positive e hl).not_ge]
        using congrArg (Except.map Prod.snd) hc
    exact ⟨hf.of_elems hel (h.hSKey_delete e), h.hSKey_delete e⟩
  | lookup u => cases hc; exact ⟨hf, rfl⟩
  | head => cases hc; exact ⟨hf, rfl⟩
  | deque =>
    obtain rfl : h.heapExtractMin.2 = h' := congrArg Prod.snd (Except.ok.inj hc)
    refine ⟨?_, h.hSKey_extractMin⟩
    by_cases hs : 0 < h.hSize
    · exact hf.of_elems (extract_spec hs (hR.1.ordered.off 0 False True)).2 h.hSKey_extractMin
    · rwa [heapExtractMin, if_pos (by omega)]

theorem Heap.Fresh.unwrapped (hf : h.Fresh) (hR : h.Holds q)
    (hx : LegalCalls listScheduler.call LegalCall xs q)
    (hn : h.hSKey + (xs.map SchedulerCall.inserts).sum < 2 ^ 32) :
    LegalCalls (heapScheduler η).call UnwrappedCall xs h := by
  induction xs generalizing h q with
  | nil => trivial
  | cons x xs ih =>
    rw [List.map_cons, List.sum_cons] at hn
    have hw : UnwrappedCall h x := fun e _ i hi _ => hf _ (mem_elems.mpr ⟨i, hi, rfl⟩)
    refine ⟨hw, fun o h' hc => ?_⟩
    obtain ⟨o', h'', q', hc', hq', hR'⟩ := hR.step hw hx.1
    obtain ⟨rfl, rfl⟩ : o = o' ∧ h' = h'' := by simpa [hc] using hc'
    obtain ⟨hf', hk⟩ := hf.call hR hx.1 hc (by omega)
    exact ih hf' hR' (hx.2 o q' hq') (by omega)

/-- A run in which fewer than `2 ^ 32` events are inserted meets the condition. -/
theorem unwrapped_of_inserts_lt (hx : LegalCalls pendingEvents.call LegalCall xs [])
    (hn : (xs.map SchedulerCall.inserts).sum < 2 ^ 32) :
    LegalCalls (heapScheduler η).call UnwrappedCall xs {} :=
  Heap.Fresh.unwrapped (fun _ ha => absurd ha (Multiset.notMem_zero _))
    ⟨Heap.valid_new, queued_nil, rfl⟩ (legalCalls_list hx) ((Nat.zero_add _).symm ▸ hn)

end Refinement

/-- Two events of one time, an earlier event, and a cancellation among them. -/
def tiedHeapCalls : List (SchedulerCall ℕ) :=
  [.insert ⟨2, 1, 0⟩, .insert ⟨2, 2, 1⟩, .insert ⟨1, 3, 2⟩, .insert ⟨2, 4, 3⟩,
    .cancel ⟨2, 1, 0⟩, .deque, .deque, .deque]

/-- Events inserted and handed out one at a time, and at last two of one time in the heap. -/
def wrapCalls : ℕ → ℤ → List (SchedulerCall Unit)
  | 0, u => [.insert ⟨0, u, ()⟩, .insert ⟨0, u + 1, ()⟩, .deque]
  | n + 1, u => .insert ⟨0, u, ()⟩ :: .deque :: wrapCalls n (u + 1)

theorem legalCalls_wrapCalls (n : ℕ) (u : ℤ) (hu : 0 < u) :
    LegalCalls pendingEvents.call LegalCall (wrapCalls n u) [] := by
  induction n generalizing u with
  | zero =>
    refine ⟨⟨hu, by simp⟩, fun o p hp => ?_⟩
    cases hp
    refine ⟨⟨by change 0 < u + 1; omega, by simp⟩, fun o p hp => ⟨trivial, fun o p hp => trivial⟩⟩
  | succ n ih =>
    refine ⟨⟨hu, by simp⟩, fun o p hp => ?_⟩
    cases hp
    refine ⟨trivial, fun o p hp => ?_⟩
    have hd : pendingEvents.call .deque [(⟨0, u, ()⟩ : Event Unit)] =
        .ok (some ⟨0, u, ()⟩, []) := by
      simp [SchedulerClass.call, pendingEvents, Pending.first]
    obtain ⟨rfl, rfl⟩ : some ⟨0, u, ()⟩ = o ∧ [] = p := by simpa using hd.symm.trans hp
    exact ih (u + 1) (by omega)

namespace Heap

variable {η : Type} {h : Heap η} {e : Event η}

/-- An empty heap whose counter stands at `s`. -/
def Idle (h : Heap η) (s : ℕ) : Prop := h.hSize = 0 ∧ h.hSKey = s

theorem shiftUp_zero (a : HeapElem η) (es : ℕ → HeapElem η) :
    shiftUp keyLessThan a 0 es 0 = a := by
  rw [shiftUp, if_neg fun h => absurd h.1 (lt_irrefl 0)]
  exact Function.update_self ..

theorem hElems_insert_of_empty (hz : h.hSize = 0) :
    (h.heapInsert e.time e).hElems 0 = ⟨e.time, h.hSKey, some e⟩ := by
  rw [heapInsert, hz]
  exact shiftUp_zero _ _

theorem heapExtractMin_fst (hs : 0 < h.hSize) : h.heapExtractMin.1 = (h.hElems 0).heElem := by
  rw [heapExtractMin, if_neg hs.ne']

/-- An event that goes into an empty heap and out again moves the counter. -/
theorem Idle.roundTrip {s : ℕ} (hi : h.Idle s) (hs : s + 1 < 2 ^ 32) :
    (h.heapInsert e.time e).heapExtractMin.1 = some e ∧
      (h.heapInsert e.time e).heapExtractMin.2.Idle (s + 1) := by
  obtain ⟨hz, hk⟩ := hi
  have hpos : 0 < (h.heapInsert e.time e).hSize := Nat.succ_pos _
  refine ⟨by rw [heapExtractMin_fst hpos, hElems_insert_of_empty hz], ?_⟩
  rw [heapExtractMin, if_neg hpos.ne']
  refine ⟨hz, ?_⟩
  change (h.hSKey + 1) % 2 ^ 32 = s + 1
  rw [hk, Nat.mod_eq_of_lt hs]

/-- Of two events of one time the second comes out first if the counter wraps between them. -/
theorem Idle.tie {a b : Event η} (hi : h.Idle (2 ^ 32 - 1)) (ht : a.time = b.time) :
    ((h.heapInsert a.time a).heapInsert b.time b).heapExtractMin.1 = some b := by
  obtain ⟨hz, hk⟩ := hi
  have hroot := hElems_insert_of_empty (e := a) hz
  have hsize : (h.heapInsert a.time a).hSize = 1 := congrArg (· + 1) hz
  have hkey : (h.heapInsert a.time a).hSKey = 0 := congrArg (fun k => (k + 1) % 2 ^ 32) hk
  have hless : keyLessThan ⟨b.time, 0, some b⟩ ((h.heapInsert a.time a).hElems 0) := by
    rw [hroot, hk]
    simp [keyLessThan, ht]
  rw [heapExtractMin_fst (Nat.succ_pos _), heapInsert, hsize, hkey, shiftUp,
    if_pos ⟨Nat.one_pos, hless⟩]
  exact congrArg HeapElem.heElem (shiftUp_zero _ _)

end Heap

theorem answers_wrapCalls {n : ℕ} {u : ℤ} {h : Heap Unit} (hi : h.Idle (2 ^ 32 - 1 - n))
    (hn : n < 2 ^ 32) :
    ∃ os os' h' q, answers (heapScheduler Unit).call (wrapCalls n u) h = .ok (os, h') ∧
      answers listScheduler.call (wrapCalls n u) [] = .ok (os', q) ∧ os ≠ os' := by
  induction n generalizing u h with
  | zero =>
    have ht := hi.tie (a := ⟨0, u, ()⟩) (b := ⟨0, u + 1, ()⟩) rfl
    refine ⟨[none, none, some ⟨0, u + 1, ()⟩], [none, none, some ⟨0, u, ()⟩], _, _,
      answers_cons rfl (answers_cons rfl (answers_cons (congrArg Except.ok (Prod.ext ht rfl)) rfl)),
      rfl, by simp⟩
  | succ n ih =>
    obtain ⟨ho, hi'⟩ := hi.roundTrip (e := ⟨0, u, ()⟩) (by omega)
    obtain ⟨os, os', h', q, hh, hq, hne⟩ := ih (u := u + 1)
      (by rwa [show 2 ^ 32 - 1 - (n + 1) + 1 = 2 ^ 32 - 1 - n by omega] at hi') (by omega)
    refine ⟨none :: some ⟨0, u, ()⟩ :: os, none :: some ⟨0, u, ()⟩ :: os', h', q,
      answers_cons rfl (answers_cons ?_ hh), answers_cons rfl (answers_cons rfl hq), by simpa⟩
    exact congrArg Except.ok (Prod.ext ho rfl)

end Ns2XPass
