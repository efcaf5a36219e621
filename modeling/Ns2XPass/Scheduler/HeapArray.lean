import Ns2XPass.Library.Except
import Ns2XPass.Library.Machine
import Ns2XPass.Scheduler.Heap

/-! # The array of the heap

An array that is full is doubled, and sizes and indices are unsigned. While no
element is inserted beside `2 ^ 31` others none of them wraps, and the array is
the heap of the scheduler. The next doubling yields an array of no elements.
-/

namespace Ns2XPass

/-- The array is read or written beyond its end, or a loop goes on. -/
inductive HeapArrayError
  | beyondArray
  | outOfSteps
  deriving DecidableEq

/-- The heap in an array of `h_maxsize` elements. -/
structure HeapArray (η : Type) where
  heap : Heap η := {}
  hMaxsize : ℕ
  hIter : ℕ := 0

inductive HeapArrayCall (η : Type)
  | insert (key : ℚ) (elem : Event η)
  | extractMin
  | delete (elem : Event η)

namespace HeapArray

variable {η : Type} (t : HeapArray η)

def new (size : ℕ) : HeapArray η := { hMaxsize := size }

def left (i : ℕ) : ℕ := (i * 2 + 1) % 2 ^ 32

def right (i : ℕ) : ℕ := (i + 1) * 2 % 2 ^ 32

/-- A full array is copied into one of twice its size. -/
def grow : Except HeapArrayError (HeapArray η) :=
  if t.hMaxsize = t.heap.hSize then
    if t.hMaxsize * 2 % 2 ^ 32 < t.hMaxsize then .error .beyondArray
    else .ok { t with hMaxsize := t.hMaxsize * 2 % 2 ^ 32 }
  else .ok t

/-- The parent is taken of positive indices only. -/
def heapInsert (key : ℚ) (elem : Event η) : Except HeapArrayError (HeapArray η) := do
  let t ← t.grow
  if t.heap.hSize < t.hMaxsize then .ok { t with heap := t.heap.heapInsert key elem }
  else .error .beyondArray

/-- The child to compare with, or the node itself. -/
def lesser (n i : ℕ) (h : ℕ → HeapElem η) : ℕ :=
  if right i < n then
    if Heap.keyLessThan (h (left i)) (h (right i)) then left i else right i
  else if left i < n then left i else i

/-- The loop of `heap_extract_min` in an array of `size` elements, of which `n` are in use. -/
def siftFrom (size n : ℕ) : ℕ → ℕ → (ℕ → HeapElem η) → Except HeapArrayError (ℕ → HeapElem η)
  | 0, _, _ => .error .outOfSteps
  | k + 1, i, h =>
    if i < n then
      if right i < n ∧ size ≤ left i then .error .beyondArray
      else if lesser n i h ≠ i ∧ Heap.keyLessThan (h (lesser n i h)) (h i) = true then
        siftFrom size n k (lesser n i h) (heapSwap h i (lesser n i h))
      else .ok h
    else .ok h

/-- The loop moves down at each step. -/
def heapExtractMin : Except HeapArrayError (Option (Event η) × HeapArray η) :=
  if t.heap.hSize = 0 then .ok (none, t)
  else
    (siftFrom t.hMaxsize (t.heap.hSize - 1) (t.heap.hSize + 1) 0
      (Function.update t.heap.hElems 0 (t.heap.hElems (t.heap.hSize - 1)))).map fun h =>
        ((t.heap.hElems 0).heElem,
          { t with heap := { t.heap with hElems := h, hSize := t.heap.hSize - 1 } })

def heapDelete [DecidableEq η] (elem : Event η) : Except HeapArrayError (ℤ × HeapArray η) :=
  match t.heap.heapMember elem with
  | none => .ok (0, t)
  | some i =>
    (heapExtractMin { t with heap := { t.heap with hElems := toRoot i t.heap.hElems } }).map
      fun r => (1, r.2)

def heapIterInit : Option (Event η) × HeapArray η := (t.heap.heapMin, { t with hIter := 1 })

def heapIter : Option (Event η) × HeapArray η :=
  if t.heap.hSize ≤ t.hIter then (none, { t with hIter := 0 })
  else ((t.heap.hElems t.hIter).heElem, { t with hIter := t.hIter + 1 })

/-- `for (elem = heap_iter_init(); elem; elem = heap_iter())` -/
def iterFrom : ℕ → Option (Event η) → HeapArray η →
    Except HeapArrayError (List (Event η) × HeapArray η)
  | _, none, t => .ok ([], t)
  | 0, some _, _ => .error .outOfSteps
  | n + 1, some e, t =>
    (iterFrom n t.heapIter.1 t.heapIter.2).map fun r => (e :: r.1, r.2)

def iterate : Except HeapArrayError (List (Event η) × HeapArray η) :=
  iterFrom t.heap.hSize t.heapIterInit.1 t.heapIterInit.2

def step [DecidableEq η] : HeapArrayCall η → Except HeapArrayError (HeapArray η)
  | .insert key elem => t.heapInsert key elem
  | .extractMin => t.heapExtractMin.map (·.2)
  | .delete elem => (t.heapDelete elem).map (·.2)

/-- There are fewer than `2 ^ 32` inserts, which `h_s_key` counts. -/
def Enabled : HeapArrayCall η → Prop
  | .insert _ _ => t.heap.hSKey + 1 < 2 ^ 32
  | .extractMin | .delete _ => True

/-- The condition on a call. -/
def Few : HeapArrayCall η → Prop
  | .insert _ _ => t.heap.hSize < 2 ^ 31
  | .extractMin | .delete _ => True

def machine (η : Type) [DecidableEq η] :
    Machine (HeapArray η) (HeapArrayCall η) HeapArrayError where
  Init t := ∃ size, 1 ≤ size ∧ size < 2 ^ 31 ∧ t = new size
  Enabled := HeapArray.Enabled
  step := fun t => t.step

/-- The order of the heap, and what the calls do to its elements. -/
structure Sound [DecidableEq η] (t : HeapArray η) : Prop where
  ordered : HeapOrdered Heap.elemKey t.heap.hSize t.heap.hElems
  insert : ∀ key e, t.heap.hSize < 2 ^ 31 → ∃ t', t.heapInsert key e = .ok t' ∧
    t'.heap.elems = ⟨key, t.heap.hSKey, some e⟩ ::ₘ t.heap.elems
  extractMin : t.heap.elems = 0 ∧ t.heapExtractMin = .ok (none, t) ∨
    ∃ a t', t.heapExtractMin = .ok (a.heElem, t') ∧ t.heap.elems = a ::ₘ t'.heap.elems ∧
      ∀ b ∈ t.heap.elems, Heap.elemKey a ≤ Heap.elemKey b
  delete : ∀ e, e ∉ t.heap.events ∧ t.heapDelete e = .ok (0, t) ∨
    ∃ a t', a.heElem = some e ∧ t.heapDelete e = .ok (1, t') ∧
      t.heap.elems = a ::ₘ t'.heap.elems
  iterate : ∃ es t', t.iterate = .ok (es, t') ∧ (es : Multiset (Event η)) = t.heap.events ∧
    es.length = t.heap.hSize ∧ t'.heap = t.heap

variable {t} {t' : HeapArray η} {n i k size : ℕ} {h : ℕ → HeapElem η}

/-! ## Indices that do not wrap -/

theorem left_eq (hi : i < 2 ^ 31) : left i = heapLeft i := Nat.mod_eq_of_lt (by omega)

theorem right_eq (hi : i + 1 < 2 ^ 31) : right i = heapRight i := Nat.mod_eq_of_lt (by omega)

theorem lesser_eq (hi : i < n) (hn : n < 2 ^ 31) :
    lesser n i h = lesserChild Heap.keyLessThan n i h := by
  rw [lesser, lesserChild, left_eq (by omega), right_eq (by omega)]

/-- The loop ends, and does what `heapify` does. -/
theorem siftFrom_eq (hn : n < 2 ^ 31) (hs : n ≤ size) (hk : n - i < k) :
    siftFrom size n k i h = .ok (heapify Heap.keyLessThan n i h) := by
  induction k generalizing i h with
  | zero => omega
  | succ k ih =>
    rw [siftFrom, heapify]
    by_cases hi : i < n
    · have hin : ¬ (right i < n ∧ size ≤ left i) := by
        rw [right_eq (by omega), left_eq (by omega), heapRight, heapLeft]
        omega
      rw [if_pos hi, if_pos hi, if_neg hin, lesser_eq hi hn]
      dsimp only
      split
      · next hx =>
        have := (lesserChild_cases Heap.keyLessThan n i h).resolve_left hx.1
        exact ih (by omega)
      · rfl
    · rw [if_neg hi, if_neg hi]

theorem heapExtractMin_eq (hn : t.heap.hSize ≤ 2 ^ 31) (hs : t.heap.hSize ≤ t.hMaxsize) :
    t.heapExtractMin =
      .ok (t.heap.heapExtractMin.1, { t with heap := t.heap.heapExtractMin.2 }) := by
  rw [HeapArray.heapExtractMin, Heap.heapExtractMin]
  by_cases hz : t.heap.hSize = 0
  · rw [if_pos hz, if_pos hz]
  · rw [if_neg hz, if_neg hz, siftFrom_eq (by omega) (by omega) (by omega)]
    rfl

/-- The array holds the heap, which is in order, and its elements are not null. -/
structure Fits (t : HeapArray η) : Prop where
  ordered : HeapOrdered Heap.elemKey t.heap.hSize t.heap.hElems
  few : t.heap.hSize ≤ 2 ^ 31
  room : t.heap.hSize ≤ t.hMaxsize
  some_room : 1 ≤ t.hMaxsize
  elem : ∀ i < t.heap.hSize, ∃ e, (t.heap.hElems i).heElem = some e

theorem Fits.grow (hf : Fits t) (hlt : t.heap.hSize < 2 ^ 31) :
    ∃ m, t.grow = .ok { t with hMaxsize := m } ∧ t.heap.hSize < m := by
  have := hf.room
  have := hf.some_room
  unfold HeapArray.grow
  by_cases hfull : t.hMaxsize = t.heap.hSize
  · have hm : t.hMaxsize * 2 % 2 ^ 32 = t.hMaxsize * 2 := Nat.mod_eq_of_lt (by omega)
    rw [if_pos hfull, hm, if_neg (by omega)]
    exact ⟨t.hMaxsize * 2, rfl, by omega⟩
  · rw [if_neg hfull]
    exact ⟨t.hMaxsize, rfl, by omega⟩

theorem Fits.of_elems {a : HeapElem η} (hf : Fits t)
    (ho : HeapOrdered Heap.elemKey t'.heap.hSize t'.heap.hElems)
    (he : t.heap.elems = a ::ₘ t'.heap.elems) (hs : t'.heap.hSize ≤ t.heap.hSize)
    (hm : t'.hMaxsize = t.hMaxsize) : Fits t' := by
  refine ⟨ho, hs.trans hf.few, hm ▸ hs.trans hf.room, hm ▸ hf.some_room, fun i hi => ?_⟩
  have hmem : t'.heap.hElems i ∈ t.heap.elems := by
    rw [he]
    exact Multiset.mem_cons_of_mem (Heap.mem_elems.mpr ⟨i, hi, rfl⟩)
  obtain ⟨j, hj, hij⟩ := Heap.mem_elems.mp hmem
  rw [← hij]
  exact hf.elem j hj

theorem Fits.insert (hf : Fits t) (hlt : t.heap.hSize < 2 ^ 31) (key : ℚ) (e : Event η) :
    ∃ t', t.heapInsert key e = .ok t' ∧ Fits t' ∧ t'.heap = t.heap.heapInsert key e ∧
      t'.heap.elems = ⟨key, t.heap.hSKey, some e⟩ ::ₘ t.heap.elems := by
  obtain ⟨m, hg, hm⟩ := hf.grow hlt
  obtain ⟨ho, hb⟩ := hf.ordered.insert Heap.keyLessThan_iff (a := ⟨key, t.heap.hSKey, some e⟩)
  refine ⟨{ t with hMaxsize := m, heap := t.heap.heapInsert key e }, ?_, ?_, rfl, hb⟩
  · rw [HeapArray.heapInsert, hg]
    exact if_pos hm
  · have hpos : 1 ≤ m := by omega
    refine ⟨ho, hlt, hm, hpos, fun i hi => ?_⟩
    have hmem : (t.heap.heapInsert key e).hElems i ∈ (t.heap.heapInsert key e).elems :=
      Heap.mem_elems.mpr ⟨i, hi, rfl⟩
    have hel : (t.heap.heapInsert key e).elems = ⟨key, t.heap.hSKey, some e⟩ ::ₘ t.heap.elems := hb
    rw [hel, Multiset.mem_cons] at hmem
    rcases hmem with hnew | hold
    · exact ⟨e, congrArg HeapElem.heElem hnew⟩
    · obtain ⟨j, hj, hij⟩ := Heap.mem_elems.mp hold
      obtain ⟨d, hd⟩ := hf.elem j hj
      exact ⟨d, (congrArg HeapElem.heElem hij).symm.trans hd⟩

/-- The root leaves an array that is in order below it. -/
theorem Fits.extract {up : Prop} (hf : Fits t) {g : ℕ → HeapElem η} (hs : 0 < t.heap.hSize)
    (ho : OrderedOff Heap.elemKey t.heap.hSize 0 up True g)
    (hg : heapBag t.heap.hSize g = t.heap.elems) :
    ∃ t', HeapArray.heapExtractMin { t with heap := { t.heap with hElems := g } } =
        .ok ((g 0).heElem, t') ∧ Fits t' ∧ t.heap.elems = g 0 ::ₘ t'.heap.elems := by
  have heq := heapExtractMin_eq (t := { t with heap := { t.heap with hElems := g } }) hf.few hf.room
  obtain ⟨h₁, h₂⟩ := Heap.extract_spec (h := { t.heap with hElems := g }) hs ho
  have hfst : (Heap.heapExtractMin { t.heap with hElems := g }).1 = (g 0).heElem :=
    Heap.heapExtractMin_fst (h := { t.heap with hElems := g }) hs
  rw [hfst] at heq
  have hel : t.heap.elems = g 0 ::ₘ (Heap.heapExtractMin { t.heap with hElems := g }).2.elems := by
    rw [← hg]
    exact h₂
  refine ⟨_, heq, hf.of_elems h₁ hel ?_ rfl, hel⟩
  rw [Heap.heapExtractMin]
  split
  · exact le_rfl
  · exact Nat.sub_le _ 1

theorem elems_eq_zero (hs : t.heap.hSize = 0) : t.heap.elems = 0 := by
  rw [Heap.elems, hs]
  rfl

theorem Fits.extractMin (hf : Fits t) :
    t.heap.elems = 0 ∧ t.heapExtractMin = .ok (none, t) ∨
      ∃ a t', t.heapExtractMin = .ok (a.heElem, t') ∧ Fits t' ∧
        t.heap.elems = a ::ₘ t'.heap.elems ∧
        ∀ b ∈ t.heap.elems, Heap.elemKey a ≤ Heap.elemKey b := by
  rcases Nat.eq_zero_or_pos t.heap.hSize with hz | hs
  · exact .inl ⟨elems_eq_zero hz, if_pos hz⟩
  · obtain ⟨t', hr, hf', hel⟩ := hf.extract hs (hf.ordered.off 0 False True) rfl
    refine .inr ⟨t.heap.hElems 0, t', hr, hf', hel, fun b hb => ?_⟩
    obtain ⟨i, hi, rfl⟩ := Heap.mem_elems.mp hb
    exact hf.ordered.root_le hi

theorem Fits.delete [DecidableEq η] (hf : Fits t) (e : Event η) :
    e ∉ t.heap.events ∧ t.heapDelete e = .ok (0, t) ∨
      ∃ a t', a.heElem = some e ∧ t.heapDelete e = .ok (1, t') ∧ Fits t' ∧
        t.heap.elems = a ::ₘ t'.heap.elems := by
  rw [heapDelete]
  cases hm : t.heap.heapMember e with
  | none =>
    refine .inl ⟨fun he => ?_, rfl⟩
    obtain ⟨a, ha, hae⟩ := Heap.mem_events.mp he
    obtain ⟨i, hi, rfl⟩ := Heap.mem_elems.mp ha
    have := List.find?_eq_none.mp hm i (List.mem_range.mpr hi)
    simp [hae] at this
  | some i =>
    have hi : i < t.heap.hSize := List.mem_range.mp (List.mem_of_find?_eq_some hm)
    have hie : (t.heap.hElems i).heElem = some e := by simpa using List.find?_some hm
    obtain ⟨ho, hb, hr⟩ := toRoot_spec hi (hf.ordered.off i True True)
    obtain ⟨t', hx, hf', hel⟩ := hf.extract (i.zero_le.trans_lt hi) ho hb
    refine .inr ⟨t.heap.hElems i, t', hie, ?_, hf', hr ▸ hel⟩
    simp only [hx]
    rfl

/-! ## Iteration -/

/-- The elements from an index on, in the order of the array. -/
theorem Fits.iterFrom (hf : Fits t) {m : ℕ} (hi : i + 1 + m = t.heap.hSize) {e : Event η}
    (he : (t.heap.hElems i).heElem = some e) :
    ∃ es t', HeapArray.iterFrom (m + 1) (some e) { t with hIter := i + 1 } = .ok (es, t') ∧
      t'.heap = t.heap ∧
      es.map some = (List.range' i (m + 1)).map fun i => (t.heap.hElems i).heElem := by
  induction m generalizing i e with
  | zero =>
    have hnext : heapIter { t with hIter := i + 1 } = (none, { t with hIter := 0 }) :=
      if_pos (le_of_eq hi.symm)
    refine ⟨[e], { t with hIter := 0 }, ?_, rfl, by simp [he]⟩
    rw [HeapArray.iterFrom, hnext]
    rfl
  | succ m ih =>
    obtain ⟨d, hd⟩ := hf.elem (i + 1) (by omega)
    have hnext : heapIter { t with hIter := i + 1 } = (some d, { t with hIter := i + 1 + 1 }) := by
      rw [← hd]
      exact if_neg (by change ¬ t.heap.hSize ≤ i + 1; omega)
    obtain ⟨es, t', hr, hh, hes⟩ := ih (by omega) hd
    refine ⟨e :: es, t', ?_, hh, ?_⟩
    · rw [HeapArray.iterFrom, hnext, hr]
      rfl
    · rw [List.map_cons, hes, List.range'_succ (s := i), List.map_cons, he]

/-- The walk meets every element once. -/
theorem Fits.iterate (hf : Fits t) :
    ∃ es t', t.iterate = .ok (es, t') ∧ (es : Multiset (Event η)) = t.heap.events ∧
      es.length = t.heap.hSize ∧ t'.heap = t.heap := by
  rcases Nat.eq_zero_or_pos t.heap.hSize with hz | hs
  · have hinit : t.heapIterInit = (none, { t with hIter := 1 }) := by
      rw [heapIterInit, Heap.heapMin, if_neg (by omega)]
    refine ⟨[], { t with hIter := 1 }, ?_, ?_, hz.symm, rfl⟩
    · rw [HeapArray.iterate, hz, hinit]
      rfl
    · rw [Heap.events_of_empty hz]
      rfl
  · obtain ⟨e, he⟩ := hf.elem 0 hs
    have hinit : t.heapIterInit = (some e, { t with hIter := 0 + 1 }) := by
      rw [heapIterInit, Heap.heapMin, if_pos hs, he]
    obtain ⟨es, t', hr, hh, hes⟩ := hf.iterFrom (i := 0) (m := t.heap.hSize - 1) (by omega) he
    rw [Nat.sub_add_cancel hs] at hr hes
    refine ⟨es, t', ?_, ?_, ?_, hh⟩
    · rw [HeapArray.iterate, hinit]
      exact hr
    · have hevents : es = ((List.range t.heap.hSize).map t.heap.hElems).filterMap
          HeapElem.heElem := by
        have hid := congrArg (List.filterMap id) hes
        rw [List.filterMap_map, Function.id_comp, List.filterMap_some, ← List.range_eq_range',
          List.filterMap_map, Function.id_comp] at hid
        rw [hid, List.filterMap_map]
        rfl
      rw [Heap.events, Heap.elems, heapBag_eq_map, hevents]
      rfl
    · have := congrArg List.length hes
      simpa using this

/-! ## Runs -/

variable [DecidableEq η] {x : HeapArrayCall η}

theorem Fits.step (hf : Fits t) (hx : t.Few x) (hs : t.step x = .ok t') : Fits t' := by
  cases x with
  | insert key e =>
    obtain ⟨t₁, hr, hf', -⟩ := hf.insert hx key e
    obtain rfl : t₁ = t' := Except.ok.inj (hr.symm.trans hs)
    exact hf'
  | extractMin =>
    obtain ⟨-, hr⟩ | ⟨a, t₁, hr, hf', -⟩ := hf.extractMin
    · rw [HeapArray.step, hr] at hs
      exact Except.ok.inj hs ▸ hf
    · rw [HeapArray.step, hr] at hs
      exact Except.ok.inj hs ▸ hf'
  | delete e =>
    obtain ⟨-, hr⟩ | ⟨a, t₁, -, hr, hf', -⟩ := hf.delete e
    · rw [HeapArray.step, hr] at hs
      exact Except.ok.inj hs ▸ hf
    · rw [HeapArray.step, hr] at hs
      exact Except.ok.inj hs ▸ hf'

theorem invariant_fits : ((machine η).restrict Few).Invariant Fits where
  init := by
    rintro t ⟨size, hs, -, rfl⟩
    refine ⟨fun j _ hj => absurd hj (Nat.not_lt_zero j), Nat.zero_le _, Nat.zero_le _, hs,
      fun i hi => absurd hi (Nat.not_lt_zero i)⟩
  step t x t' hf he hs := hf.step he.2 hs

theorem Fits.sound (hf : Fits t) : Sound t where
  ordered := hf.ordered
  insert key e hlt := by
    obtain ⟨t', hr, -, -, hel⟩ := hf.insert hlt key e
    exact ⟨t', hr, hel⟩
  extractMin := by
    obtain h | ⟨a, t', hr, -, hel, hle⟩ := hf.extractMin
    · exact .inl h
    · exact .inr ⟨a, t', hr, hel, hle⟩
  delete e := by
    obtain h | ⟨a, t', ha, hr, -, hel⟩ := hf.delete e
    · exact .inl h
    · exact .inr ⟨a, t', ha, hr, hel⟩
  iterate := hf.iterate

end HeapArray

/-- In the runs in which no element is inserted beside `2 ^ 31` others the array is a heap, and the
calls do to its elements what they should. -/
theorem heapArray_sound {η : Type} [DecidableEq η] {t : HeapArray η}
    (h : ((HeapArray.machine η).restrict HeapArray.Few).Reachable t) : t.Sound :=
  (HeapArray.invariant_fits.reachable h).sound

/-- A call that fills an array whose size is a power of two. -/
theorem HeapArray.insert_power {t : HeapArray Unit} {j : ℕ} (hm : t.hMaxsize = 2 ^ j)
    (hle : t.heap.hSize ≤ 2 ^ j) (hlt : t.heap.hSize < 2 ^ 31) (hj : j ≤ 31) (e : Event Unit) :
    ∃ k ≤ 31, t.heapInsert 0 e =
      .ok { t with hMaxsize := 2 ^ k, heap := t.heap.heapInsert 0 e } ∧ t.heap.hSize < 2 ^ k := by
  unfold HeapArray.heapInsert HeapArray.grow
  by_cases hfull : t.hMaxsize = t.heap.hSize
  · have hj : j < 31 := by
      have : 2 ^ j < 2 ^ 31 := by omega
      exact (Nat.pow_lt_pow_iff_right (by omega)).mp this
    have hpow : 2 ^ j < 2 ^ 31 := Nat.pow_lt_pow_right (by omega) hj
    have hdouble : t.hMaxsize * 2 % 2 ^ 32 = 2 ^ (j + 1) := by
      rw [hm, Nat.mod_eq_of_lt (by omega), Nat.pow_succ]
    have hsucc : 2 ^ (j + 1) = 2 ^ j * 2 := Nat.pow_succ ..
    have hpos : 0 < 2 ^ j := Nat.two_pow_pos j
    refine ⟨j + 1, hj, ?_, by omega⟩
    rw [if_pos hfull, hdouble, if_neg (by omega)]
    exact if_pos (by change t.heap.hSize < 2 ^ (j + 1); omega)
  · refine ⟨j, hj, ?_, by omega⟩
    rw [if_neg hfull, ← hm]
    exact if_pos (by omega)

/-- Inserting on and on fills an array whose size is a power of two. -/
theorem exists_full {n : ℕ} (hn : n ≤ 2 ^ 31) :
    ∃ t, ((HeapArray.machine Unit).restrict HeapArray.Few).Reachable t ∧ t.heap.hSize = n ∧
      t.heap.hSKey = n ∧ ∃ j ≤ 31, t.hMaxsize = 2 ^ j ∧ n ≤ 2 ^ j := by
  induction n with
  | zero =>
    exact ⟨.new 32, .init ⟨32, by omega, by omega, rfl⟩, rfl, rfl, 5, by omega, rfl, by omega⟩
  | succ n ih =>
    obtain ⟨t, h, hs, hk, j, hj, hm, hle⟩ := ih (by omega)
    obtain ⟨k, hk31, hr, hlt⟩ := HeapArray.insert_power hm (hs ▸ hle) (by omega) hj ⟨0, 0, ()⟩
    have hfew : t.heap.hSize < 2 ^ 31 := by omega
    have hkey : t.heap.hSKey + 1 < 2 ^ 32 := by omega
    refine ⟨_, h.step (x := .insert 0 ⟨0, 0, ()⟩) ⟨hkey, hfew⟩ hr, ?_, ?_, k, hk31, rfl, by omega⟩
    · exact congrArg (· + 1) hs
    · change (t.heap.hSKey + 1) % 2 ^ 32 = n + 1
      rw [Nat.mod_eq_of_lt hkey, hk]

/-- The array of 33 elements has been doubled. -/
theorem heapArray_sound_doubled :
    ∃ t, ((HeapArray.machine Unit).restrict HeapArray.Few).Reachable t ∧ t.heap.hSize = 33 ∧
      32 < t.hMaxsize ∧ t.Sound := by
  obtain ⟨t, h, hs, -, j, -, hm, hle⟩ := exists_full (n := 33) (by omega)
  exact ⟨t, h, hs, by omega, heapArray_sound h⟩

/-- The array that starts out with 32 elements is doubled until `h_maxsize` is zero. -/
theorem heapArray_overflow : ∃ t, (HeapArray.machine Unit).Reachable t ∧
    t.heap.hSKey = 2 ^ 31 ∧ t.Enabled (.insert 0 ⟨0, 0, ()⟩) ∧
    t.heapInsert 0 ⟨0, 0, ()⟩ = .error .beyondArray := by
  obtain ⟨t, h, hs, hk, j, hj, hm, hle⟩ := exists_full (n := 2 ^ 31) le_rfl
  have hpow : 2 ^ j ≤ 2 ^ 31 := Nat.pow_le_pow_right (by omega) hj
  have hkey : t.heap.hSKey + 1 < 2 ^ 32 := by omega
  refine ⟨t, Machine.Reachable.invariant.restrict.reachable h, hk, hkey, ?_⟩
  have hfull : t.hMaxsize = t.heap.hSize := by omega
  unfold HeapArray.heapInsert HeapArray.grow
  rw [if_pos hfull, if_pos (by omega)]
  rfl

end Ns2XPass
