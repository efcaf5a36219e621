import Mathlib.Logic.Function.Basic
import Mathlib.Order.Defs.LinearOrder
import Ns2XPass.Library.Bag

/-! # Binary heaps

The first `n` elements of an array form a heap when none comes before its
parent. Elements are inserted by moving a hole up from the end, extracted by
moving the last one down from the root, and deleted by swapping them to the
root first.
-/

namespace Ns2XPass

variable {α κ : Type*}

def heapParent (i : ℕ) : ℕ := (i - 1) / 2

def heapLeft (i : ℕ) : ℕ := i * 2 + 1

def heapRight (i : ℕ) : ℕ := (i + 1) * 2

theorem heapParent_lt {i : ℕ} (h : 0 < i) : heapParent i < i := by
  rw [heapParent]; omega

theorem heapParent_eq_iff {i j : ℕ} (h : 0 < j) :
    heapParent j = i ↔ j = heapLeft i ∨ j = heapRight i := by
  rw [heapParent, heapLeft, heapRight]; omega

theorem lt_of_heapParent {i j : ℕ} (h : 0 < j) (hp : heapParent j = i) : i < j :=
  hp ▸ heapParent_lt h

def heapSwap (h : ℕ → α) (i j : ℕ) : ℕ → α :=
  Function.update (Function.update h i (h j)) j (h i)

section Operations

variable (less : α → α → Bool)

/-- Moves a hole up from `i` and puts the element where it belongs. -/
def shiftUp (a : α) (i : ℕ) (h : ℕ → α) : ℕ → α :=
  if 0 < i ∧ less a (h (heapParent i)) = true then
    shiftUp a (heapParent i) (Function.update h i (h (heapParent i)))
  else Function.update h i a
termination_by i
decreasing_by
  next hi => exact heapParent_lt hi.1

/-- The child to compare with, or the node itself when it has none. -/
def lesserChild (n i : ℕ) (h : ℕ → α) : ℕ :=
  if heapRight i < n then
    if less (h (heapLeft i)) (h (heapRight i)) then heapLeft i else heapRight i
  else if heapLeft i < n then heapLeft i else i

theorem lesserChild_cases (n i : ℕ) (h : ℕ → α) :
    lesserChild less n i h = i ∨ i < lesserChild less n i h ∧ lesserChild less n i h < n := by
  rw [lesserChild]
  split_ifs
  · right; rw [heapLeft, heapRight] at *; omega
  · right; rw [heapRight] at *; omega
  · right; rw [heapLeft] at *; omega
  · exact .inl rfl

/-- Moves an element down from `i` to where it belongs. -/
def heapify (n i : ℕ) (h : ℕ → α) : ℕ → α :=
  if i < n then
    let x := lesserChild less n i h
    if x ≠ i ∧ less (h x) (h i) = true then heapify n x (heapSwap h i x) else h
  else h
termination_by n - i
decreasing_by
  next hx =>
    have := (lesserChild_cases less n i h).resolve_left hx.1
    omega

/-- Swaps an element to the root. -/
def toRoot (i : ℕ) (h : ℕ → α) : ℕ → α :=
  if i = 0 then h else toRoot (heapParent i) (heapSwap h i (heapParent i))
termination_by i
decreasing_by
  next hi => exact heapParent_lt (Nat.pos_of_ne_zero hi)

end Operations

section Contents

variable {n i j : ℕ} {h : ℕ → α} {a : α}

/-- The elements of a heap. -/
def heapBag (n : ℕ) (h : ℕ → α) : Multiset α := bagOf n fun i => {h i}

theorem mem_heapBag : a ∈ heapBag n h ↔ ∃ i < n, h i = a := by
  simp [heapBag, mem_bagOf, eq_comm]

theorem heapBag_succ : heapBag (n + 1) h = h n ::ₘ heapBag n h := by
  rw [heapBag, bagOf, Finset.sum_range_succ, add_comm, Multiset.singleton_add]
  rfl

/-- The elements in the order of the array. -/
theorem heapBag_eq_map (n : ℕ) (h : ℕ → α) : heapBag n h = ((List.range n).map h : List α) := by
  induction n with
  | zero => rfl
  | succ n ih =>
    rw [heapBag_succ, ih, List.range_succ, List.map_append, ← Multiset.coe_add, add_comm]
    rfl

theorem heapBag_update (hi : i < n) :
    h i ::ₘ heapBag n (Function.update h i a) = a ::ₘ heapBag n h := by
  have hu := bagOf_update (f := fun i => ({h i} : Multiset α)) hi {a}
  have hs : (fun k => ({Function.update h i a k} : Multiset α)) =
      Function.update (fun k => {h k}) i {a} := by
    funext k
    exact Function.apply_update (fun _ x => ({x} : Multiset α)) h i a k
  rw [heapBag, hs, ← Multiset.singleton_add, add_comm, hu, add_comm, Multiset.singleton_add]
  rfl

theorem heapBag_swap (hi : i < n) (hj : j < n) : heapBag n (heapSwap h i j) = heapBag n h := by
  by_cases hij : i = j
  · rw [heapSwap, hij, Function.update_idem, Function.update_eq_self]
  · have hl := heapBag_update (h := h) (a := h j) hi
    have hr := heapBag_update (h := Function.update h i (h j)) (a := h i) hj
    rw [Function.update_of_ne (Ne.symm hij)] at hr
    rw [hl] at hr
    exact (Multiset.cons_inj_right (h j)).mp hr

end Contents

section Order

variable [LinearOrder κ] {key : α → κ} {less : α → α → Bool} {n i j : ℕ} {h : ℕ → α} {a : α}

/-- No element comes before its parent. -/
def HeapOrdered (key : α → κ) (n : ℕ) (h : ℕ → α) : Prop :=
  ∀ j, 0 < j → j < n → key (h (heapParent j)) ≤ key (h j)

/-- The order of a heap at every edge, but that to the parent of `i` if `up` and those to its
children if `down`; these children do not come before the parent of `i`. -/
structure OrderedOff (key : α → κ) (n i : ℕ) (up down : Prop) (h : ℕ → α) : Prop where
  off : ∀ j, 0 < j → j < n → (up → j ≠ i) → (down → heapParent j ≠ i) →
    key (h (heapParent j)) ≤ key (h j)
  grand : 0 < i → ∀ j, 0 < j → j < n → heapParent j = i →
    key (h (heapParent i)) ≤ key (h j)

theorem HeapOrdered.root_le (ho : HeapOrdered key n h) (hj : j < n) : key (h 0) ≤ key (h j) := by
  induction j using Nat.strong_induction_on with
  | _ j ih =>
    rcases Nat.eq_zero_or_pos j with rfl | hpos
    · exact le_rfl
    · have hlt := heapParent_lt hpos
      exact (ih (heapParent j) hlt (hlt.trans hj)).trans (ho j hpos hj)

theorem HeapOrdered.off (ho : HeapOrdered key n h) (i : ℕ) (up down : Prop) :
    OrderedOff key n i up down h where
  off j hpos hj _ _ := ho j hpos hj
  grand hi j hpos hj hp := by
    have hlt := lt_of_heapParent hpos hp
    exact (ho i hi (hlt.trans hj)).trans (hp ▸ ho j hpos hj)

theorem heapSwap_left (h : ℕ → α) (i j : ℕ) : heapSwap h i j i = h j := by
  by_cases hij : i = j
  · rw [hij, heapSwap, Function.update_self]
  · rw [heapSwap, Function.update_of_ne hij, Function.update_self]

theorem heapSwap_right (h : ℕ → α) (i j : ℕ) : heapSwap h i j j = h i := by
  rw [heapSwap, Function.update_self]

theorem heapSwap_of_ne {k : ℕ} (hi : k ≠ i) (hj : k ≠ j) : heapSwap h i j k = h k := by
  rw [heapSwap, Function.update_of_ne hj, Function.update_of_ne hi]

/-- Swapping an element with its parent, before which it comes where that edge matters. -/
theorem OrderedOff.swap_up {down : Prop} (ho : OrderedOff key n i True down h) (hpos : 0 < i)
    (hi : i < n) (hl : ¬ down → key (h i) ≤ key (h (heapParent i))) :
    OrderedOff key n (heapParent i) True down (heapSwap h i (heapParent i)) := by
  have hpi := heapParent_lt hpos
  constructor
  · intro j hj hjn hjp hd
    have hjp := hjp trivial
    by_cases hji : j = i
    · subst hji
      rw [heapSwap_left, heapSwap_right]
      exact hl fun h => hd h rfl
    · rw [heapSwap_of_ne hji hjp]
      by_cases hpj : heapParent j = i
      · rw [hpj, heapSwap_left]
        exact ho.grand hpos j hj hjn hpj
      · by_cases hpp : heapParent j = heapParent i
        · have hnd : ¬ down := fun h => hd h hpp
          rw [hpp, heapSwap_right]
          exact (hl hnd).trans (hpp ▸ ho.off j hj hjn (fun _ => hji) fun h => absurd h hnd)
        · rw [heapSwap_of_ne hpj hpp]
          exact ho.off j hj hjn (fun _ => hji) fun _ => hpj
  · intro hp j hj hjn hpj
    have hpp := heapParent_lt hp
    have hle : key (h (heapParent (heapParent i))) ≤ key (h (heapParent i)) :=
      ho.off _ hp (hpi.trans hi) (fun _ => hpi.ne) fun _ => (hpp.trans hpi).ne
    rw [heapSwap_of_ne (hpp.trans hpi).ne hpp.ne]
    by_cases hji : j = i
    · rwa [hji, heapSwap_left]
    · have hjp : j ≠ heapParent i := hpj ▸ (heapParent_lt hj).ne'
      rw [heapSwap_of_ne hji hjp]
      exact hle.trans (hpj ▸ ho.off j hj hjn (fun _ => hji) fun _ => hpj ▸ hpi.ne)

/-- Swapping an element with a child that comes before it and not after its sibling. -/
theorem OrderedOff.swap_down {x : ℕ} (ho : OrderedOff key n i False True h) (hx : heapParent x = i)
    (hpos : 0 < x) (hxn : x < n) (hl : key (h x) ≤ key (h i))
    (hs : ∀ j, 0 < j → j < n → heapParent j = i → key (h x) ≤ key (h j)) :
    OrderedOff key n x False True (heapSwap h i x) := by
  have hix := lt_of_heapParent hpos hx
  constructor
  · intro j hj hjn _ hd
    have hpx := hd trivial
    by_cases hjx : j = x
    · rw [hjx, hx, heapSwap_left, heapSwap_right]
      exact hl
    · by_cases hji : j = i
      · subst hji
        have hpj := heapParent_lt hj
        rw [heapSwap_left, heapSwap_of_ne hpj.ne hpx]
        exact ho.grand hj x hpos hxn hx
      · rw [heapSwap_of_ne hji hjx]
        by_cases hpi : heapParent j = i
        · rw [hpi, heapSwap_left]
          exact hs j hj hjn hpi
        · rw [heapSwap_of_ne hpi hpx]
          exact ho.off j hj hjn (fun h => h.elim) fun _ => hpi
  · intro _ j hj hjn hpj
    have hxj := lt_of_heapParent hj hpj
    rw [hx, heapSwap_left, heapSwap_of_ne (hix.trans hxj).ne' hxj.ne']
    exact hpj ▸ ho.off j hj hjn (fun h => h.elim) fun _ => hpj ▸ hix.ne'

theorem lesserChild_parent (hx : lesserChild less n i h ≠ i) :
    heapParent (lesserChild less n i h) = i := by
  have hpos := (lesserChild_cases less n i h).resolve_left hx
  rw [heapParent_eq_iff (by omega)]
  rw [lesserChild] at hx ⊢
  split_ifs at hx ⊢
  · exact .inl rfl
  · exact .inr rfl
  · exact .inl rfl
  · exact absurd rfl hx

theorem childless_of_lesserChild (hx : lesserChild less n i h = i) (hj : 0 < j)
    (hp : heapParent j = i) : n ≤ j := by
  by_contra hjn
  rw [lesserChild] at hx
  rcases (heapParent_eq_iff hj).mp hp with rfl | rfl <;> split_ifs at hx <;>
    simp only [heapLeft, heapRight] at * <;> omega

theorem heapSwap_update {p : ℕ} (hp : p ≠ i) :
    heapSwap (Function.update h i a) i p = Function.update (Function.update h i (h p)) p a := by
  rw [heapSwap, Function.update_self, Function.update_of_ne hp, Function.update_idem]

variable (hless : ∀ a b, less a b = true ↔ key a < key b)
include hless

theorem key_le_of_not_less {b : α} (h : ¬ less a b = true) : key b ≤ key a :=
  not_lt.mp fun hlt => h ((hless a b).mpr hlt)

/-- The hole moves up until the element fits. -/
theorem shiftUp_spec (hi : i < n)
    (ho : OrderedOff key n i True False (Function.update h i a)) :
    HeapOrdered key n (shiftUp less a i h) ∧
      heapBag n (shiftUp less a i h) = heapBag n (Function.update h i a) := by
  fun_induction shiftUp less a i h with
  | case1 i h hc ih =>
    have hp := heapParent_lt hc.1
    have hl : key (Function.update h i a i) ≤ key (Function.update h i a (heapParent i)) := by
      rw [Function.update_self, Function.update_of_ne hp.ne]
      exact ((hless a _).mp hc.2).le
    have hswap := heapSwap_update (h := h) (a := a) hp.ne
    obtain ⟨h₁, h₂⟩ := ih (hp.trans hi) (hswap ▸ ho.swap_up hc.1 hi fun _ => hl)
    exact ⟨h₁, h₂.trans (hswap ▸ heapBag_swap hi (hp.trans hi))⟩
  | case2 i h hc =>
    refine ⟨fun j hj hjn => ?_, rfl⟩
    by_cases hji : j = i
    · subst hji
      rw [Function.update_self, Function.update_of_ne (heapParent_lt hj).ne]
      exact key_le_of_not_less hless fun hl => hc ⟨hj, hl⟩
    · exact ho.off j hj hjn (fun _ => hji) fun h => h.elim

theorem lesserChild_le (hj : 0 < j) (hjn : j < n) (hp : heapParent j = i) :
    key (h (lesserChild less n i h)) ≤ key (h j) := by
  rw [lesserChild]
  rcases (heapParent_eq_iff hj).mp hp with rfl | rfl
  · split_ifs with hr hl
    · exact le_rfl
    · exact key_le_of_not_less hless hl
    · exact le_rfl
  · split_ifs with hl
    · exact ((hless _ _).mp hl).le
    · exact le_rfl

/-- An element moves down until it fits. -/
theorem heapify_spec (ho : OrderedOff key n i False True h) :
    HeapOrdered key n (heapify less n i h) ∧ heapBag n (heapify less n i h) = heapBag n h := by
  fun_induction heapify less n i h with
  | case1 i h hi x hc ih =>
    have hx : heapParent x = i := lesserChild_parent hc.1
    obtain ⟨hix, hxn⟩ := (lesserChild_cases less n i h).resolve_left hc.1
    have hl := ((hless _ _).mp hc.2).le
    obtain ⟨h₁, h₂⟩ := ih (ho.swap_down hx (by omega) hxn hl
      fun j hj hjn hp => lesserChild_le hless hj hjn hp)
    exact ⟨h₁, h₂.trans (heapBag_swap hi hxn)⟩
  | case2 i h hi x hc =>
    refine ⟨fun j hj hjn => ?_, rfl⟩
    by_cases hp : heapParent j = i
    · by_cases hx : x = i
      · exact absurd (childless_of_lesserChild hx hj hp) hjn.not_ge
      · have hle := key_le_of_not_less hless fun hl => hc ⟨hx, hl⟩
        exact hp ▸ hle.trans (lesserChild_le hless hj hjn hp)
    · exact ho.off j hj hjn (fun h => h.elim) fun _ => hp
  | case3 i h hi =>
    refine ⟨fun j hj hjn => ?_, rfl⟩
    refine ho.off j hj hjn (fun h => h.elim) fun _ hp => hi ?_
    exact (lt_of_heapParent hj hp).trans hjn

/-- An element is inserted at the end. -/
theorem HeapOrdered.insert (ho : HeapOrdered key n h) :
    HeapOrdered key (n + 1) (shiftUp less a n h) ∧
      heapBag (n + 1) (shiftUp less a n h) = a ::ₘ heapBag n h := by
  have hne : ∀ j < n, Function.update h n a j = h j := fun j hj =>
    Function.update_of_ne hj.ne a h
  have hoff : OrderedOff key (n + 1) n True False (Function.update h n a) := by
    constructor
    · intro j hj hjn hjne _
      have hlt : j < n := by have := hjne trivial; omega
      rw [hne j hlt, hne _ ((heapParent_lt hj).trans hlt)]
      exact ho j hj hlt
    · intro _ j hj hjn hp
      have := lt_of_heapParent hj hp
      omega
  obtain ⟨h₁, h₂⟩ := shiftUp_spec hless n.lt_succ_self hoff
  refine ⟨h₁, h₂.trans ?_⟩
  rw [heapBag_succ, Function.update_self]
  congr 1
  exact bagOf_congr fun j hj => congrArg _ (hne j hj)

/-- The root is extracted, and the last element takes its place. -/
theorem OrderedOff.extract {up : Prop} (ho : OrderedOff key (n + 1) 0 up True h) :
    HeapOrdered key n (heapify less n 0 (Function.update h 0 (h n))) ∧
      heapBag (n + 1) h = h 0 ::ₘ heapBag n (heapify less n 0 (Function.update h 0 (h n))) := by
  have hoff : OrderedOff key n 0 False True (Function.update h 0 (h n)) := by
    refine ⟨fun j hj hjn _ hd => ?_, fun h => absurd h (lt_irrefl 0)⟩
    rw [Function.update_of_ne hj.ne', Function.update_of_ne (hd trivial)]
    exact ho.off j hj (by omega) (fun _ => hj.ne') fun _ => hd trivial
  obtain ⟨h₁, h₂⟩ := heapify_spec hless hoff
  refine ⟨h₁, ?_⟩
  rw [h₂]
  rcases Nat.eq_zero_or_pos n with rfl | hn
  · exact heapBag_succ
  · rw [heapBag_succ, heapBag_update hn]

omit hless

/-- The element at `i` is swapped to the root, and the rest stays in order. -/
theorem toRoot_spec (hi : i < n) (ho : OrderedOff key n i True True h) :
    OrderedOff key n 0 True True (toRoot i h) ∧ heapBag n (toRoot i h) = heapBag n h ∧
      toRoot i h 0 = h i := by
  fun_induction toRoot i h with
  | case1 h => exact ⟨ho, rfl, rfl⟩
  | case2 i h hne ih =>
    have hpos := Nat.pos_of_ne_zero hne
    have hp := heapParent_lt hpos
    obtain ⟨h₁, h₂, h₃⟩ := ih (hp.trans hi) (ho.swap_up hpos hi fun h => absurd trivial h)
    exact ⟨h₁, h₂.trans (heapBag_swap hi (hp.trans hi)), h₃.trans (heapSwap_right h i _)⟩

end Order

end Ns2XPass
