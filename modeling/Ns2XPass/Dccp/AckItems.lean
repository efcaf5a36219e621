import Mathlib.Algebra.BigOperators.Group.List.Basic
import Mathlib.Data.Nat.ModEq
import Ns2XPass.Dccp.AckVector

/-! # The items of an ack vector

The items from the head to the tail of an ack vector are a list, which stands
for the states of the packets from the newest one down to the oldest one.
-/

namespace Ns2XPass

variable {v v' : AckVector} {items pre post its : List ℕ} {b r i n q k : ℕ}
  {s : PacketState} {g : ℕ → ℕ → ℕ}

/-- An item of a state and a run length. -/
def item (s : PacketState) (r : ℕ) : ℕ := (s.code <<< 6) + r

/-- The number of packets of the items. -/
def total (items : List ℕ) : ℕ := (items.map fun b => runlen b + 1).sum

/-- The states of the packets, from the newest one on. -/
def expand (items : List ℕ) : List PacketState :=
  items.flatMap fun b => List.replicate (runlen b + 1) (itemState b)

theorem runlen_eq : runlen b = b % 2 ^ 6 := Nat.and_two_pow_sub_one_eq_mod b 6

theorem runlen_lt : runlen b < 64 := by
  rw [runlen_eq]
  exact Nat.mod_lt _ (by decide)

theorem item_eq : item s r = 64 * s.code + r := by
  rw [item, Nat.shiftLeft_eq, Nat.mul_comm]

theorem code_lt : s.code < 4 := by cases s <;> decide

theorem item_lt (hr : r < 64) : item s r < 2 ^ 8 := by
  have := code_lt (s := s)
  rw [item_eq]
  omega

@[simp] theorem runlen_item (hr : r < 64) : runlen (item s r) = r := by
  rw [runlen_eq, item_eq]
  omega

@[simp] theorem itemState_item (hr : r < 64) : itemState (item s r) = s := by
  have hshift : item s r >>> 6 = s.code := by
    rw [Nat.shiftRight_eq_div_pow, item_eq]
    omega
  rw [itemState, hshift]
  cases s <;> rfl

/-- The item that `addItems` writes. -/
theorem pushed_item (hr : r < 64) :
    (s.code <<< 6 ||| (r &&& runLengthMask)) % 2 ^ 8 = item s r := by
  have hmask : r &&& runLengthMask = r := by
    rw [runLengthMask, show 0x3F = 2 ^ 6 - 1 from rfl, Nat.and_two_pow_sub_one_eq_mod]
    exact Nat.mod_eq_of_lt hr
  rw [hmask, ← Nat.shiftLeft_add_eq_or_of_lt hr]
  exact Nat.mod_eq_of_lt (item_lt hr)

/-- A byte is the item of its state and its run length. -/
theorem item_of_byte (hb : b < 2 ^ 8) : item (itemState b) (runlen b) = b := by
  have hcode : ∀ c < 4, (PacketState.ofCode c).code = c := by decide
  have hstate : (itemState b).code = b / 2 ^ 6 := by
    rw [itemState, Nat.shiftRight_eq_div_pow]
    apply hcode
    omega
  rw [item_eq, hstate, runlen_eq]
  exact Nat.div_add_mod b 64

@[simp] theorem total_nil : total [] = 0 := rfl

@[simp] theorem total_cons : total (b :: items) = runlen b + 1 + total items := by
  unfold total
  rw [List.map_cons, List.sum_cons]

@[simp] theorem total_append : total (pre ++ post) = total pre + total post := by
  unfold total
  rw [List.map_append, List.sum_append]

@[simp] theorem expand_nil : expand [] = [] := rfl

@[simp] theorem expand_cons :
    expand (b :: items) = List.replicate (runlen b + 1) (itemState b) ++ expand items := rfl

@[simp] theorem expand_append : expand (pre ++ post) = expand pre ++ expand post :=
  List.flatMap_append

@[simp] theorem length_expand : (expand items).length = total items := by
  induction items with
  | nil => rfl
  | cons b items ih => simp [ih]

theorem total_pos (h : items ≠ []) : 0 < total items := by
  obtain ⟨b, items, rfl⟩ := List.exists_cons_of_ne_nil h
  rw [total_cons]
  omega

/-- An item stands for at most 64 packets. -/
theorem total_le : total items ≤ 64 * items.length := by
  induction items with
  | nil => exact le_rfl
  | cons b items ih =>
    rw [total_cons, List.length_cons]
    have := runlen_lt (b := b)
    omega

/-- The states of many full items and one more. -/
theorem expand_replicate (hr : r < 64) :
    expand (List.replicate n (item s r)) = List.replicate ((r + 1) * n) s := by
  induction n with
  | zero => rfl
  | succ n ih =>
    rw [List.replicate_succ, expand_cons, ih, runlen_item hr, itemState_item hr,
      ← List.replicate_add]
    congr 1
    rw [Nat.mul_succ, Nat.add_comm]

theorem set_replicate {α : Type*} {a c : α} (hi : i < n) :
    (List.replicate n a).set i c = List.replicate i a ++ c :: List.replicate (n - 1 - i) a := by
  obtain ⟨m, rfl⟩ := Nat.exists_eq_add_of_lt hi
  rw [Nat.add_assoc, List.replicate_add, List.set_append_right _ _ (by simp),
    List.length_replicate, Nat.sub_self, List.replicate_succ, List.set_cons_zero]
  congr 3
  omega

/-- The items of a run that is split stand for the run with the new state. -/
theorem expand_splitItems {y x : PacketState} {seqStart seqEnd : ℕ} (hr : 0 < r) (hlt : r < 64)
    (hend : seqEnd + r = seqStart) (hlo : seqEnd ≤ q) (hhi : q ≤ seqStart) :
    expand (AckVector.splitItems y x r q seqStart seqEnd) =
      (List.replicate (r + 1) y).set (seqStart - q) x := by
  have hnew : x.code <<< 6 = item x 0 := rfl
  have hold : ∀ j, (y.code <<< 6) + j = item y j := fun _ => rfl
  rw [set_replicate (by omega)]
  unfold AckVector.splitItems
  simp only [hnew, hold]
  split_ifs with hs he
  · subst hs
    simp [runlen_item (s := y) (show r - 1 < 64 by omega),
      itemState_item (s := y) (show r - 1 < 64 by omega), Nat.sub_add_cancel hr]
  · subst he
    have hsub : seqStart - q = r := by omega
    simp [runlen_item (s := y) (show r - 1 < 64 by omega),
      itemState_item (s := y) (show r - 1 < 64 by omega), Nat.sub_add_cancel hr, hsub]
  · have h₁ : r - 1 - (q - seqEnd) < 64 := by omega
    have h₂ : r - 1 - (seqStart - q) < 64 := by omega
    have h₃ : r - 1 - (q - seqEnd) + 1 = seqStart - q := by omega
    have h₄ : r - 1 - (seqStart - q) + 1 = r - (seqStart - q) := by omega
    simp [runlen_item h₁, itemState_item h₁, runlen_item h₂, itemState_item h₂, h₃, h₄]

theorem splitItems_lt {y x : PacketState} {seqStart seqEnd : ℕ} (hr : r < 64) :
    ∀ b ∈ AckVector.splitItems y x r q seqStart seqEnd, b < 2 ^ 8 := by
  have h : ∀ s : PacketState, ∀ j < 64, (s.code <<< 6) + j < 2 ^ 8 :=
    fun _ _ hk => item_lt hk
  have h₀ := h x 0 (by decide)
  have h₁ := h y (r - 1) (by omega)
  have h₂ := h y (r - 1 - (q - seqEnd)) (by omega)
  have h₃ := h y (r - 1 - (seqStart - q)) (by omega)
  unfold AckVector.splitItems
  split_ifs <;> simp_all

theorem length_splitItems (y x : PacketState) (r q seqStart seqEnd : ℕ) :
    2 ≤ (AckVector.splitItems y x r q seqStart seqEnd).length ∧
      (AckVector.splitItems y x r q seqStart seqEnd).length ≤ 3 := by
  unfold AckVector.splitItems
  split_ifs <;> simp

namespace AckVector

/-- The vector holds the items from the head to the tail. -/
structure Holds (v : AckVector) (items : List ℕ) : Prop where
  max_le : v.maxSize ≤ maxAckvSize
  head_lt : v.head < v.maxSize
  size : v.size = items.length
  fits : items.length ≤ v.maxSize
  window : window v.vector v.maxSize v.head items.length = items
  tail : items ≠ [] → v.tail = (v.head + (items.length - 1)) % v.maxSize
  byte : ∀ b ∈ items, b < 2 ^ 8

/-- The members that do not belong to the ring of items. -/
structure SameSeqs (v v' : AckVector) : Prop where
  seqHead : v'.seqHead = v.seqHead
  seqTail : v'.seqTail = v.seqTail
  ackvCons : v'.ackvCons = v.ackvCons

namespace Holds

theorem pos (h : v.Holds items) : 0 < v.maxSize := h.head_lt.pos

theorem cell (h : v.Holds (pre ++ b :: post)) :
    v.vector ((v.head + pre.length) % v.maxSize) = b := by
  have hw := h.window
  rw [List.length_append, List.length_cons, window_add, window_succ] at hw
  exact (List.cons.inj (List.append_inj hw (by simp)).2).1

/-- The items before a place and those behind it. -/
theorem parts (h : v.Holds (pre ++ b :: post)) :
    Ns2XPass.window v.vector v.maxSize v.head pre.length = pre ∧
      Ns2XPass.window v.vector v.maxSize (v.head + pre.length + 1) post.length = post := by
  have hw := h.window
  rw [List.length_append, List.length_cons, window_add, window_succ] at hw
  obtain ⟨hpre, hrest⟩ := List.append_inj hw (by simp)
  exact ⟨hpre, (List.cons.inj hrest).2⟩

/-- Two places of the items are different. -/
theorem place_eq_iff (h : v.Holds items) {i j : ℕ} (hi : i < items.length)
    (hj : j < items.length) :
    (v.head + i) % v.maxSize = (v.head + j) % v.maxSize ↔ i = j := by
  have hfits := h.fits
  constructor
  · intro he
    by_contra hne
    exact mod_ne_of_window (a := v.head) (n := v.maxSize) (i := v.head + i) (j := v.head + j)
      (by omega) (by omega) (by omega) (by omega) (by omega) he
  · rintro rfl
    rfl

/-- The number of items before a place. -/
theorem place_sub (h : v.Holds items) (hi : i < items.length) :
    ((v.head + i) % v.maxSize + v.maxSize - v.head) % v.maxSize = i := by
  have hfits := h.fits
  have hhead := h.head_lt
  rcases lt_or_ge (v.head + i) v.maxSize with hlt | hge
  · rw [Nat.mod_eq_of_lt hlt, show v.head + i + v.maxSize - v.head = i + v.maxSize by omega,
      Nat.add_mod_right]
    exact Nat.mod_eq_of_lt (by omega)
  · rw [Nat.mod_eq_sub_mod hge, Nat.mod_eq_of_lt (by omega : v.head + i - v.maxSize < v.maxSize),
      show v.head + i - v.maxSize + v.maxSize - v.head = i by omega]
    exact Nat.mod_eq_of_lt (by omega)

theorem doubleMaxSize (h : v.Holds items) (hne : v.maxSize ≠ maxAckvSize) :
    ∃ v', v.doubleMaxSize g = (v', true) ∧ v'.Holds items ∧ SameSeqs v v' ∧
      v'.maxSize = min (v.maxSize * 2) maxAckvSize := by
  have hpos := h.pos
  have hmax := h.max_le
  have hhead := h.head_lt
  have hlen := h.fits
  have hsize := h.size
  have hle : v.maxSize ≤ min (v.maxSize * 2) maxAckvSize := le_min (by omega) hmax
  refine ⟨_, if_neg hne, ⟨min_le_right _ _, ?_, hsize, hlen.trans hle, ?_, ?_,
    h.byte⟩, ⟨rfl, rfl, rfl⟩, rfl⟩
  · change (if 0 < v.size then 0 else v.head) < _
    split_ifs
    · exact lt_of_lt_of_le (by omega) hle
    · exact hhead.trans_le hle
  · change Ns2XPass.window (writeFrom _ _ 0 (Ns2XPass.window _ _ _ v.size)) _
      (if 0 < v.size then 0 else v.head) items.length = items
    rw [hsize, h.window]
    rcases items.eq_nil_or_concat with rfl | ⟨_, _, rfl⟩
    · rfl
    · rw [if_pos (by simp)]
      exact window_writeFrom_self (hlen.trans hle)
  · intro hitems
    have hpos : 0 < v.size := by
      rw [hsize]
      exact List.length_pos_of_ne_nil hitems
    change (if 0 < v.size then v.size - 1 else v.tail) =
      ((if 0 < v.size then 0 else v.head) + (items.length - 1)) % _
    rw [if_pos hpos, if_pos hpos, hsize, Nat.zero_add]
    exact (Nat.mod_eq_of_lt (lt_of_lt_of_le (by omega) hle)).symm

/-- New items are written from the new head up to the old one. -/
theorem pushItems (h : v.Holds items) (hfits : items.length + k ≤ v.maxSize)
    (hcount : k < v.maxSize) (hr : r < 64) (hn : k ≠ 0)
    (htail : items = [] → k = 1 ∧ v.head = 0 ∧ v.tail = v.maxSize - 1) :
    (v.pushItems s r k).Holds (List.replicate k (item s r) ++ items) := by
  have hback := back_mod (p := v.head) hcount.le
  have hfront : (List.replicate k (item s r)).length = k := List.length_replicate
  have hmod : k % v.maxSize = k := Nat.mod_eq_of_lt hcount
  have hpos := h.pos
  refine ⟨h.max_le, Nat.mod_lt _ hpos, ?_, ?_, ?_, ?_, ?_⟩
  · change v.size + k = _
    rw [List.length_append, hfront, h.size, Nat.add_comm]
  · change _ ≤ v.maxSize
    rw [List.length_append, hfront]
    omega
  · change Ns2XPass.window (writeFrom v.maxSize v.vector _ (List.replicate (k % v.maxSize)
      ((s.code <<< 6 ||| (r &&& runLengthMask)) % 2 ^ 8))) v.maxSize _ _ = _
    rw [hmod, pushed_item hr, List.length_append, hfront]
    have hw := window_writeFrom (c := v.vector) (n := v.maxSize) (i := 0)
      (p := (v.head + v.maxSize - k) % v.maxSize) (m := items.length)
      (l := List.replicate k (item s r)) (by omega)
    rw [hfront, Nat.zero_add, Nat.add_zero, window_zero, List.nil_append] at hw
    exact hw.trans (by rw [window_congr hback, h.window])
  · intro _
    change v.tail = ((v.head + v.maxSize - k) % v.maxSize +
      ((List.replicate k (item s r) ++ items).length - 1)) % v.maxSize
    rw [List.length_append, hfront]
    rcases items.eq_nil_or_concat with rfl | ⟨rest, last, hlast⟩
    · obtain ⟨rfl, hhead, htail⟩ := htail rfl
      rw [hhead, htail]
      change _ = ((0 + v.maxSize - 1) % v.maxSize + 0) % v.maxSize
      rw [Nat.zero_add, Nat.add_zero, Nat.mod_mod]
      exact (Nat.mod_eq_of_lt (by omega)).symm
    · have hne : items ≠ [] := by simp [hlast]
      have hlen := List.length_pos_of_ne_nil hne
      rw [h.tail hne, show k + items.length - 1 = k + (items.length - 1) by omega,
        ← Nat.add_assoc]
      exact (Nat.ModEq.add_right (items.length - 1) hback).symm
  · intro c hc
    rcases List.mem_append.mp hc with hc | hc
    · rw [List.eq_of_mem_replicate hc]
      exact item_lt hr
    · exact h.byte c hc

theorem byte_replace (h : v.Holds (pre ++ b :: post)) (hb : ∀ c ∈ its, c < 2 ^ 8) :
    ∀ c ∈ pre ++ its ++ post, c < 2 ^ 8 := by
  intro c hc
  rcases List.mem_append.mp hc with hc | hc
  · rcases List.mem_append.mp hc with hc | hc
    · exact h.byte c (List.mem_append_left _ hc)
    · exact hb c hc
  · exact h.byte c (List.mem_append_right _ (List.mem_cons_of_mem _ hc))

/-- Items are written in the place of one, and those behind it stay: there are none, or one item
takes the place of one. -/
theorem replaceRight (h : v.Holds (pre ++ b :: post)) (hpos : its ≠ [])
    (hone : post = [] ∨ its.length = 1)
    (hfits : pre.length + its.length + post.length ≤ v.maxSize) (hb : ∀ c ∈ its, c < 2 ^ 8) :
    Holds { v with
      size := v.size + (its.length - 1)
      tail := (v.tail + (its.length - 1)) % v.maxSize
      vector := writeFrom v.maxSize v.vector ((v.head + pre.length) % v.maxSize) its }
      (pre ++ its ++ post) := by
  have hlen := List.length_pos_of_ne_nil hpos
  obtain ⟨hpre, hpost⟩ := h.parts
  have hlen' : (pre ++ its ++ post).length = pre.length + its.length + post.length := by
    rw [List.length_append, List.length_append]
  have hsize := h.size
  have htail := h.tail (by simp)
  rw [List.length_append, List.length_cons] at hsize htail
  refine ⟨h.max_le, h.head_lt, ?_, hlen' ▸ hfits, ?_, fun _ => ?_, h.byte_replace hb⟩
  · change v.size + (its.length - 1) = _
    omega
  · change Ns2XPass.window (writeFrom _ _ ((v.head + pre.length) % v.maxSize) _) v.maxSize v.head
      _ = _
    rw [hlen', writeFrom_congr (Nat.mod_mod _ _), window_writeFrom hfits, hpre]
    rcases hone with rfl | hone
    · rfl
    · rw [hone, hpost]
  · change (v.tail + (its.length - 1)) % v.maxSize = (v.head + _) % v.maxSize
    rw [hlen', htail, Nat.mod_add_mod]
    congr 1
    omega

/-- Items are written in the place of one, and those before it are moved to the left. -/
theorem replaceLeft (h : v.Holds (pre ++ b :: post)) {more newHead : ℕ}
    (hlen : its.length = more + 1) (hnew : newHead < v.maxSize)
    (hback : newHead + more ≡ v.head [MOD v.maxSize])
    (hfits : pre.length + its.length + post.length ≤ v.maxSize) (hb : ∀ c ∈ its, c < 2 ^ 8) :
    Holds { v with
      size := v.size + more
      head := newHead
      vector := writeFrom v.maxSize v.vector newHead (pre ++ its) } (pre ++ its ++ post) := by
  obtain ⟨-, hpost⟩ := h.parts
  have hlen' : (pre ++ its ++ post).length = (pre ++ its).length + post.length := by
    rw [List.length_append]
  have hmid : (pre ++ its).length = pre.length + its.length := List.length_append
  have hsize := h.size
  have htail := h.tail (by simp)
  rw [List.length_append, List.length_cons] at hsize htail
  refine ⟨h.max_le, hnew, ?_, by rw [hlen', hmid]; exact hfits, ?_, fun _ => ?_,
    h.byte_replace hb⟩
  · change v.size + more = _
    omega
  · change Ns2XPass.window (writeFrom _ _ newHead _) v.maxSize newHead _ = _
    have hw := window_writeFrom (c := v.vector) (n := v.maxSize) (i := 0) (p := newHead)
      (m := post.length) (l := pre ++ its) (by omega)
    rw [Nat.zero_add, Nat.add_zero, window_zero, List.nil_append] at hw
    have hmod : newHead + (pre ++ its).length ≡ v.head + pre.length + 1 [MOD v.maxSize] := by
      rw [show newHead + (pre ++ its).length = newHead + more + (pre.length + 1) by omega,
        Nat.add_assoc v.head]
      exact Nat.ModEq.add_right _ hback
    rw [hlen', hw, window_congr hmod, hpost]
  · change v.tail = (newHead + _) % v.maxSize
    rw [hlen', htail,
      show newHead + ((pre ++ its).length + post.length - 1) =
        newHead + more + (pre.length + post.length) by omega]
    exact (Nat.ModEq.add_right _ hback).symm

/-- Several items are written in the place of one. -/
theorem replaceItem (h : v.Holds (pre ++ b :: post)) (htwo : 2 ≤ its.length)
    (hfits : pre.length + its.length + post.length ≤ v.maxSize) (hb : ∀ c ∈ its, c < 2 ^ 8) :
    (v.replaceItem ((v.head + pre.length) % v.maxSize) its).Holds (pre ++ its ++ post) := by
  have hlen : (pre ++ b :: post).length = pre.length + 1 + post.length := by simp; omega
  have hpos : 0 < v.maxSize := by omega
  have htail := h.tail (by simp)
  have hhead : (v.head + 0) % v.maxSize = v.head := Nat.mod_eq_of_lt h.head_lt
  have hback := back_mod (p := v.head) (n := v.maxSize) (k := its.length - 1) (by omega)
  have hnew := Nat.mod_lt (v.head + v.maxSize - (its.length - 1)) hpos
  unfold AckVector.replaceItem
  dsimp only
  split_ifs with htl hhd
  · rw [htail] at htl
    have hlast := (h.place_eq_iff (i := pre.length) (by omega) (by omega)).mp htl
    apply h.replaceRight (List.ne_nil_of_length_pos (by omega)) _ hfits hb
    exact .inl (List.eq_nil_of_length_eq_zero (by omega))
  · have hfirst := (h.place_eq_iff (i := pre.length) (j := 0) (by omega) (by omega)).mp
      (hhd.trans hhead.symm)
    obtain rfl := List.eq_nil_of_length_eq_zero hfirst
    exact h.replaceLeft (by omega) hnew hback hfits hb
  · have hcopy : copyCells v.maxSize v.vector v.head
        ((v.head + v.maxSize - (its.length - 1)) % v.maxSize) pre.length =
          writeFrom v.maxSize v.vector ((v.head + v.maxSize - (its.length - 1)) % v.maxSize)
            pre := by
      rw [copyCells_congr hback.symm rfl, copyCells_eq (by omega) (by omega), window_congr hback,
        h.parts.1]
    have hplace : ((v.head + pre.length) % v.maxSize + v.maxSize - (its.length - 1)) % v.maxSize ≡
        (v.head + v.maxSize - (its.length - 1)) % v.maxSize + pre.length [MOD v.maxSize] := by
      apply Nat.ModEq.add_right_cancel' (its.length - 1)
      have hleft := back_mod (p := (v.head + pre.length) % v.maxSize) (n := v.maxSize)
        (k := its.length - 1) (by omega)
      have hright := Nat.ModEq.add_right pre.length hback
      rw [Nat.add_right_comm] at hright
      exact (Nat.ModEq.trans hleft (Nat.mod_mod _ _)).trans hright.symm
    rw [h.place_sub (by omega), hcopy, writeFrom_congr hplace, ← writeFrom_append]
    exact h.replaceLeft (by omega) hnew hback hfits hb

end Holds

end AckVector

end Ns2XPass
