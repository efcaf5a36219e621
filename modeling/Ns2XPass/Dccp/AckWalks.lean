import Mathlib.Data.List.Basic
import Ns2XPass.Dccp.AckCalls
import Ns2XPass.Dccp.AckHistory
import Ns2XPass.Library.Iterator

/-! # Walks through an ack vector

A walk goes from packet to packet, in either direction, or from item to item. It
keeps its own place in the ring, and it ends at the number of the last packet.
-/

namespace Ns2XPass

variable {v : AckVector} {items pre post : List ℕ} {b i k m n p : ℕ} {w : ℕ}

/-- The members for a walk from packet to packet. -/
structure PacketWalk where
  walk : ℕ
  seq : ℕ
  delta : ℕ
  walking : Bool
  reverse : Bool

/-- The members for a walk from item to item. -/
structure IntervalWalk where
  walk : ℕ
  seq : ℕ
  walking : Bool

/-- What `nextInterval` yields. -/
structure Interval where
  interval : ℕ
  seqStart : ℕ
  seqEnd : ℕ
  state : PacketState

namespace AckVector

variable (v)

def startPacketWalk : PacketWalk := ⟨v.head, v.seqHead, 0, decide (v.size ≠ 0), false⟩

def startReversePacketWalk : PacketWalk := ⟨v.tail, v.seqTail, 0, decide (v.size ≠ 0), true⟩

def startIntervalWalk : IntervalWalk := ⟨v.head, v.seqHead, decide (v.size ≠ 0)⟩

/-- The next packet of a walk up to the number `last`, where the item beside the current one follows
when all packets of this one have been visited. -/
def visit (w : PacketWalk) (beside last seq : ℕ) : (ℕ × PacketState) × PacketWalk :=
  let moved := runlen (v.vector w.walk) < w.delta
  let walk := if moved then beside else w.walk
  let delta := if moved then 0 else w.delta
  ((w.seq, itemState (v.vector walk)),
    { w with walk := walk, seq := seq, delta := delta + 1, walking := decide (w.seq ≠ last) })

def nextPacket (w : PacketWalk) : Option ((ℕ × PacketState) × PacketWalk) :=
  if w.walking = false ∨ w.reverse = true then none
  else some (v.visit w ((w.walk + 1) % v.maxSize) v.seqTail (sub32 w.seq 1))

def prevPacket (w : PacketWalk) : Option ((ℕ × PacketState) × PacketWalk) :=
  if w.walking = false ∨ w.reverse = false then none
  else some (v.visit w ((w.walk + v.maxSize - 1) % v.maxSize) v.seqHead ((w.seq + 1) % 2 ^ 32))

def nextInterval (w : IntervalWalk) : Option (Interval × IntervalWalk) :=
  if w.walking = false then none
  else
    let item := v.vector w.walk
    let seqEnd := sub32 w.seq (runlen item)
    some (⟨item, w.seq, seqEnd, itemState item⟩,
      ⟨(w.walk + 1) % v.maxSize, sub32 seqEnd 1, decide (w.walk ≠ v.tail)⟩)

/-- The packets with their states, from the newest one on. -/
def packets : List (ℕ × PacketState) :=
  (expand v.contents).mapIdx fun i s => (v.seqHead - i, s)

end AckVector

/-- The packets of an interval, from the newest one on. -/
def Interval.packets (i : Interval) : List (ℕ × PacketState) :=
  (List.range (i.seqStart + 1 - i.seqEnd)).map fun j => (i.seqStart - j, i.state)

/-- The intervals of items, the first of which is that of the packet `seq`. -/
def intervalsFrom : ℕ → List ℕ → List Interval
  | _, [] => []
  | seq, b :: rest =>
    ⟨b, seq, seq - runlen b, itemState b⟩ :: intervalsFrom (seq - (runlen b + 1)) rest

/-- The packets of the intervals are those of the items. -/
theorem packets_intervalsFrom (h : total items ≤ p + 1) :
    (intervalsFrom p items).flatMap Interval.packets =
      (expand items).mapIdx fun i s => (p - i, s) := by
  induction items generalizing p with
  | nil => rfl
  | cons b rest ih =>
    rw [total_cons] at h
    have hrun : p + 1 - (p - runlen b) = runlen b + 1 := by omega
    rw [intervalsFrom, List.flatMap_cons, ih (by omega), expand_cons, List.mapIdx_append,
      Interval.packets, hrun]
    congr 1
    · apply List.ext_getElem
      · simp
      · simp
    · apply List.ext_getElem
      · simp
      · intro i _ _
        simp
        omega

/-- The place before another one. -/
theorem back_one (h : 0 < m) : ((p + 1) % m + m - 1) % m = p % m := by
  have hback : ((p + 1) % m + m - 1) % m + 1 ≡ p + 1 [MOD m] :=
    (back_mod (p := (p + 1) % m) h).trans (Nat.mod_mod _ _)
  exact (Nat.mod_mod _ _).symm.trans (Nat.ModEq.add_right_cancel' 1 hback)

namespace AckVector

theorem getElem?_expand_add {d : ℕ} (hd : d ≤ runlen b) :
    (expand (pre ++ b :: post))[total pre + d]? = some (itemState b) := by
  have h : (expand (pre ++ b :: post))[total pre + d - 0]? = some (itemState b) :=
    getElem?_expand (by omega) (by omega)
  exact h

/-- A walk down stands before the packet at a position: at the end of an item or inside of one. -/
structure Down (v : AckVector) (items : List ℕ) (k : ℕ) (w : PacketWalk) : Prop where
  place : ∃ pre b post, items = pre ++ b :: post ∧ w.walk = (v.head + pre.length) % v.maxSize ∧
    w.delta ≤ runlen b + 1 ∧ total pre + w.delta = k
  seq : k < total items → w.seq = v.seqHead - k
  walking : w.walking = decide (k < total items)
  reverse : w.reverse = false

/-- A walk up stands before the packet at a position from the tail on. -/
structure Up (v : AckVector) (items : List ℕ) (k : ℕ) (w : PacketWalk) : Prop where
  place : ∃ pre b post, items = pre ++ b :: post ∧ w.walk = (v.head + pre.length) % v.maxSize ∧
    w.delta ≤ runlen b + 1 ∧ total post + w.delta = k
  seq : k < total items → w.seq = v.seqTail + k
  walking : w.walking = decide (k < total items)
  reverse : w.reverse = true

/-- A walk from item to item stands before the items `post`. -/
structure Across (v : AckVector) (pre post : List ℕ) (w : IntervalWalk) : Prop where
  walk : post ≠ [] → w.walk = (v.head + pre.length) % v.maxSize
  seq : post ≠ [] → w.seq = v.seqHead - total pre
  walking : w.walking = decide (post ≠ [])

namespace Valid

theorem down_start (h : v.Valid items) (hne : items ≠ []) : Down v items 0 v.startPacketWalk := by
  obtain ⟨b, rest, rfl⟩ := List.exists_cons_of_ne_nil hne
  have hsize : v.size ≠ 0 := h.size_eq_zero_iff.not.mpr hne
  have hpos := total_pos hne
  refine ⟨⟨[], b, rest, rfl, ?_, Nat.zero_le _, rfl⟩, fun _ => rfl, ?_, rfl⟩
  · exact (Nat.mod_eq_of_lt h.holds.head_lt).symm
  · exact decide_eq_decide.mpr (iff_of_true hsize hpos)

theorem up_start (h : v.Valid items) (hne : items ≠ []) :
    Up v items 0 v.startReversePacketWalk := by
  have hsize : v.size ≠ 0 := h.size_eq_zero_iff.not.mpr hne
  have hpos := total_pos hne
  have htail := h.holds.tail hne
  obtain ⟨pre, b, rfl⟩ := (List.eq_nil_or_concat items).resolve_left hne
  refine ⟨⟨pre, b, [], by simp, ?_, Nat.zero_le _, rfl⟩, fun _ => rfl, ?_, rfl⟩
  · exact htail.trans (by simp)
  · exact decide_eq_decide.mpr (iff_of_true hsize hpos)

theorem cell (h : v.Valid items) (hi : items = pre ++ b :: post) :
    v.vector ((v.head + pre.length) % v.maxSize) = b :=
  (hi ▸ h.holds : v.Holds (pre ++ b :: post)).cell

/-- The item of the next packet down is the current one or the one behind it. -/
theorem settle_down (h : v.Valid items) {w : PacketWalk} (hw : Down v items k w)
    (hk : k < total items) :
    ∃ pre b post, items = pre ++ b :: post ∧
      (if runlen (v.vector w.walk) < w.delta then (w.walk + 1) % v.maxSize else w.walk) =
        (v.head + pre.length) % v.maxSize ∧
      (if runlen (v.vector w.walk) < w.delta then 0 else w.delta) ≤ runlen b ∧
      total pre + (if runlen (v.vector w.walk) < w.delta then 0 else w.delta) = k := by
  obtain ⟨pre, b, post, hi, hwalk, hdelta, hpos⟩ := hw.place
  rw [hwalk, h.cell hi, ← hwalk]
  split_ifs with hmoved
  · rw [hi, total_append, total_cons] at hk
    cases post with
    | nil =>
      rw [total_nil] at hk
      omega
    | cons c post =>
      refine ⟨pre ++ [b], c, post, by simp [hi], ?_, Nat.zero_le _, ?_⟩
      · rw [hwalk, Nat.mod_add_mod, List.length_append, List.length_singleton, Nat.add_assoc]
      · rw [total_append, total_cons, total_nil]
        omega
  · exact ⟨pre, b, post, hi, hwalk, not_lt.mp hmoved, hpos⟩

/-- The packet that is visited next on the way down. -/
theorem down_step (h : v.Valid items) {w : PacketWalk} (hw : Down v items k w)
    (hk : k < total items) :
    ∃ w' s, v.nextPacket w = some ((v.seqHead - k, s), w') ∧ (expand items)[k]? = some s ∧
      Down v items (k + 1) w' := by
  obtain ⟨pre, b, post, hi, hwalk, hdelta, hpos⟩ := h.settle_down hw hk
  have hne : items ≠ [] := by simp [hi]
  have hspan := h.span hne
  have hnot : ¬ (w.walking = false ∨ w.reverse = true) := by simp [hw.walking, hw.reverse, hk]
  have hlast : decide (w.seq ≠ v.seqTail) = decide (k + 1 < total items) := by
    rw [hw.seq hk]
    exact decide_eq_decide.mpr ⟨by omega, by omega⟩
  rw [nextPacket, if_neg hnot, visit, hwalk, hlast, hw.seq hk, h.cell hi]
  refine ⟨_, _, rfl, ?_, ⟨pre, b, post, hi, rfl, ?_, ?_⟩, fun hlt => ?_, rfl, hw.reverse⟩
  · rw [hi, ← hpos]
    exact getElem?_expand_add hdelta
  · exact Nat.succ_le_succ hdelta
  · exact congrArg Nat.succ hpos
  · exact sub32_of_le (by omega) (by have := h.seqHead_lt; omega)

theorem settle_up (h : v.Valid items) {w : PacketWalk} (hw : Up v items k w)
    (hk : k < total items) :
    ∃ pre b post, items = pre ++ b :: post ∧
      (if runlen (v.vector w.walk) < w.delta then (w.walk + v.maxSize - 1) % v.maxSize
        else w.walk) = (v.head + pre.length) % v.maxSize ∧
      (if runlen (v.vector w.walk) < w.delta then 0 else w.delta) ≤ runlen b ∧
      total post + (if runlen (v.vector w.walk) < w.delta then 0 else w.delta) = k := by
  obtain ⟨pre, b, post, hi, hwalk, hdelta, hpos⟩ := hw.place
  rw [hwalk, h.cell hi, ← hwalk]
  split_ifs with hmoved
  · rw [hi, total_append, total_cons] at hk
    rcases pre.eq_nil_or_concat with rfl | ⟨pre, c, rfl⟩
    · rw [total_nil] at hk
      omega
    · refine ⟨pre, c, b :: post, by simp [hi], ?_, Nat.zero_le _, ?_⟩
      · rw [hwalk, List.concat_eq_append, List.length_append, List.length_singleton,
          ← Nat.add_assoc, back_one h.holds.pos]
      · rw [total_cons]
        omega
  · exact ⟨pre, b, post, hi, hwalk, not_lt.mp hmoved, hpos⟩

/-- The packet that is visited next on the way up. -/
theorem up_step (h : v.Valid items) {w : PacketWalk} (hw : Up v items k w)
    (hk : k < total items) :
    ∃ w' s, v.prevPacket w = some ((v.seqTail + k, s), w') ∧
      (expand items)[total items - 1 - k]? = some s ∧ Up v items (k + 1) w' := by
  obtain ⟨pre, b, post, hi, hwalk, hdelta, hpos⟩ := h.settle_up hw hk
  have hne : items ≠ [] := by simp [hi]
  have hspan := h.span hne
  have hnot : ¬ (w.walking = false ∨ w.reverse = false) := by simp [hw.walking, hw.reverse, hk]
  have hlast : decide (w.seq ≠ v.seqHead) = decide (k + 1 < total items) := by
    rw [hw.seq hk]
    exact decide_eq_decide.mpr ⟨by omega, by omega⟩
  have htotal : total items = total pre + (runlen b + 1 + total post) := by
    rw [hi, total_append, total_cons]
  rw [prevPacket, if_neg hnot, visit, hwalk, hlast, hw.seq hk, h.cell hi]
  refine ⟨_, _, rfl, ?_, ⟨pre, b, post, hi, rfl, ?_, ?_⟩, fun hlt => ?_, rfl, hw.reverse⟩
  · have hindex : total items - 1 - k = total pre + (total items - 1 - k - total pre) := by omega
    rw [hindex, hi]
    apply getElem?_expand_add
    rw [← hi]
    omega
  · exact Nat.succ_le_succ hdelta
  · exact congrArg Nat.succ hpos
  · exact (Nat.mod_eq_of_lt (by have := h.seqHead_lt; omega)).trans (Nat.add_assoc _ _ _)

theorem length_packets (h : v.Valid items) : v.packets.length = total items := by
  rw [packets, List.length_mapIdx, length_expand, h.contents_eq]

theorem getElem?_packets (h : v.Valid items) (k : ℕ) :
    v.packets[k]? = (expand items)[k]?.map fun s => (v.seqHead - k, s) := by
  rw [packets, List.getElem?_mapIdx, h.contents_eq]

/-- The walk down visits the packets from the newest one on. -/
theorem yields_down (h : v.Valid items) (hne : items ≠ []) :
    Yields v.nextPacket v.startPacketWalk v.packets := by
  apply Yields.of_positions (Down v items) _ _ (h.down_start hne)
  · intro k w a ha hw
    rw [h.getElem?_packets] at ha
    obtain ⟨s, hs, rfl⟩ := Option.map_eq_some_iff.mp ha
    have hk : k < total items := by
      rw [← length_expand]
      exact (List.getElem?_eq_some_iff.mp hs).1
    obtain ⟨w', s', hnext, hs', hw'⟩ := h.down_step hw hk
    obtain rfl := Option.some.inj (hs.symm.trans hs')
    exact ⟨w', hnext, hw'⟩
  · intro w hw
    rw [h.length_packets] at hw
    rw [nextPacket, hw.walking]
    simp

/-- The walk up visits the packets from the oldest one on. -/
theorem yields_up (h : v.Valid items) (hne : items ≠ []) :
    Yields v.prevPacket v.startReversePacketWalk v.packets.reverse := by
  apply Yields.of_positions (Up v items) _ _ (h.up_start hne)
  · intro k w a ha hw
    have hk : k < total items := by
      rw [← h.length_packets, ← List.length_reverse]
      exact (List.getElem?_eq_some_iff.mp ha).1
    obtain ⟨w', s, hnext, hs, hw'⟩ := h.up_step hw hk
    have hspan := h.span hne
    rw [List.getElem?_reverse (by rw [h.length_packets]; exact hk), h.length_packets,
      h.getElem?_packets, hs] at ha
    obtain rfl := Option.some.inj ha
    refine ⟨w', hnext.trans ?_, hw'⟩
    congr 3
    omega
  · intro w hw
    rw [List.length_reverse, h.length_packets] at hw
    rw [prevPacket, hw.walking]
    simp

/-- The item that is visited next. -/
theorem across_step (h : v.Valid items) (hi : items = pre ++ b :: post) {w : IntervalWalk}
    (hw : Across v pre (b :: post) w) :
    ∃ w', v.nextInterval w = some (⟨b, v.seqHead - total pre, v.seqHead - total pre - runlen b,
        itemState b⟩, w') ∧ Across v (pre ++ [b]) post w' := by
  have hne : items ≠ [] := by simp [hi]
  have hspan := h.span hne
  have hlt := h.seqHead_lt
  have hfits := h.holds.fits
  rw [hi, total_append, total_cons] at hspan
  have hwalk := hw.walk (List.cons_ne_nil _ _)
  have hseq := hw.seq (List.cons_ne_nil _ _)
  have hnot : ¬ w.walking = false := by simp [hw.walking]
  have hlast : decide ((v.head + pre.length) % v.maxSize ≠ v.tail) = decide (post ≠ []) := by
    have hlen : items.length = pre.length + (post.length + 1) := by simp [hi]
    have hplace := h.holds.place_eq_iff (i := pre.length) (j := items.length - 1) (by omega)
      (by omega)
    rw [h.holds.tail hne, decide_eq_decide]
    refine not_congr (hplace.trans ?_)
    rw [← List.length_eq_zero_iff]
    omega
  have hsub : sub32 (v.seqHead - total pre) (runlen b) = v.seqHead - total pre - runlen b :=
    sub32_of_le (by omega) (by omega)
  rw [nextInterval, if_neg hnot, hwalk, hseq, h.cell hi, hlast]
  dsimp only
  rw [hsub]
  refine ⟨_, rfl, fun _ => ?_, fun hpost => ?_, rfl⟩
  · rw [Nat.mod_add_mod, List.length_append, List.length_singleton, Nat.add_assoc]
  · have hpos := total_pos hpost
    change sub32 _ 1 = _
    rw [sub32_of_le (by omega) (by omega), total_append, total_cons, total_nil]
    omega

theorem yields_across (h : v.Valid items) (hi : items = pre ++ post) {w : IntervalWalk}
    (hw : Across v pre post w) :
    Yields v.nextInterval w (intervalsFrom (v.seqHead - total pre) post) := by
  induction post generalizing pre w with
  | nil =>
    apply Yields.nil
    rw [nextInterval, hw.walking]
    rfl
  | cons b post ih =>
    obtain ⟨w', hnext, hw'⟩ := h.across_step hi hw
    have hrest := ih (by simp [hi]) hw'
    have htotal : v.seqHead - total (pre ++ [b]) = v.seqHead - total pre - (runlen b + 1) := by
      rw [total_append, total_cons, total_nil]
      omega
    rw [htotal] at hrest
    exact .cons hnext hrest

theorem across_start (h : v.Valid items) : Across v [] items v.startIntervalWalk where
  walk _ := (Nat.mod_eq_of_lt h.holds.head_lt).symm
  seq _ := rfl
  walking := decide_eq_decide.mpr (not_congr h.size_eq_zero_iff)

/-- The packets are the numbers from the head down to the tail, with their states. -/
theorem packets_eq (h : v.Valid items) (hne : items ≠ []) :
    (v.packets.map fun p => (p.1, some p.2)) =
      (List.range (v.seqHead + 1 - v.seqTail)).map fun i =>
        (v.seqHead - i, v.getState (v.seqHead - i)) := by
  have hspan := h.span hne
  have hlen : v.seqHead + 1 - v.seqTail = total items := by omega
  apply List.ext_getElem?
  intro k
  rw [List.getElem?_map, List.getElem?_map, hlen, h.getElem?_packets, Option.map_map]
  rcases Nat.lt_or_ge k (total items) with hk | hk
  · rw [List.getElem?_range hk, Option.map_some, h.getState, h.map_eq, mapOf,
      if_pos (Nat.sub_le _ _), Nat.sub_sub_self (by omega)]
    rw [← length_expand] at hk
    rw [List.getElem?_eq_getElem hk]
    rfl
  · rw [List.getElem?_eq_none (by rw [length_expand]; exact hk),
      List.getElem?_eq_none (by rw [List.length_range]; exact hk)]
    rfl

end Valid

/-- What is exported is imported with the same states, no import fails for lack of space, and the
three walks enumerate the packets with their states. -/
structure Exchanges (v : AckVector) : Prop where
  transfer : ∀ size, v.size ≤ size → ∃ vect, v.getAckVector size = some vect ∧
    ∀ junk ene (w : AckVector), 0 < w.maxSize → w.maxSize ≤ maxAckvSize →
      ∃ w', setAckVector junk vect v.seqHead ene doublings w = (w', true) ∧
        (∀ q, w'.getState q = v.getState q) ∧ w'.seqHead = v.seqHead ∧ w'.seqTail = v.seqTail
  space : ∀ junk vect seqStart ene (w : AckVector), 0 < w.maxSize → w.maxSize ≤ maxAckvSize →
    vect.length ≤ maxAckvSize → (setAckVector junk vect seqStart ene doublings w).2 = true
  packets : (v.packets.map fun p => (p.1, some p.2)) =
    (List.range (v.seqHead + 1 - v.seqTail)).map fun i =>
      (v.seqHead - i, v.getState (v.seqHead - i))
  down : ∀ l, Yields v.nextPacket v.startPacketWalk l ↔ l = v.packets
  up : ∀ l, Yields v.prevPacket v.startReversePacketWalk l ↔ l = v.packets.reverse
  across : ∃ l, Yields v.nextInterval v.startIntervalWalk l ∧
    l.flatMap Interval.packets = v.packets

/-- An import doubles the ring as often as it must. -/
theorem setAckVector_ok {g : ℕ → ℕ → ℕ} {w : AckVector} {vect : List ℕ} (q ene : ℕ)
    (hpos : 0 < w.maxSize) (hmax : w.maxSize ≤ maxAckvSize) (hlen : vect.length ≤ maxAckvSize) :
    ∃ w', setAckVector g vect q ene doublings w = (w', true) ∧ w'.Imported vect q := by
  apply setAckVector_imported ene hpos hmax hlen
  have hdouble : maxAckvSize ≤ w.maxSize * 2 ^ doublings := by
    rw [maxAckvSize, doublings]
    omega
  exact hlen.trans hdouble

theorem Valid.setAckVector_nil {g : ℕ → ℕ → ℕ} {q ene : ℕ} (h : v.Valid items) (hq : q < 2 ^ 32) :
    (setAckVector g [] q ene doublings v).1.Valid [] := by
  have hfits : ¬ v.maxSize < ([] : List ℕ).length := Nat.not_lt_zero _
  rw [doublings, setAckVector, if_neg hfits]
  exact ⟨⟨h.holds.max_le, h.holds.pos, rfl, Nat.zero_le _, rfl, by simp, by simp⟩, hq, by simp⟩

theorem Valid.exchanges (h : v.Valid items) (hne : items ≠ []) : v.Exchanges where
  transfer size hsize := by
    have hspan := h.span hne
    have hnonempty : v.size ≠ 0 := h.size_eq_zero_iff.not.mpr hne
    refine ⟨items, ?_, fun g ene w hpos hmax => ?_⟩
    · rw [getAckVector, if_neg (not_or.mpr ⟨hnonempty, not_lt.mpr hsize⟩), h.contents_eq]
    · obtain ⟨w', hw, hi⟩ := setAckVector_ok (g := g) v.seqHead ene hpos hmax
        (h.holds.fits.trans h.holds.max_le)
      refine ⟨w', hw, fun q => ?_, hi.seqHead, ?_⟩
      · rw [hi.getState hne (by omega) h.seqHead_lt h.holds.byte, h.getState, h.map_eq]
      · have hend := seqEndOf_add hne (q := v.seqHead) (by omega) h.seqHead_lt
        rw [hi.seqTail]
        omega
  space g vect q ene w hpos hmax hlen := by
    obtain ⟨w', hw, -⟩ := setAckVector_ok (g := g) q ene hpos hmax hlen
    rw [hw]
  packets := h.packets_eq hne
  down _ := (h.yields_down hne).iff_eq
  up _ := (h.yields_up hne).iff_eq
  across := by
    have hspan := h.span hne
    refine ⟨_, h.yields_across (List.nil_append _).symm h.across_start, ?_⟩
    rw [total_nil, Nat.sub_zero, packets_intervalsFrom (by omega), AckVector.packets,
      h.contents_eq]

end AckVector

/-- The calls on an ack vector, with the import of another one. -/
inductive AckUse
  | call (c : AckCall)
  | setAckVector (vect : List ℕ) (seqStart ene : ℕ)

namespace AckUse

/-- The numbers of an imported vector do not wrap either. -/
def Legal (junk : ℕ → ℕ → ℕ) (v : AckVector) : AckUse → Prop
  | call c => (ackMachine junk).Enabled v c
  | setAckVector vect seqStart _ => vect.length ≤ maxAckvSize ∧ (∀ b ∈ vect, b < 2 ^ 8) ∧
      seqStart < 2 ^ 32 ∧ total vect ≤ seqStart + 1

def Roomy (v : AckVector) : AckUse → Prop
  | call c => c.Roomy v
  | setAckVector _ _ _ => True

end AckUse

/-- An ack vector of any initial size. -/
def ackUses (junk : ℕ → ℕ → ℕ) : Machine AckVector AckUse Empty where
  Init v := ∃ initialSize cons, 0 < initialSize ∧ initialSize ≤ maxAckvSize ∧
    v = { AckVector.new junk initialSize with ackvCons := cons }
  Enabled := AckUse.Legal junk
  step v
    | .call c => .ok (v.call junk c)
    | .setAckVector vect seqStart ene =>
      .ok (AckVector.setAckVector junk vect seqStart ene AckVector.doublings v).1

theorem ackUses_invariant (g : ℕ → ℕ → ℕ) :
    ((ackUses g).restrict AckUse.Roomy).Invariant fun v => ∃ items, v.Valid items where
  init := by
    rintro v ⟨initialSize, cons, hlo, hhi, rfl⟩
    exact ⟨[], .init hlo hhi⟩
  step := by
    rintro v c v' ⟨items, h⟩ ⟨hl, hroom⟩ hs
    cases c with
    | call c =>
      obtain rfl := Except.ok.inj hs
      exact h.call hl hroom
    | setAckVector vect q ene =>
      obtain rfl := Except.ok.inj hs
      obtain ⟨hlen, hbytes, hq, htotal⟩ := hl
      by_cases hne : vect = []
      · subst hne
        exact ⟨[], h.setAckVector_nil hq⟩
      · obtain ⟨w, hw, hi⟩ := AckVector.setAckVector_ok (g := g) q ene h.holds.pos h.holds.max_le
          hlen
        rw [hw]
        exact ⟨vect, hi.valid hne htotal hq hbytes⟩

/-- As long as the first packet is not added to a ring of one item, an exported vector is imported
as it is, and the walks enumerate its packets. -/
theorem ackVector_exchanges (junk : ℕ → ℕ → ℕ) {v : AckVector}
    (h : ((ackUses junk).restrict AckUse.Roomy).Reachable v) (hne : v.size ≠ 0) :
    v.Exchanges := by
  obtain ⟨items, hv⟩ := (ackUses_invariant junk).reachable h
  exact hv.exchanges (hv.size_eq_zero_iff.not.mp hne)

theorem ackVector_exchanges_one :
    AckVector.Exchanges ((AckVector.new (fun _ _ => 3) 2).addPacket (fun _ _ => 3) 5 .ecn).1 :=
  ackVector_exchanges (fun _ _ => 3) (.step (x := .call (.addPacket 5 .ecn))
    (.init ⟨2, newAckvCons, by decide, by decide, rfl⟩)
    ⟨⟨by decide, fun h => h.1 rfl⟩, fun _ => by decide⟩ rfl) (by decide)

/-- A ring of one item holds what its memory held before. -/
theorem ackVector_junk :
    ∃ v, (ackUses fun _ _ => 3).Reachable v ∧ v.size ≠ 0 ∧ ¬ v.Exchanges := by
  refine ⟨((AckVector.new (fun _ _ => 3) 1).addPacket (fun _ _ => 3) 5 .ecn).1,
    .step (x := .call (.addPacket 5 .ecn)) (.init ⟨1, newAckvCons, by decide, by decide, rfl⟩)
      ⟨by decide, fun h => h.1 rfl⟩ rfl, by decide, fun h => ?_⟩
  obtain ⟨vect, hv, ht⟩ := h.transfer 1 (by decide)
  obtain ⟨w', hw, hstate, -⟩ := ht (fun _ _ => 3) 0 (.new (fun _ _ => 3) 1) (by decide) (by decide)
  obtain rfl : [3] = vect := Option.some.inj ((by decide : _ = some [3]).symm.trans hv)
  obtain rfl := (Prod.mk.inj hw).1
  exact absurd (hstate 4) (by decide)

end Ns2XPass
