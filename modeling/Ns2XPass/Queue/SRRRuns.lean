import Mathlib.Algebra.Order.Group.Abs
import Mathlib.Algebra.Order.Ring.Int
import Mathlib.Tactic.Ring
import Ns2XPass.Library.Except
import Ns2XPass.Library.Path
import Ns2XPass.Queue.SRRBooks

/-! # Runs of smoothed round robin

No call fails, each queue sends its packets in order, and `deque` returns a packet
whenever there is one. The weight matrix holds the active queues, each with the
weight that it had when it became active.
-/

namespace Ns2XPass

theorem orderFrom_spec {i : ℤ} {n order : ℕ} (h : i < 2 ^ (order + n)) :
    i < 2 ^ orderFrom i n order ∧
      (orderFrom i n order = order ∨ 2 ^ (orderFrom i n order - 1) ≤ i) := by
  induction n generalizing order with
  | zero => exact ⟨h, .inl rfl⟩
  | succ n ih =>
    rw [orderFrom]
    split_ifs with hle
    · have hnext : i < 2 ^ (order + 1 + n) := by rwa [Nat.add_right_comm, Nat.add_assoc]
      obtain ⟨hlt, hor⟩ := ih hnext
      refine ⟨hlt, .inr ?_⟩
      rcases hor with heq | hpow
      · rwa [heq, Nat.add_sub_cancel]
      · exact hpow
    · exact ⟨not_le.mp hle, .inl rfl⟩

/-- The order is the place of the highest bit. -/
theorem getOrder_spec {i : ℤ} (hpos : 0 < i) (hlt : i < 2 ^ maxWssOrder) :
    i < 2 ^ (getOrder i + 1) ∧ getOrder i < maxWssOrder := by
  have hbound : i < 2 ^ (0 + 31) := hlt.trans (by decide)
  obtain ⟨hup, hor⟩ := orderFrom_spec hbound
  have hne : orderFrom i 31 0 ≠ 0 := fun hzero => by
    rw [hzero, pow_zero] at hup
    omega
  have hlow := hor.resolve_left hne
  unfold getOrder
  refine ⟨by rwa [Nat.sub_add_cancel (Nat.pos_of_ne_zero hne)], ?_⟩
  by_contra hge
  have hpow : (2 : ℤ) ^ maxWssOrder ≤ 2 ^ (orderFrom i 31 0 - 1) :=
    pow_le_pow_right₀ one_le_two (not_lt.mp hge)
  omega

namespace SRR

variable {α : Type} {flowid : α → ℕ} {size : α → ℤ} {max : ℕ} {s s' : SRR α} {w : ℕ → ℕ}
  {p : α} {q x : ℕ}

/-- The state between two calls: only the queue that has sent last has its turn, and its node is the
current one. -/
structure Resting (flowid : α → ℕ) (size : α → ℤ) (max : ℕ) (s : SRR α) (w : ℕ → ℕ) : Prop
    extends Books flowid size max s w s.lastQueueid where
  turn : ∀ x, s.turn x = true ↔ s.lastQueueid = some x
  last : ∀ x, s.lastQueueid = some x → ∃ node, s.matrix.pwmCurr = some node ∧ node.queueid = x

/-- What the calls leave alone. -/
structure SameConfig (s s' : SRR α) : Prop where
  f2q : s'.f2q = s.f2q
  qlim : s'.qlim = s.qlim
  maxqueuenumber : s'.maxqueuenumber = s.maxqueuenumber
  mtu : s'.mtu = s.mtu
  granularity : s'.granularity = s.granularity

theorem weight_pos (hg : 1 ≤ s.granularity) (hle : s.granularity ≤ s.privateRate q) :
    0 < s.weight q := by
  unfold weight
  rw [Int.tdiv_eq_ediv_of_nonneg (by omega)]
  exact Int.le_ediv_of_mul_le (by omega) (by omega)

namespace Resting

variable (h : Resting flowid size max s w)
include h

/-- A packet is dropped when its queue is full, and joins its queue otherwise. An idle queue becomes
active with the weight that it has now. -/
theorem enque (he : s.Enabled flowid size max (.enque p)) :
    (s.pkts (s.queueid flowid p) = s.qlim ∧ s.enque flowid size p = .ok s) ∨
      (s.pkts (s.queueid flowid p) ≠ s.qlim ∧ ∃ s', s.enque flowid size p = .ok s' ∧
        Resting flowid size max s' (Function.update w (s.queueid flowid p)
          (if s.pkts (s.queueid flowid p) = 0 then (s.weight (s.queueid flowid p)).toNat
            else w (s.queueid flowid p))) ∧
        s'.packets = Function.update s.packets (s.queueid flowid p)
          (s.packets (s.queueid flowid p) ++ [p]) ∧
        s'.pkts = Function.update s.pkts (s.queueid flowid p)
          (s.pkts (s.queueid flowid p) + 1) ∧
        (s.pkts (s.queueid flowid p) ≠ 0 →
          s'.matrix = s.matrix ∧ s'.deficitCounter = s.deficitCounter) ∧
        SameConfig s s' ∧ s'.lastQueueid = s.lastQueueid ∧ s'.privateRate = s.privateRate ∧
        s'.maxColumn = s.maxColumn) := by
  obtain ⟨hq, hle, ⟨hrate, hfit⟩, hpos, hmax⟩ := he
  have hc := h.toCounts.accept hq hpos hmax
  unfold SRR.enque
  dsimp only
  rw [if_neg (not_lt.mpr hle)]
  generalize hb : s.queueid flowid p = b at hq hrate hfit hc ⊢
  have hpkts : (s.accept flowid size p).pkts = Function.update s.pkts b (s.pkts b + 1) := by
    rw [← hb]; rfl
  have hself : (s.accept flowid size p).pkts b = s.pkts b + 1 := by
    rw [hpkts, Function.update_self]
  by_cases hfull : s.pkts b = s.qlim
  · exact .inl ⟨hfull, if_pos hfull⟩
  refine .inr ⟨hfull, ?_⟩
  rw [if_neg hfull]
  have hpackets : (s.accept flowid size p).packets =
      Function.update s.packets b (s.packets b ++ [p]) := by rw [← hb]; rfl
  have hnonneg := h.pkts_nonneg b
  have hpkts_ne : ∀ x ≠ b, (s.accept flowid size p).pkts x = s.pkts x := fun x hx => by
    rw [hpkts, Function.update_of_ne hx]
  by_cases hidle : s.pkts b = 0
  · rw [if_pos (by rw [hself, hidle]; rfl), if_pos hidle]
    have hwpos := weight_pos h.granularity hrate
    obtain ⟨k, hk⟩ := Int.eq_ofNat_of_zero_le hwpos.le
    rw [hk] at hfit hwpos
    have hlt : k < 2 ^ (s.maxColumn + 1) := by exact_mod_cast hfit
    obtain ⟨m, hm, hsound, hcurr⟩ := h.matrix.addToWM
      ((h.active b).mpr hidle) (by exact_mod_cast hwpos) hlt h.maxColumn
    have hadd : (s.accept flowid size p).activate b = .ok { s.accept flowid size p with
        matrix := m
        flwcnt := s.flwcnt + 1
        deficitCounter := Function.update s.deficitCounter b 0 } := by
      have hm' : s.matrix.addToWM b s.maxColumn (s.weight b) = .ok m := by rw [hk]; exact hm
      exact congrArg (Except.map _) hm'
    refine ⟨_, hadd, ⟨⟨hc.account m _ _ fun x => ?_, ?_, fun x => ?_⟩, h.turn, fun x hx => ?_⟩,
      hpackets, hpkts, fun hne => absurd hidle hne, ⟨rfl, rfl, rfl, rfl, rfl⟩, rfl, rfl, rfl⟩
    · obtain ⟨hlow, hhigh⟩ := h.deficit x
      have hmtu := h.mtu
      rw [Function.update_apply]
      change _ ∧ _ ≤ (max : ℤ) + if s.turn x then s.mtu else 0
      split_ifs at hhigh ⊢ <;> constructor <;> omega
    · rw [hk]
      exact hsound
    · change _ ↔ (s.accept flowid size p).pkts x = 0
      rcases eq_or_ne x b with rfl | hx
      · rw [Function.update_self, hself, hk]
        constructor <;> intro hzero <;> simp only [Int.toNat_natCast] at * <;> omega
      · rw [Function.update_of_ne hx, hpkts_ne x hx]
        exact h.active x
    · obtain ⟨node, hnode, hid⟩ := h.last x hx
      exact ⟨node, hcurr node hnode, hid⟩
  · rw [if_neg (by rw [hself]; omega), if_neg hidle, Function.update_eq_self]
    refine ⟨_, rfl, ⟨⟨hc, h.matrix, fun x => ?_⟩, h.turn, h.last⟩, hpackets, hpkts,
      fun _ => ⟨rfl, rfl⟩, ⟨rfl, rfl, rfl, rfl, rfl⟩, rfl, rfl, rfl⟩
    rcases eq_or_ne x b with rfl | hx
    · rw [hself]
      have hne := mt (h.active x).mp hidle
      exact iff_of_false hne (by omega)
    · rw [hpkts_ne x hx]
      exact h.active x

/-- The packet that was sent last leaves the books, and its queue the matrix when it was the only
one. -/
theorem settle : ∃ s₁ w₁, s.settle = .ok s₁ ∧ Books flowid size max s₁ w₁ none ∧
    (∀ x, s₁.turn x = true → ∃ node, s₁.matrix.pwmCurr = some node ∧ node.queueid = x) ∧
    (∀ x, w₁ x = if s₁.pkts x = 0 then 0 else w x) ∧ s₁.packets = s.packets ∧ SameConfig s s₁ ∧
    s₁.privateRate = s.privateRate ∧ s₁.maxColumn = s.maxColumn ∧
    ((∀ x, s₁.pkts x = 0 ↔ s.pkts x = 0) →
      s₁.matrix = s.matrix ∧ s₁.turn = s.turn ∧ s₁.deficitCounter = s.deficitCounter) := by
  have hbooks := h.toBooks
  have hkeep : ∀ x, s.pkts x = 0 → w x = 0 := fun x => (h.active x).mpr
  unfold SRR.settle
  cases hlast : s.lastQueueid with
  | none =>
    rw [hlast] at hbooks
    refine ⟨s, w, rfl, hbooks, fun x hx => ?_, fun x => ?_, rfl, ⟨rfl, rfl, rfl, rfl, rfl⟩, rfl, rfl,
      fun _ => ⟨rfl, rfl, rfl⟩⟩
    · rw [h.turn, hlast] at hx
      cases hx
    · split_ifs with hx
      · exact hkeep x hx
      · rfl
  | some q =>
    rw [hlast] at hbooks
    have hc := hbooks.toCounts.settle
    have hpkts := hbooks.pkts q
    rw [if_pos rfl] at hpkts
    dsimp only at hc ⊢
    have hne : s.pkts q ≠ 0 := by omega
    have hw : w q ≠ 0 := mt (h.active q).mp hne
    have hself : Function.update s.pkts q (s.pkts q - 1) q = s.pkts q - 1 := Function.update_self ..
    by_cases hidle : s.pkts q - 1 = 0
    · rw [if_pos (hself.trans hidle)]
      obtain ⟨m, hm, hsound⟩ := h.matrix.delFromWM hw
      refine ⟨_, Function.update w q 0, congrArg (Except.map _) hm, ⟨hc.account m _ _ fun x => ?_,
        hsound, fun x => ?_⟩, fun x hx => ?_, fun x => ?_, rfl, ⟨rfl, rfl, rfl, rfl, rfl⟩, rfl, rfl,
        fun hsame => ?_⟩
      · obtain ⟨hlow, hhigh⟩ := h.deficit x
        have hmtu := h.mtu
        rcases eq_or_ne x q with rfl | hx
        · rw [Function.update_self, Function.update_self]
          exact ⟨le_rfl, Int.natCast_nonneg max⟩
        · rw [Function.update_of_ne hx, Function.update_of_ne hx]
          exact ⟨hlow, hhigh⟩
      · change _ ↔ Function.update s.pkts q (s.pkts q - 1) x = 0
        rcases eq_or_ne x q with rfl | hx
        · rw [Function.update_self, Function.update_self]
          exact iff_of_true rfl hidle
        · rw [Function.update_of_ne hx, Function.update_of_ne hx]
          exact h.active x
      · change Function.update s.turn q false x = true at hx
        rcases eq_or_ne x q with rfl | hne
        · rw [Function.update_self] at hx
          cases hx
        · rw [Function.update_of_ne hne, h.turn, hlast] at hx
          exact absurd (Option.some.inj hx).symm hne
      · change _ = if Function.update s.pkts q (s.pkts q - 1) x = 0 then 0 else w x
        rcases eq_or_ne x q with rfl | hx
        · rw [Function.update_self, Function.update_self, if_pos hidle]
        · rw [Function.update_of_ne hx, Function.update_of_ne hx]
          split_ifs with hzero
          · exact hkeep x hzero
          · rfl
      · have hq : Function.update s.pkts q (s.pkts q - 1) q = 0 ↔ s.pkts q = 0 := hsame q
        rw [Function.update_self] at hq
        exact absurd (hq.mp hidle) hne
    · rw [if_neg fun heq => hidle (hself.symm.trans heq)]
      have hzero : ∀ x, Function.update s.pkts q (s.pkts q - 1) x = 0 ↔ s.pkts x = 0 := fun x => by
        rcases eq_or_ne x q with rfl | hx
        · rw [Function.update_self]
          exact iff_of_false hidle hne
        · rw [Function.update_of_ne hx]
      refine ⟨_, w, rfl, ⟨hc.account s.matrix s.flwcnt (some q) h.deficit, h.matrix, fun x => (h.active x).trans (hzero x).symm⟩, fun x hx => ?_,
        fun x => ?_, rfl, ⟨rfl, rfl, rfl, rfl, rfl⟩, rfl, rfl, fun _ => ⟨rfl, rfl, rfl⟩⟩
      · exact h.last x ((h.turn x).mp hx)
      · change _ = if Function.update s.pkts q (s.pkts q - 1) x = 0 then 0 else w x
        split_ifs with hx
        · exact hkeep x ((hzero x).mp hx)
        · rfl

/-- `deque` returns the first packet of a queue, unless all queues are empty. -/
theorem deque : ∃ r s' w', s.deque flowid size = .ok (r, s') ∧ Resting flowid size max s' w' ∧
    (∀ x, w' x = if s'.pkts x = 0 then 0 else w x) ∧ SameConfig s s' ∧
    s'.privateRate = s.privateRate ∧ s'.maxColumn = s.maxColumn ∧
    ((r = (none, []) ∧ s'.packets = s.packets ∧ ∀ x, s.packets x = [] ∧ s'.pkts x = 0) ∨
      ∃ q p l, r = (some p, l) ∧ s'.lastQueueid = some q ∧ s.packets q = p :: s'.packets q ∧
        (∀ x ≠ q, s'.packets x = s.packets x) ∧
        ((∀ x, s'.pkts x = 0 ↔ s.pkts x = 0) → s.lastQueueid ≠ none →
          s.matrix.Walk l s'.matrix ∧ ∀ x, s'.deficitCounter x =
            s.deficitCounter x + l.count x * s.mtu - if x = q then size p else 0)) := by
  obtain ⟨s₁, w₁, hsettle, h₁, hturned, hw₁, hpackets, hconfig, hrate, hcolumn, hsame⟩ := h.settle
  have hdeque : s.deque flowid size = if s₁.pktcnt < 0 then .error .negativeCount
      else if s₁.pktcnt = 0 then .ok ((none, []), { s₁ with lastQueueid := none })
      else if s₁.matrix.pwmCurr = none then .error .noCurrent
      else (s₁.serveFrom flowid size s₁.steps).map fun r => ((some r.1.1, r.1.2), r.2) := by
    unfold SRR.deque
    rw [hsettle]
    rfl
  have hnonneg : 0 ≤ s₁.pktcnt := h₁.pktcnt ▸ Finset.sum_nonneg fun x _ => h₁.pkts_nonneg x
  rw [hdeque, if_neg (not_lt.mpr hnonneg)]
  by_cases hzero : s₁.pktcnt = 0
  · rw [if_pos hzero]
    have hpkts : ∀ x, s₁.pkts x = 0 := fun x => by
      by_contra hx
      exact (h₁.pktcnt_pos hx).ne' hzero
    have hempty : ∀ x, s.packets x = [] := fun x => by
      have hlen := h₁.pkts x
      rw [hpkts, if_neg (Option.some_ne_none x).symm, hpackets] at hlen
      exact List.eq_nil_of_length_eq_zero (by omega)
    refine ⟨_, _, w₁, rfl, ⟨⟨h₁.toCounts.account s₁.matrix s₁.flwcnt none h₁.deficit, h₁.matrix,
      h₁.active⟩, fun x => iff_of_false (fun hx => ?_) (Option.some_ne_none x).symm, fun x hx => ?_⟩,
      hw₁, ⟨hconfig.f2q, hconfig.qlim, hconfig.maxqueuenumber, hconfig.mtu, hconfig.granularity⟩,
      hrate, hcolumn, .inl ⟨rfl, hpackets, fun x => ⟨hempty x, hpkts x⟩⟩⟩
    · obtain ⟨node, hnode, -⟩ := hturned x hx
      exact h₁.pkts_of_mem (h₁.matrix.curr node hnode) (hpkts _)
    · cases hx
  · rw [if_neg hzero]
    obtain ⟨b, hb⟩ := h₁.exists_of_pktcnt hzero
    have hserving : Serving flowid size max s₁ w₁ := ⟨h₁, hturned, h₁.order_pos hb⟩
    obtain ⟨node, hnode, -⟩ := h₁.curr hserving.busy
    rw [if_neg (by rw [hnode]; exact Option.some_ne_none node)]
    have hneeds := needs_le h₁.toCounts
    obtain ⟨q, p, l, s', hserve, hbooks, hserved⟩ := hserving.serveFrom (n := s₁.steps)
      fun node _ => by unfold steps; split_ifs <;> omega
    have hlast : s'.lastQueueid = some q := by rw [hserved.rest]
    have hpkts : s'.pkts = s₁.pkts := by rw [hserved.rest]
    refine ⟨(some p, l), s', w₁, by rw [hserve]; rfl, ⟨hlast ▸ hbooks, fun x => ?_, fun x hx => ?_⟩,
      fun x => ?_, ?_, ?_, ?_, .inr ⟨q, p, l, rfl, hlast, hpackets ▸ hserved.head,
      fun x hx => hpackets ▸ hserved.packets x hx, fun hsteady hbusy => ?_⟩⟩
    · rw [hserved.turn, hlast]
      exact ⟨fun hx => hx ▸ rfl, fun hx => (Option.some.inj hx).symm⟩
    · rw [hlast] at hx
      obtain rfl := Option.some.inj hx
      exact hserved.curr
    · rw [hpkts]
      exact hw₁ x
    · rw [hserved.rest]
      exact ⟨hconfig.f2q, hconfig.qlim, hconfig.maxqueuenumber, hconfig.mtu, hconfig.granularity⟩
    · rw [hserved.rest]
      exact hrate
    · rw [hserved.rest]
      exact hcolumn
    · rw [hpkts] at hsteady
      obtain ⟨hmatrix, hturn, hdeficit⟩ := hsame hsteady
      obtain ⟨b, hb⟩ := Option.ne_none_iff_exists'.mp hbusy
      obtain ⟨node, hnode, rfl⟩ := h.last b hb
      obtain ⟨l', rfl, hwalk⟩ := hserved.walk node (hmatrix ▸ hnode)
      have hnone : s₁.granted node.queueid = [] := if_pos (by rw [hturn, h.turn]; exact hb)
      rw [hnone, List.nil_append] at hserved ⊢
      refine ⟨hmatrix ▸ hwalk, fun x => ?_⟩
      rw [hserved.deficit, hdeficit, hconfig.mtu]

/-- The rate of a queue counts when the queue becomes active the next time. -/
theorem setrate {rate : ℤ} (he : s.Enabled flowid size max (.setrate q rate)) :
    ∃ s', s.setrate q rate = .ok s' ∧ Resting flowid size max s' w ∧ SameConfig s s' ∧ s'.Fits q ∧
      (∀ x, x ≠ q → s.Fits x → s'.Fits x) ∧ s'.packets = s.packets ∧ s'.pkts = s.pkts ∧
      s'.matrix = s.matrix ∧ s'.deficitCounter = s.deficitCounter ∧
      s'.lastQueueid = s.lastQueueid := by
  obtain ⟨hq, hrate, hmax, hweight⟩ := he
  have hclamp : (if rate < minRate then minRate else rate) = Max.max minRate rate := by
    rw [max_def]
    split_ifs <;> omega
  have hle : Max.max minRate rate ≤ maxRate := max_le (by decide) hmax
  have hg : s.granularity ≤ Max.max minRate rate := hrate.trans (le_max_right ..)
  let s₁ : SRR α := { s with privateRate := Function.update s.privateRate q (Max.max minRate rate) }
  have hself : s₁.privateRate q = Max.max minRate rate := Function.update_self ..
  have hpos : 0 < s₁.weight q := weight_pos h.granularity (hself.symm ▸ hg)
  have hlt : s₁.weight q < 2 ^ maxWssOrder := by
    unfold weight
    rwa [hself]
  obtain ⟨hup, horder⟩ := getOrder_spec hpos hlt
  have hcolumn := h.maxColumn
  have hset : s.setrate q rate =
      .ok { s₁ with maxColumn := Max.max s.maxColumn (getOrder (s₁.weight q)) } := by
    unfold SRR.setrate
    dsimp only
    rw [if_neg (by unfold maxFlow at hq; unfold maxQueue; omega), hclamp, if_neg (not_lt.mpr hle)]
    change (if maxWssOrder - 1 < Max.max s.maxColumn
      (getOrder (if s₁.weight q = 0 then 1 else s₁.weight q)) then _ else Except.ok _) = _
    rw [if_neg hpos.ne', if_neg]
    omega
  refine ⟨_, hset, ⟨⟨⟨h.mtu, h.granularity, max_lt hcolumn horder, h.pkts, h.bcount, h.pktcnt,
    h.bytecnt, h.home, h.within, h.deficit⟩, h.matrix, h.active⟩, h.turn, h.last⟩,
    ⟨rfl, rfl, rfl, rfl, rfl⟩, ⟨hself.symm ▸ hg, ?_⟩, fun x hx hfits => ⟨?_, ?_⟩, rfl, rfl, rfl, rfl,
    rfl⟩
  · exact hup.trans_le (pow_le_pow_right₀ one_le_two (Nat.succ_le_succ (le_max_right ..)))
  · have hsame : s₁.privateRate x = s.privateRate x := Function.update_of_ne hx _ _
    exact hfits.1.trans_eq hsame.symm
  · have hw : s₁.weight x = s.weight x :=
      congrArg (Int.tdiv · s.granularity) (Function.update_of_ne hx _ _)
    exact (hw.trans_lt hfits.2).trans_le
      (pow_le_pow_right₀ one_le_two (Nat.succ_le_succ (le_max_left ..)))

end Resting

/-! ## Whole runs -/

def machine (flowid : α → ℕ) (size : α → ℤ) (max : ℕ) : Machine (SRR α) (SRRCall α) SRRError where
  Init s := ∃ qlim f2q maxqueuenumber mtu granularity, 1 ≤ mtu ∧ 1 ≤ granularity ∧
    s = { qlim := qlim, f2q := f2q, maxqueuenumber := maxqueuenumber, mtu := mtu,
          granularity := granularity }
  Enabled s := s.Enabled flowid size max
  step s := s.step flowid size

instance (flowid : α → ℕ) (size : α → ℤ) (max : ℕ) (s : SRR α) (x : SRRCall α) :
    Decidable ((machine flowid size max).Enabled s x) :=
  match x with
  | .enque _ => inferInstanceAs (Decidable (_ ∧ _ ∧ (_ ∧ _) ∧ _))
  | .deque => inferInstanceAs (Decidable True)
  | .setrate _ _ => inferInstanceAs (Decidable (_ ∧ _))

/-- The packets that each queue has taken and sent, and its weight when it became active. -/
structure Ledger (α : Type) where
  accepted : ℕ → List α := fun _ => []
  sent : ℕ → List α := fun _ => []
  weight : ℕ → ℕ := fun _ => 0

/-- The packet that a call returns, and the queues that it gives a quantum to. -/
def outcome (flowid : α → ℕ) (size : α → ℤ) (r : SRR α × SRRCall α) : Option α × List ℕ :=
  match r.2 with
  | .deque =>
    match r.1.deque flowid size with
    | .ok r => r.1
    | .error _ => (none, [])
  | _ => (none, [])

def record (flowid : α → ℕ) (size : α → ℤ) (s : SRR α) (x : SRRCall α) (_ : SRR α)
    (g : Ledger α) : Ledger α :=
  match x with
  | .enque p =>
    let q := s.queueid flowid p
    if s.pkts q = s.qlim then g
    else { g with
      accepted := Function.update g.accepted q (g.accepted q ++ [p])
      weight := if s.pkts q = 0 then Function.update g.weight q (s.weight q).toNat else g.weight }
  | .deque =>
    match (outcome flowid size (s, x)).1 with
    | some p =>
      let q := s.queueid flowid p
      { g with sent := Function.update g.sent q (g.sent q ++ [p]) }
    | none => g
  | .setrate _ _ => g

/-- The weights of the queues that have packets in the books. -/
def Ledger.active (g : Ledger α) (s : SRR α) (q : ℕ) : ℕ := if s.pkts q = 0 then 0 else g.weight q

def recorded (flowid : α → ℕ) (size : α → ℤ) (max : ℕ) :
    Machine (SRR α × Ledger α) (SRRCall α) SRRError :=
  (machine flowid size max).withHistory {} (record flowid size)

instance (flowid : α → ℕ) (size : α → ℤ) (max : ℕ) (r : SRR α × Ledger α) (x : SRRCall α) :
    Decidable ((recorded flowid size max).Enabled r x) :=
  inferInstanceAs (Decidable ((machine flowid size max).Enabled r.1 x))

theorem outcome_of_deque {r : Option α × List ℕ}
    (h : s.deque flowid size = .ok (r, s')) : outcome flowid size (s, .deque) = r := by
  unfold outcome
  dsimp only
  rw [h]

theorem resting_empty {qlim : ℤ} {f2q : ℕ → ℕ} {maxqueuenumber : ℕ} {mtu granularity : ℤ}
    (hmtu : 1 ≤ mtu) (hg : 1 ≤ granularity) :
    Resting flowid size max
      { qlim := qlim, f2q := f2q, maxqueuenumber := maxqueuenumber, mtu := mtu,
        granularity := granularity } fun _ => 0 where
  mtu := hmtu
  granularity := hg
  maxColumn := Nat.zero_lt_succ _
  pkts _ := rfl
  bcount _ := rfl
  pktcnt := by simp
  bytecnt := by simp
  home _ _ hp := absurd hp List.not_mem_nil
  within _ hq := absurd rfl hq
  deficit _ := ⟨le_rfl, Int.natCast_nonneg max⟩
  matrix := WeightMatrix.sound_empty
  active _ := iff_of_true rfl rfl
  turn _ := iff_of_false Bool.false_ne_true (Option.some_ne_none _).symm
  last _ hx := absurd hx.symm (Option.some_ne_none _)

/-- A call keeps the matrix of the active weights and the order of the packets. -/
theorem Resting.recorded {g : Ledger α} {x : SRRCall α}
    (h : Resting flowid size max s (g.active s)) (hfifo : ∀ q, g.accepted q = g.sent q ++ s.packets q)
    (he : s.Enabled flowid size max x) (hs : s.step flowid size x = .ok s') :
    Resting flowid size max s' ((record flowid size s x s' g).active s') ∧
      ∀ q, (record flowid size s x s' g).accepted q =
        (record flowid size s x s' g).sent q ++ s'.packets q := by
  cases x with
  | enque p =>
    rcases h.enque he with ⟨hfull, henque⟩ | ⟨hfull, s₁, henque, hrest, hpackets, hpkts, -⟩
    · obtain rfl : s = s' := Except.ok.inj (henque.symm.trans hs)
      rw [record, if_pos hfull]
      exact ⟨h, hfifo⟩
    · obtain rfl : s₁ = s' := Except.ok.inj (henque.symm.trans hs)
      rw [record, if_neg hfull]
      refine ⟨?_, fun q => ?_⟩
      · convert hrest using 1
        funext x
        change (if s₁.pkts x = 0 then 0 else (if s.pkts (s.queueid flowid p) = 0 then
          Function.update g.weight (s.queueid flowid p) (s.weight (s.queueid flowid p)).toNat
          else g.weight) x) = _
        have hnonneg := h.pkts_nonneg (s.queueid flowid p)
        rw [hpkts]
        rcases eq_or_ne x (s.queueid flowid p) with rfl | hx
        · rw [Function.update_self, Function.update_self, if_neg (by omega)]
          split_ifs with hidle
          · exact Function.update_self ..
          · exact (if_neg hidle).symm
        · rw [Function.update_of_ne hx, Function.update_of_ne hx, Ledger.active]
          refine congrArg (ite _ 0) ?_
          split_ifs
          · exact Function.update_of_ne hx ..
          · rfl
      · change Function.update g.accepted _ _ q = g.sent q ++ s₁.packets q
        rw [hpackets]
        rcases eq_or_ne q (s.queueid flowid p) with rfl | hq
        · rw [Function.update_self, Function.update_self, hfifo, List.append_assoc]
        · rw [Function.update_of_ne hq, Function.update_of_ne hq, hfifo]
  | deque =>
    obtain ⟨r, s₁, w', hdeque, hrest, hw', -, -, -, hcase⟩ := h.deque
    have hs₁ : s₁ = s' := by
      rw [step, hdeque] at hs
      exact Except.ok.inj hs
    subst hs₁
    have hactive : w' = g.active s₁ := by
      funext x
      have hx := hw' x
      rw [hx, Ledger.active, Ledger.active]
      split_ifs with hzero hidle
      · rfl
      · rw [if_neg hzero, Ledger.active, if_pos hidle] at hx
        exact absurd ((hrest.active x).mp hx) hzero
      · rfl
    rw [record, outcome_of_deque hdeque]
    rcases hcase with ⟨rfl, hpackets, -⟩ | ⟨q, p, l, rfl, -, hhead, hother, -⟩
    · refine ⟨hactive ▸ hrest, fun x => ?_⟩
      rw [hpackets]
      exact hfifo x
    · have hq : s.queueid flowid p = q := (h.home q p (hhead ▸ List.mem_cons_self)).1
      refine ⟨hactive ▸ hrest, fun x => ?_⟩
      change g.accepted x = Function.update g.sent _ _ x ++ s₁.packets x
      rw [hq, hfifo]
      rcases eq_or_ne x q with rfl | hx
      · rw [Function.update_self, hhead, List.append_assoc]
        rfl
      · rw [Function.update_of_ne hx, hother x hx]
  | setrate q rate =>
    obtain ⟨s₁, hset, hrest, -, -, -, hpackets, hpkts, -⟩ := h.setrate he
    obtain rfl : s₁ = s' := Except.ok.inj (hset.symm.trans hs)
    have hactive : g.active s₁ = g.active s := by
      unfold Ledger.active
      rw [hpkts]
    refine ⟨?_, fun q => ?_⟩
    · change Resting flowid size max s₁ (g.active s₁)
      exact hactive ▸ hrest
    · change g.accepted q = g.sent q ++ s₁.packets q
      rw [hpackets]
      exact hfifo q

theorem resting_recorded :
    (recorded flowid size max).Invariant fun r => Resting flowid size max r.1 (r.2.active r.1) ∧
      ∀ q, r.2.accepted q = r.2.sent q ++ r.1.packets q where
  init := by
    rintro ⟨s, g⟩ ⟨⟨qlim, f2q, maxqueuenumber, mtu, granularity, hmtu, hg, rfl⟩, rfl⟩
    exact ⟨resting_empty hmtu hg, fun _ => rfl⟩
  step := by
    rintro ⟨s, g⟩ x ⟨s', g'⟩ ⟨h, hfifo⟩ he hs
    obtain ⟨hs, hg⟩ := (Machine.withHistory_step_iff _).mp hs
    change g' = record flowid size s x s' g at hg
    subst hg
    exact h.recorded hfifo he hs

theorem Resting.exists_step {x : SRRCall α} (h : Resting flowid size max s w)
    (he : s.Enabled flowid size max x) : ∃ s', s.step flowid size x = .ok s' := by
  cases x with
  | enque p =>
    rcases h.enque he with ⟨-, henque⟩ | ⟨-, s', henque, -⟩
    · exact ⟨s, henque⟩
    · exact ⟨s', henque⟩
  | deque =>
    obtain ⟨r, s', -, hdeque, -⟩ := h.deque
    exact ⟨s', by rw [step, hdeque]; rfl⟩
  | setrate q rate =>
    obtain ⟨s', hset, -⟩ := h.setrate he
    exact ⟨s', hset⟩

/-- The bytes that a call sends from the queue. -/
def bytesOf (flowid : α → ℕ) (size : α → ℤ) (q : ℕ) (r : SRR α × SRRCall α) : ℤ :=
  match (outcome flowid size r).1 with
  | some p => if r.1.queueid flowid p = q then size p else 0
  | none => 0

def quanta (flowid : α → ℕ) (size : α → ℤ) (ts : List (SRR α × SRRCall α)) : List ℕ :=
  ts.flatMap fun r => (outcome flowid size r).2

def bytes (flowid : α → ℕ) (size : α → ℤ) (q : ℕ) (ts : List (SRR α × SRRCall α)) : ℤ :=
  (ts.map (bytesOf flowid size q)).sum

/-- The same queues are active. -/
def SameActive (s s' : SRR α) : Prop := ∀ q < maxFlow, s'.pkts q = 0 ↔ s.pkts q = 0

instance (s s' : SRR α) : Decidable (SameActive s s') :=
  inferInstanceAs (Decidable (∀ q < maxFlow, _))

theorem Resting.exists_resting {x : SRRCall α} (h : Resting flowid size max s w)
    (he : s.Enabled flowid size max x) (hs : s.step flowid size x = .ok s') :
    ∃ w', Resting flowid size max s' w' := by
  cases x with
  | enque p =>
    rcases h.enque he with ⟨-, henque⟩ | ⟨-, s₁, henque, hrest, -⟩
    · obtain rfl : s = s' := Except.ok.inj (henque.symm.trans hs)
      exact ⟨w, h⟩
    · obtain rfl : s₁ = s' := Except.ok.inj (henque.symm.trans hs)
      exact ⟨_, hrest⟩
  | deque =>
    obtain ⟨r, s₁, w', hdeque, hrest, -⟩ := h.deque
    rw [step, hdeque] at hs
    obtain rfl : s₁ = s' := Except.ok.inj hs
    exact ⟨w', hrest⟩
  | setrate q rate =>
    obtain ⟨s₁, hset, hrest, -⟩ := h.setrate he
    obtain rfl : s₁ = s' := Except.ok.inj (hset.symm.trans hs)
    exact ⟨w, hrest⟩

/-- A call that makes no queue active or idle goes on through the matrix. -/
theorem Resting.steady {x : SRRCall α} (h : Resting flowid size max s w)
    (hbusy : s.lastQueueid ≠ none) (he : s.Enabled flowid size max x)
    (hs : s.step flowid size x = .ok s') (hsame : SameActive s s') :
    Resting flowid size max s' w ∧ s'.lastQueueid ≠ none ∧ s'.mtu = s.mtu ∧
      s.matrix.Walk (outcome flowid size (s, x)).2 s'.matrix ∧
      ∀ q, s'.deficitCounter q = s.deficitCounter q +
        (outcome flowid size (s, x)).2.count q * s.mtu - bytesOf flowid size q (s, x) := by
  obtain ⟨_, hrest'⟩ := h.exists_resting he hs
  have hsame : ∀ q, s'.pkts q = 0 ↔ s.pkts q = 0 := fun q => by
    by_cases hq : q < maxFlow
    · exact hsame q hq
    · exact iff_of_true (not_not.mp (mt (hrest'.within q) hq)) (not_not.mp (mt (h.within q) hq))
  cases x with
  | enque p =>
    rcases h.enque he with ⟨-, henque⟩ | ⟨-, s₁, henque, hrest, -, hpkts, hkeep, hconfig, hlast, -⟩
    · obtain rfl : s = s' := Except.ok.inj (henque.symm.trans hs)
      exact ⟨h, hbusy, rfl, .nil _, fun q => by simp [outcome, bytesOf]⟩
    · obtain rfl : s₁ = s' := Except.ok.inj (henque.symm.trans hs)
      have hne : s.pkts (s.queueid flowid p) ≠ 0 := fun hzero => by
        have hone := (hsame (s.queueid flowid p)).mpr hzero
        rw [hpkts, Function.update_self] at hone
        omega
      obtain ⟨hmatrix, hdeficit⟩ := hkeep hne
      rw [if_neg hne, Function.update_eq_self] at hrest
      refine ⟨hrest, hlast ▸ hbusy, hconfig.mtu, hmatrix ▸ .nil _, fun q => ?_⟩
      rw [hdeficit]
      simp [outcome, bytesOf]
  | deque =>
    obtain ⟨r, s₁, w', hdeque, hrest, hw', hconfig, -, -, hcase⟩ := h.deque
    have hs₁ : s₁ = s' := by
      rw [step, hdeque] at hs
      exact Except.ok.inj hs
    subst hs₁
    have hw : w' = w := by
      funext x
      rw [hw']
      split_ifs with hzero
      · exact ((h.active x).mpr ((hsame x).mp hzero)).symm
      · rfl
    subst hw
    unfold bytesOf
    rw [outcome_of_deque hdeque]
    rcases hcase with ⟨rfl, -, hempty⟩ | ⟨q, p, l, rfl, hlast, hhead, -, hwalk⟩
    · obtain ⟨b, hb⟩ := Option.ne_none_iff_exists'.mp hbusy
      have hpkts := h.pkts b
      rw [(hsame b).mp (hempty b).2, if_pos hb] at hpkts
      omega
    · obtain ⟨hwalk, hdeficit⟩ := hwalk hsame hbusy
      have hq : s.queueid flowid p = q := (h.home q p (hhead ▸ List.mem_cons_self)).1
      refine ⟨hrest, hlast ▸ Option.some_ne_none q, hconfig.mtu, hwalk, fun x => ?_⟩
      rw [hdeficit]
      dsimp only
      rw [hq]
      simp only [eq_comm]
  | setrate q rate =>
    obtain ⟨s₁, hset, hrest, hconfig, -, -, -, -, hmatrix, hdeficit, hlast⟩ := h.setrate he
    obtain rfl : s₁ = s' := Except.ok.inj (hset.symm.trans hs)
    refine ⟨hrest, hlast ▸ hbusy, hconfig.mtu, hmatrix ▸ .nil _, fun q => ?_⟩
    rw [hdeficit]
    simp [outcome, bytesOf]

/-- What the calls of a path without changes of the active queues add up to. -/
theorem Resting.path {t : SRR α} {ts : List (SRR α × SRRCall α)}
    (h : Resting flowid size max s w) (hbusy : s.lastQueueid ≠ none)
    (hp : (machine flowid size max).Path s ts t)
    (hsame : Machine.Throughout (fun u => ∀ q < maxFlow, u.pkts q = 0 ↔ w q = 0) ts t) :
    Resting flowid size max t w ∧ t.mtu = s.mtu ∧ s.matrix.Walk (quanta flowid size ts) t.matrix ∧
      ∀ q, t.deficitCounter q = s.deficitCounter q + (quanta flowid size ts).count q * s.mtu -
        bytes flowid size q ts := by
  induction hp with
  | nil s => exact ⟨h, rfl, .nil _, fun q => by simp [quanta, bytes]⟩
  | @cons s s' t x ts he hs hp ih =>
    have hfirst : SameActive s s' := fun q hq =>
      (hp.start_of_throughout hsame.tail q hq).trans (h.active q)
    obtain ⟨hrest, hbusy', hmtu, hwalk, hdeficit⟩ := h.steady hbusy he hs hfirst
    obtain ⟨ht, hmtu', hwalk', hdeficit'⟩ := ih hrest hbusy' hsame.tail
    refine ⟨ht, hmtu'.trans hmtu, hwalk.trans hwalk', fun q => ?_⟩
    change _ = _ + ((((outcome flowid size (s, x)).2 ++ quanta flowid size ts).count q : ℕ) : ℤ) *
      s.mtu - (bytesOf flowid size q (s, x) + bytes flowid size q ts)
    rw [hdeficit', hdeficit, hmtu, List.count_append, Nat.cast_add]
    ring

end SRR

/-- Queue 1 has three times the rate of queue 0. -/
def srrQueues : SRR ℕ := { qlim := 50, f2q := fun f => f }

def srrQueue (p : ℕ) : ℕ := p % 2

def srrSize (_ : ℕ) : ℤ := 1000

def srrCalls : List (SRRCall ℕ) :=
  .setrate 1 3000 :: ((List.range 10).map SRRCall.enque ++ [SRRCall.deque])

end Ns2XPass
