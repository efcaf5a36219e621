import Ns2XPass.Dccp.Pipe

/-! # The walk through two ack vectors

The walk visits every number from the acknowledged one down to the first that is done
with. What leaves the pipe are the data packets that were not reported before and
either are reported now or have enough newer ones that are.
-/

namespace Ns2XPass

variable {v ackv : AckVector} {items its l : List ℕ} {w wOld wNew : PacketWalk} {n p q : ℕ}

namespace AckVector

/-- The packets that are still to be visited are those below a number. -/
def Below (v : AckVector) (q : ℕ) (w : PacketWalk) : Prop :=
  Yields v.nextPacket w (v.packets.drop (v.seqHead + 1 - q))

/-- Above the newest packet there is none to be visited. -/
theorem Below.above (h : v.Below p w) (hp : v.seqHead < p) (hq : v.seqHead < q) : v.Below q w := by
  unfold Below at h ⊢
  rwa [Nat.sub_eq_zero_of_le hp, ← Nat.sub_eq_zero_of_le hq] at h

namespace Valid

theorem below_start (h : v.Valid items) (hne : items ≠ []) (hq : v.seqHead < q) :
    v.Below q v.startPacketWalk := by
  unfold Below
  rw [Nat.sub_eq_zero_of_le hq]
  exact h.yields_down hne

theorem below_next (h : v.Valid items) (hne : items ≠ []) (hw : v.Below (q + 1) w)
    (hlo : v.seqTail ≤ q) (hhi : q ≤ v.seqHead) :
    ∃ w' st, v.nextPacket w = some ((q, st), w') ∧ v.map q = some st ∧ v.Below q w' := by
  have hspan := h.span hne
  have hk : v.seqHead - q < total items := by omega
  obtain ⟨st, hst⟩ : ∃ st, (expand items)[v.seqHead - q]? = some st :=
    ⟨_, List.getElem?_eq_getElem (by rwa [length_expand])⟩
  have hmap : v.map q = some st := by
    rw [h.map_eq, mapOf, if_pos hhi, hst]
  have hget : v.packets[v.seqHead - q]? = some (q, st) := by
    rw [h.getElem?_packets, hst, Option.map_some, Nat.sub_sub_self hhi]
  obtain ⟨hlen, hget⟩ := List.getElem?_eq_some_iff.mp hget
  have hdrop : v.packets.drop (v.seqHead + 1 - (q + 1)) =
      (q, st) :: v.packets.drop (v.seqHead + 1 - q) := by
    rw [Nat.add_sub_add_right, List.drop_eq_getElem_cons hlen, hget, Nat.succ_sub hhi]
  unfold Below at hw
  rw [hdrop] at hw
  cases hw with
  | cons hnext hrest => exact ⟨_, st, hnext, hmap, hrest⟩

theorem below_end (h : v.Valid items) (hne : items ≠ []) (hw : v.Below q w) (hq : q ≤ v.seqTail)
    (hp : p ≤ q) : v.nextPacket w = none ∧ v.Below p w := by
  have hspan := h.span hne
  have hlen := h.length_packets
  have hnil : ∀ k ≤ q, v.packets.drop (v.seqHead + 1 - k) = [] := fun k hk =>
    List.drop_eq_nil_of_le (by omega)
  unfold Below at hw ⊢
  rw [hnil q le_rfl] at hw
  rw [hnil p hp]
  cases hw with
  | nil hend => exact ⟨hend, .nil hend⟩

end Valid

end AckVector

namespace TcpLikeSender

variable {s : TcpLikeSender} {old new : ℕ → PacketState} {r : AckScan} {top : ℕ}

/-- The state of a packet in the stored ack vector, where a newer one has not been received. -/
def stateOf (s : TcpLikeSender) (q : ℕ) : PacketState := (s.storedAckv.map q).getD .notRecv

/-- The state after the merge. -/
def mergedState (s : TcpLikeSender) (ackv : AckVector) (q : ℕ) : PacketState :=
  s.storedAckv.ackvCons (s.stateOf q) ((ackv.map q).getD (s.stateOf q))

/-- The visits from a number down to the first that is not done with. -/
def scanDown (s : TcpLikeSender) (old new : ℕ → PacketState) : ℕ → AckScan → AckScan
  | 0, r => r
  | q + 1, r =>
    if q + 1 ≤ s.seqAllDone then r
    else scanDown s old new q (s.visit (q + 1) (old (q + 1)) (new (q + 1)) r)

theorem scanDown_of_le (h : q ≤ s.seqAllDone) : s.scanDown old new q r = r := by
  cases q with
  | zero => rfl
  | succ q => rw [scanDown, if_pos h]

section Walk

variable (ha : ackv.Valid its) (hane : its ≠ [])

section

include ha hane

/-- The next packet of the received ack vector, or the number below when there is none left. -/
theorem next_eq (hw : ackv.Below (q + 1) wNew) (hq : q ≤ ackv.seqHead) (hlt : q < 2 ^ 31) :
    ∃ w, ((ackv.nextPacket wNew).map (·.1.1)).getD (sub32 (q + 1) 1) = q ∧
      ((ackv.nextPacket wNew).map (·.1.2)).getD (s.stateOf q) = (ackv.map q).getD (s.stateOf q) ∧
      ((ackv.nextPacket wNew).map (·.2)).getD wNew = w ∧ ackv.Below q w := by
  rcases le_or_gt ackv.seqTail q with hge | hbelow
  · obtain ⟨w, st, hnext, hmap, hrest⟩ := ha.below_next hane hw hge hq
    exact ⟨w, by simp [hnext], by simp [hnext, hmap], by simp [hnext], hrest⟩
  · obtain ⟨hend, hrest⟩ := ha.below_end hane hw hbelow (Nat.le_succ q)
    have hnone := ha.map_below hbelow
    have hsub : sub32 (q + 1) 1 = q := sub32_of_le (Nat.le_add_left 1 q) (by omega)
    exact ⟨wNew, by simp [hend, hsub], by simp [hend, hnone], by simp [hend], hrest⟩

end

variable (hs : s.storedAckv.Valid items) (hne : items ≠ [])
include hs hne

theorem storedState_eq (hw : s.storedAckv.Below (q + 1) wOld) (hq : s.storedAckv.seqTail ≤ q) :
    ∃ w, s.storedState s.storedAckv.seqHead q wOld = some ((q, s.stateOf q), w) ∧
      s.storedAckv.Below q w := by
  unfold storedState stateOf
  split_ifs with hlt
  · have hnone : s.storedAckv.map q = none := by
      by_contra hsome
      exact (hs.isSome_map.mp (Option.isSome_iff_ne_none.mpr hsome)).2.2.not_gt hlt
    exact ⟨wOld, by rw [hnone]; rfl, hw.above (Nat.lt_succ_of_lt hlt) hlt⟩
  · obtain ⟨w, st, hnext, hmap, hbelow⟩ := hs.below_next hne hw hq (not_lt.mp hlt)
    exact ⟨w, by rw [hnext, hmap]; rfl, hbelow⟩

include ha hane

/-- The loop visits every number in turn, and neither vector ends too early. -/
theorem scanFrom_eq (htail : s.storedAckv.seqTail ≤ s.seqAllDone + 1) (hn : q < n)
    (hlt : q < 2 ^ 31) (hq : q ≤ ackv.seqHead) (hOld : s.storedAckv.Below q wOld)
    (hNew : ackv.Below q wNew) :
    s.scanFrom ackv n q (s.stateOf q) ((ackv.map q).getD (s.stateOf q)) wOld wNew r =
      .ok (s.scanDown s.stateOf (s.mergedState ackv) q r) := by
  induction q generalizing n wOld wNew r with
  | zero =>
    obtain ⟨n, rfl⟩ := Nat.exists_eq_add_one_of_ne_zero (Nat.ne_zero_of_lt hn)
    rw [scanFrom, if_pos (Nat.zero_le _)]
    rfl
  | succ q ih =>
    obtain ⟨n, rfl⟩ := Nat.exists_eq_add_one_of_ne_zero (Nat.ne_zero_of_lt hn)
    rw [scanFrom, scanDown]
    split_ifs with hdone
    · rfl
    obtain ⟨w, hnum, hstate, hwalk, hrest⟩ := next_eq (s := s) ha hane hNew
      (Nat.le_of_succ_le hq) (Nat.lt_of_succ_lt hlt)
    dsimp only
    rw [hnum]
    split_ifs with hlast
    · rw [scanDown_of_le hlast.le]
      rfl
    · obtain ⟨w', hstored, hrest'⟩ := storedState_eq hs hne hOld (by omega)
      rw [hstored]
      dsimp only
      rw [hstate, hwalk]
      exact ih (Nat.lt_of_succ_lt_succ hn) (Nat.lt_of_succ_lt hlt) (Nat.le_of_succ_le hq) hrest'
        hrest

/-- The walk succeeds, and visits the numbers from the newest one of the received vector on. -/
theorem scan_eq (htail : s.storedAckv.seqTail ≤ s.seqAllDone + 1)
    (hhead : s.storedAckv.seqHead ≤ ackv.seqHead) (hlast : s.histLastSeq ≤ s.seqAllDone)
    (hlt : ackv.seqHead < 2 ^ 31) (ackNum : ℕ) (hmem : s.storedAckv.seqTail ≤ ackv.seqHead) :
    s.scan ackNum ackv = .ok (s.scanDown s.stateOf (s.mergedState ackv) ackv.seqHead
      { elm := findPacketInSendHistory ackNum s.sendHist }) := by
  have hspan := ha.span hane
  have hpos := total_pos hane
  obtain ⟨wNew, st, hnext, hmap, hNew⟩ := ha.below_next hane
    (ha.below_start hane (Nat.lt_succ_self _)) (by omega) le_rfl
  obtain ⟨wOld, hstored, hOld⟩ := storedState_eq (s := s) hs hne
    (hs.below_start hne (Nat.lt_succ_of_le hhead)) hmem
  have hst : st = (ackv.map ackv.seqHead).getD (s.stateOf ackv.seqHead) := by rw [hmap]; rfl
  rw [scan, if_neg hlast.not_gt, hnext]
  dsimp only
  rw [hstored]
  dsimp only
  rw [if_neg (not_not.mpr rfl), hst]
  exact scanFrom_eq ha hane hs hne htail (Nat.lt_succ_self _) hlt le_rfl hOld hNew

end Walk

end TcpLikeSender

/-! ## What is counted -/

namespace AckCounts

variable {c c' : AckCounts} {a b pipe : Bool}

theorem bump_apply (f : Bool → ℤ) : bump b f a = f a + if a = b then 1 else 0 := by
  unfold bump
  rw [Function.update_apply]
  split_ifs with h
  · rw [h]
  · rw [add_zero]

theorem le_bump (f : Bool → ℤ) (a : Bool) : f a ≤ bump b f a := by
  rw [bump_apply]
  split_ifs <;> omega

/-- Counts that differ in what is reported only. -/
structure Reports (c c' : AckCounts) : Prop where
  numPipe : c'.numPipe = c.numPipe
  leaving : c'.leaving = c.leaving
  numOk : ∀ b, c.numOk b ≤ c'.numOk b
  numMarked : ∀ b, c.numMarked b - c.numOkMark b ≤ c'.numMarked b - c'.numOkMark b

theorem Reports.refl (c : AckCounts) : c.Reports c :=
  ⟨rfl, rfl, fun _ => le_rfl, fun _ => le_rfl⟩

theorem reports_ok : c.Reports (c.ok b) :=
  ⟨rfl, rfl, le_bump c.numOk, fun _ => le_rfl⟩

theorem reports_lost : c.Reports (c.lost b) :=
  ⟨rfl, rfl, fun _ => le_rfl, fun _ => le_rfl⟩

theorem reports_marked : c.Reports (c.marked b) :=
  ⟨rfl, rfl, fun _ => le_rfl, fun a => sub_le_sub_right (le_bump c.numMarked a) _⟩

/-- A mark on a packet that has been received before takes the place of its report. -/
theorem reports_okMark : c.Reports ((c.marked b).okMark b) := by
  refine ⟨rfl, rfl, fun _ => le_rfl, fun a => ?_⟩
  change _ ≤ bump b c.numMarked a - bump b c.numOkMark a
  rw [bump_apply, bump_apply]
  omega

end AckCounts

namespace TcpLikeSender

variable {s : TcpLikeSender} {old new : ℕ → PacketState} {r : AckScan} {c : AckCounts}
  {a b : PacketState} {k top : ℕ}

/-- A packet that was not reported leaves, if it is now or if enough newer ones have been. -/
def Leaves (s : TcpLikeSender) (numPackets : ℕ) (old new : PacketState) : Prop :=
  old = .notRecv ∧ (new ≠ .notRecv ∨ s.numDupAcks ≤ numPackets)

/-- A packet is reported or given up, and leaves the pipe in the same step if it does. -/
theorem tally_cases (s : TcpLikeSender) (q k : ℕ) (a : PacketState) (c : AckCounts)
    (hb : b ≠ .reserved) :
    ∃ c', c.Reports c' ∧
      (s.Leaves k a b ∧ s.tally q k a b c = c'.leave q (s.window.ackWinStart ≤ q : Bool)
        (s.window.seqPipeStart ≤ q : Bool) ∨
      ¬ s.Leaves k a b ∧ s.tally q k a b c = c') := by
  unfold tally
  dsimp only
  split_ifs with hne hrecv hecn hmark hlost
  · exact ⟨_, AckCounts.reports_ok, .inl ⟨⟨hrecv.1, .inl (by rw [hrecv.2]; decide)⟩, rfl⟩⟩
  · exact ⟨_, AckCounts.reports_marked, .inl ⟨⟨hecn.1, .inl (by rw [hecn.2]; decide)⟩, rfl⟩⟩
  · exact ⟨_, AckCounts.reports_okMark,
      .inr ⟨fun h => absurd (hmark.1.symm.trans h.1) (by decide), rfl⟩⟩
  · refine ⟨c, .refl c, .inr ⟨?_, rfl⟩⟩
    rintro ⟨rfl, -⟩
    cases b with
    | recv => exact hrecv ⟨rfl, rfl⟩
    | ecn => exact hecn ⟨rfl, rfl⟩
    | reserved => exact hb rfl
    | notRecv => exact hne rfl
  · exact ⟨_, AckCounts.reports_lost,
      .inl ⟨⟨(not_not.mp hne).symm.trans hlost.1, .inr hlost.2⟩, rfl⟩⟩
  · refine ⟨c, .refl c, .inr ⟨?_, rfl⟩⟩
    rintro ⟨ha, hleft | hfew⟩
    · exact hleft ((not_not.mp hne).trans ha)
    · exact hlost ⟨(not_not.mp hne).trans ha, hfew⟩

/-! ## The history -/

theorem find_find (h : q ≤ m) (l : List ℕ) :
    findPacketInSendHistory q (findPacketInSendHistory m l) = findPacketInSendHistory q l := by
  unfold findPacketInSendHistory
  induction l with
  | nil => rfl
  | cons x l ih =>
    rw [List.dropWhile_cons]
    split_ifs with hx
    · have hq : q < x := h.trans_lt (of_decide_eq_true hx)
      rw [ih, List.dropWhile_cons_of_pos (by simpa using hq)]
    · rfl

/-- A data packet is found where it is in the history, which has the newest one first. -/
theorem head_find_iff (hl : l.Pairwise (· > ·)) :
    (findPacketInSendHistory q l).head? = some q ↔ q ∈ l := by
  unfold findPacketInSendHistory
  induction l with
  | nil => simp
  | cons x l ih =>
    rw [List.pairwise_cons] at hl
    rw [List.dropWhile_cons]
    split_ifs with hx
    · have hne : q ≠ x := (of_decide_eq_true hx).ne
      rw [ih hl.2, List.mem_cons, or_iff_right hne]
    · rw [List.head?_cons, Option.some_inj, List.mem_cons]
      constructor
      · rintro rfl
        exact .inl rfl
      · rintro (rfl | hq)
        · rfl
        · exact absurd (hl.1 q hq) (by simpa using hx)

/-! ## The whole walk -/

/-- The packets above `q`, up to the newest one `top`, have been visited. -/
structure Scanned (s : TcpLikeSender) (old new : ℕ → PacketState) (top q : ℕ) (r : AckScan) :
    Prop where
  elm : ∃ m, q ≤ m ∧ r.elm = findPacketInSendHistory m s.sendHist
  numPackets : r.numPackets + q ≤ top
  few : r.newSeqAllDone = 0 → r.numPackets ≤ s.numDupAcks
  many : r.newSeqAllDone ≠ 0 →
    s.numDupAcks ≤ r.numPackets ∧ q < r.newSeqAllDone ∧ r.newSeqAllDone < top
  mem_leaving : ∀ p, p ∈ r.counts.leaving ↔ q < p ∧ p ≤ top ∧ p ∈ s.sendHist ∧ old p = .notRecv ∧
    (new p ≠ .notRecv ∨ p ≤ r.newSeqAllDone)
  nodup : r.counts.leaving.Nodup
  numPipe : r.counts.numPipe true =
    r.counts.leaving.countP fun p => s.window.seqPipeStart ≤ (p : ℕ)
  numOk : ∀ b, 0 ≤ r.counts.numOk b
  numMarked : ∀ b, r.counts.numOkMark b ≤ r.counts.numMarked b

namespace Scanned

theorem start (s : TcpLikeSender) (old new : ℕ → PacketState) (top : ℕ) :
    s.Scanned old new top top { elm := findPacketInSendHistory top s.sendHist } where
  elm := ⟨top, le_rfl, rfl⟩
  numPackets := (Nat.zero_add top).le
  few _ := Nat.zero_le _
  many h := absurd rfl h
  mem_leaving p := by
    constructor
    · intro h
      cases h
    · rintro ⟨hlt, hle, -⟩
      exact absurd hle hlt.not_ge
  nodup := List.nodup_nil
  numPipe := rfl
  numOk _ := le_rfl
  numMarked _ := le_rfl

/-- Enough newer packets are reported if and only if the packet is one that is done with. -/
theorem many_iff (h : s.Scanned old new top (q + 1) r) :
    s.numDupAcks ≤ r.numPackets ↔ q + 1 ≤ s.doneBy (q + 1) r := by
  unfold doneBy
  split_ifs with hfirst
  · exact iff_of_true hfirst.2.ge le_rfl
  · rcases Nat.eq_zero_or_pos r.newSeqAllDone with hzero | hpos
    · have hfew := h.few hzero
      have hne : r.numPackets ≠ s.numDupAcks := fun heq => hfirst ⟨hzero, heq⟩
      omega
    · obtain ⟨hmany, hlt, -⟩ := h.many hpos.ne'
      exact iff_of_true hmany hlt.le

/-- Whether an earlier packet is done with does not change any more. -/
theorem le_doneBy_iff (hp : q + 1 < p) : p ≤ s.doneBy (q + 1) r ↔ p ≤ r.newSeqAllDone := by
  unfold doneBy
  split_ifs with hfirst
  · omega
  · rfl

theorem doneBy_few (h : s.Scanned old new top (q + 1) r) (hzero : s.doneBy (q + 1) r = 0) :
    r.numPackets < s.numDupAcks := by
  unfold doneBy at hzero
  split_ifs at hzero with hfirst
  exact (h.few hzero).lt_of_ne fun heq => hfirst ⟨hzero, heq⟩

theorem doneBy_many (h : s.Scanned old new top (q + 1) r) (hdup : 1 ≤ s.numDupAcks)
    (hne : s.doneBy (q + 1) r ≠ 0) :
    s.numDupAcks ≤ r.numPackets ∧ q < s.doneBy (q + 1) r ∧ s.doneBy (q + 1) r < top := by
  have hnum := h.numPackets
  unfold doneBy at hne ⊢
  split_ifs at hne ⊢ with hfirst
  · exact ⟨hfirst.2.ge, q.lt_succ_self, by omega⟩
  · obtain ⟨hmany, hlt, htop⟩ := h.many hne
    exact ⟨hmany, Nat.lt_of_succ_lt hlt, htop⟩

/-- The packet is counted as one that leaves if it is a data packet that does. -/
theorem visit_counts (h : s.Scanned old new top (q + 1) r) (hhist : s.sendHist.Pairwise (· > ·))
    (hb : b ≠ .reserved) :
    ∃ c', r.counts.Reports c' ∧
      ((q + 1 ∈ s.sendHist ∧ s.Leaves r.numPackets a b) ∧
        (s.visit (q + 1) a b r).counts = c'.leave (q + 1)
          (s.window.ackWinStart ≤ (q + 1 : ℕ) : Bool) (s.window.seqPipeStart ≤ (q + 1 : ℕ) : Bool) ∨
      ¬ (q + 1 ∈ s.sendHist ∧ s.Leaves r.numPackets a b) ∧
        (s.visit (q + 1) a b r).counts = c') := by
  obtain ⟨m, hm, helm⟩ := h.elm
  have hhead : (findPacketInSendHistory (q + 1) r.elm).head? = some (q + 1) ↔
      q + 1 ∈ s.sendHist := by
    rw [helm, find_find hm, head_find_iff hhist]
  unfold TcpLikeSender.visit
  dsimp only
  split_ifs with hdata
  · have hin := hhead.mp hdata
    obtain ⟨c', hrep, ⟨hl, hc⟩ | ⟨hl, hc⟩⟩ := s.tally_cases (q + 1) r.numPackets a r.counts hb
    · exact ⟨c', hrep, .inl ⟨⟨hin, hl⟩, hc⟩⟩
    · exact ⟨c', hrep, .inr ⟨fun h => hl h.2, hc⟩⟩
  · exact ⟨r.counts, .refl _, .inr ⟨fun h => hdata (hhead.mpr h.1), rfl⟩⟩

theorem visit (h : s.Scanned old new top (q + 1) r) (hdup : 1 ≤ s.numDupAcks)
    (hhist : s.sendHist.Pairwise (· > ·)) (hnew : new (q + 1) ≠ .reserved) :
    s.Scanned old new top q (s.visit (q + 1) (old (q + 1)) (new (q + 1)) r) := by
  obtain ⟨m, hm, helm⟩ := h.elm
  have hnum := h.numPackets
  have hmore : r.numPackets ≤ (s.visit (q + 1) (old (q + 1)) (new (q + 1)) r).numPackets ∧
      (s.visit (q + 1) (old (q + 1)) (new (q + 1)) r).numPackets ≤ r.numPackets + 1 := by
    unfold TcpLikeSender.visit
    dsimp only
    split_ifs <;> omega
  obtain ⟨c', hrep, hcounts⟩ := h.visit_counts (a := old (q + 1)) hhist hnew
  have hleaves : s.Leaves r.numPackets (old (q + 1)) (new (q + 1)) ↔
      old (q + 1) = .notRecv ∧ (new (q + 1) ≠ .notRecv ∨ q + 1 ≤ s.doneBy (q + 1) r) :=
    and_congr_right fun _ => or_congr_right h.many_iff
  have hold : ∀ p, p ∈ c'.leaving ↔ q + 1 < p ∧ p ≤ top ∧ p ∈ s.sendHist ∧ old p = .notRecv ∧
      (new p ≠ .notRecv ∨ p ≤ s.doneBy (q + 1) r) := fun p => by
    rw [hrep.leaving, h.mem_leaving]
    exact and_congr_right fun hp => and_congr_right fun _ => and_congr_right fun _ =>
      and_congr_right fun _ => or_congr_right (le_doneBy_iff hp).symm
  constructor
  case elm =>
    refine ⟨q + 1, q.le_succ, ?_⟩
    rw [← find_find hm, ← helm]
    rfl
  case numPackets => exact (Nat.add_le_add_right hmore.2 q).trans (by omega)
  case few => exact fun hzero => hmore.2.trans (h.doneBy_few hzero)
  case many =>
    intro hne
    obtain ⟨hmany, hlt, htop⟩ := h.doneBy_many hdup hne
    exact ⟨hmany.trans hmore.1, hlt, htop⟩
  all_goals rcases hcounts with ⟨hl, hc⟩ | ⟨hl, hc⟩ <;> rw [hc]
  case mem_leaving.inl =>
    intro p
    change p ∈ (q + 1) :: c'.leaving ↔ _
    rw [List.mem_cons, hold]
    constructor
    · rintro (rfl | ⟨hlt, hrest⟩)
      · exact ⟨q.lt_succ_self, by omega, hl.1, hleaves.mp hl.2⟩
      · exact ⟨Nat.lt_of_succ_lt hlt, hrest⟩
    · rintro ⟨hlt, hrest⟩
      exact (eq_or_lt_of_le (Nat.succ_le_of_lt hlt)).imp Eq.symm fun hlt => ⟨hlt, hrest⟩
  case mem_leaving.inr =>
    intro p
    rw [hold]
    constructor
    · rintro ⟨hlt, hrest⟩
      exact ⟨Nat.lt_of_succ_lt hlt, hrest⟩
    · rintro ⟨hlt, hrest⟩
      rcases eq_or_lt_of_le (Nat.succ_le_of_lt hlt) with rfl | hlt
      · exact absurd ⟨hrest.2.1, hleaves.mpr hrest.2.2⟩ hl
      · exact ⟨hlt, hrest⟩
  case nodup.inl =>
    apply List.nodup_cons.mpr
    constructor
    · intro hm
      exact ((hold _).mp hm).1.false
    · exact hrep.leaving ▸ h.nodup
  case nodup.inr => exact hrep.leaving ▸ h.nodup
  case numPipe.inl =>
    change AckCounts.bump _ c'.numPipe true = ((q + 1) :: c'.leaving).countP _
    rw [AckCounts.bump_apply, hrep.numPipe, h.numPipe, hrep.leaving, List.countP_cons]
    simp
  case numPipe.inr => rw [hrep.numPipe, h.numPipe, hrep.leaving]
  case numOk.inl | numOk.inr => exact fun b => (h.numOk b).trans (hrep.numOk b)
  case numMarked.inl | numMarked.inr =>
    intro b
    have hle := hrep.numMarked b
    have hmarked := h.numMarked b
    change c'.numOkMark b ≤ c'.numMarked b
    omega

end Scanned

/-- The walk ends at the first packet that is done with. -/
theorem scanned_scanDown (h : s.Scanned old new top q r) (hdup : 1 ≤ s.numDupAcks)
    (hhist : s.sendHist.Pairwise (· > ·)) (hnew : ∀ p, new p ≠ .reserved) :
    s.Scanned old new top (min q s.seqAllDone) (s.scanDown old new q r) := by
  induction q generalizing r with
  | zero => exact (Nat.zero_min _).symm ▸ h
  | succ q ih =>
    rw [scanDown]
    split_ifs with hdone
    · rwa [min_eq_left hdone]
    · have hle : s.seqAllDone ≤ q := Nat.le_of_lt_succ (not_le.mp hdone)
      rw [min_eq_right (hle.trans q.le_succ), ← min_eq_right hle]
      exact ih (h.visit hdup hhist (hnew _))

end TcpLikeSender

end Ns2XPass
