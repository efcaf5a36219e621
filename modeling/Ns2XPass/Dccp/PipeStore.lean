import Ns2XPass.Dccp.PipeScan

/-! # What the sender keeps of the acknowledgements

Above the last packet that is done with, the history has all data packets, and the
stored ack vector reports exactly those that have left the pipe.
-/

namespace Ns2XPass

variable {v w a ackv : AckVector} {items its as bs l : List ℕ} {junk : ℕ → ℕ → ℕ} {p q : ℕ}

/-- A matrix by which a packet that is reported stays so. -/
structure PacketState.Knows (cons : PacketState → PacketState → PacketState) : Prop where
  unreserved : ∀ x y, x ≠ reserved → y ≠ reserved → cons x y ≠ reserved
  reported : ∀ x y, x ≠ notRecv → cons x y ≠ notRecv
  first : ∀ y, cons notRecv y = y
  same : ∀ x, cons x x = x

theorem knows_newAckvCons : PacketState.Knows newAckvCons := by
  constructor
  case first => exact fun y => by cases y <;> rfl
  case same => exact fun x => by cases x <;> rfl
  all_goals
    intro x y
    cases x <;> cases y <;> decide

theorem knows_likeCons : PacketState.Knows likeCons := by
  constructor
  case first => exact fun y => by cases y <;> rfl
  case same => exact fun x => by cases x <;> rfl
  all_goals
    intro x y
    cases x <;> cases y <;> decide

namespace AckVector

theorem ackvCons_removePackets (v : AckVector) (q : ℕ) :
    (v.removePackets q).ackvCons = v.ackvCons := by
  unfold removePackets
  split_ifs
  · rfl
  · rfl
  · cases v.findSeqNum q with
    | none => rfl
    | some r =>
      dsimp only
      split_ifs <;> rfl

namespace Valid

/-- Some packets are left, if the newest one is. -/
theorem removePackets_some (h : v.Valid items) (hne : items ≠ []) (hlo : v.seqTail ≤ q + 1)
    (hhi : q < v.seqHead) :
    ∃ its, its ≠ [] ∧ (v.removePackets q).Valid its ∧ (v.removePackets q).seqTail = q + 1 ∧
      (v.removePackets q).seqHead = v.seqHead ∧
      ∀ p, q < p → (v.removePackets q).map p = v.map p := by
  obtain ⟨its, hits, hhead, hexp⟩ := h.removePackets q
  have hspan := h.span hne
  have htotal : total its = v.seqHead - q := by
    rw [← length_expand, hexp, List.length_take, length_expand]
    omega
  have hits_ne : its ≠ [] := by
    rintro rfl
    rw [total_nil] at htotal
    omega
  have hspan' := hits.span hits_ne
  refine ⟨its, hits_ne, hits, by omega, hhead, fun p hp => ?_⟩
  rw [hits.map_eq, h.map_eq, hhead, hexp, mapOf_take p hhi.le, if_neg hp.not_ge]

/-- The merge of a newer vector. -/
theorem mergeWith_newer (ha : a.Valid as) (hane : as ≠ []) (hb : ackv.Valid bs) (hbne : bs ≠ [])
    (hhead : a.seqHead ≤ ackv.seqHead) (hlt : ackv.seqHead < 2 ^ 31)
    (hadm : Admitted junk ackv.packets.reverse a) :
    ∃ v its, a.mergeWith junk (some ackv) = some (v, false) ∧ its ≠ [] ∧ v.Valid its ∧
      v.seqTail = a.seqTail ∧ v.seqHead = ackv.seqHead ∧ v.ackvCons = a.ackvCons ∧
      (∀ p x, a.map p = some x → v.map p = some (((ackv.map p).map (a.ackvCons x)).getD x)) ∧
      ∀ p, a.seqHead < p → p ≤ ackv.seqHead → v.map p = some ((ackv.map p).getD .notRecv) := by
  have hasize : a.size ≠ 0 := ha.size_eq_zero_iff.not.mpr hane
  have hbsize : ackv.size ≠ 0 := hb.size_eq_zero_iff.not.mpr hbne
  have hspan := hb.span hbne
  have hpos := total_pos hbne
  have hlen : ackv.packets.reverse.length = total bs := by
    rw [List.length_reverse, hb.length_packets]
  have hfar : a.seqHead + maxAckvSize * (runLengthMask + 1) ≤ ackv.seqTail + 2 ^ 32 := by
    rw [maxAckvSize, runLengthMask]
    omega
  obtain ⟨v, he, hm⟩ := mergeFrom_mergedTo (n := ackv.seqHead + 2 - ackv.seqTail) ha hane hb
    (hb.yields_up hbne) (by omega) (hb.reverse_packets hbne) hfar hadm (.start ha hb hane)
  rw [hlen, show ackv.seqTail + total bs = ackv.seqHead + 1 by omega] at hm
  obtain ⟨its, hne, hits⟩ := hm.valid
  have hvhead : v.seqHead = ackv.seqHead := by
    rcases hm.seqHead with ⟨heq, hle | hle⟩ | ⟨-, heq⟩ <;> omega
  refine ⟨v, its, ?_, hne, hits, hm.seqTail, hvhead, hm.ackvCons, fun p x hp => ?_,
    fun p hlo hhi => ?_⟩
  · rw [AckVector.mergeWith, if_neg hbsize, if_neg hasize, he]
  · rw [hm.known p x hp]
    split_ifs with hlt
    · rfl
    · have hnone : ackv.map p = none := by
        by_contra hsome
        obtain ⟨-, -, hle⟩ := hb.isSome_map.mp (Option.isSome_iff_ne_none.mpr hsome)
        omega
      rw [hnone]
  · have hnone : a.map p = none := by
      by_contra hsome
      obtain ⟨-, -, hle⟩ := ha.isSome_map.mp (Option.isSome_iff_ne_none.mpr hsome)
      omega
    rw [hm.unknown p hnone, if_pos ⟨hlo, hvhead ▸ hhi⟩]

theorem mem_of_map {st : PacketState} (h : v.Valid items) (hq : v.map q = some st) :
    st ∈ expand items := by
  rw [h.map_eq, mapOf] at hq
  split_ifs at hq
  exact List.mem_of_getElem? hq

/-- Packets that have not been received are added to others of the kind. -/
theorem addMissed (h : v.Valid items) (hne : items ≠ [])
    (hcons : v.ackvCons .notRecv .notRecv = .notRecv) (hitems : ∀ st ∈ expand items, st = .notRecv)
    (hlo : v.seqTail ≤ q) (hle : v.seqHead ≤ q) (hlt : q < 2 ^ 31)
    (hok : (v.addPacket junk q .notRecv).2 = true) :
    ∃ its, its ≠ [] ∧ Moved v (v.addPacket junk q .notRecv).1 its q ∧
      ∀ st ∈ expand its, st = .notRecv := by
  have hfail : ∀ {done full}, Results v items (v.addPacket junk q .notRecv) done full →
      done (v.addPacket junk q .notRecv).1 := fun hr =>
    hr.elim And.right fun hno => absurd hok (by rw [hno.1]; decide)
  rcases eq_or_lt_of_le hle with rfl | hlt'
  · obtain ⟨curr, hcurr⟩ := Option.isSome_iff_exists.mp (h.isSome_map.mpr ⟨hne, hlo, le_rfl⟩)
    obtain rfl := hitems curr (h.mem_of_map hcurr)
    obtain ⟨its, hm, hexp⟩ := hfail (h.addPacket_of_some hne hcurr)
    refine ⟨its, ?_, hm, fun st hst => ?_⟩
    · rintro rfl
      have hlen := congrArg List.length hexp
      rw [List.length_set, length_expand, length_expand, total_nil] at hlen
      exact (total_pos hne).ne hlen
    · rw [hexp, hcons] at hst
      rcases List.mem_or_eq_of_mem_set hst with hst | rfl
      · exact hitems st hst
      · rfl
  · obtain ⟨its, hm, hexp⟩ := hfail (h.addNewer (n := doublings) hne hlt' (by omega)
      h.doublings_suffice)
    refine ⟨its, ?_, hm, fun st hst => ?_⟩
    · rintro rfl
      cases hexp
    · rw [hexp, List.cons_append, List.mem_cons, List.mem_append] at hst
      rcases hst with rfl | hst | hst
      · rfl
      · exact List.eq_of_mem_replicate hst
      · exact hitems st hst

/-- A vector without packets is started with two that have not been received. -/
theorem start (h : v.Valid []) (htwo : 2 ≤ v.maxSize)
    (hcons : v.ackvCons .notRecv .notRecv = .notRecv) (hle : p ≤ q) (hlt : q < 2 ^ 31)
    (hok : ((v.addPacket junk p .notRecv).1.addPacket junk q .notRecv).2 = true) :
    ∃ its, its ≠ [] ∧ ((v.addPacket junk p .notRecv).1.addPacket junk q .notRecv).1.Valid its ∧
      ((v.addPacket junk p .notRecv).1.addPacket junk q .notRecv).1.seqTail = p ∧
      ((v.addPacket junk p .notRecv).1.addPacket junk q .notRecv).1.seqHead = q ∧
      ((v.addPacket junk p .notRecv).1.addPacket junk q .notRecv).1.ackvCons = v.ackvCons ∧
      ∀ st ∈ expand its, st = .notRecv := by
  obtain ⟨u, hu, hval, hhead, htail, hcons'⟩ := h.addFirst (g := junk) (n := doublings)
    (s := .notRecv) (q := p) htwo (by omega)
  have hu : v.addPacket junk p .notRecv = (u, true) := hu
  have hfirst : ∀ st ∈ expand [item .notRecv 0], st = .notRecv := by decide
  rw [hu] at hok ⊢
  obtain ⟨its, hne, hm, hits⟩ := hval.addMissed (List.cons_ne_nil _ _) (hcons'.symm ▸ hcons) hfirst
    (htail.trans_le hle) (hhead.trans_le hle) hlt hok
  exact ⟨its, hne, hm.valid, hm.seqTail.trans htail, hm.seqHead, hm.ackvCons.trans hcons', hits⟩

end Valid

end AckVector

/-- The data packets that have been sent, the newest first, and those that have left the pipe. -/
structure PipeLedger where
  sent : List ℕ := []
  left : List ℕ := []

namespace TcpLikeSender

variable {s : TcpLikeSender} {led : PipeLedger} {r : AckScan} {x : ℕ}

/-! ## The history -/

theorem historyTo_sublist (x : ℕ) (l : List ℕ) : (historyTo x l).Sublist l := by
  induction l with
  | nil => exact .slnil
  | cons q l ih =>
    rw [historyTo]
    split_ifs
    · exact ih.cons_cons q
    · exact (List.nil_sublist l).cons_cons q

theorem mem_historyTo (hq : q ∈ l) (hlt : x < q) (hl : l.Pairwise (· > ·)) : q ∈ historyTo x l := by
  induction l with
  | nil => cases hq
  | cons p l ih =>
    rw [List.pairwise_cons] at hl
    rw [historyTo]
    rcases List.mem_cons.mp hq with rfl | hq
    · rw [if_pos hlt]
      exact List.mem_cons_self
    · rw [if_pos (hlt.trans (hl.1 q hq))]
      exact List.mem_cons_of_mem p (ih hq hl.2)

/-- A packet of which nothing is stored has not been received. -/
theorem stateOf_of_none (h : s.storedAckv.map q = none) : s.stateOf q = .notRecv := by
  rw [stateOf, h]
  rfl

/-! ## What is kept -/

/-- What the history and the stored ack vector know of the packets. -/
structure Tracks (s : TcpLikeSender) (led : PipeLedger) : Prop where
  sorted : led.sent.Pairwise (· > ·)
  history : s.sendHist.Sublist led.sent
  kept : ∀ q ∈ led.sent, s.seqAllDone < q → q ∈ s.sendHist
  nodup : led.left.Nodup
  left_sent : ∀ q ∈ led.left, q ∈ led.sent
  left_iff : ∀ q ∈ led.sent, s.seqAllDone < q → (q ∈ led.left ↔ s.stateOf q ≠ .notRecv)
  unreserved : ∀ q, s.stateOf q ≠ .reserved
  knows : PacketState.Knows s.storedAckv.ackvCons
  histLast : s.histLastSeq ≤ s.seqAllDone

/-- The stored ack vector begins behind the last packet that is done with. -/
structure Started (s : TcpLikeSender) : Prop where
  valid : ∃ items, items ≠ [] ∧ s.storedAckv.Valid items
  seqTail : s.storedAckv.seqTail = s.seqAllDone + 1

/-- No acknowledgement has been received. -/
structure Unstarted (s : TcpLikeSender) : Prop where
  valid : s.storedAckv.Valid []
  two_le : 2 ≤ s.storedAckv.maxSize
  seqAllDone : s.seqAllDone = 0

/-- There is space for what is added to the stored ack vector. -/
structure HasSpace (junk : ℕ → ℕ → ℕ) (v ackv : AckVector) : Prop where
  start : v.size = 0 →
    ((v.addPacket junk ackv.seqTail .notRecv).1.addPacket junk ackv.seqHead .notRecv).2 = true
  merge : AckVector.Admitted junk ackv.packets.reverse
    (if v.size = 0 then
      ((v.addPacket junk ackv.seqTail .notRecv).1.addPacket junk ackv.seqHead .notRecv).1
    else v)

/-- A sound ack vector, which begins behind the handshake. -/
structure Received (ackv : AckVector) : Prop where
  valid : ∃ items, items ≠ [] ∧ ackv.Valid items
  unreserved : ∀ q, ackv.map q ≠ some .reserved
  first : 1 ≤ ackv.seqTail
  newest : ackv.seqHead < 2 ^ 31

theorem start_storedAckv (s : TcpLikeSender) (ackv : AckVector) :
    (s.start junk ackv).storedAckv =
      if s.storedAckv.size = 0 then
        ((s.storedAckv.addPacket junk ackv.seqTail .notRecv).1.addPacket junk ackv.seqHead
          .notRecv).1
      else s.storedAckv := by
  unfold start
  split_ifs <;> rfl

theorem Started.start_eq (h : s.Started) (ackv : AckVector) : s.start junk ackv = s := by
  obtain ⟨items, hne, hv⟩ := h.valid
  rw [start, if_neg (hv.size_eq_zero_iff.not.mpr hne)]

theorem Received.tail_le (h : Received ackv) : ackv.seqTail ≤ ackv.seqHead := by
  obtain ⟨items, hne, hv⟩ := h.valid
  have hspan := hv.span hne
  have hpos := total_pos hne
  omega

/-- The first ack vector starts the stored one, in which nothing is received yet. -/
theorem Unstarted.start (h : s.Unstarted) (ht : s.Tracks led) (ha : Received ackv)
    (hspace : HasSpace junk s.storedAckv ackv) :
    (s.start junk ackv).Started ∧ (s.start junk ackv).Tracks led ∧
      (s.start junk ackv).storedAckv.seqHead = ackv.seqHead := by
  have hsize : s.storedAckv.size = 0 := h.valid.size_eq_zero_iff.mpr rfl
  have hfirst := ha.first
  have hlt := ha.newest
  have hle := ha.tail_le
  obtain ⟨its, hne, hv, htail, hhead, hcons, hits⟩ := h.valid.start h.two_le (ht.knows.same _) hle
    hlt (hspace.start hsize)
  have hdone : sub32 ackv.seqTail 1 = ackv.seqTail - 1 := sub32_of_le hfirst (by omega)
  have hs : s.start junk ackv =
      { s with
        storedAckv := ((s.storedAckv.addPacket junk ackv.seqTail .notRecv).1.addPacket junk
          ackv.seqHead .notRecv).1
        seqAllDone := ackv.seqTail - 1 } := by
    rw [TcpLikeSender.start, if_pos hsize]
    dsimp only
    rw [if_pos h.seqAllDone, hdone]
  have hstate : ∀ q, (s.start junk ackv).stateOf q = .notRecv := fun q => by
    rw [hs, stateOf]
    cases hq : ((s.storedAckv.addPacket junk ackv.seqTail .notRecv).1.addPacket junk ackv.seqHead
        .notRecv).1.map q with
    | none => rfl
    | some st => exact hits st (hv.mem_of_map hq)
  have hbefore : ∀ q, s.stateOf q = .notRecv := fun q => stateOf_of_none (by rw [h.valid.map_nil])
  rw [hs] at hstate ⊢
  have hzero := h.seqAllDone
  constructor
  · exact ⟨⟨its, hne, hv⟩, by rw [htail]; exact (Nat.sub_add_cancel hfirst).symm⟩
  refine ⟨⟨ht.sorted, ht.history, fun q hq hlt => ht.kept q hq (by omega), ht.nodup, ht.left_sent,
    fun q hq hlt => ?_, fun q => ?_, hcons ▸ ht.knows, ?_⟩, hhead⟩
  · have hleft := ht.left_iff q hq (by omega)
    rw [hbefore] at hleft
    rwa [hstate]
  · rw [hstate]
    decide
  · exact ht.histLast.trans (by omega)

theorem Tracks.trim (ht : s.Tracks led) (hx : x ≤ s.seqAllDone) :
    (s.trimSendHistory x).Tracks led := by
  unfold trimSendHistory
  split_ifs
  · exact ⟨ht.sorted, (historyTo_sublist x _).trans ht.history,
      fun q hq hlt =>
        mem_historyTo (ht.kept q hq hlt) (hx.trans_lt hlt) (ht.sorted.sublist ht.history),
      ht.nodup, ht.left_sent, ht.left_iff, ht.unreserved, ht.knows, hx⟩
  · exact ht

theorem Started.trim (hs : s.Started) (x : ℕ) : (s.trimSendHistory x).Started := by
  unfold trimSendHistory
  split_ifs
  · exact ⟨hs.valid, hs.seqTail⟩
  · exact hs

/-- What trimming the history leaves alone. -/
theorem trimSendHistory_eq (s : TcpLikeSender) (x : ℕ) :
    ∃ hist last, s.trimSendHistory x = { s with sendHist := hist, histLastSeq := last } := by
  unfold trimSendHistory
  split_ifs
  · exact ⟨_, _, rfl⟩
  · exact ⟨_, _, rfl⟩

/-! ## An acknowledgement -/

section Acknowledged

variable (ht : s.Tracks led) (hs : s.Started) (ha : Received ackv)
  (hhead : s.storedAckv.seqHead ≤ ackv.seqHead)
include ht hs ha hhead

omit hs hhead in
theorem Tracks.mergedState_ne (q : ℕ) : s.mergedState ackv q ≠ .reserved := by
  refine ht.knows.unreserved _ _ (ht.unreserved q) ?_
  cases hq : ackv.map q with
  | none => exact ht.unreserved q
  | some st => exact fun h => ha.unreserved q (h ▸ hq)

theorem Tracks.scan (hdup : 1 ≤ s.numDupAcks) :
    ∃ r, s.scan ackv.seqHead ackv = .ok r ∧
      s.Scanned s.stateOf (s.mergedState ackv) ackv.seqHead s.seqAllDone r := by
  obtain ⟨items, hne, hv⟩ := hs.valid
  obtain ⟨its, hane, hav⟩ := ha.valid
  have hspan := hv.span hne
  have hpos := total_pos hne
  have htail := hs.seqTail
  refine ⟨_, scan_eq hav hane hv hne htail.le hhead ht.histLast ha.newest ackv.seqHead (by omega),
    ?_⟩
  have hdone : min ackv.seqHead s.seqAllDone = s.seqAllDone := min_eq_right (by omega)
  rw [← hdone]
  exact scanned_scanDown (.start s _ _ _) hdup (ht.sorted.sublist ht.history) (ht.mergedState_ne ha)

/-- The merge stores the states that the walk has seen. -/
theorem Tracks.merge (hadm : AckVector.Admitted junk ackv.packets.reverse s.storedAckv) :
    ∃ v items, s.storedAckv.mergeWith junk (some ackv) = some (v, false) ∧ items ≠ [] ∧
      v.Valid items ∧ v.seqTail = s.seqAllDone + 1 ∧ v.seqHead = ackv.seqHead ∧
      v.ackvCons = s.storedAckv.ackvCons ∧
      ∀ q, s.seqAllDone < q → q ≤ ackv.seqHead → v.map q = some (s.mergedState ackv q) := by
  obtain ⟨as, hane, hav⟩ := hs.valid
  obtain ⟨bs, hbne, hbv⟩ := ha.valid
  obtain ⟨v, items, hmerge, hne, hv, htail, hvhead, hcons, hknown, hnew⟩ :=
    hav.mergeWith_newer hane hbv hbne hhead ha.newest hadm
  refine ⟨v, items, hmerge, hne, hv, htail.trans hs.seqTail, hvhead, hcons, fun q hlo hhi => ?_⟩
  unfold mergedState stateOf
  cases hq : s.storedAckv.map q with
  | some st =>
    rw [hknown q st hq]
    cases ackv.map q with
    | some new => rfl
    | none => exact congrArg some (ht.knows.same st).symm
  | none =>
    have hlt : s.storedAckv.seqHead < q := by
      by_contra hle
      have hin := hav.isSome_map.mpr ⟨hane, hs.seqTail.trans_le hlo, not_lt.mp hle⟩
      rw [hq] at hin
      cases hin
    rw [hnew q hlt hhi]
    exact congrArg some (ht.knows.first _).symm

omit ha in
/-- What is not done with has left if and only if the merged vector reports it. -/
theorem Tracks.left_iff_merged
    (hr : s.Scanned s.stateOf (s.mergedState ackv) ackv.seqHead s.seqAllDone r) (hq : q ∈ led.sent)
    (hlo : s.seqAllDone < q) (hdone : r.newSeqAllDone < q) :
    q ∈ r.counts.leaving ++ led.left ↔
      q ≤ ackv.seqHead ∧ s.mergedState ackv q ≠ .notRecv := by
  have hleft := ht.left_iff q hq hlo
  rw [List.mem_append, hr.mem_leaving, hleft]
  constructor
  · rintro (⟨-, hle, -, -, hrep | hle'⟩ | hrep)
    · exact ⟨hle, hrep⟩
    · exact absurd hle' hdone.not_ge
    · refine ⟨?_, ht.knows.reported _ _ hrep⟩
      by_contra hgt
      obtain ⟨items, hne, hv⟩ := hs.valid
      refine hrep (stateOf_of_none ?_)
      by_contra hsome
      obtain ⟨-, -, hle⟩ := hv.isSome_map.mp (Option.isSome_iff_ne_none.mpr hsome)
      exact hgt (hle.trans hhead)
  · rintro ⟨hle, hrep⟩
    by_cases hold : s.stateOf q = .notRecv
    · exact .inl ⟨hlo, hle, ht.kept q hq hlo, hold, .inl hrep⟩
    · exact .inr hold

omit hs ha hhead in
/-- The packets that leave are new among those that have left. -/
theorem Tracks.leave (hr : s.Scanned s.stateOf (s.mergedState ackv) ackv.seqHead s.seqAllDone r) :
    (r.counts.leaving ++ led.left).Nodup ∧ ∀ q ∈ r.counts.leaving, q ∈ led.sent := by
  have hnew : ∀ q ∈ r.counts.leaving, q ∈ led.sent ∧ q ∉ led.left := fun q hq => by
    obtain ⟨hlt, -, hhist, hold, -⟩ := (hr.mem_leaving q).mp hq
    have hsent := ht.history.subset hhist
    exact ⟨hsent, fun hleft => (ht.left_iff q hsent hlt).mp hleft hold⟩
  constructor
  · exact hr.nodup.append ht.nodup fun q hq hleft => (hnew q hq).2 hleft
  · exact fun q hq => (hnew q hq).1

/-- The packets that leave are entered, and what is done with is forgotten. -/
theorem Tracks.store (hadm : AckVector.Admitted junk ackv.packets.reverse s.storedAckv)
    (hr : s.Scanned s.stateOf (s.mergedState ackv) ackv.seqHead s.seqAllDone r) :
    ∃ s' hist last done v, s.store junk ackv r.newSeqAllDone = .ok s' ∧
      s' = { s with
        storedAckv := v, seqAllDone := done, sendHist := hist, histLastSeq := last } ∧
      s'.Tracks { led with left := r.counts.leaving ++ led.left } ∧ s'.Started ∧
      v.seqHead = ackv.seqHead := by
  obtain ⟨v, items, hmerge, hne, hv, htail, hvhead, hcons, hmap⟩ := ht.merge hs ha hhead hadm
  obtain ⟨old, hone, hov⟩ := hs.valid
  have hspan := hov.span hone
  have hpos := total_pos hone
  have hstail := hs.seqTail
  obtain ⟨done, hdone⟩ : ∃ done, done = max s.seqAllDone r.newSeqAllDone := ⟨_, rfl⟩
  have hdone_lt : done < ackv.seqHead := by
    rcases Nat.eq_zero_or_pos r.newSeqAllDone with hzero | hnew
    · omega
    · have htop := (hr.many hnew.ne').2.2
      omega
  obtain ⟨its, hits_ne, hits, hitail, hihead, himap⟩ :=
    hv.removePackets_some hne (q := done) (by omega) (by omega)
  have hle : s.seqAllDone ≤ done := hdone ▸ le_max_left _ _
  have hnew : r.newSeqAllDone ≤ done := hdone ▸ le_max_right _ _
  have hstate : ∀ q, ((v.removePackets done).map q).getD .notRecv =
      if done < q ∧ q ≤ ackv.seqHead then s.mergedState ackv q else .notRecv := fun q => by
    split_ifs with hq
    · rw [himap q hq.1, hmap q (by omega) hq.2]
      rfl
    · have hnone : (v.removePackets done).map q = none := by
        by_contra hsome
        obtain ⟨-, hlo, hhi⟩ := hits.isSome_map.mp (Option.isSome_iff_ne_none.mpr hsome)
        omega
      rw [hnone]
      rfl
  have hbefore : ({ s with storedAckv := v.removePackets done, seqAllDone := done } :
      TcpLikeSender).Tracks { led with left := r.counts.leaving ++ led.left } := by
    obtain ⟨hnodup, hsent⟩ := ht.leave hr
    constructor
    case sorted => exact ht.sorted
    case history => exact ht.history
    case kept => exact fun q hq hlt => ht.kept q hq (hle.trans_lt hlt)
    case nodup => exact hnodup
    case left_sent =>
      intro q hq
      exact (List.mem_append.mp hq).elim (hsent q) (ht.left_sent q)
    case left_iff =>
      intro q hq hlt
      rw [ht.left_iff_merged hs hhead hr hq (hle.trans_lt hlt) (hnew.trans_lt hlt), stateOf, hstate]
      split_ifs with hin
      · exact and_iff_right hin.2
      · exact iff_of_false (fun h => hin ⟨hlt, h.1⟩) (not_not.mpr rfl)
    case unreserved =>
      intro q
      rw [stateOf, hstate]
      split_ifs
      · exact ht.mergedState_ne ha q
      · decide
    case knows => exact (v.ackvCons_removePackets done).trans hcons ▸ ht.knows
    case histLast => exact ht.histLast.trans hle
  obtain ⟨hist, last, htrim⟩ := trimSendHistory_eq
    ({ s with storedAckv := v.removePackets done, seqAllDone := done }) (min ackv.seqTail done)
  refine ⟨_, hist, last, done, v.removePackets done, ?_, htrim, hbefore.trim (min_le_right _ _),
    Started.trim ⟨⟨its, hits_ne, hits⟩, hitail⟩ _, hihead.trans hvhead⟩
  rw [TcpLikeSender.store, hmerge, ← hdone]

end Acknowledged

end TcpLikeSender

end Ns2XPass
