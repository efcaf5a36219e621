import Ns2XPass.Dccp.PipeStore

/-! # The books of a TCP-like sender

The pipe is the number of the data packets since the last timeout that have not left it.
Sending, a timeout and an acknowledgement keep this, and no acknowledgement is too much
for the walk or for the pipe.
-/

namespace Ns2XPass

variable {junk : ℕ → ℕ → ℕ} {q : ℕ}

namespace TcpLike

variable {p p' p'' : TcpLike} {num old : ℤ} {quiescent changes : Bool} {cfg : TcpLikeSettings}

/-- The numbers of packets stay as they are. -/
structure SamePipe (p p' : TcpLike) : Prop where
  pipe : p'.pipe = p.pipe
  seqNum : p'.seqNum = p.seqNum
  seqPipeStart : p'.seqPipeStart = p.seqPipeStart

namespace SamePipe

theorem refl (p : TcpLike) : SamePipe p p := ⟨rfl, rfl, rfl⟩

theorem trans (h : SamePipe p p') (h' : SamePipe p' p'') : SamePipe p p'' :=
  ⟨h'.pipe.trans h.pipe, h'.seqNum.trans h.seqNum, h'.seqPipeStart.trans h.seqPipeStart⟩

theorem checkAckRatio (p : TcpLike) : SamePipe p p.checkAckRatio.1 := by
  rw [checkAckRatio_frame]
  exact ⟨rfl, rfl, rfl⟩

theorem ackOfAck (p : TcpLike) (quiescent : Bool) : SamePipe p (p.ackOfAck quiescent) := by
  rcases ackOfAck_cases p quiescent with he | he <;> rw [he]
  · exact .refl p
  · exact ⟨rfl, rfl, rfl⟩

theorem thenAck (h : SamePipe p p') (quiescent : Bool) : SamePipe p (p'.ackOfAck quiescent) :=
  h.trans (ackOfAck p' quiescent)

theorem changeRemoteAckRatio (p : TcpLike) (changes : Bool) :
    SamePipe p (p.changeRemoteAckRatio changes) := by
  rcases changeRemoteAckRatio_cases p changes with he | he <;> rw [he]
  · exact .refl p
  · exact ⟨rfl, rfl, rfl⟩

theorem lostOrMarkedAck (p : TcpLike) : SamePipe p p.lostOrMarkedAck := by
  apply trans _ (checkAckRatio _)
  exact ⟨rfl, rfl, rfl⟩

theorem updateAckRatio (p : TcpLike) (num : ℤ) : SamePipe p (p.updateAckRatio num) := by
  unfold TcpLike.updateAckRatio
  split_ifs
  · exact ⟨rfl, rfl, rfl⟩
  · dsimp only
    split_ifs
    · have hc := checkAckRatio { p with
        numWinAcked := p.numWinAcked + 1
        numAckInWin := p.numAckInWin + num - p.cwnd
        recvAckRatio := u16 (p.recvAckRatio - 1) }
      exact ⟨hc.pipe, hc.seqNum, hc.seqPipeStart⟩
    · exact ⟨rfl, rfl, rfl⟩
  · exact ⟨rfl, rfl, rfl⟩

theorem dataLost (p : TcpLike) (quiescent : Bool) : SamePipe p (p.dataLost quiescent) := by
  have hc := checkAckRatio { p.lostOrMarkedData with numAckInWin := 0 }
  have hp : SamePipe p { p.lostOrMarkedData with numAckInWin := 0 } := ⟨rfl, rfl, rfl⟩
  unfold TcpLike.dataLost
  dsimp only
  apply thenAck
  split_ifs
  · exact ⟨(hp.trans hc).pipe, (hp.trans hc).seqNum, (hp.trans hc).seqPipeStart⟩
  · exact hp.trans hc

theorem slowStart (p : TcpLike) (num : ℤ) (quiescent : Bool) :
    SamePipe p (p.slowStart num quiescent).1 := by
  unfold TcpLike.slowStart
  split
  · dsimp only
    obtain ⟨inc, hinc⟩ : ∃ inc, inc = if p.ackRatioRemote < num then p.ackRatioRemote else num :=
      ⟨_, rfl⟩
    rw [← hinc]
    split_ifs
    · exact ⟨rfl, rfl, rfl⟩
    · apply thenAck
      exact ⟨rfl, rfl, rfl⟩
  · exact .refl p

theorem congestionAvoidance (h : p.congestionAvoidance old num quiescent = some p') :
    SamePipe p p' := by
  unfold TcpLike.congestionAvoidance at h
  split_ifs at h
  · obtain ⟨r, -, rfl⟩ := Option.map_eq_some_iff.mp h
    dsimp only
    split_ifs
    · apply thenAck
      exact ⟨rfl, rfl, rfl⟩
    · exact ⟨rfl, rfl, rfl⟩
  · obtain rfl := Option.some.inj h
    exact .refl p

theorem updateCwnd (h : p.updateCwnd num quiescent = some p') : SamePipe p p' := by
  obtain ⟨s, hs, rfl⟩ := Option.map_eq_some_iff.mp h
  have hsame := (slowStart p num quiescent).trans (congestionAvoidance hs)
  split_ifs
  · exact hsame.trans (checkAckRatio s)
  · exact hsame

end SamePipe

/-- After a timeout the pipe is empty, and begins with the next packet. -/
theorem timeoutTo_pipe (p : TcpLike) (cfg : TcpLikeSettings) (changes : Bool) :
    (p.timeoutTo cfg changes).pipe = 0 ∧ (p.timeoutTo cfg changes).seqNum = p.seqNum ∧
      (p.timeoutTo cfg changes).seqPipeStart = p.seqNum := by
  unfold timeoutTo
  dsimp only
  have hsame := (SamePipe.checkAckRatio { p with
    ssthresh := if p.cwnd.tdiv 2 = 0 then 1 else p.cwnd.tdiv 2
    cwnd := cfg.cwndTimeout
    pipe := 0
    seqPipeStart := p.seqNum
    seqWinStart := p.seqNum
    cwndFrac := 0
    numAckInWin := 0
    numWinAcked := 0
    ackWinStart := p.seqNum
    recvAckRatio := 1 }).trans (.changeRemoteAckRatio _ changes)
  exact ⟨hsame.pipe, hsame.seqNum, hsame.seqPipeStart⟩

end TcpLike

namespace PipeLedger

variable {led : PipeLedger} {l : List ℕ} {start : ℤ}

/-- The packets from a number on that have not left. -/
def inPipe (led : PipeLedger) (start : ℤ) : List ℕ :=
  led.sent.filter fun q => start ≤ (q : ℕ) ∧ q ∉ led.left

theorem mem_inPipe : q ∈ led.inPipe start ↔ q ∈ led.sent ∧ start ≤ q ∧ q ∉ led.left := by
  simp [inPipe]

/-- The packets that leave are no longer in the pipe, and all others are. -/
theorem length_inPipe (hsorted : led.sent.Pairwise (· > ·)) (hnodup : (l ++ led.left).Nodup)
    (hsent : ∀ q ∈ l, q ∈ led.sent) (start : ℤ) :
    (led.inPipe start).length = (l.countP fun q => start ≤ (q : ℕ)) +
      (({ led with left := l ++ led.left } : PipeLedger).inPipe start).length := by
  have hdistinct : led.sent.Nodup := hsorted.imp fun h => h.ne'
  obtain ⟨hl, -, hdisjoint⟩ := List.nodup_append.mp hnodup
  rw [List.countP_eq_length_filter, ← List.length_append]
  have hright : (l.filter (fun q => start ≤ (q : ℕ)) ++
      ({ led with left := l ++ led.left } : PipeLedger).inPipe start).Nodup := by
    apply (hl.filter _).append (hdistinct.filter _)
    intro q hq hin
    exact (mem_inPipe.mp hin).2.2 (List.mem_append_left _ (List.mem_of_mem_filter hq))
  apply List.Perm.length_eq
  apply (List.perm_ext_iff_of_nodup (hdistinct.filter _) hright).mpr
  intro q
  have hold : q ∈ l → q ∉ led.left := fun hq hleft => hdisjoint q hq q hleft rfl
  have hq := hsent q
  simp only [List.mem_append, mem_inPipe, List.mem_filter, decide_eq_true_iff]
  tauto

theorem inPipe_cons (hstart : start ≤ q) (hleft : q ∉ led.left) :
    ({ led with sent := q :: led.sent } : PipeLedger).inPipe start = q :: led.inPipe start := by
  apply List.filter_cons_of_pos
  exact decide_eq_true ⟨hstart, hleft⟩

end PipeLedger

/-- The numbers of a window agree with the packets. -/
structure TcpLike.Counts (p : TcpLike) (led : PipeLedger) : Prop where
  windowed : p.Windowed
  ranged : p.Ranged
  seqNum_nonneg : 0 ≤ p.seqNum
  seqNum_le : p.seqNum ≤ 2 ^ 31
  start_le : p.seqPipeStart ≤ p.seqNum
  sent_lt : ∀ q ∈ led.sent, (q : ℤ) < p.seqNum
  pipe : p.pipe = (led.inPipe p.seqPipeStart).length

theorem TcpLike.Counts.same {p p' : TcpLike} {led : PipeLedger} (h : p.Counts led)
    (hp : p.SamePipe p') (hw : p'.Windowed ∧ p'.Ranged) : p'.Counts led where
  windowed := hw.1
  ranged := hw.2
  seqNum_nonneg := hp.seqNum ▸ h.seqNum_nonneg
  seqNum_le := hp.seqNum ▸ h.seqNum_le
  start_le := hp.seqNum ▸ hp.seqPipeStart ▸ h.start_le
  sent_lt q hq := hp.seqNum ▸ h.sent_lt q hq
  pipe := hp.pipe.trans (hp.seqPipeStart ▸ h.pipe)

namespace TcpLikeSender

variable {s s' : TcpLikeSender} {led : PipeLedger} {p : TcpLike} {ackv : AckVector} {c : AckCounts}
  {n : ℕ}

/-- Senders that know the same of the packets. -/
structure SameStore (s s' : TcpLikeSender) : Prop where
  numDupAcks : s'.numDupAcks = s.numDupAcks
  storedAckv : s'.storedAckv = s.storedAckv
  sendHist : s'.sendHist = s.sendHist
  histLastSeq : s'.histLastSeq = s.histLastSeq
  highAckRecv : s'.highAckRecv = s.highAckRecv
  seqAllDone : s'.seqAllDone = s.seqAllDone

/-- The books of a sender. -/
structure Accounts (s : TcpLikeSender) (led : PipeLedger) : Prop where
  dup : 1 ≤ s.numDupAcks
  tracks : s.Tracks led
  stored : s.Unstarted ∨
    s.Started ∧ s.storedAckv.seqHead = s.highAckRecv ∧ (s.highAckRecv : ℤ) < s.window.seqNum
  counts : s.window.Counts led
  timerTo : s.timerTo = decide (0 < s.window.pipe)

theorem Tracks.same (ht : s.Tracks led) (hs : s.SameStore s') : s'.Tracks led := by
  obtain ⟨-, hstored, hhist, hlast, -, hdone⟩ := hs
  have hstate : s'.stateOf = s.stateOf := by
    funext q
    rw [stateOf, hstored, ← stateOf]
  constructor
  case sorted => exact ht.sorted
  case history => exact hhist ▸ ht.history
  case kept =>
    rw [hdone, hhist]
    exact ht.kept
  case nodup => exact ht.nodup
  case left_sent => exact ht.left_sent
  case left_iff =>
    rw [hdone, hstate]
    exact ht.left_iff
  case unreserved =>
    rw [hstate]
    exact ht.unreserved
  case knows => exact hstored ▸ ht.knows
  case histLast =>
    rw [hlast, hdone]
    exact ht.histLast

theorem Unstarted.same (h : s.Unstarted) (hs : s.SameStore s') : s'.Unstarted :=
  ⟨hs.storedAckv ▸ h.valid, hs.storedAckv ▸ h.two_le, hs.seqAllDone.trans h.seqAllDone⟩

theorem Started.same (h : s.Started) (hs : s.SameStore s') : s'.Started :=
  ⟨hs.storedAckv ▸ h.valid, by rw [hs.storedAckv, hs.seqAllDone]; exact h.seqTail⟩

namespace Accounts

/-- What leaves the store alone keeps the books, if the numbers still agree. -/
theorem recount (h : s.Accounts led) (hs : s.SameStore s')
    (hseq : s.window.seqNum ≤ s'.window.seqNum) (hc : s'.window.Counts led)
    (ht : s'.timerTo = decide (0 < s'.window.pipe)) : s'.Accounts led where
  dup := hs.numDupAcks ▸ h.dup
  tracks := h.tracks.same hs
  stored := by
    rcases h.stored with hun | ⟨hst, hhead, hlt⟩
    · exact .inl (hun.same hs)
    · refine .inr ⟨hst.same hs, ?_, ?_⟩
      · rw [hs.storedAckv, hs.highAckRecv, hhead]
      · rw [hs.highAckRecv]
        exact hlt.trans_le hseq
  counts := hc
  timerTo := ht

theorem withWindow (h : s.Accounts led) (hp : s.window.SamePipe p)
    (hw : p.Windowed ∧ p.Ranged) : ({ s with window := p } : TcpLikeSender).Accounts led :=
  h.recount ⟨rfl, rfl, rfl, rfl, rfl, rfl⟩ hp.seqNum.ge (h.counts.same hp hw)
    (h.timerTo.trans (by rw [← hp.pipe]))

/-- Nothing is known yet of the packet that is sent next. -/
theorem stateOf_next (h : s.Accounts led) (hq : s.window.seqNum ≤ q) : s.stateOf q = .notRecv := by
  apply stateOf_of_none
  rcases h.stored with hs | ⟨hs, hhead, hlt⟩
  · exact congrFun hs.valid.map_nil q
  · obtain ⟨items, -, hv⟩ := hs.valid
    by_contra hsome
    have hin := (hv.isSome_map.mp (Option.isSome_iff_ne_none.mpr hsome)).2.2
    omega

theorem next_eq (h : s.Accounts led) (hlt : s.window.seqNum < 2 ^ 31) :
    (s.window.seqNum + 1) % 2 ^ 32 = s.window.seqNum + 1 := by
  have hpos := h.counts.seqNum_nonneg
  exact Int.emod_eq_of_lt (by omega) (by omega)

/-- A number is used up. -/
theorem advance (h : s.Accounts led) (hlt : s.window.seqNum < 2 ^ 31) :
    ({ s with window := { s.window with seqNum := (s.window.seqNum + 1) % 2 ^ 32 } } :
      TcpLikeSender).Accounts led := by
  have hw := h.counts.windowed
  have hr := h.counts.ranged
  have hle := Int.le_add_one le_rfl (a := s.window.seqNum)
  rw [h.next_eq hlt]
  apply h.recount
  · exact ⟨rfl, rfl, rfl, rfl, rfl, rfl⟩
  · exact hle
  · exact ⟨⟨⟨hw.1.1, hw.1.2, hw.1.3⟩, hw.2, hw.3, hw.4, hw.5⟩, ⟨hr.1, hr.2, hr.3⟩,
      h.counts.seqNum_nonneg.trans hle, hlt, h.counts.start_le.trans hle,
      fun q hq => (h.counts.sent_lt q hq).trans_le hle, h.counts.pipe⟩
  · exact h.timerTo

/-- A new data packet enters the pipe. -/
theorem enter (h : s.Accounts led) (hlt : (q : ℤ) < s.window.seqNum)
    (hnew : ∀ p ∈ led.sent, p < q) (hstart : s.window.seqPipeStart ≤ q)
    (hstate : s.stateOf q = .notRecv) :
    ({ s with
        sendHist := q :: s.sendHist
        window := { s.window with pipe := s.window.pipe + 1 }
        timerTo := true } : TcpLikeSender).Accounts { led with sent := q :: led.sent } := by
  have hw := h.counts.windowed
  have hr := h.counts.ranged
  have ht := h.tracks
  have hleft : q ∉ led.left := fun hq => (hnew q (ht.left_sent q hq)).false
  constructor
  case dup => exact h.dup
  case tracks =>
    constructor
    case sorted => exact List.pairwise_cons.mpr ⟨hnew, ht.sorted⟩
    case history => exact ht.history.cons_cons q
    case kept =>
      rintro p (_ | ⟨_, hp⟩) hdone
      · exact List.mem_cons_self
      · exact List.mem_cons_of_mem q (ht.kept p hp hdone)
    case nodup => exact ht.nodup
    case left_sent => exact fun p hp => List.mem_cons_of_mem q (ht.left_sent p hp)
    case left_iff =>
      rintro p (_ | ⟨_, hp⟩) hdone
      · exact iff_of_false hleft (not_not.mpr hstate)
      · exact ht.left_iff p hp hdone
    case unreserved => exact ht.unreserved
    case knows => exact ht.knows
    case histLast => exact ht.histLast
  case stored =>
    rcases h.stored with hs | ⟨hs, hhead, hlt⟩
    · exact .inl ⟨hs.valid, hs.two_le, hs.seqAllDone⟩
    · exact .inr ⟨⟨hs.valid, hs.seqTail⟩, hhead, hlt⟩
  case counts =>
    constructor
    case windowed => exact ⟨⟨hw.1.1, hw.1.2, hw.1.3⟩, hw.2, hw.3, hw.4, hw.5⟩
    case ranged => exact ⟨hr.1, hr.2, hr.3⟩
    case seqNum_nonneg => exact h.counts.seqNum_nonneg
    case seqNum_le => exact h.counts.seqNum_le
    case start_le => exact h.counts.start_le
    case sent_lt =>
      rintro p (_ | ⟨_, hp⟩)
      · exact hlt
      · exact h.counts.sent_lt p hp
    case pipe =>
      rw [PipeLedger.inPipe_cons hstart hleft, List.length_cons, Nat.cast_succ, ← h.counts.pipe]
  case timerTo =>
    have hpos : 0 < s.window.pipe + 1 := by
      rw [h.counts.pipe]
      omega
    exact (decide_eq_true hpos).symm

theorem send (h : s.Accounts led) (hlt : s.window.seqNum < 2 ^ 31) (data : Bool) :
    (s.send data).Accounts
      (if data then { led with sent := s.window.seqNum.toNat :: led.sent } else led) := by
  have hadv := h.advance hlt
  have hnext := h.next_eq hlt
  have hcast := Int.toNat_of_nonneg h.counts.seqNum_nonneg
  cases data with
  | false => exact hadv
  | true =>
    apply hadv.enter
    · change (s.window.seqNum.toNat : ℤ) < (s.window.seqNum + 1) % 2 ^ 32
      omega
    · intro p hp
      have hp := h.counts.sent_lt p hp
      omega
    · exact hcast ▸ h.counts.start_le
    · exact h.stateOf_next hcast.ge

/-- After a timeout the pipe is empty. -/
theorem timeout (h : s.Accounts led) (cfg : TcpLikeSettings) (changes : Bool) :
    (s.timeout cfg changes).Accounts led := by
  obtain ⟨hw, hr⟩ : (s.window.timeoutTo cfg changes).Windowed ∧
      (s.window.timeoutTo cfg changes).Ranged :=
    TcpLike.timeoutTo_windowed h.counts.windowed h.counts.ranged
  obtain ⟨hpipe, hseq, hstart⟩ := s.window.timeoutTo_pipe cfg changes
  have hnone : led.inPipe s.window.seqNum = [] := by
    apply List.eq_nil_iff_forall_not_mem.mpr
    intro q hq
    obtain ⟨hsent, hle, -⟩ := PipeLedger.mem_inPipe.mp hq
    exact (h.counts.sent_lt q hsent).not_ge hle
  apply h.recount
  · exact ⟨rfl, rfl, rfl, rfl, rfl, rfl⟩
  · exact hseq.ge
  · constructor
    case windowed => exact hw
    case ranged => exact hr
    case seqNum_nonneg => exact hseq ▸ h.counts.seqNum_nonneg
    case seqNum_le => exact hseq ▸ h.counts.seqNum_le
    case start_le => exact (hstart.trans hseq.symm).le
    case sent_lt => exact fun q hq => hseq ▸ h.counts.sent_lt q hq
    case pipe =>
      change _ = ((led.inPipe (s.window.timeoutTo cfg changes).seqPipeStart).length : ℤ)
      rw [hstart, hnone]
      exact hpipe
  · have hnot : ¬ 0 < (s.window.timeoutTo cfg changes).pipe := hpipe.le.not_gt
    exact (decide_eq_false hnot).symm

/-- The windows react, whatever has been counted. -/
theorem react (h : s.Accounts led) (hnum : 0 ≤ numIncCwnd c) (lostAck quiescent : Bool) :
    ∃ s', s.react c lostAck quiescent = .ok s' ∧ s'.Accounts led := by
  obtain ⟨p, hp, -, hw, hr⟩ := TcpLike.updateCwnd_grows quiescent h.counts.windowed h.counts.ranged
    hnum
  have hsame := TcpLike.SamePipe.updateCwnd hp
  rw [TcpLikeSender.react, hp]
  refine ⟨_, rfl, ?_⟩
  obtain ⟨p', hp', hsame', hw', hr'⟩ : ∃ p', p' = (if (decide
      (0 < c.numLost true ∨ 0 < c.numMarked true) : Bool) then p.dataLost quiescent else p) ∧
      s.window.SamePipe p' ∧ p'.Windowed ∧ p'.Ranged := by
    refine ⟨_, rfl, ?_⟩
    split_ifs
    · exact ⟨hsame.trans (.dataLost p quiescent), TcpLike.dataLost_windowed hw hr⟩
    · exact ⟨hsame, hw, hr⟩
  dsimp only
  rw [← hp']
  split_ifs
  · apply h.withWindow
    · exact hsame'.trans (.lostOrMarkedAck p')
    · exact TcpLike.lostOrMarkedAck_windowed hw' hr'
  all_goals
    apply h.withWindow
    · exact hsame'.trans (.updateAckRatio p' _)
    · exact TcpLike.updateAckRatio_windowed hw' hr'

/-- The packets that have been counted leave the pipe. -/
theorem drain {led' : PipeLedger} (hdup : 1 ≤ s.numDupAcks) (ht : s.Tracks led')
    (hs : s.Started ∧ s.storedAckv.seqHead = s.highAckRecv ∧ (s.highAckRecv : ℤ) < s.window.seqNum)
    (hc : s.window.Counts led) (htimer : s.timerTo = decide (0 < s.window.pipe))
    (hsent : led'.sent = led.sent) (hnum : 0 ≤ c.numPipe true)
    (hpipe : ((led.inPipe s.window.seqPipeStart).length : ℤ) =
      c.numPipe true + (led'.inPipe s.window.seqPipeStart).length) :
    ∃ s', s.drain c = .ok s' ∧ s'.Accounts led' := by
  have hleft : s.window.pipe - c.numPipe true = (led'.inPipe s.window.seqPipeStart).length := by
    rw [hc.pipe, hpipe, add_sub_cancel_left]
  have hnonneg : ¬ s.window.pipe - c.numPipe true < 0 := by omega
  rw [TcpLikeSender.drain]
  dsimp only
  rw [if_neg hnonneg]
  refine ⟨_, rfl, hdup, ht.same ⟨rfl, rfl, rfl, rfl, rfl, rfl⟩,
    .inr ⟨hs.1.same ⟨rfl, rfl, rfl, rfl, rfl, rfl⟩, hs.2⟩, ?_, ?_⟩
  · have hw := hc.windowed
    exact ⟨⟨⟨hw.1.1, hw.1.2, hw.1.3⟩, hw.2, hw.3, hw.4, hw.5⟩,
      ⟨hc.ranged.1, hc.ranged.2, hc.ranged.3⟩, hc.seqNum_nonneg, hc.seqNum_le, hc.start_le,
      by rw [hsent]; exact hc.sent_lt, hleft⟩
  · dsimp only
    split_ifs with hzero hmore
    · rw [hzero]
      rfl
    · exact (decide_eq_true (by omega)).symm
    · rw [htimer]
      apply decide_eq_decide.mpr
      omega

/-- The stored ack vector is there when a new one is merged. -/
theorem begin {ackNum : ℕ} (h : s.Accounts led) (ha : Received ackv)
    (hspace : HasSpace junk s.storedAckv ackv) (hnum : ackNum = ackv.seqHead)
    (hge : s.highAckRecv ≤ ackNum) :
    ∃ v done, { s with highAckRecv := ackNum }.start junk ackv =
        { s with storedAckv := v, highAckRecv := ackNum, seqAllDone := done } ∧
      ({ s with storedAckv := v, highAckRecv := ackNum, seqAllDone := done } :
        TcpLikeSender).Tracks led ∧
      ({ s with storedAckv := v, highAckRecv := ackNum, seqAllDone := done } :
        TcpLikeSender).Started ∧
      v.seqHead ≤ ackNum ∧ AckVector.Admitted junk ackv.packets.reverse v := by
  have hstart : ∃ v done, s.start junk ackv = { s with storedAckv := v, seqAllDone := done } ∧
      { s with highAckRecv := ackNum }.start junk ackv =
        { s with storedAckv := v, highAckRecv := ackNum, seqAllDone := done } := by
    unfold TcpLikeSender.start
    dsimp only
    split_ifs
    all_goals exact ⟨_, _, rfl, rfl⟩
  obtain ⟨v, done, hs, hhigh⟩ := hstart
  have hmerge := hspace.merge
  rw [← start_storedAckv] at hmerge
  have hknown : (s.start junk ackv).Tracks led ∧ (s.start junk ackv).Started ∧
      (s.start junk ackv).storedAckv.seqHead ≤ ackNum := by
    rcases h.stored with hun | ⟨hst, hhead, -⟩
    · obtain ⟨hst, ht, hhead⟩ := hun.start h.tracks ha hspace
      exact ⟨ht, hst, (hhead.trans hnum.symm).le⟩
    · rw [hst.start_eq]
      exact ⟨h.tracks, hst, hhead.trans_le hge⟩
  rw [hs] at hmerge hknown
  obtain ⟨ht, hst, hhead⟩ := hknown
  refine ⟨v, done, hhigh, ?_, ⟨hst.valid, hst.seqTail⟩, hhead, hmerge⟩
  exact ⟨ht.sorted, ht.history, ht.kept, ht.nodup, ht.left_sent, ht.left_iff, ht.unreserved,
    ht.knows, ht.histLast⟩

/-- An acknowledgement is processed: what leaves the pipe is counted once. -/
theorem processAck {ackNum : ℕ} (h : s.Accounts led) (ha : Received ackv)
    (hspace : HasSpace junk s.storedAckv ackv) (hnum : ackNum = ackv.seqHead)
    (hge : s.highAckRecv ≤ ackNum) (hlt : (ackNum : ℤ) < s.window.seqNum)
    (lostAck quiescent : Bool) :
    ∃ leaving s', s.processAck junk ackNum ackv lostAck quiescent = .ok (leaving, s') ∧
      s'.Accounts { led with left := leaving ++ led.left } := by
  subst hnum
  obtain ⟨v, done, hstart, ht, hst, hhead, hadm⟩ := h.begin ha hspace rfl hge
  obtain ⟨r, hscan, hr⟩ := ht.scan hst ha hhead h.dup
  obtain ⟨hnodup, hsent⟩ := ht.leave hr
  obtain ⟨s₂, hist, last, done', v', hstore, hs₂, ht₂, hst₂, hhead₂⟩ :=
    ht.store hst ha hhead hadm hr
  have hpipe := hr.numPipe
  have hinc : 0 ≤ numIncCwnd r.counts := by
    have hok := hr.numOk
    have hmarked := hr.numMarked
    have h₁ := hok true
    have h₂ := hok false
    have h₃ := hmarked true
    have h₄ := hmarked false
    unfold numIncCwnd
    omega
  obtain ⟨s₃, hdrain, h₃⟩ : ∃ s₃, s₂.drain r.counts = .ok s₃ ∧
      s₃.Accounts { led with left := r.counts.leaving ++ led.left } := by
    subst hs₂
    apply drain
    · exact h.dup
    · exact ht₂
    · exact ⟨hst₂, hhead₂, hlt⟩
    · exact h.counts
    · exact h.timerTo
    · rfl
    · rw [hpipe]
      exact Int.natCast_nonneg _
    · rw [hpipe, PipeLedger.length_inPipe ht.sorted hnodup hsent, Nat.cast_add]
  obtain ⟨s₄, hreact, h₄⟩ := h₃.react hinc lostAck quiescent
  refine ⟨r.counts.leaving, s₄, ?_, h₄⟩
  unfold TcpLikeSender.processAck
  dsimp only
  rw [hstart, hscan]
  dsimp only [Bind.bind, Except.bind]
  rw [hstore]
  dsimp only
  rw [hdrain]
  dsimp only
  rw [hreact]
  rfl

end Accounts

end TcpLikeSender

end Ns2XPass
