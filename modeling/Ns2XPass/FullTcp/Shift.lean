import Ns2XPass.FullTcp.Sack
import Ns2XPass.Reassembly.Runs

/-! # Shifted sequence numbers

Sequence numbers are integers of 64 bits, and only their differences should
matter. Where they are held in an `int`, a shift of all of them shows, as soon as
it carries the `int` out of its range.
-/

namespace Ns2XPass

variable {n : ℕ} {seq k : ℤ}

/-- An `int` that is carried out of its range becomes much smaller. -/
theorem wrap32_add_of_ge {x : ℤ} (hk : 2 ^ 31 ≤ x + k) :
    wrap32 (x + k) ≤ x + k - 2 ^ 32 := by
  unfold wrap32
  rw [Int.bmod_def]
  omega

namespace FullTcp

variable {cfg : FullTcpConfig} {s : FullTcp}

/-- All sequence numbers grow by `k`. The one that is held in an `int` wraps. -/
def shift (k : ℤ) (s : FullTcp) : FullTcp :=
  { s with
    highestAck := s.highestAck + k
    tSeqno := s.tSeqno + k
    maxseq := s.maxseq + k
    curseq := s.curseq + k
    recover := s.recover + k
    irs := s.irs + k
    lastAckSent := wrap32 (s.lastAckSent + k)
    rq := s.rq.shift k }

/-- The sequence numbers are positive, and the one in an `int` is in its range. -/
structure Positive (s : FullTcp) : Prop where
  highestAck : 0 < s.highestAck
  tSeqno : 0 < s.tSeqno
  maxseq : 0 < s.maxseq
  curseq : 0 < s.curseq
  recover : 0 < s.recover
  irs : 0 < s.irs
  rcvNxt : 0 < s.rcvNxt
  lastAckSent : 0 < s.lastAckSent
  lastAckSent_lt : s.lastAckSent < 2 ^ 31

/-- After a timeout the number to send next is an `int`. -/
theorem timeoutAction_tSeqno (h : 0 ≤ s.highestAck) :
    (s.timeoutAction cfg).tSeqno = wrap32 s.highestAck := by
  have hfield : (s.timeoutAction cfg).tSeqno =
      if s.highestAck < 0 then cfg.iss else wrap32 s.highestAck := by
    unfold timeoutAction slowdown setRtxTimer
    dsimp only
    split_ifs <;> rfl
  rw [hfield, if_neg h.not_gt]

theorem timeoutAction_shift (h : 0 < s.highestAck) (hk : 0 ≤ k) :
    ((s.shift k).timeoutAction cfg).tSeqno = (s.timeoutAction cfg).tSeqno + k ↔
      wrap32 s.highestAck + k < 2 ^ 31 := by
  have hshift : 0 ≤ (s.shift k).highestAck := add_nonneg h.le hk
  rw [timeoutAction_tSeqno hshift, timeoutAction_tSeqno h.le]
  exact wrap32_add_eq_iff hk

theorem sendAllowed_shift : (s.shift k).sendAllowed cfg (seq + k) = s.sendAllowed cfg seq := by
  unfold sendAllowed
  change decide (seq + k <
    if s.highestAck + k + wrap32 (s.window cfg * s.maxseg) < s.curseq + k ∨ s.infiniteSend
    then s.highestAck + k + wrap32 (s.window cfg * s.maxseg) else s.curseq + k) = _
  rw [decide_eq_decide]
  simp only [add_right_comm s.highestAck k, add_lt_add_iff_right]
  split_ifs
  · exact add_lt_add_iff_right k
  · exact add_lt_add_iff_right k

/-- The number of bytes that are to be received before an ACK is sent. -/
def ackThreshold (cfg : FullTcpConfig) (s : FullTcp) : ℤ :=
  wrap32 ((if 0 < cfg.spaThresh ∧ s.rcvNxt - s.irs < cfg.spaThresh then 1 else cfg.segsPerAck) *
    s.maxseg)

theorem needSend_iff : s.needSend cfg = true ↔
    s.flags.acknow = true ∨ s.ackThreshold cfg ≤ s.rcvNxt - s.lastAckSent := by
  have hfield : s.needSend cfg =
      if s.flags.acknow then true else decide (s.ackThreshold cfg ≤ s.rcvNxt - s.lastAckSent) := rfl
  rw [hfield]
  split_ifs with h <;> simp [h]

theorem ackThreshold_shift : (s.shift k).ackThreshold cfg = s.ackThreshold cfg := by
  have hsub : s.rcvNxt + k - (s.irs + k) = s.rcvNxt - s.irs := by ring
  unfold ackThreshold
  change wrap32 ((if 0 < cfg.spaThresh ∧ s.rcvNxt + k - (s.irs + k) < cfg.spaThresh then 1
    else cfg.segsPerAck) * s.maxseg) = _
  rw [hsub]

theorem needSend_shift (hs : s.Positive) (hk : 0 ≤ k) :
    (s.shift k).needSend cfg = s.needSend cfg ↔
      (s.flags.acknow = false → s.rcvNxt - s.lastAckSent < s.ackThreshold cfg →
        s.lastAckSent + k < 2 ^ 31) := by
  have hlt : s.ackThreshold cfg < 2 ^ 31 := wrap32_lt _
  have hrcv : 0 < s.rcvNxt := hs.rcvNxt
  have hlas := hs.lastAckSent
  have hlas' := hs.lastAckSent_lt
  rw [Bool.eq_iff_iff, needSend_iff, needSend_iff, ackThreshold_shift]
  change (s.flags.acknow = true ∨
    s.ackThreshold cfg ≤ s.rcvNxt + k - wrap32 (s.lastAckSent + k) ↔ _) ↔ _
  cases s.flags.acknow with
  | true => simp
  | false =>
    rcases lt_or_ge (s.lastAckSent + k) (2 ^ 31) with hfit | hfit
    · rw [wrap32_of_lt (by omega) hfit, add_sub_add_right_eq_sub]
      exact ⟨fun _ _ _ => hfit, fun _ => Iff.rfl⟩
    · have hwrap := wrap32_add_of_ge hfit
      have hge : s.ackThreshold cfg ≤ s.rcvNxt + k - wrap32 (s.lastAckSent + k) := by omega
      constructor
      · intro h _ hless
        rcases h.mp (.inr hge) with hno | hle
        · cases hno
        · exact absurd hle hless.not_ge
      · intro h
        have hle : s.ackThreshold cfg ≤ s.rcvNxt - s.lastAckSent :=
          not_lt.mp fun hless => hfit.not_gt (h rfl hless)
        exact ⟨fun _ => .inr hle, fun _ => .inr hge⟩

end FullTcp

namespace SackFullTcp

variable {cfg : SackFullTcpConfig} {s : SackFullTcp}

def shift (k : ℤ) (s : SackFullTcp) : SackFullTcp :=
  { s with
    toFullTcp := s.toFullTcp.shift k
    sq := s.sq.shift k
    hSeqno := s.hSeqno + k }

/-- The end of the window of the receiver, as a number of 64 bits. -/
def edge (cfg : SackFullTcpConfig) (s : SackFullTcp) : ℤ :=
  s.highestAck + wrap32 (toInt cfg.wnd * s.maxseg)

/-- What lets an agent in pipe control send, apart from the window of the receiver. -/
def pipeAllows (s : SackFullTcp) (seq : ℤ) : Prop :=
  (s.state = .established ∨ seq ≤ s.curseq) ∧ s.pipe < wrap32 (toInt s.cwnd * s.maxseg)

theorem sendAllowed_iff (hp : s.pipectrl = true) :
    s.sendAllowed cfg seq = true ↔ seq < s.topawin cfg ∧ s.pipeAllows seq := by
  unfold sendAllowed pipeAllows
  rw [if_neg (by simp [hp])]
  split_ifs with htop hest
  · simp [htop]
  · simp [hest.1, hest.2]
  · rw [not_and_or, not_not, not_lt] at hest
    simp [not_le.mp htop, hest]

theorem sendAllowed_shift (hk : 0 ≤ k) (hseq : 0 < seq) :
    (s.shift k).sendAllowed cfg (seq + k) = s.sendAllowed cfg seq ↔
      (s.pipectrl = true → s.pipeAllows seq → seq < s.topawin cfg →
        s.topawin cfg + k < 2 ^ 31) := by
  cases hp : s.pipectrl with
  | false =>
    have hbase : ∀ s' : SackFullTcp, s'.pipectrl = false → ∀ seq,
        s'.sendAllowed cfg seq = s'.toFullTcp.sendAllowed cfg.toFullTcpConfig seq :=
      fun s' hs' seq => if_pos (by simp [hs'])
    rw [hbase _ hp, hbase (s.shift k) hp]
    exact ⟨fun _ hno => (Bool.false_ne_true hno).elim, fun _ => FullTcp.sendAllowed_shift⟩
  | true =>
    have htop : (s.shift k).topawin cfg = wrap32 (s.edge cfg + k) :=
      congrArg wrap32 (add_right_comm _ _ _)
    have hallows : (s.shift k).pipeAllows (seq + k) ↔ s.pipeAllows seq := by
      change (s.state = .established ∨ seq + k ≤ s.curseq + k) ∧ _ ↔ _
      rw [add_le_add_iff_right]
      rfl
    have hlt : s.topawin cfg < 2 ^ 31 := wrap32_lt _
    rw [Bool.eq_iff_iff, sendAllowed_iff (s := s.shift k) hp, sendAllowed_iff hp, hallows, htop]
    rcases lt_or_ge (s.topawin cfg + k) (2 ^ 31) with hfit | hfit
    · have heq : wrap32 (s.edge cfg + k) = s.topawin cfg + k := (wrap32_add_eq_iff hk).mpr hfit
      rw [heq]
      rw [add_lt_add_iff_right]
      exact ⟨fun _ _ _ _ => hfit, fun _ => Iff.rfl⟩
    · have hmod : wrap32 (s.edge cfg + k) = wrap32 (s.topawin cfg + k) := by
        unfold topawin wrap32
        rw [Int.bmod_add_bmod]
        rfl
      have hwrap := wrap32_add_of_ge hfit
      have hnot : ¬ seq + k < wrap32 (s.edge cfg + k) := by
        rw [hmod]
        omega
      constructor
      · intro h _ hallow hin
        exact absurd (h.mpr ⟨hin, hallow⟩).1 hnot
      · intro h
        constructor
        · exact fun hin => absurd hin.1 hnot
        · exact fun hin => absurd (h rfl hin.2 hin.1) hfit.not_gt

/-- `nexthole` starts at the head. -/
def hinted (s : SackFullTcp) : SackFullTcp :=
  { s with sq := { s.sq with hint := s.sq.fifo.head } }

/-- The search for a hole from `seq` on, where each number that it takes as an `int` moves along
with the shift and does not become positive by it. -/
def SearchFits (cfg : SackFullTcpConfig) (k : ℤ) : ℕ → ℤ → SackFullTcp → Prop
  | 0, seq, _ => seq + k < 2 ^ 31
  | n + 1, seq, s =>
    seq + k < 2 ^ 31 ∧
    ∀ v fcnt fbytes, s.sq.hole seq = .ok (some v, fcnt, fbytes) →
      wrap32 v + k < 2 ^ 31 ∧ (0 < wrap32 v ∨ wrap32 v + k ≤ 0) ∧
      (0 < wrap32 v → meetsThreshold cfg fcnt fbytes = false → 0 < fcnt →
        SearchFits cfg k n (wrap32 (wrap32 v + s.maxseg)) s.hinted)

theorem SearchFits.lt (h : SearchFits cfg k n seq s) : seq + k < 2 ^ 31 := by
  cases n with
  | zero => exact h
  | succ n => exact h.1

variable {v fcnt fbytes : ℤ}

theorem nxtTseqFrom_of_none (h : s.sq.hole seq = .ok (none, fcnt, fbytes)) :
    nxtTseqFrom cfg (n + 1) seq s = .ok (s.hinted, s.tSeqno) := by
  rw [nxtTseqFrom, ReassemblyQueue.nexthole_eq, h]
  rfl

theorem nxtTseqFrom_of_some (h : s.sq.hole seq = .ok (some v, fcnt, fbytes)) :
    nxtTseqFrom cfg (n + 1) seq s =
      if wrap32 v ≤ 0 then .ok (s.hinted, s.tSeqno)
      else if meetsThreshold cfg fcnt fbytes = true then
        .ok ({ s.hinted with hSeqno := if s.hSeqno < wrap32 v then wrap32 v else s.hSeqno },
          wrap32 v)
      else if fcnt ≤ 0 then .ok (s.hinted, s.tSeqno)
      else nxtTseqFrom cfg n (wrap32 (wrap32 v + s.maxseg)) s.hinted := by
  rw [nxtTseqFrom, ReassemblyQueue.nexthole_eq, h]
  rfl

theorem nxtTseqFrom_shift (hk : 0 ≤ k) (hfits : SearchFits cfg k n seq s) :
    nxtTseqFrom cfg n (seq + k) (s.shift k) =
      (nxtTseqFrom cfg n seq s).map fun r => (r.1.shift k, r.2 + k) := by
  induction n generalizing seq s with
  | zero => rfl
  | succ n ih =>
    have hshift : (s.shift k).sq.hole (seq + k) =
      (s.sq.hole seq).map fun r => (r.1.map (· + k), r.2) := s.sq.hole_shift seq k
    cases hr : s.sq.hole seq with
    | error e =>
      rw [hr] at hshift
      rw [nxtTseqFrom, nxtTseqFrom, ReassemblyQueue.nexthole_eq, ReassemblyQueue.nexthole_eq,
        hshift, hr]
      rfl
    | ok r =>
      obtain ⟨v, fcnt, fbytes⟩ := r
      rw [hr] at hshift
      cases v with
      | none =>
        rw [nxtTseqFrom_of_none hshift, nxtTseqFrom_of_none hr]
        rfl
      | some v =>
        obtain ⟨hfit, hsign, hnext⟩ := hfits.2 v fcnt fbytes hr
        have hv : wrap32 (v + k) = wrap32 v + k := (wrap32_add_eq_iff hk).mpr hfit
        rw [nxtTseqFrom_of_some hshift, nxtTseqFrom_of_some hr, hv]
        rcases hsign with hpos | hneg
        · rw [if_neg (show ¬ wrap32 v + k ≤ 0 by omega), if_neg hpos.not_ge]
          by_cases hm : meetsThreshold cfg fcnt fbytes = true
          · rw [if_pos hm, if_pos hm]
            have hmax : (if s.hSeqno + k < wrap32 v + k then wrap32 v + k else s.hSeqno + k) =
                (if s.hSeqno < wrap32 v then wrap32 v else s.hSeqno) + k := by
              split_ifs <;> omega
            exact congrArg (fun h => Except.ok ({ (s.shift k).hinted with hSeqno := h }, _)) hmax
          · rw [if_neg hm, if_neg hm]
            split_ifs with hf
            · rfl
            · have hrest := hnext hpos (eq_false_of_ne_true hm) (not_le.mp hf)
              have hseq : wrap32 (wrap32 v + k + s.maxseg) =
                  wrap32 (wrap32 v + s.maxseg) + k := by
                rw [add_right_comm]
                exact (wrap32_add_eq_iff hk).mpr hrest.lt
              change nxtTseqFrom cfg n (wrap32 (wrap32 v + k + s.maxseg)) (s.hinted.shift k) = _
              rw [hseq]
              exact ih hrest
        · rw [if_pos hneg, if_pos (by omega)]
          rfl

/-- The search for the next number to send, as long as it stays in the range of `int`. -/
theorem nxtTseq_shift (hk : 0 ≤ k)
    (hfits : s.highestAck < s.recover → SearchFits cfg k n (wrap32 s.hSeqno) s) :
    (s.shift k).nxtTseq cfg n = (s.nxtTseq cfg n).map fun r => (r.1.shift k, r.2 + k) := by
  have hiff : (s.shift k).highestAck < (s.shift k).recover ↔ s.highestAck < s.recover :=
    add_lt_add_iff_right k
  by_cases hrec : s.highestAck < s.recover
  · have hseq : wrap32 (s.shift k).hSeqno = wrap32 s.hSeqno + k :=
      (wrap32_add_eq_iff hk).mpr (hfits hrec).lt
    rw [nxtTseq, nxtTseq, if_pos (hiff.mpr hrec), if_pos hrec, hseq]
    exact nxtTseqFrom_shift hk (hfits hrec)
  · rw [nxtTseq, nxtTseq, if_neg (hiff.not.mpr hrec), if_neg hrec]
    rfl

end SackFullTcp

open SackFullTcp

/-- An agent that resends from the first hole, with one segment acknowledged. -/
def SackFullTcp.recovering : SackFullTcp where
  toFullTcp :=
    { FullTcp.opened .defaults 1 1000 with
      highestAck := 1000, tSeqno := 3000, maxseq := 3000, curseq := 9000, recover := 3000
      pipectrl := true }
  sq := { (FullTcp.opened .defaults 1 1000).rq with rcvNxt := 1000 }
  hSeqno := 1000

def SackFullTcpConfig.defaults : SackFullTcpConfig where
  toFullTcpConfig := .defaults
  sackRtxThreshmode := 0
  sackRtxCthresh := 0
  sackRtxBthresh := 0

theorem SackFullTcp.recovering_positive : SackFullTcp.recovering.Positive :=
  ⟨by decide, by decide, by decide, by decide, by decide, by decide, by decide, by decide,
    by decide⟩

end Ns2XPass
