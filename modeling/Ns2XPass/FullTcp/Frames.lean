import Ns2XPass.FullTcp.Input

/-! # What sending leaves as it is

Segments are sent on many occasions: the window opens, a timer expires, data is
resent. All of this leaves what has been received as it is. The state of the
connection changes only when the agent itself closes it.
-/

namespace Ns2XPass

/-- The bytes that an event hands to the application. -/
def TcpEvent.received : TcpEvent → ℤ
  | .recvBytes nbytes => nbytes
  | _ => 0

/-- The states in which the peer may still send data and the agent has not sent a FIN. -/
def TcpState.receiving : TcpState → Bool
  | .established | .closeWait => true
  | _ => false

namespace FullTcp

variable {cfg : FullTcpConfig} {s s' s'' : FullTcp} {reason : Reason} {seq ackno : ℤ}
  {force : Bool} {maxburst : ℤ}

/-- All bytes that have been handed to the application. -/
def delivered (s : FullTcp) : ℤ := (s.events.map TcpEvent.received).sum

theorem delivered_recvBytes (nbytes : ℤ) :
    (s.recvBytes nbytes).delivered = s.delivered + wrap32 nbytes := by
  change ((.recvBytes (wrap32 nbytes) :: s.events).map TcpEvent.received).sum = _
  rw [List.map_cons, List.sum_cons, add_comm]
  rfl

/-- The receiving side stays as it is, and the connection may be closed from this side. -/
structure Sends (s s' : FullTcp) : Prop where
  rq : s'.rq = s.rq
  delivered : s'.delivered = s.delivered
  state : s'.state = s.state ∨ s'.state = .finWait1 ∨ s'.state = .lastAck

namespace Sends

theorem refl (s : FullTcp) : Sends s s := ⟨rfl, rfl, .inl rfl⟩

theorem trans (h : Sends s s') (h' : Sends s' s'') : Sends s s'' := by
  refine ⟨h'.rq.trans h.rq, h'.delivered.trans h.delivered, ?_⟩
  rcases h'.state with hstate | hclosed
  · rw [hstate]
    exact h.state
  · exact .inr hclosed

/-- Other variables may change as well. -/
theorem of_eq (h : Sends s s') (hrq : s''.rq = s'.rq) (he : s''.events = s'.events)
    (hstate : s''.state = s'.state) : Sends s s'' :=
  h.trans ⟨hrq, congrArg (fun es => (es.map TcpEvent.received).sum) he, .inl hstate⟩

theorem emit (h : Sends s s') {e : TcpEvent} (he : e.received = 0) : Sends s (s'.emit e) := by
  refine h.trans ⟨rfl, ?_, .inl rfl⟩
  change ((e :: s'.events).map TcpEvent.received).sum = _
  rw [List.map_cons, List.sum_cons, he, zero_add]
  rfl

/-- One step more is made under a condition. -/
theorem next {c : Prop} [Decidable c] (h : Sends s s') (h' : Sends s' s'') :
    Sends s (if c then s'' else s') := by
  split_ifs
  · exact h.trans h'
  · exact h

theorem ite {c : Prop} [Decidable c] (h : Sends s s') (h' : Sends s s'') :
    Sends s (if c then s' else s'') := by
  split_ifs
  · exact h
  · exact h'

theorem rcvNxt (h : Sends s s') : s'.rcvNxt = s.rcvNxt := congrArg ReassemblyQueue.rcvNxt h.rq

end Sends

open Sends

section Output

theorem sends_slowdown (half : Bool) (how : CloseCwnd) : Sends s (s.slowdown cfg half how) :=
  (refl s).of_eq rfl rfl rfl

theorem sends_bufferempty : Sends s s.bufferempty :=
  ((refl s).emit (e := .doneData) rfl).of_eq rfl rfl rfl

theorem sends_prepare (seq : ℤ) : Sends s (s.prepare cfg seq).1 := by
  have hsize : Sends s
      (if s.maxseg = 0 then { s with maxseg := s.size - cfg.headersize }
        else { s with size := s.maxseg + cfg.headersize }) :=
    ite ((refl s).of_eq rfl rfl rfl) ((refl s).of_eq rfl rfl rfl)
  exact (((hsize.next sends_bufferempty).next (sends_slowdown _ _)).next
    ((refl _).emit rfl)).next ((refl _).of_eq rfl rfl rfl)

theorem sends_transmit (o : Outgoing) : Sends s (s.transmit o reason).1 := by
  have hclose : ∀ c : Bool, Sends s (if c then { s with state := .finWait1 } else s) := fun c =>
    (refl s).next ⟨rfl, rfl, .inr (.inl rfl)⟩
  exact ((hclose _).emit (e := .sendpacket ..) rfl).of_eq rfl rfl rfl

theorem sends_foutput (seq : ℤ) : Sends s (s.foutput cfg seq reason).1 := by
  have hprepare : Sends s (s.prepare cfg seq).1 := sends_prepare seq
  unfold foutput
  dsimp only
  split_ifs
  · exact hprepare.trans (sends_transmit _)
  · exact hprepare

theorem sends_sent (seq amt : ℤ) : Sends s (s.sent seq amt) := (refl s).of_eq rfl rfl rfl

theorem sends_sendMuchFrom (n : ℕ) (npackets : ℤ) (force : Bool) :
    Sends s (sendMuchFrom cfg reason maxburst n npackets force s) := by
  induction n generalizing npackets force s with
  | zero => exact refl s
  | succ n ih =>
    have hout : Sends s (s.foutput cfg s.tSeqno reason).1 := sends_foutput _
    exact ite (refl s) (ite ((refl s).of_eq rfl rfl rfl) (ite hout
      (ite (hout.trans (sends_sent ..)) ((hout.trans (sends_sent ..)).trans (ih ..)))))

theorem sends_sendMuch : Sends s (s.sendMuch cfg force reason maxburst) := by
  unfold sendMuch
  exact ite (refl s) (sends_sendMuchFrom ..)

end Output

section Acknowledgments

theorem sends_newack (ackno : ℤ) : Sends s (s.newack ackno) := by
  have hcancel : ∀ s' : FullTcp, Sends s' s'.cancelRtxTimer := fun s' => (refl s').of_eq rfl rfl rfl
  have hset : ∀ s' : FullTcp, Sends s' s'.setRtxTimer := fun s' => (refl s').of_eq rfl rfl rfl
  unfold newack
  exact ((ite (hcancel s) (ite (hset s) (refl s))).next ((refl _).of_eq rfl rfl rfl)).next
    ((refl _).of_eq rfl rfl rfl)

theorem sends_packAction : Sends s (s.packAction cfg) := (refl s).of_eq rfl rfl rfl

theorem sends_fastRetransmit (seq : ℤ) : Sends s (s.fastRetransmit cfg seq) := by
  unfold fastRetransmit
  extract_lets s₁
  have h₁ : Sends s s₁ := (refl s).emit rfl
  have h₂ : Sends s { s₁ with recover := s₁.maxseq, lastCwndAction := .dupack } :=
    h₁.of_eq rfl rfl rfl
  exact h₂.trans (sends_foutput seq)

theorem sends_dupackAction : Sends s (s.dupackAction cfg) := by
  unfold dupackAction
  extract_lets recovered s₁ s₂ s₃
  have h₁ : Sends s s₁ := (refl s).of_eq rfl rfl rfl
  split_ifs
  · have hslow : Sends s₁ (s₁.slowdown cfg true .half) := sends_slowdown ..
    have h₂ : Sends s s₂ := (h₁.trans hslow).of_eq rfl rfl rfl
    have hrecover : Sends s { s₂ with recover := s₂.maxseq } := h₂.of_eq rfl rfl rfl
    have h₃ : Sends s s₃ := hrecover.trans (sends_fastRetransmit _)
    exact h₃.of_eq rfl rfl rfl
  · exact h₁

/-- Whether an ACK is for data that has been sent. -/
def covers (s : FullTcp) (ackno : ℤ) : Bool := ackno ≤ s.highestAck ∨ ackno ≤ s.maxseq

/-- Nothing has been received yet, and data is left out only if the ACK is for data that has not
been sent. -/
def Acked.Follows (s : FullTcp) (ackno datalen : ℤ) : Acked → Prop
  | .drop s' => Sends s s' ∧ (datalen = 0 ∨ s.covers ackno = false)
  | .step6 s' _ => Sends s s' ∧ s'.state = s.state ∧ s.covers ackno = true

variable {datalen : ℤ}

theorem follows_oldAck (hack : ackno ≤ s.highestAck) (dupseg : Bool) :
    (s.oldAck cfg ackno datalen dupseg).Follows s ackno datalen := by
  have hcovers : s.covers ackno = true := decide_eq_true (.inl hack)
  unfold oldAck
  split_ifs with hdatalen
  · exact ⟨(refl s).of_eq rfl rfl rfl, rfl, hcovers⟩
  · extract_lets s₁
    have h₁ : Sends s s₁ := (refl s).of_eq rfl rfl rfl
    split_ifs
    · exact ⟨h₁.trans sends_dupackAction, .inl hdatalen.1⟩
    · have h₂ : Sends s (s₁.extraAck cfg) := h₁.of_eq rfl rfl rfl
      exact ⟨h₂.trans sends_sendMuch, .inl hdatalen.1⟩
    · exact ⟨h₁, rfl, hcovers⟩
  · exact ⟨(refl s).of_eq rfl rfl rfl, rfl, hcovers⟩
  · exact ⟨refl s, rfl, hcovers⟩

theorem newack_state : (s.newack ackno).state = s.state := by
  unfold newack
  dsimp only
  split_ifs <;> rfl

theorem follows_processAck (hack : s.highestAck < ackno) :
    (s.processAck cfg ackno).Follows s ackno datalen := by
  unfold processAck
  split_ifs with hmax
  · have hset : Sends s s.setAcknow := (refl s).of_eq rfl rfl rfl
    exact ⟨hset.trans sends_sendMuch,
      .inr (decide_eq_false (not_or.mpr ⟨hack.not_ge, hmax.not_ge⟩))⟩
  · extract_lets wasEstablished s₁ part s₂ opens
    have h₂ : Sends s s₂ := (sends_newack ackno).trans sends_packAction
    have hopen : Sends s₂ (s₂.opencwnd cfg) := (refl s₂).of_eq rfl rfl rfl
    have hstate : s₂.state = s.state := newack_state
    refine ⟨h₂.next hopen, ?_, decide_eq_true (.inr (not_lt.mp hmax))⟩
    split_ifs
    · exact hstate
    · exact hstate

theorem follows_ackInput (dupseg : Bool) :
    (s.ackInput cfg ackno datalen dupseg).Follows s ackno datalen := by
  have hpipe : ∀ {r : Acked} (pipe : ℤ), r.Follows { s with pipe := pipe } ackno datalen →
      r.Follows s ackno datalen := fun {r} pipe hr => by
    have h₁ : Sends s { s with pipe := pipe } := (refl s).of_eq rfl rfl rfl
    cases r with
    | drop s' => exact ⟨h₁.trans hr.1, hr.2⟩
    | step6 s' needoutput => exact ⟨h₁.trans hr.1, hr.2⟩
  have hcases : ∀ s₁ : FullTcp,
      (if ackno ≤ s₁.highestAck then s₁.oldAck cfg ackno datalen dupseg
        else s₁.processAck cfg ackno).Follows s₁ ackno datalen := fun s₁ => by
    split_ifs with hack
    · exact follows_oldAck hack dupseg
    · exact follows_processAck (not_le.mp hack)
  unfold ackInput
  dsimp only
  split
  · exact hpipe _ (hcases _)
  · exact hcases s

end Acknowledgments

theorem sends_usrclosed : Sends s (s.usrclosed cfg) := by
  have hclose : Sends s
      { s with
        curseq := s.maxseq - 1, infiniteSend := false, state := .lastAck
        flags := { s.flags with needfin := true } } := ⟨rfl, rfl, .inr (.inr rfl)⟩
  exact hclose.trans sends_sendMuch

theorem sends_finalOutput (needoutput : Bool) : Sends s (s.finalOutput cfg needoutput) := by
  unfold finalOutput
  exact (ite sends_sendMuch (ite sends_sendMuch (refl s))).next sends_usrclosed

theorem sends_timeoutAction : Sends s (s.timeoutAction cfg) := by
  unfold timeoutAction
  extract_lets s₁ s₂ s' s₃
  have h₁ : Sends s s₁ := (refl s).of_eq rfl rfl rfl
  have h₂ : Sends s s₂ := h₁.next ((refl s₁).of_eq rfl rfl rfl)
  have hslow : Sends s₂ (s₂.slowdown cfg true .restart) := sends_slowdown ..
  have htimeout : Sends s₂ { s₂.slowdown cfg true .restart with lastCwndAction := .timeout } :=
    hslow.of_eq rfl rfl rfl
  have h₃ : Sends s s₃ := h₂.trans (ite (sends_slowdown ..) htimeout)
  exact h₃.of_eq rfl rfl rfl

end FullTcp

end Ns2XPass
