import Mathlib.Logic.Relation
import Ns2XPass.Dccp.Timeouts

/-! # The moves of a DCCP connection

Of an agent, only the state of the connection, the role and the timers matter to
how connections are opened and closed. Every function of the agent is a sequence
of moves of this part, which say what may happen to a connection.
-/

namespace Ns2XPass

/-- The part of an agent that opens and closes connections. -/
structure DccpControl where
  state : DccpState
  server : Bool
  timerRtx : RetransmitTimer
  timerSnd : Bool
  abort : Option DccpAbort

namespace DccpControl

variable (cfg : DccpConfig)

/-- A server listens again, and forgets that it is one. -/
def reset (c : DccpControl) : DccpControl where
  state := if c.server = true ∨ c.state = .listen then .listen else .closed
  server := false
  timerRtx := c.timerRtx.forceCancel
  timerSnd := false
  abort := c.abort

/-- A state that backs off is entered, for another one. -/
inductive Enters (c : DccpControl) : DccpState → Prop
  | request : c.state = .closed → Enters c .request
  | closeReq : c.state = .respond ∨ c.state = .open ∧ c.server = true → Enters c .closeReq
  | closing : c.state = .open ∧ c.server = false ∨ c.state = .closing → Enters c .closing

/-- One move of a connection, except that a server listens and that it accepts a connection. -/
inductive Move (c : DccpControl) : DccpControl → Prop
  | quiet {snd : Bool} {abort : Option DccpAbort} :
      (snd = true → c.timerSnd = true ∨ c.state = .open) →
      (abort = c.abort ∨ abort = some .sndDelay) → Move c { c with timerSnd := snd, abort := abort }
  | again : c.state.backsOff = true → Move c { c with timerRtx := c.timerRtx.backOff }
  | retry : c.state.backsOff = true → c.timerRtx.backoffFailed = false →
      Move c { c with timerRtx := c.timerRtx.forceCancel.backOff }
  | enter {state : DccpState} : c.Enters state →
      Move c { c with
        state := state
        timerRtx := (RetransmitTimer.init cfg.initialRtxTo cfg.maxRtxTo).backOff
        timerSnd := false }
  | establish : c.state = .respond ∨ c.state = .request →
      Move c { c with state := .open, timerRtx := c.timerRtx.forceCancel }
  | reset : Move c c.reset
  | leave : c.state = .listen → Move c { c with
      state := .closed
      server := false
      timerRtx := c.timerRtx.forceCancel
      timerSnd := false }
  | rtxFault : c.timerRtx.pending = true → c.state.waits = false →
      Move c { c with timerRtx := c.timerRtx.forceCancel, abort := some .timerRunning }
  | sndFault : c.timerSnd = true → c.state ≠ .open →
      Move c { c with timerSnd := false, abort := some .timerRunning }

/-- A closed agent listens as a server. -/
def listen (c : DccpControl) : DccpControl := { c with state := .listen, server := true }

/-- A Request is answered. -/
def accept (c : DccpControl) : DccpControl :=
  { c with state := .respond, timerRtx := { c.timerRtx.forceCancel with pending := true } }

end DccpControl

namespace DccpAgent

open DccpControl Relation

variable {cfg : DccpConfig} {s s' s'' : DccpAgent} {tryPureAck : Bool} {c : DccpControl}

def control (s : DccpAgent) : DccpControl where
  state := s.state
  server := s.server
  timerRtx := s.timerRtx
  timerSnd := s.timerSnd
  abort := s.abort

/-- The agent makes moves of its connection. -/
abbrev Moves (cfg : DccpConfig) (s s' : DccpAgent) : Prop :=
  ReflTransGen (Move cfg) s.control s'.control

theorem moves_of_eq (h : s'.control = s.control) : Moves cfg s s' := by
  unfold Moves
  rw [h]

theorem Moves.of_eq (hs : s'.control = s.control) (h : Moves cfg s' s'') : Moves cfg s s'' :=
  (moves_of_eq hs).trans h

theorem moves_of_move (h : Move cfg s.control c) (hc : s'.control = c) : Moves cfg s s' := by
  unfold Moves
  rw [hc]
  exact .single h

/-! ### Output -/

/-- Sending a packet in an open connection leaves what the timers of the agent depend on. -/
structure Stays (s s' : DccpAgent) : Prop where
  state : s'.state = s.state
  server : s'.server = s.server
  timerRtx : s'.timerRtx = s.timerRtx
  snd : s'.timerSnd = true → s.timerSnd = true ∨ s.state = .open
  abort : s'.abort = s.abort ∨ s'.abort = some .sndDelay

theorem Stays.refl (s : DccpAgent) : Stays s s := ⟨rfl, rfl, rfl, .inl, .inl rfl⟩

theorem Stays.trans (h : Stays s s') (h' : Stays s' s'') : Stays s s'' where
  state := h'.state.trans h.state
  server := h'.server.trans h.server
  timerRtx := h'.timerRtx.trans h.timerRtx
  snd hs := by
    rcases h'.snd hs with hs | ho
    · exact h.snd hs
    · exact .inr (h.state ▸ ho)
  abort := by
    rcases h'.abort with he | he
    · exact he ▸ h.abort
    · exact .inr he

theorem Stays.after (h : Stays s' s'') (hs : Stays s s') : Stays s s'' := hs.trans h

theorem Stays.moves (h : Stays s s') : Moves cfg s s' := by
  refine moves_of_move (.quiet h.snd h.abort) ?_
  unfold control
  rw [h.state, h.server, h.timerRtx]

theorem stays_send_packetSent (h : s.state = .open) : Stays s (s.send_packetSent cfg) := by
  unfold send_packetSent
  split
  · exact ⟨rfl, rfl, rfl, fun _ => .inr h, .inl rfl⟩
  · exact ⟨rfl, rfl, rfl, .inl, .inr rfl⟩

theorem stays_sendPacket {type : DccpPacketType} {tellCc tellApp : Bool} (h : s.state = .open) :
    Stays s (s.sendPacket cfg type tellCc tellApp).1 := by
  have hs : Stays s (if tellCc then { s with seqNum := s.seqNum + 1 }.send_packetSent cfg
      else { s with seqNum := s.seqNum + 1 }) := by
    split
    · refine (stays_send_packetSent ?_).after ⟨rfl, rfl, rfl, .inl, .inl rfl⟩
      exact h
    · exact ⟨rfl, rfl, rfl, .inl, .inl rfl⟩
  cases tellApp <;> exact hs.trans ⟨rfl, rfl, rfl, .inl, .inl rfl⟩

theorem stays_sendOpen {type : DccpPacketType} {dataSize : ℤ} (h : s.state = .open) :
    Stays s (s.sendOpen cfg type dataSize).1 := by
  unfold sendOpen
  extract_lets removes s₁
  have hs : Stays s s₁ := by
    unfold s₁
    split <;> exact ⟨rfl, rfl, rfl, .inl, .inl rfl⟩
  refine hs.trans ((stays_sendPacket ?_).after ⟨rfl, rfl, rfl, .inl, .inl rfl⟩)
  exact hs.state.trans h

theorem stays_outputOpen (h : s.state = .open) : Stays s (s.outputOpen cfg tryPureAck).1 := by
  unfold outputOpen
  split
  · refine (stays_sendPacket ?_).after ⟨rfl, rfl, rfl, .inl, .inl rfl⟩
    exact h
  extract_lets dataSize type
  split
  · exact .refl s
  split
  · exact stays_sendOpen h
  split
  · split
    · exact stays_sendOpen h
    · exact .refl s
  · exact .refl s

theorem stays_outputFrom (n : ℕ) (h : s.state = .open) :
    Stays s (outputFrom cfg tryPureAck n s) := by
  induction n generalizing s with
  | zero => exact .refl s
  | succ n ih =>
    unfold outputFrom
    have hs : Stays s (s.outputOnce cfg tryPureAck).1 := by
      unfold outputOnce
      rw [h]
      exact stays_outputOpen h
    generalize s.outputOnce cfg tryPureAck = r at hs
    obtain ⟨s', again⟩ := r
    dsimp only at hs ⊢
    split
    · exact hs.trans (ih (hs.state.trans h))
    · exact hs

/-- Outside open connections one packet is sent. -/
theorem outputOnce_of_ne_open (h : s.state ≠ .open) :
    s.outputOnce cfg tryPureAck =
      ({ s with
          packetSent := s.packetSent || s.state = .request || s.state = .respond
          timerRtx := if s.state.backsOff then s.timerRtx.backOff else s.timerRtx
          seqNum := s.seqNum + 1
          sent := s.sent ++ [s.state.packet] }, false) := by
  obtain ⟨state, _⟩ := s
  cases state <;> simp_all [outputOnce, sendPacket, DccpState.backsOff, DccpState.packet]

theorem output_of_ne_open (cfg : DccpConfig) (tryPureAck : Bool) (h : s.state ≠ .open) :
    s.output cfg tryPureAck = { s with
      packetSent := s.packetSent || s.state = .request || s.state = .respond
      timerRtx := if s.state.backsOff then s.timerRtx.backOff else s.timerRtx
      seqNum := s.seqNum + 1
      sent := s.sent ++ [s.state.packet] } := by
  unfold output outputSteps outputFrom
  rw [outputOnce_of_ne_open h]
  rfl

theorem control_output (cfg : DccpConfig) (tryPureAck : Bool) (h : s.state ≠ .open) :
    (s.output cfg tryPureAck).control =
      if s.state.backsOff then { s.control with timerRtx := s.control.timerRtx.backOff }
      else s.control := by
  rw [output_of_ne_open cfg tryPureAck h]
  unfold control
  split <;> rfl

theorem moves_output (cfg : DccpConfig) (s : DccpAgent) (tryPureAck : Bool) :
    Moves cfg s (s.output cfg tryPureAck) := by
  by_cases h : s.state = .open
  · exact (stays_outputFrom outputSteps h).moves
  · have hc := control_output cfg tryPureAck h
    split at hc
    · next hb => exact moves_of_move (.again hb) hc
    · exact moves_of_eq hc

theorem moves_finishRecv (cfg : DccpConfig) (s : DccpAgent) : Moves cfg s (s.finishRecv cfg) := by
  unfold finishRecv
  split
  · exact moves_output cfg s s.outputFlag
  · exact .refl

/-! ### Changes of the state -/

/-- The first packet of a state that backs off is sent as the state is entered. -/
theorem moves_enter {state : DccpState} (h : s.control.Enters state) :
    Moves cfg s ((s.changeState cfg state).output cfg tryPureAck) := by
  refine moves_of_move (.enter h) ?_
  cases h <;> rw [control_output cfg _ (by simp [changeState, cancelTimers])] <;> rfl

theorem moves_establish (h : s.state = .respond ∨ s.state = .request) :
    Moves cfg s (s.changeState cfg .open) := moves_of_move (.establish h) rfl

theorem control_reset (s : DccpAgent) : (s.reset cfg).control = s.control.reset := by
  obtain ⟨state, server, _⟩ := s
  cases server <;> cases state <;> rfl

theorem moves_reset (cfg : DccpConfig) (s : DccpAgent) : Moves cfg s (s.reset cfg) :=
  moves_of_move .reset (control_reset s)

theorem control_sendReset (s : DccpAgent) : s.sendReset.control = s.control := by
  unfold sendReset
  split <;> rfl

theorem moves_sendReset_reset (cfg : DccpConfig) (s : DccpAgent) :
    Moves cfg s (s.sendReset.reset cfg) :=
  (moves_of_eq (control_sendReset s)).trans (moves_reset cfg _)

/-! ### Calls of the application -/

theorem moves_close (cfg : DccpConfig) (s : DccpAgent) : Moves cfg s (s.close cfg) := by
  unfold close
  cases hs : s.state with
  | respond => exact moves_enter (.closeReq (.inl hs))
  | request => exact moves_sendReset_reset cfg s
  | «open» =>
    dsimp only
    split
    · next hv => exact moves_enter (.closeReq (.inr ⟨hs, hv⟩))
    · next hv => exact moves_enter (.closing (.inl ⟨hs, Bool.eq_false_of_not_eq_true hv⟩))
  | listen =>
    refine moves_of_move (.leave hs) ?_
    obtain ⟨state, server, _⟩ := s
    obtain rfl : state = .listen := hs
    cases server <;> rfl
  | closed | closeReq | closing => exact .refl

theorem moves_sendData (cfg : DccpConfig) (s : DccpAgent) : Moves cfg s (s.sendData cfg) := by
  unfold sendData
  split
  · next h => exact moves_enter (.request h)
  · split
    · exact moves_output cfg s false
    · exact .refl

theorem moves_sendmsg (cfg : DccpConfig) (s : DccpAgent) (nbytes : ℤ) (eof : Bool) :
    Moves cfg s (s.sendmsg cfg nbytes eof) := by
  unfold sendmsg
  split
  · exact .refl
  extract_lets s₁ s₂
  have h₁ : s₁.control = s.control := by
    unfold s₁
    split <;> first | rfl | (split <;> rfl)
  have h₂ : s₂.control = s.control := by
    unfold s₂
    split <;> exact h₁
  exact (moves_of_eq h₂).trans (moves_sendData cfg s₂)

theorem moves_advanceby (cfg : DccpConfig) (s : DccpAgent) (delta : ℤ) :
    Moves cfg s (s.advanceby cfg delta) := by
  unfold advanceby
  split
  · exact .refl
  extract_lets added
  exact ReflTransGen.trans (moves_of_eq rfl) (moves_sendData cfg
    { s with sb := s.sb ++ List.replicate added cfg.packetSize })

/-! ### Packets -/

theorem control_checkPacket (s : DccpAgent) (pkt : DccpPacket) :
    (s.checkPacket pkt).1.control = s.control := by
  unfold checkPacket
  extract_lets ackRecv
  split
  · rfl
  split
  · rfl
  split
  · rfl
  split <;> rfl

/-- An agent that a packet is accepted by. -/
theorem accepts_of_checkPacket {pkt : DccpPacket} (h : (s.checkPacket pkt).2 = true) :
    s.accepts pkt = true := by
  unfold checkPacket at h
  grind

theorem control_parseOptions (s : DccpAgent) (o : ParsedOptions) :
    (s.parseOptions o).control = s.control := by
  unfold parseOptions
  extract_lets s₁ s₂
  have h₂ : s₂.control = s.control := by
    unfold s₂ s₁
    split <;> rfl
  split
  · exact (control_sendReset s₂).trans h₂
  · exact h₂

theorem moves_deliver (cfg : DccpConfig) (s : DccpAgent) (tellCc : Bool) (type : DccpPacketType)
    (dataSize : ℤ) (tellApp : Bool) : Moves cfg s (s.deliver cfg tellCc type dataSize tellApp) := by
  unfold deliver
  extract_lets s₁
  have h₁ : s₁.control = s.control := by
    unfold s₁ recv_packetRecv
    split
    · split
      · split <;> rfl
      · rfl
    · rfl
  split
  · exact moves_of_eq h₁
  · split
    · exact moves_of_eq h₁
    · exact (moves_of_eq h₁).trans (moves_finishRecv cfg s₁)

/-- A packet makes the agent enter a state. -/
theorem moves_answer {state : DccpState} (h : s.control.Enters state) :
    Moves cfg s ((s.changeState cfg state).wantOutput.finishRecv cfg) := by
  have he : Moves cfg s.wantOutput ((s.wantOutput.changeState cfg state).output cfg s.outputFlag) :=
    moves_enter h
  cases h <;> exact he

/-- What a packet does, except the Request that a listening agent accepts. -/
theorem moves_react {pkt : DccpPacket} (hl : s.state ≠ .listen)
    (hv : s.state = .open → pkt.type = .closeReq → s.server = false) :
    Moves cfg s (s.react cfg pkt) := by
  unfold react
  extract_lets dataOrAck dataSize
  cases hs : s.state with
  | closed => exact .refl
  | listen => exact absurd hs hl
  | respond =>
    dsimp only
    split
    · exact moves_finishRecv cfg s.wantOutput
    split
    · exact moves_sendReset_reset cfg s
    split
    · refine ReflTransGen.trans ?_ (moves_deliver cfg _ _ _ _ _)
      exact moves_establish (s := { s with connEst := true }) (.inl hs)
    · exact .refl
  | «open» =>
    dsimp only
    split
    · exact moves_sendReset_reset cfg s
    split
    · next ht => exact moves_answer (.closing (.inl ⟨hs, hv hs ht⟩))
    split
    · exact moves_deliver cfg s _ _ _ _
    · exact .refl
  | request =>
    dsimp only
    split
    · refine ReflTransGen.trans ?_ (moves_finishRecv cfg _)
      exact moves_establish (s := { s with packetRecv := true }) (.inr hs)
    split
    · exact moves_sendReset_reset cfg s
    · exact .refl
  | closeReq =>
    dsimp only
    split
    · exact moves_sendReset_reset cfg s
    split
    · exact moves_deliver cfg s _ _ _ _
    · exact .refl
  | closing =>
    dsimp only
    split
    · exact moves_answer (.closing (.inr hs))
    split
    · exact moves_deliver cfg s _ _ _ _
    · exact .refl

/-- A Request opens a connection of a listening agent. -/
theorem control_react_of_listen (cfg : DccpConfig) (pkt : DccpPacket) (h : s.state = .listen) :
    (s.react cfg pkt).control =
      if pkt.type = .request then s.control.accept else s.control := by
  unfold react
  rw [h]
  dsimp only
  split
  · next ht =>
    unfold finishRecv
    split
    · rw [control_output cfg _ (by simp [wantOutput, changeState])]
      rfl
    · next hw => exact absurd rfl hw
  · rfl

/-- A connection is moved, or it is opened at a listening agent. -/
def MovesOrAccepts (cfg : DccpConfig) (s s' : DccpAgent) : Prop :=
  Moves cfg s s' ∨ s.state = .listen ∧ s'.control = s.control.accept

theorem react_moves {pkt : DccpPacket}
    (hv : s.state = .open → pkt.type = .closeReq → s.server = false) :
    MovesOrAccepts cfg s (s.react cfg pkt) := by
  by_cases hl : s.state = .listen
  · have h := control_react_of_listen cfg pkt hl
    split at h
    · exact .inr ⟨hl, h⟩
    · exact .inl (moves_of_eq h)
  · exact .inl (moves_react hl hv)

theorem MovesOrAccepts.of_eq (hs : s'.control = s.control) (h : MovesOrAccepts cfg s' s'') :
    MovesOrAccepts cfg s s'' := by
  unfold MovesOrAccepts Moves at *
  rw [← hs, show s.state = s'.state from (congrArg DccpControl.state hs).symm]
  exact h

/-- What a packet does to a connection. A server takes no CloseReq in an open one. -/
theorem recv_moves (cfg : DccpConfig) (s : DccpAgent) (pkt : DccpPacket) (o : ParsedOptions) :
    MovesOrAccepts cfg s (s.recv cfg pkt o) := by
  unfold recv
  extract_lets s₁
  have hc : (s₁.checkPacket pkt).1.control = s.control := control_checkPacket s₁ pkt
  have hacc : (s₁.checkPacket pkt).2 = true → s₁.accepts pkt = true := accepts_of_checkPacket
  generalize s₁.checkPacket pkt = r at hc hacc
  obtain ⟨s₂, ok⟩ := r
  cases ok with
  | false => exact .inl (moves_of_eq hc)
  | true =>
    have hv : ∀ s₃ : DccpAgent, s₃.control = s.control → s₃.state = .open → pkt.type = .closeReq →
        s₃.server = false := by
      intro s₃ h₃ ho ht
      have hs : s₁.state = .open := (congrArg DccpControl.state h₃).symm.trans ho
      have ha := hacc rfl
      unfold accepts at ha
      rw [hs, ht] at ha
      have hserver : s₃.server = s₁.server := congrArg DccpControl.server h₃
      rw [hserver]
      simpa using ha
    dsimp only
    split
    · exact .inl ((moves_of_eq hc).trans (moves_reset cfg s₂))
    · split
      · have hp : (s₂.parseOptions o).control = s.control := (control_parseOptions s₂ o).trans hc
        split
        · exact .of_eq hp (react_moves (hv _ hp))
        · exact .inl ((moves_of_eq hp).trans (moves_reset cfg _))
      · exact .of_eq hc (react_moves (hv _ hc))

/-! ### Timers -/

theorem moves_timeoutRtx (h : s.timerRtx.pending = true) : Moves cfg s (s.timeoutRtx cfg) := by
  unfold timeoutRtx retry
  extract_lets s₁
  have h₁ : s₁.control = { s.control with timerRtx := s.timerRtx.forceCancel } := rfl
  have hstate : s₁.state = s.state := rfl
  have hf : s₁.timerRtx.backoffFailed = s.timerRtx.backoffFailed := rfl
  clear_value s₁
  have hreset : ∀ s₂ : DccpAgent, s₂.control = s₁.control → Moves cfg s (s₂.reset cfg) := by
    intro s₂ h₂
    refine moves_of_move .reset ?_
    rw [control_reset, h₂, h₁]
    rfl
  have hretry : ∀ s₂ : DccpAgent, s₂.control = s₁.control → s.state.backsOff = true →
      Moves cfg s (if s₁.timerRtx.backoffFailed then s₂.reset cfg else s₁.output cfg false) := by
    intro s₂ h₂ hb
    split
    · exact hreset s₂ h₂
    · next hn =>
      refine moves_of_move (.retry hb (hf ▸ Bool.eq_false_of_not_eq_true hn)) ?_
      rw [control_output, hstate, if_pos hb, h₁]
      · rfl
      · intro ho
        rw [← hstate, ho] at hb
        cases hb
  have hfault : s.state.waits = false → Moves cfg s { s₁ with abort := some .timerRunning } := by
    intro hw
    refine moves_of_move (.rtxFault h hw) ?_
    change { s₁.control with abort := some .timerRunning } = _
    rw [h₁]
    rfl
  split
  · exact hreset _ (control_sendReset s₁)
  · next hs => exact hretry _ (control_sendReset s₁) (by rw [← hstate, hs]; rfl)
  · next hs => exact hretry _ (control_sendReset s₁) (by rw [← hstate, hs]; rfl)
  · next hs => exact hretry s₁ rfl (by rw [← hstate, hs]; rfl)
  all_goals
    next hs => exact hfault (by rw [← hstate, hs]; rfl)

theorem moves_timeoutSnd (h : s.timerSnd = true) : Moves cfg s (s.timeoutSnd cfg) := by
  unfold timeoutSnd
  extract_lets s₁
  split
  · next hs =>
    have hq : Moves cfg s s₁ := moves_of_move (.quiet (by simp) (.inl rfl)) rfl
    exact hq.trans (moves_output cfg s₁ false)
  · next hs => exact moves_of_move (.sndFault h hs) rfl

theorem moves_callbackReturns (cfg : DccpConfig) (s : DccpAgent) :
    Moves cfg s (s.callbackReturns cfg) := by
  unfold callbackReturns
  split
  · exact .refl
  · next frames _ =>
    have h : Moves cfg s { s with frames := frames } := .refl
    extract_lets s₁
    split
    · exact h.trans (moves_close cfg s₁)
    · exact h
  · next frames _ =>
    split
    · exact .refl
    · have h : Moves cfg s { s with frames := frames } := .refl
      exact h.trans (moves_finishRecv cfg _)
  · next frames _ =>
    have h : Moves cfg s { s with frames := frames } := .refl
    exact h.trans (moves_finishRecv cfg _)

/-! ### Steps -/

/-- What an event does: it moves the connection, it makes the agent a server, or it opens a
connection of a listening agent. -/
theorem step_cases {x : DccpEvent} (he : (dccpMachine cfg).Enabled s x)
    (hs : (dccpMachine cfg).step s x = .ok s') :
    MovesOrAccepts cfg s s' ∨ x = .listen ∧ s.state = .closed ∧ s'.control = s.control.listen := by
  obtain rfl := Except.ok.inj hs
  cases x with
  | listen =>
    dsimp only
    unfold DccpAgent.listen
    split
    · next h => exact .inr ⟨rfl, h, rfl⟩
    · exact .inl (.inl .refl)
  | sendmsg nbytes eof => exact .inl (.inl (moves_sendmsg cfg s nbytes eof))
  | advanceby delta => exact .inl (.inl (moves_advanceby cfg s delta))
  | close => exact .inl (.inl (moves_close cfg s))
  | recv pkt o => exact .inl (recv_moves cfg s pkt o)
  | timeoutRtx => exact .inl (.inl (moves_timeoutRtx he.2.2))
  | timeoutSnd => exact .inl (.inl (moves_timeoutSnd he.2.2))
  | callbackReturns => exact .inl (.inl (moves_callbackReturns cfg s))

end DccpAgent

end Ns2XPass
