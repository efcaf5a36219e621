import Ns2XPass.Agent.Machine
import Ns2XPass.Agent.Moves

/-! # The early CREDIT_STOP

`recv_credit` stops early when `credit_recved_rtt_` covers the packets that
remain. The counter is reset when a measuring window ends, but not when the
first CREDIT of a request starts one, and it counts the CREDITs of every state.
-/

namespace Ns2XPass

/-- A received CREDIT: its time, the state that it found and the number of requests so far. -/
structure WindowEntry where
  time : ℚ
  state : RecvState
  request : ℕ
  deriving DecidableEq

structure WindowLog where
  credits : List WindowEntry := []
  requests : ℕ := 0

namespace WindowLog

/-- The log after the CREDIT that arrives in a state. -/
def receive (g : WindowLog) (s : AgentState) : WindowLog :=
  { g with credits := g.credits ++ [⟨s.clock, s.agent.creditRecvState, g.requests⟩] }

/-- The CREDITs that a window of the current request should count: those that have answered this
request since the window started. -/
def inWindow (g : WindowLog) (start : ℚ) : ℕ :=
  (g.credits.filter fun e => start ≤ e.time ∧ e.request = g.requests ∧
    (e.state = .creditRequestSent ∨ e.state = .creditReceiving)).length

def record (s : AgentState) (x : AgentAction) (s' : AgentState) (g : WindowLog) : WindowLog :=
  let g := match x with
    | .input (.recv p _) => if p.ptype = .xpassCredit then g.receive s else g
    | _ => g
  if s.agent.creditRecvState ≠ .creditRequestSent ∧ s'.agent.creditRecvState = .creditRequestSent
  then { g with requests := g.requests + 1 } else g

end WindowLog

def windowLogMachine (cfg : Config) : Machine (AgentState × WindowLog) AgentAction Exit :=
  (agentMachine cfg).withHistory {} WindowLog.record

instance (cfg : Config) (s : AgentState × WindowLog) (x : AgentAction) :
    Decidable ((windowLogMachine cfg).Enabled s x) :=
  inferInstanceAs (Decidable (s.1.Enabled x))

namespace AgentState

/-- The start of the measuring window that a CREDIT finds or starts. -/
def windowStart (s : AgentState) : ℚ :=
  if s.agent.creditRecvState = .creditRequestSent then s.clock else s.agent.lastCreditRecvUpdate

/-- A step has scheduled the CREDIT_STOP although data remain. -/
def StopsEarly (s s' : AgentState) : Prop :=
  s.agent.creditStopTimer.status = .idle ∧ s'.agent.creditStopTimer.status = .pending ∧
    0 < s'.agent.datalenRemaining

instance (s s' : AgentState) : Decidable (s.StopsEarly s') :=
  inferInstanceAs (Decidable (_ ∧ _ ∧ _))

/-- An action stops early only if the window has enough CREDITs of the current request, and the
counter holds no others. -/
structure CountsWindow (cfg : Config) (s : AgentState) (g : WindowLog) (x : AgentAction) :
    Prop where
  stop : ∀ p r s', x = .input (.recv p r) → p.ptype = .xpassCredit → s.step cfg x = .ok s' →
    s.StopsEarly s' → s'.agent.pktRemaining cfg ≤ (g.receive s).inWindow s.windowStart
  counter : s.agent.creditRecvState = .creditReceiving →
    s.agent.creditRecvedRtt ≤ g.inWindow s.agent.lastCreditRecvUpdate

/-- The first CREDIT of a request finds the counter reset. -/
def FreshCounter (s : AgentState × WindowLog) : AgentAction → Prop
  | .input (.recv p _) => p.ptype = .xpassCredit →
      s.1.agent.creditRecvState = .creditRequestSent → s.1.agent.creditRecvedRtt = 0
  | _ => True

end AgentState

instance (s : AgentState × WindowLog) : DecidablePred (AgentState.FreshCounter s)
  | .input (.recv p _) => inferInstanceAs (Decidable (p.ptype = .xpassCredit → _ → _))
  | .tick _ | .input (.advanceBytes _) | .input (.expire _ _) => inferInstanceAs (Decidable True)

/-! ## What a CREDIT does to the window -/

namespace XPassAgent

variable {cfg : Config} {now : ℚ} {a a' : XPassAgent} {i : Input} {out : List Effect}

/-- The counter and the start of the window stay, or the window ends. -/
def Window (now : ℚ) (u : ℤ) (v : ℚ) (a' : XPassAgent) : Prop :=
  a'.creditRecvedRtt = u ∧ a'.lastCreditRecvUpdate = v ∨
    a'.creditRecvedRtt = 0 ∧ a'.lastCreditRecvUpdate = now

theorem checkCreditStop_window (h : a.checkCreditStop cfg now = .ok a') :
    a'.Window now a.creditRecvedRtt a.lastCreditRecvUpdate ∧
      (a.creditStopTimer.status = .idle → a'.creditStopTimer.status = .pending →
        0 < a'.datalenRemaining → a'.pktRemaining cfg ≤ a.creditRecvedRtt) := by
  unfold checkCreditStop earlyCreditStop at h
  split_ifs at h with h₁ h₂ h₃
  · obtain ⟨-, rfl⟩ := scheduleCreditStop_eq_ok_iff.mp h
    exact ⟨.inl ⟨rfl, rfl⟩, fun _ _ hpos => absurd h₁ (ne_of_gt hpos)⟩
  · simp only [bind_eq_ok, pure_eq_ok] at h
    obtain ⟨_, h, rfl⟩ := h
    obtain ⟨-, rfl⟩ := scheduleCreditStop_eq_ok_iff.mp h
    exact ⟨.inr ⟨rfl, rfl⟩, fun _ _ _ => h₃⟩
  · simp only [bind_eq_ok, pure_eq_ok, Except.ok.injEq] at h
    obtain ⟨_, rfl, rfl⟩ := h
    exact ⟨.inr ⟨rfl, rfl⟩, fun hi hp => by simp [hi] at hp⟩
  · obtain rfl := pure_eq_ok.mp h
    exact ⟨.inl ⟨rfl, rfl⟩, fun hi hp => by simp [hi] at hp⟩

/-- A CREDIT in the case XPASS_RECV_CREDIT_RECEIVING. -/
theorem creditReceiving_window {p : Packet} (h : a.creditReceiving cfg now p = .ok (a', out)) :
    a'.creditRecvState = a.creditRecvState ∧
      a'.Window now a.creditRecvedRtt a.lastCreditRecvUpdate ∧
      (a.creditStopTimer.status = .idle → a'.creditStopTimer.status = .pending →
        0 < a'.datalenRemaining → a'.pktRemaining cfg ≤ a.creditRecvedRtt) := by
  simp only [creditReceiving, bind_eq_ok, Prod.exists, pure_eq_ok, Prod.mk.injEq] at h
  obtain ⟨a₁, o, hd, a₂, hc, rfl, rfl⟩ := h
  have hw := checkCreditStop_window hc
  obtain ⟨_, _, _, rfl, -⟩ := checkCreditStop_eq_ok hc
  rcases sendData_eq_ok_iff.mp hd with ⟨-, rfl, -⟩ | ⟨-, -, rfl, -⟩
  · exact ⟨rfl, hw⟩
  · exact ⟨rfl, hw⟩

/-- No other input touches the window or enters its state. -/
theorem SenderMove.window (hm : SenderMove cfg now a i a' out)
    (hi : ∀ p r, i = .recv p r → p.ptype ≠ .xpassCredit) :
    a'.creditRecvedRtt = a.creditRecvedRtt ∧ a'.lastCreditRecvUpdate = a.lastCreditRecvUpdate ∧
      (a'.creditRecvState = .creditReceiving → a.creditRecvState = .creditReceiving) := by
  cases hm with
  | answerCredit hp | wasteCredit hp => exact absurd hp (hi _ _ rfl)
  | rewind => exact ⟨rfl, rfl, id⟩
  | unused _ hs => exact ⟨rfl, rfl, fun _ => hs⟩
  | _ => exact ⟨rfl, rfl, fun h => nomatch h⟩

theorem Move.window (hm : Move cfg now a i a' out)
    (hi : ∀ p r, i = .recv p r → p.ptype ≠ .xpassCredit) :
    a'.creditRecvedRtt = a.creditRecvedRtt ∧ a'.lastCreditRecvUpdate = a.lastCreditRecvUpdate ∧
      (a'.creditRecvState = .creditReceiving → a.creditRecvState = .creditReceiving) := by
  cases hm with
  | sender hm => exact hm.window hi
  | receiver hm => cases hm <;> exact ⟨rfl, rfl, id⟩
  | unknown _ _ ha => exact ha ▸ ⟨rfl, rfl, id⟩

/-- A CREDIT that is counted in a window: the one that starts it, or one that finds it. -/
def InWindow (now : ℚ) (a : XPassAgent) (v : ℚ) : Prop :=
  a.creditRecvState = .creditRequestSent ∧ v = now ∨
    a.creditRecvState = .creditReceiving ∧ v = a.lastCreditRecvUpdate

/-- What a CREDIT does outside a window and in one. -/
theorem recvCredit_window {p : Packet} (h : a.recvCredit cfg now p = .ok (a', out)) :
    (a'.creditRecvState = a.creditRecvState ∧ a.creditRecvState ≠ .creditReceiving ∧
      a.creditRecvState ≠ .creditRequestSent ∧
      a'.creditRecvedRtt = wrap32 (a.creditRecvedRtt + 1) ∧
      a'.creditStopTimer = a.creditStopTimer) ∨
    (a'.creditRecvState = .creditReceiving ∧ ∃ v, a.InWindow now v ∧
      a'.Window now (wrap32 (a.creditRecvedRtt + 1)) v ∧
      (a.creditStopTimer.status = .idle → a'.creditStopTimer.status = .pending →
        0 < a'.datalenRemaining → a'.pktRemaining cfg ≤ wrap32 (a.creditRecvedRtt + 1))) := by
  simp only [recvCredit] at h
  split at h
  · next hs =>
    obtain ⟨hst, hw⟩ := creditReceiving_window h
    exact .inr ⟨hst, _, .inl ⟨hs, rfl⟩, hw⟩
  · next hs =>
    obtain ⟨hst, hw⟩ := creditReceiving_window h
    exact .inr ⟨hst.trans hs, _, .inr ⟨hs, rfl⟩, hw⟩
  · next hs =>
    simp only [bind_eq_ok, Prod.exists, pure_eq_ok, Prod.mk.injEq] at h
    obtain ⟨_, _, hd, rfl, rfl⟩ := h
    rcases sendData_eq_ok_iff.mp hd with ⟨-, rfl, -⟩ | ⟨-, -, rfl, -⟩ <;>
      exact .inl ⟨rfl, by simp [hs], by simp [hs], rfl, rfl⟩
  · next hs => cases h; exact .inl ⟨rfl, by simp [hs], by simp [hs], rfl, rfl⟩
  · next hs => cases h; exact .inl ⟨rfl, by simp [hs], by simp [hs], rfl, rfl⟩

end XPassAgent

/-! ## Runs whose requests find the counter reset -/

namespace WindowLog

variable {g : WindowLog} {s s' : AgentState} {x : AgentAction} {start : ℚ}

/-- A CREDIT that answers the current request is one more in its window. -/
theorem inWindow_receive (ht : start ≤ s.clock)
    (hs : s.agent.creditRecvState = .creditRequestSent ∨ s.agent.creditRecvState = .creditReceiving) :
    (g.receive s).inWindow start = g.inWindow start + 1 := by
  simp only [inWindow, receive, List.filter_append, List.length_append]
  rw [List.filter_cons_of_pos (by simpa using ⟨ht, hs⟩)]
  rfl

theorem record_credit {p : Packet} {r : Rand} (hp : p.ptype = .xpassCredit)
    (h : s'.agent.creditRecvState = .creditRequestSent →
      s.agent.creditRecvState = .creditRequestSent) :
    record s (.input (.recv p r)) s' g = g.receive s := by
  simp only [record, if_pos hp]
  exact if_neg fun hc => hc.1 (h hc.2)

theorem record_other (hx : ∀ p r, x = .input (.recv p r) → p.ptype ≠ .xpassCredit)
    (h : s'.agent.creditRecvState = .creditReceiving) : record s x s' g = g := by
  have hc : ¬ (s.agent.creditRecvState ≠ .creditRequestSent ∧
      s'.agent.creditRecvState = .creditRequestSent) := fun hc => by simp [h] at hc
  unfold record
  split
  · next p r => simp only [if_neg (hx p r rfl), if_neg hc]
  · simp only [if_neg hc]

end WindowLog

theorem wrap32_ge (x : ℤ) : -2 ^ 31 ≤ wrap32 x := by
  unfold wrap32
  rw [Int.bmod_def]
  omega

theorem wrap32_succ_le {x : ℤ} (h : -2 ^ 31 ≤ x) : wrap32 (x + 1) ≤ x + 1 := by
  unfold wrap32
  rw [Int.bmod_def]
  omega

/-- The counter of a window holds no more than the CREDITs of the window. -/
structure CountedInWindow (s : AgentState) (g : WindowLog) : Prop where
  range : -2 ^ 31 ≤ s.agent.creditRecvedRtt
  start : s.agent.creditRecvState = .creditReceiving → s.agent.lastCreditRecvUpdate ≤ s.clock
  counter : s.agent.creditRecvState = .creditReceiving →
    s.agent.creditRecvedRtt ≤ g.inWindow s.agent.lastCreditRecvUpdate

namespace CountedInWindow

variable {cfg : Config} {s s' : AgentState} {g : WindowLog} {x : AgentAction} {p : Packet} {r : Rand}

/-- A CREDIT in a window is counted once there. -/
theorem receive {v : ℚ} (h : CountedInWindow s g)
    (hf : s.agent.creditRecvState = .creditRequestSent → s.agent.creditRecvedRtt = 0)
    (hv : s.agent.InWindow s.clock v) :
    wrap32 (s.agent.creditRecvedRtt + 1) ≤ (g.receive s).inWindow v := by
  have hle := wrap32_succ_le h.range
  rcases hv with ⟨hs, rfl⟩ | ⟨hs, rfl⟩
  · rw [WindowLog.inWindow_receive le_rfl (.inl hs)]
    rw [hf hs, zero_add] at hle ⊢
    push_cast
    omega
  · rw [WindowLog.inWindow_receive (h.start hs) (.inr hs)]
    have := h.counter hs
    push_cast
    omega

/-- Whether an action is a CREDIT. -/
theorem credit_or_other (x : AgentAction) :
    (∃ p r, x = .input (.recv p r) ∧ p.ptype = .xpassCredit) ∨
      ∀ p r, x = .input (.recv p r) → p.ptype ≠ .xpassCredit := by
  by_cases h : ∃ p r, x = .input (.recv p r) ∧ p.ptype = .xpassCredit
  · exact .inl h
  · exact .inr fun p r hx hp => h ⟨p, r, hx, hp⟩

theorem step_credit (h : CountedInWindow s g) (hp : p.ptype = .xpassCredit)
    (hf : s.agent.creditRecvState = .creditRequestSent → s.agent.creditRecvedRtt = 0)
    (hs : s.step cfg (.input (.recv p r)) = .ok s') : CountedInWindow s' (g.receive s) := by
  obtain ⟨out, hr, hclock⟩ := AgentState.step_input_iff.mp hs
  have hcredit : s.agent.recvCredit cfg s.clock p = .ok (s'.agent, out) := by
    simpa only [XPassAgent.react, XPassAgent.recv, hp] using hr
  rcases XPassAgent.recvCredit_window hcredit with ⟨hst, hne, -, hu, -⟩ | ⟨-, v, hv, hw, -⟩
  · refine ⟨hu ▸ wrap32_ge _, fun h' => absurd (hst ▸ h') hne, fun h' => absurd (hst ▸ h') hne⟩
  · have hle := h.receive hf hv
    have hstart : v ≤ s.clock := by
      rcases hv with ⟨-, rfl⟩ | ⟨hst, rfl⟩
      · exact le_rfl
      · exact h.start hst
    rcases hw with ⟨hu, ht⟩ | ⟨hu, ht⟩
    · exact ⟨hu ▸ wrap32_ge _, fun _ => by rw [ht, hclock]; exact hstart, fun _ => by rwa [hu, ht]⟩
    · refine ⟨by rw [hu]; norm_num, fun _ => by rw [ht, hclock], fun _ => ?_⟩
      rw [hu]
      exact Int.natCast_nonneg _

theorem step_other (h : CountedInWindow s g) (he : (agentMachine cfg).Enabled s x)
    (hx : ∀ p r, x = .input (.recv p r) → p.ptype ≠ .xpassCredit) (hs : s.step cfg x = .ok s') :
    CountedInWindow s' (WindowLog.record s x s' g) := by
  have hframe : s'.agent.creditRecvedRtt = s.agent.creditRecvedRtt ∧
      s'.agent.lastCreditRecvUpdate = s.agent.lastCreditRecvUpdate ∧
      (s'.agent.creditRecvState = .creditReceiving → s.agent.creditRecvState = .creditReceiving) ∧
      s.clock ≤ s'.clock := by
    cases x with
    | tick t => cases hs; exact ⟨rfl, rfl, id, he⟩
    | input i =>
      obtain ⟨out, hr, hclock⟩ := AgentState.step_input_iff.mp hs
      obtain ⟨hu, ht, hst⟩ := (XPassAgent.react_move hr).window fun p r hi => hx p r (by rw [hi])
      exact ⟨hu, ht, hst, hclock.ge⟩
  obtain ⟨hu, ht, hst, hclock⟩ := hframe
  refine ⟨hu ▸ h.range, fun h' => ?_, fun h' => ?_⟩
  · rw [ht]
    exact (h.start (hst h')).trans hclock
  · rw [hu, ht, WindowLog.record_other hx h']
    exact h.counter (hst h')

theorem step (h : CountedInWindow s g) (he : (agentMachine cfg).Enabled s x)
    (hf : AgentState.FreshCounter (s, g) x) (hs : s.step cfg x = .ok s') :
    CountedInWindow s' (WindowLog.record s x s' g) := by
  rcases credit_or_other x with ⟨p, r, rfl, hp⟩ | hx
  · rw [WindowLog.record_credit hp]
    · exact h.step_credit hp (hf hp) hs
    · intro h'
      obtain ⟨out, hr, -⟩ := AgentState.step_input_iff.mp hs
      have hcredit : s.agent.recvCredit cfg s.clock p = .ok (s'.agent, out) := by
        simpa only [XPassAgent.react, XPassAgent.recv, hp] using hr
      rcases XPassAgent.recvCredit_window hcredit with ⟨hst, -⟩ | ⟨hst, -⟩
      · exact hst ▸ h'
      · simp [hst] at h'
  · exact h.step_other he hx hs

end CountedInWindow

section Runs

variable {cfg : Config} {s : AgentState} {g : WindowLog} {x : AgentAction}

theorem countedInWindow_invariant (cfg : Config) :
    ((windowLogMachine cfg).restrict AgentState.FreshCounter).Invariant
      fun p => CountedInWindow p.1 p.2 where
  init p hi := by
    obtain ⟨ha, hg⟩ := hi
    have hst : p.1.agent.creditRecvState = .closed := by rw [ha]
    refine ⟨by rw [ha]; norm_num, fun h => ?_, fun h => ?_⟩ <;> simp [hst] at h
  step p x p' h he hs := by
    obtain ⟨hs, hg⟩ := (Machine.withHistory_step_iff ({} : WindowLog)).mp hs
    rw [hg]
    exact CountedInWindow.step h he.1 he.2 hs

/-- In every run in which the first CREDIT of each request finds the counter reset, an early
CREDIT_STOP has had enough CREDITs in its window. -/
theorem countsWindow_of_fresh
    (h : ((windowLogMachine cfg).restrict AgentState.FreshCounter).Reachable (s, g))
    (hx : AgentState.FreshCounter (s, g) x) : s.CountsWindow cfg g x := by
  have hinv := (countedInWindow_invariant cfg).reachable h
  refine ⟨?_, hinv.counter⟩
  rintro p r s' rfl hp hs ⟨hidle, hpending, hrem⟩
  obtain ⟨out, hr, -⟩ := AgentState.step_input_iff.mp hs
  have hcredit : s.agent.recvCredit cfg s.clock p = .ok (s'.agent, out) := by
    simpa only [XPassAgent.react, XPassAgent.recv, hp] using hr
  rcases XPassAgent.recvCredit_window hcredit with ⟨-, -, -, -, ht⟩ | ⟨-, v, hv, -, hle⟩
  · simp [ht, hidle] at hpending
  · have hstart : s.windowStart = v := by
      rcases hv with ⟨hst, rfl⟩ | ⟨hst, rfl⟩ <;> simp [AgentState.windowStart, hst]
    rw [hstart]
    exact (hle hidle hpending hrem).trans (hinv.receive (hx hp) hv)

end Runs

/-- A CREDIT without further fields. -/
def bareCredit : Packet where
  ptype := .xpassCredit
  size := 84

/-- A flow of one packet that receives two CREDITs after its CREDIT_STOP, and the first round trip
of a flow of five packets. -/
def stragglingCredits : List AgentAction :=
  [.input (.advanceBytes 1460), .tick (1 / 100), .input (.recv bareCredit default),
    .input (.expire .creditStop default), .input (.recv bareCredit default),
    .input (.recv bareCredit default), .tick (3 / 100),
    .input (.expire .senderRetransmit default), .tick (4 / 100),
    .input (.expire .senderRetransmit default), .input (.advanceBytes 7300), .tick (5 / 100),
    .input (.recv bareCredit default), .tick (6 / 100)]

/-- The CREDITs that straggled behind the first flow stop the second one, which has had two
CREDITs in its window and has three packets left. -/
theorem not_countsWindow : ∃ s g, (windowLogMachine {}).Reachable (s, g) ∧
    s.Enabled (.input (.recv bareCredit default)) ∧
    ¬ s.CountsWindow {} g (.input (.recv bareCredit default)) := by
  obtain ⟨⟨s, g⟩, h, hp⟩ := (Machine.Reachable.init (M := windowLogMachine {})
    (s := (⟨default, 0⟩, {})) ⟨rfl, rfl⟩).exists_of_exec stragglingCredits
    (fun p => match p.1.step {} (.input (.recv bareCredit default)) with
      | .ok s' => p.1.StopsEarly s' ∧
          (p.2.receive p.1).inWindow p.1.windowStart < s'.agent.pktRemaining {}
      | .error _ => false)
    (by decide +kernel)
  refine ⟨s, g, h, trivial, fun hc => ?_⟩
  cases hs : s.step {} (.input (.recv bareCredit default)) with
  | error e => rw [hs] at hp; cases hp
  | ok s' =>
    rw [hs] at hp
    have hp := of_decide_eq_true hp
    exact absurd (hc.stop _ _ _ rfl rfl hs hp.1) (not_le.mpr hp.2)

/-- A fresh flow of three packets stops early in its first window, with two CREDITs in it. -/
theorem countsWindow_second_credit : ∃ s g,
    ((windowLogMachine {}).restrict AgentState.FreshCounter).Reachable (s, g) ∧
      s.agent.creditRecvedRtt = 1 ∧
      s.CountsWindow {} g (.input (.recv bareCredit default)) := by
  obtain ⟨⟨s, g⟩, h, hp⟩ := (Machine.Reachable.init
    (M := (windowLogMachine {}).restrict AgentState.FreshCounter)
    (s := (⟨default, 0⟩, {})) ⟨rfl, rfl⟩).exists_of_exec
    [.input (.advanceBytes 4380), .tick (1 / 100), .input (.recv bareCredit default),
      .tick (2 / 100)]
    (fun p => p.1.agent.creditRecvedRtt = 1 ∧ p.1.agent.creditRecvState = .creditReceiving)
    (by decide +kernel)
  obtain ⟨hc, hst⟩ := of_decide_eq_true hp
  exact ⟨s, g, h, hc, countsWindow_of_fresh h fun _ hs => nomatch hst.symm.trans hs⟩

end Ns2XPass
