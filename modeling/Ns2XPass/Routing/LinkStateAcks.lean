import Ns2XPass.Routing.LinkStateHandlers

/-! # Acknowledgements of the link-state protocol

The acknowledgement of an advertisement carries the number of the message, and the
entry it should clear is looked up by the sequence number. The two are the same
unless the message has been made again from a topology message.
-/

namespace Ns2XPass

/-! ## Entries and timers -/

namespace LsUnackPeer

variable {p : LsUnackPeer} {msg ack : LsMessage}

/-- The entry that `messageOut` makes for a message is there. -/
def Awaits (p : LsUnackPeer) (msg : LsMessage) : Prop :=
  msg.type = .tpm ∧ p.tpmSeq ≠ 0 ∧ p.tpmSeq = msg.sequenceNumber ∨
    msg.type = .lsa ∧ p.lsaMap[msg.originNodeId]? = some ⟨msg.messageId, msg.sequenceNumber⟩

instance : Decidable (p.Awaits msg) := inferInstanceAs (Decidable (_ ∨ _))

theorem lsaMap_isEmpty_of_not_pending (h : ¬ p.Pending) : p.lsaMap.isEmpty = true := by
  unfold Pending at h
  grind

theorem Awaits.pending (h : p.Awaits msg) : p.Pending := by
  rcases h with ⟨-, h, -⟩ | ⟨-, h⟩
  · exact .inl h
  · refine .inr (Bool.eq_false_iff.mpr fun he => ?_)
    rw [(LsMap.isEmpty_iff _).mp he] at h
    simp at h

theorem acked_timer : (p.acked ack).timer = p.timer := by
  unfold acked
  repeat' split
  all_goals rfl

/-- An acknowledgement of a message, as a peer makes it. -/
def AckOf (msg ack : LsMessage) : Prop :=
  msg.type = .tpm ∧ ack.type = .tpmAck ∧ ack.sequenceNumber = msg.sequenceNumber ∨
    msg.type = .lsa ∧ ack.type = .lsaAck ∧ ack.originNodeId = msg.originNodeId ∧
      ack.sequenceNumber = msg.messageId

theorem awaits_of_acked (h : (p.acked ack).Awaits msg) : p.Awaits msg := by
  unfold acked at h
  split at h
  · split at h
    · rcases h with ⟨-, h, -⟩ | h
      · exact absurd rfl h
      · exact .inr h
    · exact h
  · split at h
    · rcases h with h | ⟨ht, h⟩
      · exact .inl h
      · rw [LsMap.get_erase] at h
        split at h
        · simp at h
        · exact .inr ⟨ht, h⟩
    · exact h
  · exact h
  · exact h

/-- The acknowledgement of a message clears its entry if it is a topology message, or its two
numbers are the same. -/
theorem acked_awaits_iff (h : AckOf msg ack) : (p.acked ack).Awaits msg ↔
    p.Awaits msg ∧ ¬ (msg.type = .tpm ∨ msg.messageId = msg.sequenceNumber) := by
  rcases h with ⟨ht, ha, hs⟩ | ⟨ht, ha, ho, hs⟩
  · simp only [Awaits, acked, ht, ha, hs]
    split <;> simp_all
  · simp only [Awaits, acked, ht, ha, ho, hs]
    cases he : p.lsaMap[msg.originNodeId]? with
    | none => simp [he]
    | some e =>
      by_cases hseq : e.seq = msg.messageId
      · have hget := LsMap.get_erase p.lsaMap msg.originNodeId msg.originNodeId
        rw [if_pos rfl] at hget
        simp only [Option.any_some, hseq, decide_true, if_true, hget]
        constructor
        · rintro (⟨h, -⟩ | ⟨-, h⟩) <;> simp at h
        · rintro ⟨⟨h, -⟩ | ⟨-, h⟩, hn⟩
          · simp at h
          · obtain rfl := Option.some.inj h
            exact absurd (.inr hseq.symm) hn
      · simp only [Option.any_some, hseq, decide_false, Bool.false_eq_true, if_false, he]
        constructor
        · rintro (⟨h, -⟩ | ⟨-, h⟩)
          · simp at h
          · obtain rfl := Option.some.inj h
            exact ⟨.inr ⟨trivial, rfl⟩, by rintro (h | h) <;> simp_all⟩
        · exact fun h => h.1

end LsUnackPeer

namespace LsAckManager

variable {m m' : LsAckManager} {now : ℚ} {k : ℤ} {msg ack : LsMessage}

/-- The timer of a peer is pending as long as some message is not acknowledged. -/
def Timed (m : LsAckManager) : Prop :=
  ∀ (k : ℤ) p, m[k]? = some p → p.timer.Armed p.Pending

/-- The entry of a message to a peer is there. -/
def Awaits (m : LsAckManager) (k : ℤ) (msg : LsMessage) : Prop :=
  ∃ p, m[k]? = some p ∧ p.Awaits msg

theorem Timed.insert (h : m.Timed) {p : LsUnackPeer} (hp : p.timer.Armed p.Pending) :
    LsAckManager.Timed (Std.TreeMap.insert m k p) := by
  intro j q hq
  rw [LsMap.get_insert] at hq
  split at hq
  · exact Option.some.inj hq ▸ hp
  · exact h j q hq

theorem Timed.messageOut (h : m.Timed) (ht : msg.type = .tpm → msg.sequenceNumber ≠ 0)
    (hf : msg.type.Flooded) : (m.messageOut now k msg).Timed := by
  refine h.insert (.resched ?_)
  rcases hf with hf | hf
  · refine .inr (Bool.eq_false_iff.mpr fun he => ?_)
    have hnone := (LsMap.isEmpty_iff _).mp he msg.originNodeId
    simp [LsUnackPeer.record, hf] at hnone
  · simp [LsUnackPeer.Pending, LsUnackPeer.record, hf, ht hf]

theorem Timed.cancelTimer (h : m.Timed) : (m.cancelTimer k).Timed := by
  unfold LsAckManager.cancelTimer
  split
  · exact h
  · next p hp =>
    refine h.insert ((h k p hp).forceCancel ?_)
    have he : (∅ : LsMap LsIdSeq).isEmpty = true := (LsMap.isEmpty_iff _).mpr LsMap.get_empty
    simp [LsUnackPeer.Pending, he]

theorem Timed.resendMessages (h : m.Timed) {r : List ℤ × LsAckManager}
    (hr : m.resendMessages now k = .ok r) : r.2.Timed := by
  unfold LsAckManager.resendMessages at hr
  split at hr
  · simp at hr
  · next p hp =>
    obtain ⟨t, ht, hr⟩ := bind_eq_ok.mp hr
    obtain rfl := pure_eq_ok.mp hr
    have hpend : p.Pending := (h k p hp).pending_iff.mp
      (TimerHandler.beginHandle_eq_ok_iff.mp (mapError_eq_ok.mp ht)).1
    exact h.insert (.resched hpend)

/-- An acknowledgement does not abort, and clears the entry that it is compared with. -/
theorem Timed.ackIn (h : m.Timed) (k : ℤ) (ack : LsMessage) :
    ∃ m', m.ackIn k ack = .ok m' ∧ m'.Timed ∧
      ∀ msg, m'.Awaits k msg ↔ ∃ p, m[k]? = some p ∧ (p.acked ack).Awaits msg := by
  unfold LsAckManager.ackIn
  cases hp : m[k]? with
  | none => exact ⟨m, rfl, h, fun msg => by simp [Awaits, hp]⟩
  | some p =>
    have hget : ∀ (q : LsUnackPeer) msg,
        LsAckManager.Awaits (Std.TreeMap.insert m k q) k msg ↔ q.Awaits msg := by
      intro q msg
      simp [Awaits]
    dsimp only
    split
    · next hn =>
      refine ⟨m, rfl, h, fun msg => ⟨?_, ?_⟩⟩
      · rintro ⟨q, hq, ha⟩
        obtain rfl := Option.some.inj (hp.symm.trans hq)
        exact absurd ha.pending hn
      · rintro ⟨q, hq, ha⟩
        obtain rfl := Option.some.inj hq
        exact absurd (LsUnackPeer.awaits_of_acked ha).pending hn
    · next hpend =>
      have hpend := not_not.mp hpend
      have harm : p.timer.status = .pending := (h k p hp).pending_iff.mpr hpend
      split
      · next hacked =>
        refine ⟨_, rfl, h.insert (.inl ⟨?_, hacked⟩), fun msg => ?_⟩
        · rw [LsUnackPeer.acked_timer]
          exact harm
        · rw [hget]
          simp
      · next hacked =>
        have hcancel : (p.acked ack).timer.cancel =
            .ok { (p.acked ack).timer with status := .idle } := by
          rw [LsUnackPeer.acked_timer]
          exact if_neg (not_not.mpr harm)
        refine ⟨Std.TreeMap.insert m k { p.acked ack with
            timer := { (p.acked ack).timer with status := .idle } },
          by rw [hcancel]; rfl, h.insert (.idle rfl hacked), fun msg => ?_⟩
        rw [hget]
        constructor
        · exact fun ha => ⟨p, rfl, ha⟩
        · rintro ⟨q, hq, ha⟩
          obtain rfl := Option.some.inj hq
          exact ha

end LsAckManager

/-! ## The message center -/

namespace LsMessageCenter

theorem nextId_mod (id : ℤ) : nextId id % 2 = id % 2 := by
  unfold nextId
  split <;> omega

/-- The numbers tell the two kinds of messages apart. -/
structure Numbered (c : LsMessageCenter) : Prop where
  lsaId : c.currentLsaId % 2 = 1
  otherId : c.currentOtherId % 2 = 0
  odd : ∀ (k : ℤ) m, c.lsaMessages[k]? = some m →
    m.type.Flooded ∧ m.messageId % 2 = 1 ∧ k = m.messageId
  tpm : ∀ (k : ℤ) m, c.lsaMessages[k]? = some m → m.type = .tpm → m.sequenceNumber = m.messageId

end LsMessageCenter

namespace LsHost

variable {h h' h₀ : LsHost} {now : ℚ} {fuel : ℕ} {n nbrId origin seq : ℤ} {msg : LsMessage}
  {type : LsMessageType}

/-- What the handlers keep. -/
structure Kept (h₀ h : LsHost) : Prop where
  numbered : h.center.Numbered
  timed : h.node.ackManager.Timed
  me : h.node.myNodeId = h₀.node.myNodeId
  peers : h.node.peerIdList = h₀.node.peerIdList
  sent : ∀ p ∈ h.sent, p.sender = h.node.myNodeId ∧ p.receiver ∈ h.node.peerIdList

/-- What they keep if they neither make nor delete an acknowledgement. -/
structure Quiet (h₀ h : LsHost) : Prop extends Kept h₀ h where
  other : h.center.otherMessages = h₀.center.otherMessages
  otherId : h.center.currentOtherId = h₀.center.currentOtherId

theorem Kept.quiet (hk : Kept h₀ h) : Quiet h h :=
  ⟨⟨hk.numbered, hk.timed, rfl, rfl, hk.sent⟩, rfl, rfl⟩

theorem Quiet.sendMessage (hq : Quiet h₀ h) (d i : ℤ) : Quiet h₀ (h.sendMessage d i) := by
  unfold LsHost.sendMessage
  split
  · next hd =>
    refine { hq with sent := fun p hp => ?_ }
    rcases List.mem_append.mp hp with hp | hp
    · exact hq.sent p hp
    · obtain rfl := List.mem_singleton.mp hp
      exact ⟨rfl, hd⟩
  · exact hq

theorem Quiet.create {fill : LsMessage → LsMessage} {r : LsMessage × LsHost} (hq : Quiet h₀ h)
    (ht : type.Flooded) (hf : Fills fill)
    (hseq : type = .tpm → ∀ m, (fill m).sequenceNumber = m.sequenceNumber)
    (hc : Created h n type fill r) : Quiet h₀ r.2 := by
  have hid : r.1.messageId = h.center.currentLsaId := by rw [hc.msg, hf.messageId]
  have htype : r.1.type = type := by rw [hc.msg, hf.type]
  have hnumbered : r.2.center.Numbered := by
    refine ⟨?_, ?_, fun k m hk => ?_, fun k m hk hm => ?_⟩
    · rw [hc.lsaId, LsMessageCenter.nextId_mod]
      exact hq.numbered.lsaId
    · rw [hc.otherId]
      exact hq.numbered.otherId
    · rcases hc.kept k m hk with ⟨rfl, rfl⟩ | ⟨-, hk⟩
      · rw [htype, hid]
        exact ⟨ht, hq.numbered.lsaId, rfl⟩
      · exact hq.numbered.odd k m hk
    · rcases hc.kept k m hk with ⟨rfl, rfl⟩ | ⟨-, hk⟩
      · rw [htype] at hm
        rw [hid, hc.msg, hseq hm]
      · exact hq.numbered.tpm k m hk hm
  refine ⟨⟨hnumbered, ?_, ?_, ?_, ?_⟩, ?_, ?_⟩
  · rw [hc.node]; exact hq.timed
  · rw [hc.node]; exact hq.me
  · rw [hc.node]; exact hq.peers
  · rw [hc.node, hc.sent]; exact hq.sent
  · rw [hc.other]; exact hq.other
  · rw [hc.otherId]; exact hq.otherId

theorem quiet_stable (h₀ : LsHost) : Stable (Quiet h₀) where
  sendMessage _ d i hq := hq.sendMessage d i
  messageOut h now k m hm hq := by
    obtain ⟨hf, hodd, -⟩ := hq.numbered.odd _ _ hm
    refine { hq with timed := hq.timed.messageOut (fun ht => ?_) hf }
    have := hq.numbered.tpm _ _ hm ht
    omega
  bufferedSend _ _ _ hq := { hq with }
  emptyBuffer _ hq := { hq with }
  cancelTimer _ _ hq := { hq with timed := hq.timed.cancelTimer }
  create _ _ _ _ _ ht hf hseq _ hq hc := hq.create ht hf hseq hc
  setDatabase _ _ hq := { hq with }
  routingTable _ _ hq := { hq with }
  lsaHistory _ _ hq := { hq with }
  tpmHistory _ _ hq := { hq with }
  linkStateList _ _ hq := { hq with }
  advertise _ _ _ _ hf hq hc := hq.create (.inl rfl) hf (by simp) hc

theorem Quiet.expire {peerId : ℤ} (hq : Quiet h₀ h) (hr : h.expire now peerId = .ok h') :
    Quiet h₀ h' := by
  obtain ⟨r, hresend, hr⟩ := bind_eq_ok.mp hr
  obtain rfl := pure_eq_ok.mp hr
  have hset : Quiet h₀ { h with node := { h.node with ackManager := r.2 } } :=
    { hq with timed := hq.timed.resendMessages hresend }
  exact List.foldlRecOn r.1 _ hset fun h hq i _ => hq.sendMessage peerId i

theorem Kept.acked (hk : Kept h₀ h) (ha : Acked h nbrId type origin seq h') : Kept h₀ h' := by
  refine ⟨⟨?_, ?_, ?_, ?_⟩, ?_, ?_, ?_, fun p hp => ?_⟩
  · rw [ha.lsaId]; exact hk.numbered.lsaId
  · rw [ha.otherId, LsMessageCenter.nextId_mod]; exact hk.numbered.otherId
  · rw [ha.lsa]; exact hk.numbered.odd
  · rw [ha.lsa]; exact hk.numbered.tpm
  · rw [ha.node]; exact hk.timed
  · rw [ha.node]; exact hk.me
  · rw [ha.node]; exact hk.peers
  · rw [ha.node]
    rcases ha.sent with hs | ⟨hmem, hs⟩
    · exact hk.sent p (hs ▸ hp)
    · rw [hs] at hp
      rcases List.mem_append.mp hp with hp | hp
      · exact hk.sent p hp
      · obtain rfl := List.mem_singleton.mp hp
        exact ⟨rfl, hmem⟩

end LsHost

/-! ## The network -/

namespace LsNetwork

/-- For each acknowledgement the node that has made it, the node it is made for, and the message
that has been received. -/
abbrev AckHistory := ℤ → Option (ℤ × ℤ × LsMessage)

/-- The message for which a step makes an acknowledgement. -/
def received (s : LsNetwork) (x : ℚ × LsEvent) : Option (ℤ × ℤ × LsMessage) :=
  match x.2 with
  | .deliver p => ((s.incoming p).filter fun m => m.type.Flooded).map fun m =>
      (p.receiver, p.sender, m)
  | _ => none

def recordAck (s : LsNetwork) (x : ℚ × LsEvent) (_ : LsNetwork) (g : AckHistory) : AckHistory :=
  (s.received x).elim g fun r => Function.update g s.center.currentOtherId (some r)

def withAcks (fuel : ℕ) : Machine (LsNetwork × AckHistory) (ℚ × LsEvent) LsAbort :=
  (machine fuel).withHistory (fun _ => none) recordAck

variable {s s' : LsNetwork} {g g' : AckHistory} {fuel : ℕ} {now : ℚ} {n : ℤ} {h h' : LsHost}

structure Sound (s : LsNetwork) (g : AckHistory) : Prop where
  numbered : s.center.Numbered
  timed : ∀ n, (s.nodes n).ackManager.Timed
  me : ∀ n, (s.nodes n).myNodeId = n
  flying : ∀ p ∈ s.flying, p.receiver ∈ (s.nodes p.sender).peerIdList
  acks : ∀ (k : ℤ) a, s.center.otherMessages[k]? = some a →
    ∃ r, g k = some r ∧ LsUnackPeer.AckOf r.2.2 a
  known : ∀ k r, g k = some r → k % 2 = 0 ∧ r.1 ∈ (s.nodes r.2.1).peerIdList

theorem Sound.kept (hs : Sound s g) (n : ℤ) : LsHost.Kept (s.host n) (s.host n) :=
  ⟨hs.numbered, hs.timed n, rfl, rfl, by simp [host]⟩

theorem peers_after (hk : LsHost.Kept (s.host n) h) (m : ℤ) :
    ((s.after n h).nodes m).peerIdList = (s.nodes m).peerIdList := by
  by_cases hm : m = n
  · subst hm
    rw [after_self]
    exact hk.peers
  · rw [after_of_ne hm]

theorem Sound.after (hs : Sound s g) (hk : LsHost.Kept (s.host n) h)
    (hacks : ∀ (k : ℤ) a, h.center.otherMessages[k]? = some a →
      ∃ r, g' k = some r ∧ LsUnackPeer.AckOf r.2.2 a)
    (hknown : ∀ k r, g' k = some r → k % 2 = 0 ∧ r.1 ∈ (s.nodes r.2.1).peerIdList) :
    Sound (s.after n h) g' := by
  refine ⟨hk.numbered, fun m => ?_, fun m => ?_, fun p hp => ?_, hacks, fun k r hr => ?_⟩
  · by_cases hm : m = n
    · subst hm
      rw [after_self]
      exact hk.timed
    · rw [after_of_ne hm]
      exact hs.timed m
  · by_cases hm : m = n
    · subst hm
      rw [after_self, hk.me]
      exact hs.me m
    · rw [after_of_ne hm]
      exact hs.me m
  · rw [peers_after hk]
    rcases List.mem_append.mp hp with hp | hp
    · exact hs.flying p hp
    · obtain ⟨hsend, hrec⟩ := hk.sent p hp
      rw [hk.me] at hsend
      rw [hk.peers] at hrec
      have : p.sender = n := hsend.trans (hs.me n)
      rw [this]
      exact hrec
  · rw [peers_after hk]
    exact hknown k r hr

theorem Sound.quiet (hs : Sound s g) (hq : LsHost.Quiet (s.host n) h) : Sound (s.after n h) g :=
  hs.after hq.toKept (fun k a ha => hs.acks k a (by rw [hq.other] at ha; exact ha)) hs.known

theorem Sound.fewer (hs : Sound s g) {ps : List LsPacket} (hps : ∀ p ∈ ps, p ∈ s.flying) :
    Sound { s with flying := ps } g :=
  { hs with flying := fun p hp => hs.flying p (hps p hp) }

theorem ackOf_lsa {m : LsMessage} {k : ℤ} (h : m.type = .lsa) :
    LsUnackPeer.AckOf m ⟨.lsaAck, k, m.messageId, m.originNodeId, .null⟩ :=
  .inr ⟨h, rfl, rfl, rfl⟩

theorem ackOf_tpm {m : LsMessage} {k origin : ℤ} (h : m.type = .tpm) :
    LsUnackPeer.AckOf m ⟨.tpmAck, k, m.sequenceNumber, origin, .null⟩ :=
  .inl ⟨h, rfl, rfl⟩

/-- A node that has received a message and made its acknowledgement. -/
theorem Sound.acked {type : LsMessageType} {origin seq : ℤ} {p : LsPacket} {m : LsMessage}
    (hs : Sound s g) (hp : p.receiver ∈ (s.nodes p.sender).peerIdList)
    (ha : LsHost.Acked (s.host p.receiver) n type origin seq h)
    (hack : LsUnackPeer.AckOf m ⟨type, s.center.currentOtherId, seq, origin, .null⟩)
    (hq : LsHost.Quiet h h') :
    Sound (s.after p.receiver h')
      (Function.update g s.center.currentOtherId (some (p.receiver, p.sender, m))) := by
  have hk := (hs.kept p.receiver).acked ha
  have hk' : LsHost.Kept (s.host p.receiver) h' :=
    ⟨hq.numbered, hq.timed, hq.me.trans hk.me, hq.peers.trans hk.peers, hq.sent⟩
  refine hs.after hk' (fun k a hka => ?_) fun k r hr => ?_
  · rw [hq.other] at hka
    rcases ha.kept k a hka with ⟨rfl, rfl⟩ | ⟨hne, hka⟩
    · exact ⟨_, Function.update_self .., hack⟩
    · obtain ⟨r, hr, hof⟩ := hs.acks k a hka
      exact ⟨r, (Function.update_of_ne hne ..).trans hr, hof⟩
  · by_cases hk : k = s.center.currentOtherId
    · subst hk
      rw [Function.update_self] at hr
      obtain rfl := Option.some.inj hr
      exact ⟨hs.numbered.otherId, hp⟩
    · rw [Function.update_of_ne hk] at hr
      exact hs.known k r hr

theorem Sound.flooded (hs : Sound s g) {k : ℤ} {m : LsMessage}
    (hm : s.center.retrieveMessage k = some m) (hf : m.type.Flooded) :
    s.center.lsaMessages[m.messageId]? = some m := by
  unfold LsMessageCenter.retrieveMessage at hm
  split at hm
  · obtain ⟨-, -, rfl⟩ := hs.numbered.odd k m hm
    exact hm
  · obtain ⟨r, -, hof⟩ := hs.acks k m hm
    rcases hof with ⟨-, ht, -⟩ | ⟨-, ht, -⟩ <;> simp [LsMessageType.Flooded, ht] at hf

theorem recordAck_of_none {x : ℚ × LsEvent} (h : s.received x = none) :
    recordAck s x s' g = g := by
  rw [recordAck, h, Option.elim_none]

/-- An acknowledgement is received. -/
theorem Sound.receiveAck (hs : Sound s g) (n peerId msgId : ℤ) (a : LsMessage) :
    ∃ h, (s.host n).receiveAck peerId msgId a = .ok h ∧ Sound (s.after n h) g ∧
      ∀ msg, h.node.ackManager.Awaits peerId msg ↔
        ∃ p, (s.nodes n).ackManager[peerId]? = some p ∧ (p.acked a).Awaits msg := by
  obtain ⟨m, hm, htimed, haw⟩ := (hs.timed n).ackIn peerId a
  refine ⟨_, bind_eq_ok.mpr ⟨m, hm, rfl⟩, hs.after ?_ (fun k b hb => ?_) hs.known, haw⟩
  · exact ⟨{ hs.numbered with }, htimed, rfl, rfl, by simp [host]⟩
  · simp only [LsMessageCenter.deleteMessage, LsMap.get_erase] at hb
    split at hb
    · simp at hb
    · exact hs.acks k b hb

theorem retrieveMessage_of_incoming {p : LsPacket} {m : LsMessage}
    (h : s.incoming p = some m) : s.center.retrieveMessage p.msgId = some m := by
  unfold incoming at h
  split at h
  · simp at h
  · exact h

theorem Sound.deliver {p : LsPacket} (hs : Sound s g) (hp : p ∈ s.flying)
    (hd : s.deliver now fuel p = .ok s') :
    Sound s' (recordAck s (now, .deliver p) s' g) := by
  obtain ⟨h, rfl, hcase⟩ := deliver_cases hd
  have hs₀ : Sound { s with flying := s.flying.erase p } g :=
    hs.fewer fun q hq => List.mem_of_mem_erase hq
  rcases hcase with ⟨hm, rfl⟩ | ⟨m, hm, hhandles⟩
  · rw [recordAck_of_none (by simp [received, hm])]
    exact hs₀.quiet (hs₀.kept p.receiver).quiet
  · have hrec : m.type.Flooded → recordAck s (now, .deliver p)
        (({ s with flying := s.flying.erase p } : LsNetwork).after p.receiver h) g =
          Function.update g s.center.currentOtherId (some (p.receiver, p.sender, m)) := by
      intro hf
      simp [recordAck, received, hm, Option.filter, hf]
    have hretrieve := retrieveMessage_of_incoming hm
    cases hhandles with
    | tpm ht hr =>
      obtain ⟨h₁, hack, hr⟩ := bind_eq_ok.mp hr
      have ha := LsHost.acked (by simp [LsMessageType.Flooded]) hack
      have hk := (hs₀.kept p.receiver).acked ha
      rw [hrec (.inr ht)]
      exact hs₀.acked (hs.flying p hp) ha (ackOf_tpm ht)
        ((LsHost.quiet_stable h₁).acceptTopo hk.quiet hr)
    | lsa ht hr =>
      obtain ⟨h₁, hack, hr⟩ := bind_eq_ok.mp hr
      have ha := LsHost.acked (by simp [LsMessageType.Flooded]) hack
      have hk := (hs₀.kept p.receiver).acked ha
      have hstored : h₁.center.lsaMessages[m.messageId]? = some m := by
        rw [ha.lsa]
        exact hs.flooded hretrieve (.inl ht)
      rw [hrec (.inl ht)]
      exact hs₀.acked (hs.flying p hp) ha (ackOf_lsa ht)
        ((LsHost.quiet_stable h₁).acceptLSA hstored hk.quiet hr)
    | ack ht hr =>
      obtain ⟨h₁, hok, hsound, -⟩ := hs₀.receiveAck p.receiver p.sender p.msgId m
      obtain rfl := Except.ok.inj (hok.symm.trans hr)
      rw [recordAck_of_none (by simp [received, hm, Option.filter, ht])]
      exact hsound

theorem Start.sound {peers : ℤ → List ℤ} {links : ℤ → List LsLink}
    {delays : ℤ → LsMap (WithTop ℚ)} (h : s.Start fuel peers links delays) :
    Sound s fun _ => none := by
  have hnodes := h.nodes
  refine ⟨?_, fun n k p hp => ?_, fun n => ?_, ?_, ?_, fun _ _ hr => by simp at hr⟩
  · rw [h.center]
    exact ⟨rfl, rfl, fun k m hk => by simp at hk, fun k m hk => by simp at hk⟩
  · rw [hnodes] at hp
    simp only [LsRouting.start, Std.TreeMap.getElem?_map, Option.map_eq_some_iff] at hp
    obtain ⟨d, -, rfl⟩ := hp
    have he : (∅ : LsMap LsIdSeq).isEmpty = true := (LsMap.isEmpty_iff _).mpr LsMap.get_empty
    exact .idle rfl (by simp [LsUnackPeer.Pending, he])
  · rw [hnodes]
    rfl
  · rw [h.flying]
    simp
  · rw [h.center]
    intro k a ha
    simp at ha

theorem sound_invariant (fuel : ℕ) : (withAcks fuel).Invariant fun p => Sound p.1 p.2 where
  init := by
    rintro ⟨s, g⟩ ⟨⟨peers, links, delays, hstart⟩, rfl⟩
    exact hstart.sound
  step := by
    rintro ⟨s, g⟩ ⟨now, e⟩ ⟨s', g'⟩ hs he hst
    obtain ⟨hstep, hg⟩ := (Machine.withHistory_step_iff _).mp hst
    obtain rfl : g' = recordAck s (now, e) s' g := hg
    have hquiet := (hs.kept · |>.quiet)
    cases e with
    | deliver p => exact hs.deliver he hstep
    | duplicate p =>
      obtain rfl := Except.ok.inj hstep
      refine hs.fewer fun q hq => ?_
      rcases List.mem_cons.mp hq with rfl | hq
      · exact he
      · exact hq
    | lose p =>
      obtain rfl := Except.ok.inj hstep
      exact hs.fewer fun q hq => List.mem_of_mem_erase hq
    | expire n peerId =>
      obtain ⟨h, hr, hstep⟩ := bind_eq_ok.mp hstep
      obtain rfl := pure_eq_ok.mp hstep
      exact hs.quiet ((hquiet n).expire hr)
    | intfChanged n links =>
      obtain ⟨h, hr, hstep⟩ := bind_eq_ok.mp hstep
      obtain rfl := pure_eq_ok.mp hstep
      exact hs.quiet ((LsHost.quiet_stable _).intfChanged (hquiet n) hr)
    | sendBufferedMessages n =>
      obtain ⟨h, hr, hstep⟩ := bind_eq_ok.mp hstep
      obtain rfl := pure_eq_ok.mp hstep
      exact hs.quiet ((LsHost.quiet_stable _).toSending.sendBufferedMessages (hquiet n) hr)
    | sendUpdates n =>
      obtain ⟨h, hr, hstep⟩ := bind_eq_ok.mp hstep
      obtain rfl := pure_eq_ok.mp hstep
      exact hs.quiet ((LsHost.quiet_stable _).sendLinkStates (hquiet n) hr)

/-- The acknowledgement of a message, in a packet, clears the entry of the message. -/
def Settles (s : LsNetwork) (p : LsPacket) (msg : LsMessage) : Prop :=
  p.sender ≠ lsInvalidNodeId ∧ s.center.otherMessages.contains p.msgId = true ∧
    (msg.type = .tpm ∨ msg.messageId = msg.sequenceNumber)

/-- A retransmission timer is pending as long as some message is not acknowledged. When a node
gets the acknowledgement of a message, the message is not awaited any more if and only if it was
not before or the acknowledgement settles it. -/
theorem acks_settle (hr : (withAcks fuel).Reachable (s, g)) :
    (∀ n (k : ℤ) p, (s.nodes n).ackManager[k]? = some p →
      (p.timer.status = .pending ↔ p.Pending)) ∧
    ∀ (p : LsPacket) (msg : LsMessage) (now : ℚ), p ∈ s.flying →
      g p.msgId = some (p.sender, p.receiver, msg) →
      ∃ s', s.step fuel (now, .deliver p) = .ok s' ∧
        (¬ (s'.nodes p.receiver).ackManager.Awaits p.sender msg ↔
          ((s.nodes p.receiver).ackManager.Awaits p.sender msg → s.Settles p msg)) := by
  have hs := (sound_invariant fuel).reachable hr
  refine ⟨fun n k p hp => (hs.timed n k p hp).pending_iff, fun p msg now hp hg => ?_⟩
  obtain ⟨heven, hpeer⟩ := hs.known _ _ hg
  have hs₀ : Sound { s with flying := s.flying.erase p } g :=
    hs.fewer fun q hq => List.mem_of_mem_erase hq
  have hfind : (s.host p.receiver).findPeerNodeId p.sender = p.sender := if_pos hpeer
  have hret : s.center.retrieveMessage p.msgId = s.center.otherMessages[p.msgId]? :=
    if_neg (by unfold LsMessageCenter.IsLSA; omega)
  have hsame : ∀ h, h.node = s.nodes p.receiver →
      (({ s with flying := s.flying.erase p } : LsNetwork).after p.receiver h).nodes p.receiver =
        s.nodes p.receiver := fun h hh => after_self.trans hh
  have hdeliver : ∀ h, (s.host p.receiver).receiveMessage now fuel s.databases p.sender p.msgId =
      .ok h → s.step fuel (now, .deliver p) =
        .ok (({ s with flying := s.flying.erase p } : LsNetwork).after p.receiver h) := by
    intro h hh
    refine bind_eq_ok.mpr ⟨h, ?_, rfl⟩
    rw [hfind]
    exact hh
  unfold Settles
  by_cases hinv : p.sender = lsInvalidNodeId
  · refine ⟨_, hdeliver (s.host p.receiver) (if_pos hinv), ?_⟩
    rw [hsame _ rfl]
    exact ⟨fun h h' => absurd h' h, fun h h' => (h h').1 hinv⟩
  · cases hm : s.center.otherMessages[p.msgId]? with
    | none =>
      refine ⟨_, hdeliver (s.host p.receiver) ?_, ?_⟩
      · have : (s.host p.receiver).center.retrieveMessage p.msgId = none := hret.trans hm
        rw [LsHost.receiveMessage, if_neg hinv, this]
      · rw [hsame _ rfl, Std.TreeMap.contains_eq_isSome_getElem?, hm]
        exact ⟨fun h h' => absurd h' h, fun h h' => by simpa using (h h').2.1⟩
    | some a =>
      obtain ⟨r, hr', hof⟩ := hs.acks _ _ hm
      obtain rfl := Option.some.inj (hg.symm.trans hr')
      obtain ⟨h, hok, -, haw⟩ := hs₀.receiveAck p.receiver p.sender p.msgId a
      refine ⟨_, hdeliver h ?_, ?_⟩
      · have : (s.host p.receiver).center.retrieveMessage p.msgId = some a := hret.trans hm
        rw [LsHost.receiveMessage, if_neg hinv, this]
        rcases hof with ⟨-, ht, -⟩ | ⟨-, ht, -⟩ <;>
        · dsimp only
          rw [ht]
          exact hok
      · rw [after_self, haw, Std.TreeMap.contains_eq_isSome_getElem?, hm]
        constructor
        · rintro hn ⟨q, hq, ha⟩
          refine ⟨hinv, rfl, by_contra fun hc => hn ⟨q, hq, ?_⟩⟩
          exact (LsUnackPeer.acked_awaits_iff hof).mpr ⟨ha, hc⟩
        · rintro hset ⟨q, hq, ha⟩
          obtain ⟨ha, hc⟩ := (LsUnackPeer.acked_awaits_iff hof).mp ha
          exact hc (hset ⟨q, hq, ha⟩).2.2

/-! ## An advertisement that is made again -/

/-- Node 0 has links to the nodes 1 and 2, and the one to node 1 is down. -/
def starPeers (n : ℤ) : List ℤ := if n = 0 then [1, 2] else if n = 1 ∨ n = 2 then [0] else []

def starLinks (status : LsStatus) (n : ℤ) : List LsLink :=
  if n = 0 then [⟨⟨1, status, 1⟩, 0⟩, ⟨⟨2, .up, 1⟩, 0⟩]
  else if n = 1 then [⟨⟨0, status, 1⟩, 0⟩]
  else if n = 2 then [⟨⟨0, .up, 1⟩, 0⟩]
  else []

def star : LsNetwork where
  center := {}
  nodes n := LsRouting.start 9 n (starPeers n) (starLinks .down n) ∅

theorem star_start : star.Start 9 starPeers (starLinks .down) fun _ => ∅ where
  nodes := rfl
  center := rfl
  flying := rfl
  nodup n := by
    unfold starLinks
    split_ifs <;> decide
  bits n := by
    unfold starLinks
    split_ifs <;> decide

theorem star_reachable : (withAcks 9).Reachable (star, fun _ => none) :=
  .init ⟨⟨_, _, _, star_start⟩, rfl⟩

instance (p : LsNetwork × AckHistory) (x : ℚ × LsEvent) : Decidable ((withAcks 9).Enabled p x) :=
  inferInstanceAs (Decidable (p.1.Enabled x))

/-- The link between the nodes 0 and 1 comes up. The topology message of node 1 is received
before its advertisement, which node 0 makes again for node 2. -/
def regeneration : List (ℚ × LsEvent) :=
  [(0, .intfChanged 1 (starLinks .up 1)), (0, .sendBufferedMessages 1),
    (0, .intfChanged 0 (starLinks .up 0)), (0, .sendBufferedMessages 0),
    (0, .deliver ⟨1, 0, 3⟩), (0, .sendBufferedMessages 0), (0, .deliver ⟨0, 2, 9⟩)]

/-- Node 2 acknowledges the advertisement that node 0 has made again, and node 0 goes on sending
it. -/
theorem regenerated_unsettled : ∃ s g s', ∃ (p : LsPacket) (msg : LsMessage),
    (withAcks 9).Reachable (s, g) ∧ p ∈ s.flying ∧
    g p.msgId = some (p.sender, p.receiver, msg) ∧ s.center.otherMessages.contains p.msgId = true ∧
    s.step 9 (0, .deliver p) = .ok s' ∧
    (s'.nodes p.receiver).ackManager.Awaits p.sender msg := by
  obtain ⟨⟨s, g⟩, hr, hp⟩ := star_reachable.exists_of_exec regeneration
    (fun q => decide (⟨2, 0, 4⟩ ∈ q.1.flying ∧ q.2 4 = some (2, 0, ⟨.lsa, 9, 1, 1, .null⟩) ∧
      q.1.center.otherMessages.contains 4 = true) &&
      (q.1.step 9 (0, .deliver ⟨2, 0, 4⟩)).toOption.any fun s' =>
        ((s'.nodes 0).ackManager[(2 : ℤ)]?).any fun p => p.Awaits ⟨.lsa, 9, 1, 1, .null⟩)
    (by decide +kernel)
  obtain ⟨hq, hstep⟩ := Bool.and_eq_true_iff.mp hp
  obtain ⟨hfly, hg, hstored⟩ := of_decide_eq_true hq
  obtain ⟨s', hs', haw⟩ := exists_of_toOption_any (q := fun s' : LsNetwork =>
    (((s'.nodes 0).ackManager[(2 : ℤ)]?).any fun p =>
      p.Awaits ⟨.lsa, 9, 1, 1, .null⟩) = true) (by simpa using hstep)
  obtain ⟨peer, hpeer, haw⟩ := (Option.any_eq_true _ _).mp haw
  exact ⟨s, g, s', _, _, hr, hfly, hg, hstored, hs', peer, hpeer, of_decide_eq_true haw⟩

/-- Node 1 gets the acknowledgement of its own advertisement. -/
theorem acks_settle_star : ∃ s g s', (withAcks 9).Reachable (s, g) ∧
    s.step 9 (0, .deliver ⟨0, 1, 2⟩) = .ok s' ∧
    ¬ (s'.nodes 1).ackManager.Awaits 0 ⟨.lsa, 1, 1, 1, .linkStates [⟨⟨0, .up, 1⟩, 1⟩]⟩ := by
  obtain ⟨⟨s, g⟩, hr, hp⟩ := star_reachable.exists_of_exec
    (regeneration.take 2 ++ [(0, .deliver ⟨1, 0, 1⟩)])
    (fun q => ⟨0, 1, 2⟩ ∈ q.1.flying ∧
      q.2 2 = some (0, 1, ⟨.lsa, 1, 1, 1, .linkStates [⟨⟨0, .up, 1⟩, 1⟩]⟩) ∧
      q.1.center.otherMessages.contains 2 = true) (by decide +kernel)
  obtain ⟨hfly, hg, hstored⟩ := of_decide_eq_true hp
  obtain ⟨s', hs', haw⟩ := (acks_settle hr).2 ⟨0, 1, 2⟩ _ 0 hfly hg
  exact ⟨s, g, s', hr, hs', haw.mpr fun _ => ⟨by decide, hstored, .inr rfl⟩⟩

end LsNetwork

end Ns2XPass
