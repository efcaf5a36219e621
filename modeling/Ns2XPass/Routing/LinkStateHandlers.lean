import Ns2XPass.Library.Except
import Ns2XPass.Routing.LinkStateProtocol

/-! # What the handlers of the link-state protocol do

Every handler is made of a few operations on a node and the message center. A
property that these preserve is preserved by each handler.
-/

namespace Ns2XPass

/-! ## Making messages -/

theorem LsMessageCenter.get_recycle {limit : ℕ} {store : LsMap LsMessage} {k : ℤ} {m : LsMessage}
    (h : (recycle limit store)[k]? = some m) : store[k]? = some m := by
  unfold recycle at h
  split at h
  · cases hk : store.minKey? with
    | none => simpa [hk] using h
    | some a =>
      rw [hk, Option.elim_some, LsMap.get_erase] at h
      split at h
      · simp at h
      · exact h
  · exact h

namespace LsHost

variable {h h' h₀ : LsHost} {n k peerId origin : ℤ} {type : LsMessageType} {m msg : LsMessage}
  {fill : LsMessage → LsMessage} {r : LsMessage × LsHost} {now : ℚ} {fuel : ℕ}

/-- A handler fills in a message, but keeps its type and its number. -/
structure Fills (fill : LsMessage → LsMessage) : Prop where
  type : ∀ m, (fill m).type = m.type
  messageId : ∀ m, (fill m).messageId = m.messageId

/-- An advertisement or a topology message has been made. -/
structure Created (h : LsHost) (n : ℤ) (type : LsMessageType) (fill : LsMessage → LsMessage)
    (r : LsMessage × LsHost) : Prop where
  msg : r.1 = fill ⟨type, h.center.currentLsaId, h.center.currentLsaId, n, .null⟩
  node : r.2.node = h.node
  sent : r.2.sent = h.sent
  lsaId : r.2.center.currentLsaId = LsMessageCenter.nextId h.center.currentLsaId
  otherId : r.2.center.currentOtherId = h.center.currentOtherId
  other : r.2.center.otherMessages = h.center.otherMessages
  stored : r.2.center.lsaMessages[r.1.messageId]? = some r.1
  kept : ∀ (k : ℤ) m, r.2.center.lsaMessages[k]? = some m →
    k = r.1.messageId ∧ m = r.1 ∨ k ≠ r.1.messageId ∧ h.center.lsaMessages[k]? = some m

theorem created (ht : type.Flooded) (hf : Fills fill) (hr : h.create n type fill = .ok r) :
    Created h n type fill r := by
  obtain ⟨⟨m, c⟩, hnew, hr⟩ := bind_eq_ok.mp hr
  obtain rfl := pure_eq_ok.mp hr
  rw [LsMessageCenter.newMessage, if_pos ht] at hnew
  obtain ⟨store, hins, hnew⟩ := bind_eq_ok.mp hnew
  obtain ⟨rfl, rfl⟩ := Prod.mk.inj (pure_eq_ok.mp hnew)
  unfold LsMessageCenter.insertNew at hins
  split at hins
  · simp at hins
  · obtain rfl := Except.ok.inj hins
    have hflood : (fill ⟨type, h.center.currentLsaId, h.center.currentLsaId, n, .null⟩).type.Flooded
        := by
      rw [hf.type]
      exact ht
    have hid := hf.messageId ⟨type, h.center.currentLsaId, h.center.currentLsaId, n, .null⟩
    refine ⟨rfl, rfl, rfl, ?_, ?_, ?_, ?_, fun k m hk => ?_⟩ <;>
      simp only [LsMessageCenter.write, if_pos hflood] at *
    · simp
    · rw [LsMap.get_insert, LsMap.get_insert, hid] at hk
      rw [hid]
      split at hk
      · next he => exact .inl ⟨he.symm, (Option.some.inj hk).symm⟩
      · next he => exact .inr ⟨Ne.symm he, LsMessageCenter.get_recycle hk⟩

/-- An acknowledgement has been made and sent. -/
structure Acked (h : LsHost) (nbrId : ℤ) (type : LsMessageType) (origin seq : ℤ) (h' : LsHost) :
    Prop where
  node : h'.node = h.node
  sent : h'.sent = h.sent ∨ nbrId ∈ h.node.peerIdList ∧
    h'.sent = h.sent ++ [⟨h.node.myNodeId, nbrId, h.center.currentOtherId⟩]
  lsaId : h'.center.currentLsaId = h.center.currentLsaId
  lsa : h'.center.lsaMessages = h.center.lsaMessages
  otherId : h'.center.currentOtherId = LsMessageCenter.nextId h.center.currentOtherId
  kept : ∀ (k : ℤ) m, h'.center.otherMessages[k]? = some m →
    k = h.center.currentOtherId ∧ m = ⟨type, h.center.currentOtherId, seq, origin, .null⟩ ∨
      k ≠ h.center.currentOtherId ∧ h.center.otherMessages[k]? = some m

theorem acked {nbrId seq : ℤ} (ht : ¬ type.Flooded)
    (hr : h.sendAck nbrId type origin seq = .ok h') : Acked h nbrId type origin seq h' := by
  obtain ⟨⟨m, h₁⟩, hcreate, hr⟩ := bind_eq_ok.mp hr
  obtain rfl := pure_eq_ok.mp hr
  obtain ⟨⟨m₀, c⟩, hnew, hcreate⟩ := bind_eq_ok.mp hcreate
  obtain ⟨rfl, rfl⟩ := Prod.mk.inj (pure_eq_ok.mp hcreate)
  rw [LsMessageCenter.newMessage, if_neg ht] at hnew
  obtain ⟨store, hins, hnew⟩ := bind_eq_ok.mp hnew
  obtain ⟨rfl, rfl⟩ := Prod.mk.inj (pure_eq_ok.mp hnew)
  unfold LsMessageCenter.insertNew at hins
  split at hins
  · simp at hins
  · obtain rfl := Except.ok.inj hins
    refine ⟨?_, ?_, ?_, ?_, ?_, fun k m hk => ?_⟩ <;>
      simp only [LsMessageCenter.write, if_neg ht, sendMessage] at *
    · split <;> rfl
    · split
      · next hp => exact .inr ⟨hp, rfl⟩
      · exact .inl rfl
    · split <;> rfl
    · split <;> rfl
    · split <;> rfl
    · have hk : (((LsMessageCenter.recycle h.center.limit h.center.otherMessages).insert
          h.center.currentOtherId ⟨type, h.center.currentOtherId, h.center.currentOtherId,
            h.node.myNodeId, .null⟩).insert h.center.currentOtherId
              ⟨type, h.center.currentOtherId, seq, origin, .null⟩)[k]? = some m := by
        split at hk <;> exact hk
      rw [LsMap.get_insert, LsMap.get_insert] at hk
      split at hk
      · next he => exact .inl ⟨he.symm, (Option.some.inj hk).symm⟩
      · next he => exact .inr ⟨Ne.symm he, LsMessageCenter.get_recycle hk⟩

/-! ## Operations that leave the message center alone -/

theorem sendMessage_node (h : LsHost) (d i : ℤ) : (h.sendMessage d i).node = h.node := by
  unfold sendMessage
  split <;> rfl

theorem sendMessage_center (h : LsHost) (d i : ℤ) : (h.sendMessage d i).center = h.center := by
  unfold sendMessage
  split <;> rfl

/-- A property that is preserved by sending, and by making messages without link states. -/
structure Sending (P : LsHost → Prop) : Prop where
  sendMessage : ∀ h d i, P h → P (h.sendMessage d i)
  messageOut : ∀ h now k m, h.center.lsaMessages[m.messageId]? = some m → P h →
    P (h.messageOut now k m)
  bufferedSend : ∀ h k m, P h → P (h.bufferedSend k m)
  emptyBuffer : ∀ h, P h → P { h with node := { h.node with messageBuffer := [] } }
  cancelTimer : ∀ h k, P h → P (h.cancelTimer k)
  create : ∀ h n type fill r, type.Flooded → Fills fill →
    (type = .tpm → ∀ m, (fill m).sequenceNumber = m.sequenceNumber) →
    (∀ m l, m.content = .null → (fill m).content ≠ .linkStates l) → P h →
    Created h n type fill r → P r.2

namespace Sending

variable {P : LsHost → Prop} (hP : Sending P)
include hP

theorem advertiseTo {buffer : Bool} (hm : h.center.lsaMessages[msg.messageId]? = some msg)
    (h₁ : P h) : P (h.advertiseTo now buffer msg peerId) ∧
      (h.advertiseTo now buffer msg peerId).center = h.center := by
  unfold LsHost.advertiseTo
  split
  · exact ⟨h₁, rfl⟩
  · split
    · exact ⟨hP.bufferedSend _ _ _ h₁, rfl⟩
    · have hc := sendMessage_center h peerId msg.messageId
      exact ⟨hP.messageOut _ _ _ _ (by rwa [hc]) (hP.sendMessage _ _ _ h₁), hc⟩

theorem forwardTo {senderId : ℤ} (hm : h.center.lsaMessages[msg.messageId]? = some msg)
    (h₁ : P h) : P (h.forwardTo now senderId msg peerId) ∧
      (h.forwardTo now senderId msg peerId).center = h.center := by
  unfold LsHost.forwardTo
  split
  · exact ⟨h₁, rfl⟩
  · exact ⟨hP.sendMessage _ _ _ (hP.messageOut _ _ _ _ hm h₁), sendMessage_center _ _ _⟩

omit hP in
/-- A loop over the peers that sends a stored message. -/
theorem foldl {f : LsHost → ℤ → LsHost} {l : List ℤ}
    (hf : ∀ h k, h.center.lsaMessages[msg.messageId]? = some msg → P h →
      P (f h k) ∧ (f h k).center = h.center)
    (hm : h.center.lsaMessages[msg.messageId]? = some msg) (h₁ : P h) : P (l.foldl f h) := by
  induction l generalizing h with
  | nil => exact h₁
  | cons k l ih =>
    obtain ⟨h₂, hc⟩ := hf h k hm h₁
    exact ih (by rwa [hc]) h₂

theorem sendTopo {neighborId : ℤ} (h₁ : P h) (hr : h.sendTopo neighborId = .ok h') : P h' := by
  obtain ⟨r, hcreate, hr⟩ := bind_eq_ok.mp hr
  obtain rfl := pure_eq_ok.mp hr
  have hf : Fills fun msg : LsMessage => { msg with content := .topo h.node.myNodeId } :=
    ⟨fun _ => rfl, fun _ => rfl⟩
  exact hP.bufferedSend _ _ _ (hP.create _ _ _ _ _ (.inr rfl) hf (fun _ _ => rfl) (by simp) h₁
    (created (.inr rfl) hf hcreate))

theorem sendBufferedMessages (h₁ : P h) (hr : h.sendBufferedMessages now = .ok h') : P h' := by
  obtain ⟨h₂, hfold, hr⟩ := bind_eq_ok.mp hr
  obtain rfl := pure_eq_ok.mp hr
  refine hP.emptyBuffer _ (foldlM_preserves h₁ (fun h e h' _ h₁ hs => ?_) hfold)
  unfold LsHost.flush at hs
  split at hs
  · next hm =>
    obtain rfl := Except.ok.inj hs
    exact hP.sendMessage _ _ _ (hP.messageOut _ _ _ _ hm h₁)
  · simp at hs

theorem forward {senderId : ℤ} (hm : h.center.lsaMessages[msg.messageId]? = some msg)
    (h₁ : P h) : P (h.forward now senderId msg) :=
  foldl (fun _ _ => hP.forwardTo) hm h₁

theorem regenAndSend {exception : ℤ} {lsl : List LsLink} (h₁ : P h)
    (hr : h.regenAndSend exception origin lsl = .ok h') : P h' := by
  unfold LsHost.regenAndSend at hr
  split at hr
  · simp at hr
  · next first rest =>
    obtain ⟨r, hcreate, hr⟩ := bind_eq_ok.mp hr
    obtain rfl := pure_eq_ok.mp hr
    have hf : Fills fun msg : LsMessage =>
        { msg with sequenceNumber := first.sequenceNumber, originNodeId := origin } :=
      ⟨fun _ => rfl, fun _ => rfl⟩
    have hc := created (.inl rfl) hf hcreate
    refine foldl (fun h k _ h₁ => ?_) hc.stored
      (hP.create _ _ _ _ _ (.inl rfl) hf (by simp) (by simp_all) h₁ hc)
    unfold LsHost.regenTo
    split
    · exact ⟨h₁, rfl⟩
    · exact ⟨hP.bufferedSend _ _ _ h₁, rfl⟩

theorem compareLinks {news olds : List LsLink} (h₁ : P h)
    (hr : LsHost.compareLinks news olds h = .ok h') : P h' := by
  induction news generalizing olds h with
  | nil => exact Except.ok.inj hr ▸ h₁
  | cons new news ih =>
    cases olds with
    | nil => simp [LsHost.compareLinks] at hr
    | cons old olds =>
      unfold LsHost.compareLinks at hr
      split at hr
      · simp at hr
      · split at hr
        · exact ih (hP.cancelTimer _ _ h₁) hr
        · split at hr
          · exact ih h₁ hr
          · obtain ⟨h₂, htopo, hr⟩ := bind_eq_ok.mp hr
            exact ih (hP.sendTopo h₁ htopo) hr

end Sending

/-- A property that all operations preserve of which the handlers are made, but for those on
acknowledgements. -/
structure Stable (P : LsHost → Prop) : Prop extends Sending P where
  setDatabase : ∀ h db, P h → P (h.setDatabase db)
  routingTable : ∀ h t, P h → P { h with node := { h.node with routingTable := t } }
  lsaHistory : ∀ h x, P h → P { h with node := { h.node with lsaHistory := x } }
  tpmHistory : ∀ h x, P h → P { h with node := { h.node with tpmHistory := x } }
  linkStateList : ∀ h l, P h → P { h with node := { h.node with linkStateList := l } }
  advertise : ∀ h n fill r, Fills fill → P h → Created h n .lsa fill r → P r.2

namespace Stable

variable {P : LsHost → Prop} (hP : Stable P)
include hP

theorem computeRoutes (h₁ : P h) (hr : h.computeRoutes fuel = .ok h') : P h' := by
  obtain ⟨paths, -, hr⟩ := bind_eq_ok.mp hr
  obtain rfl := pure_eq_ok.mp hr
  exact hP.routingTable _ _ h₁

theorem advertiseOwn {buffer : Bool} {own : List LsLink} (h₁ : P h)
    (hr : h.advertise now buffer own = .ok h') : P h' := by
  obtain ⟨r, hcreate, hr⟩ := bind_eq_ok.mp hr
  obtain rfl := pure_eq_ok.mp hr
  have hf : Fills fun msg : LsMessage => { msg with
    content := .linkStates (own.map fun l => { l with sequenceNumber := msg.sequenceNumber }) } :=
    ⟨fun _ => rfl, fun _ => rfl⟩
  have hc := created (.inl rfl) hf hcreate
  have h₂ := hP.advertise _ _ _ _ hf h₁ hc
  exact Sending.foldl (fun _ _ => hP.advertiseTo) hc.stored (hP.setDatabase _ _ h₂)

theorem sendLinkStates {buffer : Bool} (h₁ : P h)
    (hr : h.sendLinkStates now buffer = .ok h') : P h' := by
  unfold LsHost.sendLinkStates at hr
  split at hr
  · exact Except.ok.inj hr ▸ h₁
  · split at hr
    · exact Except.ok.inj hr ▸ h₁
    · split at hr
      · exact Except.ok.inj hr ▸ h₁
      · exact hP.advertiseOwn h₁ hr

theorem updateFrom (h₁ : P h) (hr : h.updateFrom fuel msg = .ok h') : P h' := by
  unfold LsHost.updateFrom at hr
  split at hr
  · dsimp only at hr
    split at hr
    · exact hP.computeRoutes (hP.setDatabase _ _ h₁) hr
    · exact Except.ok.inj hr ▸ hP.setDatabase _ _ h₁
  · exact Except.ok.inj hr ▸ h₁
  · exact Except.ok.inj hr ▸ h₁

theorem acceptLSA {senderId : ℤ} (hm : h.center.lsaMessages[msg.messageId]? = some msg)
    (h₁ : P h) (hr : h.acceptLSA now fuel senderId msg = .ok h') : P h' := by
  unfold LsHost.acceptLSA at hr
  split at hr
  · exact Except.ok.inj hr ▸ h₁
  · dsimp only at hr
    split at hr
    · refine hP.updateFrom ?_ hr
      exact hP.forward hm (hP.lsaHistory _ _ h₁)
    · exact Except.ok.inj hr ▸ h₁

theorem acceptTopo {databases : ℤ → LsDatabase} {neighborId : ℤ} (h₁ : P h)
    (hr : h.acceptTopo fuel databases neighborId msg = .ok h') : P h' := by
  unfold LsHost.acceptTopo at hr
  dsimp only at hr
  split at hr
  · have h₂ := hP.tpmHistory h (h.node.tpmHistory.isNewMessage msg).2 h₁
    split at hr
    · exact Except.ok.inj hr ▸ h₂
    · exact Except.ok.inj hr ▸ h₂
    · obtain ⟨r, hfold, hr⟩ := bind_eq_ok.mp hr
      have h₃ : P r.1 := by
        refine foldlM_preserves (P := fun r : LsHost × Bool => P r.1) h₂ (fun r rec r' _ h hs => ?_)
          hfold
        unfold takeRecord at hs
        split at hs
        · exact Except.ok.inj hs ▸ h
        · split at hs
          · simp at hs
          · split at hs
            · obtain ⟨h₃, hregen, hs⟩ := bind_eq_ok.mp hs
              obtain rfl := pure_eq_ok.mp hs
              exact hP.regenAndSend (hP.setDatabase _ _ h) hregen
            · exact Except.ok.inj hs ▸ h
      split at hr
      · exact hP.computeRoutes h₃ hr
      · exact pure_eq_ok.mp hr ▸ h₃
  · exact Except.ok.inj hr ▸ h₁

theorem refresh (h₁ : P h) (hr : h.refresh now fuel = .ok h') : P h' := by
  have hset := hP.setDatabase h
    (h.node.linkStateDatabase.update h.node.myNodeId h.node.myNodeId h.node.linkStateList).1 h₁
  unfold LsHost.refresh at hr
  dsimp only at hr
  split at hr
  · obtain ⟨h₂, hroutes, hsend⟩ := bind_eq_ok.mp hr
    exact hP.sendLinkStates (hP.computeRoutes hset hroutes) hsend
  · exact Except.ok.inj hr ▸ hset

theorem intfChanged {links : List LsLink} (h₁ : P h)
    (hr : h.intfChanged now fuel links = .ok h') : P h' := by
  have h₂ := hP.linkStateList h links h₁
  unfold LsHost.intfChanged LsHost.linkStateChanged at hr
  split at hr
  · simp at hr
  · obtain ⟨h₃, hrefresh, hr⟩ := bind_eq_ok.mp hr
    exact hP.compareLinks (hP.refresh h₂ hrefresh) hr

end Stable

end LsHost

namespace LsNetwork

variable {s s' : LsNetwork} {n m : ℤ} {h : LsHost} {now : ℚ} {fuel : ℕ} {p : LsPacket}

theorem after_self : (s.after n h).nodes n = h.node := Function.update_self ..

theorem after_of_ne (hm : m ≠ n) : (s.after n h).nodes m = s.nodes m :=
  Function.update_of_ne hm ..

/-- The message that a packet brings to a node that knows its sender. -/
def incoming (s : LsNetwork) (p : LsPacket) : Option LsMessage :=
  if (s.host p.receiver).findPeerNodeId p.sender = lsInvalidNodeId then none
  else s.center.retrieveMessage p.msgId

theorem findPeerNodeId_of_ne (h : (s.host n).findPeerNodeId p.sender ≠ lsInvalidNodeId) :
    (s.host n).findPeerNodeId p.sender = p.sender := by
  unfold LsHost.findPeerNodeId at h ⊢
  split
  · rfl
  · next hm => exact absurd (if_neg hm) h

/-- What the receiver of a packet does with its message. -/
inductive Handles (s : LsNetwork) (now : ℚ) (fuel : ℕ) (p : LsPacket) (m : LsMessage)
    (h : LsHost) : Prop
  | lsa : m.type = .lsa → (s.host p.receiver).receiveLSA now fuel p.sender m = .ok h →
      Handles s now fuel p m h
  | tpm : m.type = .tpm →
      (s.host p.receiver).receiveTopo fuel s.databases p.sender m = .ok h →
      Handles s now fuel p m h
  | ack : ¬ m.type.Flooded →
      (s.host p.receiver).receiveAck p.sender p.msgId m = .ok h → Handles s now fuel p m h

/-- A packet is ignored, or its message is handled. -/
theorem deliver_cases (hd : s.deliver now fuel p = .ok s') : ∃ h,
    s' = ({ s with flying := s.flying.erase p } : LsNetwork).after p.receiver h ∧
    (s.incoming p = none ∧ h = s.host p.receiver ∨
      ∃ m, s.incoming p = some m ∧ s.Handles now fuel p m h) := by
  obtain ⟨h, hr, hd⟩ := bind_eq_ok.mp hd
  refine ⟨h, (pure_eq_ok.mp hd).symm, ?_⟩
  unfold LsHost.receiveMessage at hr
  unfold incoming
  split at hr
  · next hsender =>
    rw [if_pos hsender]
    exact .inl ⟨rfl, (Except.ok.inj hr).symm⟩
  · next hsender =>
    rw [if_neg hsender]
    rw [findPeerNodeId_of_ne hsender] at hr
    split at hr
    · next hm => exact .inl ⟨hm, (Except.ok.inj hr).symm⟩
    · next m hm =>
      refine .inr ⟨m, hm, ?_⟩
      split at hr
      · next ht => exact .tpm ht hr
      · next ht => exact .lsa ht hr
      · next ht => exact .ack (by simp [LsMessageType.Flooded, ht]) hr
      · next ht => exact .ack (by simp [LsMessageType.Flooded, ht]) hr

end LsNetwork

end Ns2XPass
