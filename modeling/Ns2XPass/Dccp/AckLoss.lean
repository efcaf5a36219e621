import Mathlib.Data.Nat.Count
import Ns2XPass.Dccp.Connection

/-! # Lost acknowledgements

A sender keeps the newest packets that it has received, with their numbers of packets
without data. Each gap between two of them is judged once, when so many newer ones have
come that none is entered into it any more. It is a loss if and only if the packets without
data that are missing there are not a multiple of the limit by which they are counted.
-/

namespace Ns2XPass

variable {numDupAcks numLater m s x y : ℕ} {type : ℕ → DccpPacketType} {l pre post : List ℕ}

/-- `dccp_tcplike_send_recv_hist_entry` -/
structure RecvHistEntry where
  type : DccpPacketType
  seqNum : ℕ
  ndp : ℕ

namespace RecvHistEntry

/-- `DCCP_NDP_LIMIT` -/
def ndpLimit : ℕ := 8

section History

variable (numDupAcks : ℕ) (packet : RecvHistEntry)

/-- The walk to the place of an older packet, behind `numLater` newer ones. -/
def insertBehind : ℕ → List RecvHistEntry → Option (List RecvHistEntry)
  | numLater, [] => if numLater < numDupAcks then some [packet] else some []
  | numLater, elm :: hist =>
    if elm.seqNum < packet.seqNum then some (packet :: elm :: hist)
    else if packet.seqNum = elm.seqNum ∨ numLater + 1 = numDupAcks then none
    else (insertBehind (numLater + 1) hist).map (elm :: ·)

/-- A packet that is there already, or has too many newer ones, is not inserted. -/
def insertInSendRecvHistory : List RecvHistEntry → Option (List RecvHistEntry)
  | [] => some [packet]
  | elm :: hist =>
    if elm.seqNum < packet.seqNum then some (packet :: elm :: hist)
    else if packet.seqNum = elm.seqNum then none
    else (insertBehind numDupAcks packet 1 hist).map (elm :: ·)

/-- Whether acks have been lost between two packets. -/
def missesAck (before after : RecvHistEntry) : Bool :=
  if before.type = .ack then ((before.ndp : ℤ) - 1 + ndpLimit) % ndpLimit ≠ after.ndp
  else before.ndp ≠ after.ndp

/-- The gap behind the newest packets is judged, and the history is trimmed. -/
def detectLossSendRecv (hist : List RecvHistEntry) : Bool × List RecvHistEntry :=
  match hist.drop (numDupAcks - 1) with
  | before :: after :: _ =>
    (decide (before.seqNum - after.seqNum ≠ 1) && missesAck before after,
      hist.take (numDupAcks - 1) ++ [before, after])
  | _ => (false, hist)

/-- What `send_packetRecv` does with the history, and whether an ack has been lost. -/
def receive (hist : List RecvHistEntry) : Bool × List RecvHistEntry :=
  match insertInSendRecvHistory numDupAcks packet hist with
  | none => (false, hist)
  | some hist => detectLossSendRecv numDupAcks hist

end History

/-! ## What the other side sends -/

section Sent

variable (type : ℕ → DccpPacketType)

/-- The packet with this number carries no data. -/
def Plain (s : ℕ) : Prop := type s ≠ .data ∧ type s ≠ .dataAck

instance : DecidablePred (Plain type) := fun _ => inferInstanceAs (Decidable (_ ∧ _))

/-- Packets without data are counted when they are sent. -/
def sent (s : ℕ) : RecvHistEntry where
  type := type s
  seqNum := s
  ndp := Nat.count (Plain type) (s + 1) % ndpLimit

/-- The packets without data between two others. -/
def missing (after before : ℕ) : ℕ :=
  Nat.count (fun i => Plain type (after + 1 + i)) (before - (after + 1))

/-- The history and the number of losses after packets have arrived, in any order. -/
def arrive (numDupAcks : ℕ) (p : List RecvHistEntry × ℕ) (s : ℕ) : List RecvHistEntry × ℕ :=
  let r := receive numDupAcks (sent type s) p.1
  (r.2, if r.1 then p.2 + 1 else p.2)

end Sent

/-- Each number with the next one. -/
def gaps (l : List ℕ) : List (ℕ × ℕ) := l.zip l.tail

def lostIn (type : ℕ → DccpPacketType) (l : List ℕ) : ℕ :=
  (gaps l).countP fun g => missing type g.2 g.1 % ndpLimit ≠ 0

/-! ## One packet -/

theorem missesAck_sent (hlt : y < x) (hx : type x = .ack ∨ ¬ Plain type x) :
    (decide ((sent type x).seqNum - (sent type y).seqNum ≠ 1) &&
      missesAck (sent type x) (sent type y)) = decide (missing type y x % ndpLimit ≠ 0) := by
  obtain ⟨k, rfl⟩ := Nat.exists_eq_add_of_lt hlt
  have hbetween : Nat.count (Plain type) (y + k + 1) =
      Nat.count (Plain type) (y + 1) + missing type y (y + k + 1) := by
    have hk : y + k + 1 - (y + 1) = k := by omega
    rw [missing, hk, ← Nat.count_add, Nat.add_right_comm]
  have hnone : k = 0 → missing type y (y + k + 1) = 0 := by
    rintro rfl
    rw [missing, Nat.add_zero, Nat.sub_self, Nat.count_zero]
  have hcount := Nat.count_succ (p := Plain type) (y + k + 1)
  rw [Bool.eq_iff_iff, Bool.and_eq_true, decide_eq_true_iff, decide_eq_true_iff]
  change y + k + 1 - y ≠ 1 ∧ _ ↔ _
  have hone : y + k + 1 - y ≠ 1 ↔ k ≠ 0 := by omega
  rw [hone, missesAck]
  unfold sent ndpLimit
  dsimp only
  rcases hx with hack | hdata
  · have hplain : Plain type (y + k + 1) := by
      unfold Plain
      rw [hack]
      decide
    rw [if_pos hplain] at hcount
    rw [if_pos hack, decide_eq_true_iff]
    omega
  · have hnot : type (y + k + 1) ≠ .ack := by
      intro hack
      apply hdata
      unfold Plain
      rw [hack]
      decide
    rw [if_neg hdata] at hcount
    rw [if_neg hnot, decide_eq_true_iff]
    omega

theorem insertBehind_cases (type : ℕ → DccpPacketType) (s : ℕ) (hl : l.Pairwise (· > ·))
    (hnum : numLater < numDupAcks) :
    (∃ pre post, l = pre ++ post ∧ (∀ x ∈ pre, s < x) ∧ (∀ x ∈ post, x < s) ∧
      numLater + pre.length < numDupAcks ∧
      insertBehind numDupAcks (sent type s) numLater (l.map (sent type)) =
        some ((pre ++ s :: post).map (sent type))) ∨
    insertBehind numDupAcks (sent type s) numLater (l.map (sent type)) = none ∧
      (s ∈ l ∨ numDupAcks ≤ numLater + l.countP (s < ·)) := by
  induction l generalizing numLater with
  | nil =>
    left
    refine ⟨[], [], rfl, ?_, ?_, hnum, if_pos hnum⟩
    · rintro x (_ | _)
    · rintro x (_ | _)
  | cons x l ih =>
    rw [List.pairwise_cons] at hl
    rw [List.map_cons, insertBehind]
    split_ifs with hlt hold
    · left
      refine ⟨[], x :: l, rfl, ?_, ?_, hnum, rfl⟩
      · rintro y (_ | _)
      · rintro y (_ | ⟨_, hy⟩)
        · exact hlt
        · exact (hl.1 y hy).trans hlt
    · refine .inr ⟨rfl, ?_⟩
      rcases hold with hsame | hfull
      · exact .inl (List.mem_cons.mpr (.inl hsame))
      · rcases eq_or_ne s x with rfl | hne
        · exact .inl List.mem_cons_self
        · have hnewer : s < x := lt_of_le_of_ne (not_lt.mp hlt) hne
          right
          rw [List.countP_cons_of_pos (by simpa using hnewer)]
          omega
    · obtain ⟨hne, hmore⟩ := not_or.mp hold
      have hnewer : s < x := lt_of_le_of_ne (not_lt.mp hlt) hne
      rcases ih hl.2 (lt_of_le_of_ne (Nat.succ_le_of_lt hnum) hmore) with
        ⟨pre, post, rfl, hpre, hpost, hlen, he⟩ | ⟨he, hrest⟩
      · left
        refine ⟨x :: pre, post, rfl, ?_, hpost, ?_, ?_⟩
        · rintro y (_ | ⟨_, hy⟩)
          · exact hnewer
          · exact hpre y hy
        · rw [List.length_cons]
          omega
        · rw [he]
          rfl
      · right
        rw [he, List.countP_cons_of_pos (by simpa using hnewer)]
        exact ⟨rfl, hrest.imp (List.mem_cons_of_mem x) fun h => by omega⟩

/-- The head is compared as any other packet, since one newer packet is not enough. -/
theorem insert_eq_insertBehind (packet : RecvHistEntry) (hist : List RecvHistEntry)
    (htwo : 2 ≤ numDupAcks) :
    insertInSendRecvHistory numDupAcks packet hist = insertBehind numDupAcks packet 0 hist := by
  have hfew : 0 + 1 ≠ numDupAcks := by omega
  cases hist with
  | nil => exact (if_pos (Nat.zero_lt_of_lt htwo)).symm
  | cons elm hist => simp only [insertInSendRecvHistory, insertBehind, hfew, or_false, Nat.zero_add]

theorem insert_cases (type : ℕ → DccpPacketType) (s : ℕ) (hl : l.Pairwise (· > ·))
    (htwo : 2 ≤ numDupAcks) :
    (∃ pre post, l = pre ++ post ∧ (∀ x ∈ pre, s < x) ∧ (∀ x ∈ post, x < s) ∧
      pre.length < numDupAcks ∧
      insertInSendRecvHistory numDupAcks (sent type s) (l.map (sent type)) =
        some ((pre ++ s :: post).map (sent type))) ∨
    insertInSendRecvHistory numDupAcks (sent type s) (l.map (sent type)) = none ∧
      (s ∈ l ∨ numDupAcks ≤ l.countP (s < ·)) := by
  have hcases := insertBehind_cases type s hl (Nat.zero_lt_of_lt htwo)
  rw [insert_eq_insertBehind _ _ htwo]
  simpa only [Nat.zero_add] using hcases

/-- The first gap behind the newest packets is judged. -/
theorem detectLoss_sent (hl : l.Pairwise (· > ·)) (hm : numDupAcks = m + 1)
    (hcarried : ∀ s ∈ l, type s = .ack ∨ ¬ Plain type s) :
    (detectLossSendRecv numDupAcks ((l.take (m + 3)).map (sent type))).2 =
        (l.take (m + 2)).map (sent type) ∧
      lostIn type (l.drop m) = lostIn type (l.drop (m + 1)) +
        if (detectLossSendRecv numDupAcks ((l.take (m + 3)).map (sent type))).1 then 1 else 0 := by
  have hdrop : ((l.take (m + 3)).map (sent type)).drop (numDupAcks - 1) =
      ((l.drop m).take 3).map (sent type) := by
    rw [hm, Nat.add_sub_cancel, ← List.map_drop, List.drop_take, Nat.add_sub_cancel_left]
  have htail : l.drop (m + 1) = (l.drop m).tail := by
    rw [List.tail_drop]
  have hlength : (l.drop m).length = l.length - m := List.length_drop
  have htake : l.take (m + 2) = l.take m ++ (l.drop m).take 2 := List.take_add
  unfold detectLossSendRecv
  rw [hdrop, htail]
  rcases hd : l.drop m with _ | ⟨x, _ | ⟨y, rest⟩⟩
  · rw [hd] at hlength
    have hshort : l.length ≤ m + 2 := by
      rw [List.length_nil] at hlength
      omega
    rw [List.take_of_length_le hshort, List.take_of_length_le (hshort.trans (Nat.le_succ _))]
    exact ⟨rfl, rfl⟩
  · rw [hd] at hlength
    have hshort : l.length ≤ m + 2 := by
      rw [List.length_singleton] at hlength
      omega
    rw [List.take_of_length_le hshort, List.take_of_length_le (hshort.trans (Nat.le_succ _))]
    exact ⟨rfl, rfl⟩
  · have hmem : ∀ z ∈ x :: y :: rest, z ∈ l := fun z hz => List.mem_of_mem_drop (hd ▸ hz)
    have hlt : y < x := by
      have hsorted := hl.sublist (List.drop_sublist m l)
      rw [hd, List.pairwise_cons] at hsorted
      exact hsorted.1 y List.mem_cons_self
    have hjudged := missesAck_sent hlt (hcarried x (hmem x List.mem_cons_self))
    constructor
    · have hfirst : (l.take (m + 3)).take m = l.take m := by
        rw [List.take_take, Nat.min_eq_left (Nat.le_add_right m 3)]
      rw [htake, hd, hm, Nat.add_sub_cancel, ← List.map_take, hfirst, List.map_append]
      rfl
    · change lostIn type (x :: y :: rest) =
        lostIn type (y :: rest) + if (_ && _) = true then 1 else 0
      rw [hjudged]
      unfold lostIn gaps
      rw [List.tail_cons, List.zip_cons_cons, List.countP_cons, List.tail_cons]

/-! ## The place of a packet -/

variable {rest : List ℕ}

/-- A packet between newer and older ones keeps the order. -/
theorem pairwise_insert (h : (pre ++ (post ++ rest)).Pairwise (· > ·)) (hpre : ∀ x ∈ pre, s < x)
    (hbelow : ∀ x ∈ post ++ rest, x < s) : (pre ++ s :: (post ++ rest)).Pairwise (· > ·) := by
  rw [List.pairwise_append] at h
  apply List.pairwise_append.mpr
  refine ⟨h.1, List.pairwise_cons.mpr ⟨hbelow, h.2.1⟩, ?_⟩
  rintro x hx y (_ | ⟨_, hy⟩)
  · exact hpre x hx
  · exact h.2.2 x hx y hy

/-- What is older than the end of the history is older than a packet that is inserted. -/
theorem below_insert (h : (pre ++ (post ++ rest)).Pairwise (· > ·)) (hpost : ∀ x ∈ post, x < s)
    (hend : rest ≠ [] → post ≠ []) : ∀ x ∈ post ++ rest, x < s := by
  intro x hx
  rcases List.mem_append.mp hx with hx | hx
  · exact hpost x hx
  · obtain ⟨y, hy⟩ := List.exists_mem_of_ne_nil post (hend (List.ne_nil_of_mem hx))
    have hpair := (List.pairwise_append.mp (List.pairwise_append.mp h).2.1).2.2
    exact (hpair y hy x hx).trans (hpost y hy)

/-- The history with the packet has the newest ones. -/
theorem take_insert (hlen : rest ≠ [] → (pre ++ post).length = m + 2)
    (hle : (pre ++ post).length ≤ m + 2) :
    pre ++ s :: post = (pre ++ s :: (post ++ rest)).take (m + 3) := by
  rw [List.length_append] at hle hlen
  rw [← List.cons_append, ← List.append_assoc]
  rcases eq_or_ne rest [] with rfl | hne
  · rw [List.append_nil, List.take_of_length_le]
    rw [List.length_append, List.length_cons]
    omega
  · have hfull := hlen hne
    apply (List.take_left' _).symm
    rw [List.length_append, List.length_cons]
    omega

/-- A packet among the newest ones moves the others behind them by one. -/
theorem drop_insert (h : pre.length ≤ m) :
    (pre ++ s :: (post ++ rest)).drop (m + 1) = (pre ++ (post ++ rest)).drop m := by
  obtain ⟨k, hk⟩ := Nat.exists_eq_add_of_le h
  rw [hk, Nat.add_assoc, List.drop_length_add_append, List.drop_length_add_append,
    List.drop_succ_cons]

/-! ## All packets -/

/-- Of the packets that arrive, those that are not inserted come too late. The history has the
newest ones, and all gaps behind them have been judged. -/
structure Judged (type : ℕ → DccpPacketType) (numDupAcks : ℕ) (arrivals accepted : List ℕ)
    (p : List RecvHistEntry × ℕ) : Prop where
  sorted : accepted.Pairwise (· > ·)
  arrived : ∀ s ∈ accepted, s ∈ arrivals
  late : ∀ s ∈ arrivals, s ∈ accepted ∨ numDupAcks ≤ accepted.countP (s < ·)
  history : p.1 = (accepted.take (numDupAcks + 1)).map (sent type)
  losses : p.2 = lostIn type (accepted.drop (numDupAcks - 1))

variable {arrivals accepted : List ℕ} {p : List RecvHistEntry × ℕ}

theorem Judged.arrive (h : Judged type numDupAcks arrivals accepted p) (htwo : 2 ≤ numDupAcks)
    (hcarried : ∀ x ∈ arrivals ++ [s], type x = .ack ∨ ¬ Plain type x) :
    ∃ accepted', Judged type numDupAcks (arrivals ++ [s]) accepted'
      (RecvHistEntry.arrive type numDupAcks p s) := by
  obtain ⟨m, rfl⟩ : ∃ m, numDupAcks = m + 1 := ⟨numDupAcks - 1, by omega⟩
  have hsplit := List.take_append_drop (m + 1 + 1) accepted
  have hsorted := h.sorted
  have hlate : ∀ {accepted' : List ℕ}, accepted.Sublist accepted' →
      ∀ x ∈ arrivals, x ∈ accepted' ∨ m + 1 ≤ accepted'.countP (x < ·) := fun hsub x hx =>
    (h.late x hx).imp (fun hin => hsub.subset hin) fun hle => hle.trans hsub.countP_le
  unfold RecvHistEntry.arrive receive
  rw [h.history]
  rcases insert_cases type s (hsorted.sublist (List.take_sublist (m + 1 + 1) _))
    htwo with ⟨pre, post, hl, hpre, hpost, hlen, he⟩ | ⟨he, hreason⟩
  · obtain ⟨rest, hrest⟩ : ∃ rest, rest = accepted.drop (m + 1 + 1) := ⟨_, rfl⟩
    rw [← hrest, hl, List.append_assoc] at hsplit
    have hlength := congrArg List.length hl
    rw [List.length_take] at hlength
    have hfull : rest ≠ [] → (pre ++ post).length = m + 1 + 1 := by
      intro hne
      have hmore : m + 1 + 1 < accepted.length := by
        rw [hrest, ne_eq, List.drop_eq_nil_iff] at hne
        omega
      omega
    have hend : rest ≠ [] → post ≠ [] := by
      rintro hne rfl
      have hlen' := hfull hne
      rw [List.append_nil] at hlen'
      omega
    rw [← hsplit] at hsorted
    have hnew := pairwise_insert hsorted hpre (below_insert hsorted hpost hend)
    have hsub : accepted.Sublist (pre ++ s :: (post ++ rest)) := by
      rw [← hsplit]
      exact (List.Sublist.refl pre).append (List.sublist_cons_self s _)
    have hfront : pre ++ s :: post = (pre ++ s :: (post ++ rest)).take (m + 3) :=
      take_insert hfull (by omega)
    have hmembers : ∀ x ∈ pre ++ s :: (post ++ rest), x ∈ arrivals ++ [s] := by
      intro x hx
      rcases List.mem_append.mp hx with hx | hx
      · exact List.mem_append_left _ (h.arrived x (hsplit ▸ List.mem_append_left _ hx))
      · rcases List.mem_cons.mp hx with rfl | hx
        · exact List.mem_append_right _ (List.mem_singleton_self x)
        · exact List.mem_append_left _ (h.arrived x (hsplit ▸ List.mem_append_right _ hx))
    have hbehind : (pre ++ s :: (post ++ rest)).drop (m + 1) = accepted.drop m := by
      rw [drop_insert (Nat.le_of_lt_succ hlen), hsplit]
    obtain ⟨hhist, hlost⟩ := detectLoss_sent hnew rfl fun x hx => hcarried x (hmembers x hx)
    refine ⟨pre ++ s :: (post ++ rest), ?_⟩
    constructor
    case sorted => exact hnew
    case arrived => exact hmembers
    case late =>
      intro x hx
      rcases List.mem_append.mp hx with hx | hx
      · exact hlate hsub x hx
      · rw [List.mem_singleton.mp hx]
        exact .inl (List.mem_append_right _ List.mem_cons_self)
    case history =>
      rw [he, hfront]
      exact hhist
    case losses =>
      rw [he, hfront, Nat.add_sub_cancel, hlost, hbehind, h.losses, Nat.add_sub_cancel]
      dsimp only
      split_ifs <;> rfl
  · rw [he]
    refine ⟨accepted, ?_⟩
    constructor
    case sorted => exact hsorted
    case arrived => exact fun x hx => List.mem_append_left _ (h.arrived x hx)
    case late =>
      intro x hx
      rcases List.mem_append.mp hx with hx | hx
      · exact hlate (.refl _) x hx
      · rw [List.mem_singleton.mp hx]
        exact hreason.imp List.mem_of_mem_take fun hle =>
          hle.trans (List.take_sublist _ _).countP_le
    case history => rfl
    case losses => exact h.losses

/-- Whatever arrives in which order, every gap between packets that have been inserted is judged
once, when there are enough newer ones: it counts as a loss if and only if the packets without data
that are missing there are not a multiple of the limit. -/
theorem ackLoss_judged (type : ℕ → DccpPacketType) (htwo : 2 ≤ numDupAcks) (arrivals : List ℕ)
    (hcarried : ∀ s ∈ arrivals, type s = .ack ∨ ¬ Plain type s) :
    ∃ accepted, Judged type numDupAcks arrivals accepted
      (arrivals.foldl (RecvHistEntry.arrive type numDupAcks) ([], 0)) := by
  induction arrivals using List.reverseRecOn with
  | nil =>
    refine ⟨[], .nil, ?_, ?_, ?_, ?_⟩
    · rintro s (_ | _)
    · rintro s (_ | _)
    · rfl
    · rw [List.drop_nil]
      rfl
  | append_singleton arrivals s ih =>
    obtain ⟨accepted, h⟩ := ih fun x hx => hcarried x (List.mem_append_left _ hx)
    rw [List.foldl_concat]
    exact h.arrive htwo hcarried

/-- Of six packets, two acks are missing and one comes too late. -/
theorem ackLoss_judged_six : ∃ accepted, Judged (fun s => if s = 4 then .data else .ack) 3
    [0, 3, 4, 6, 7, 2] accepted ([0, 3, 4, 6, 7, 2].foldl
      (RecvHistEntry.arrive (fun s => if s = 4 then .data else .ack) 3) ([], 0)) := by
  apply ackLoss_judged
  · decide
  · decide

end RecvHistEntry

end Ns2XPass
