import Ns2XPass.Dccp.AckOption

/-! # Acknowledgements of acknowledgements

An agent clears states from its ack vector when the peer has acknowledged an ack. What is
cleared has been reported by this ack, if a packet that is added to an empty vector is newer
than all that the acks in the history have reported.
-/

namespace Ns2XPass

variable {v w : AckVector} {items : List ℕ} {q : ℕ} {s : PacketState} {g : ℕ → ℕ → ℕ}
  {hist : List AckHistEntry}

/-- `dccp_ecn_codepoint` -/
inductive EcnCodepoint
  | ect0
  | ect1
  | notEct
  | ce
  deriving DecidableEq

namespace EcnCodepoint

def state : EcnCodepoint → PacketState
  | ce => .ecn
  | _ => .recv

def nonce : EcnCodepoint → ℕ
  | ect1 => 1
  | _ => 0

end EcnCodepoint

namespace AckVector

/-- A packet is added with its code point, and its nonce to the sum of nonces. -/
def addPacketEcn (junk : ℕ → ℕ → ℕ) (v : AckVector) (seqnum : ℕ) (ecn : EcnCodepoint)
    (addNonce : Bool) : AckVector × Bool :=
  let r := v.addPacket junk seqnum ecn.state
  (if r.2 && addNonce then { r.1 with ene := r.1.ene ^^^ ecn.nonce } else r.1, r.2)

/-- Whether the peer has received an ack of the history. Without an ack vector, only the last
packet that it has received is known. -/
def acks (acknum : ℕ) (ackv : Option AckVector) (e : AckHistEntry) : Bool :=
  match ackv with
  | none => acknum = e.seqSent
  | some w => w.getState e.seqSent = some .recv ∨ w.getState e.seqSent = some .ecn

/-- The states up to those of the last ack that the peer has received are cleared, and only later
acks stay in the history. -/
def ackRecv (v : AckVector) (hist : List AckHistEntry) (acknum : ℕ) (ackv : Option AckVector) :
    AckVector × List AckHistEntry :=
  match hist.find? (acks acknum ackv) with
  | none => (v, hist)
  | some e =>
    (({ v with ene := v.ene ^^^ e.ene } : AckVector).removePackets e.ackNum,
      (hist.takeWhile fun f => !acks acknum ackv f).map fun f => { f with ene := f.ene ^^^ e.ene })

end AckVector

/-- The ack vector of an agent, with the history of its acks. -/
structure AckKeeper where
  ackv : AckVector
  hist : List AckHistEntry

inductive AckKeeperCall
  | addPacket (seqnum : ℕ) (state : PacketState)
  | addPacketEcn (seqnum : ℕ) (ecn : EcnCodepoint) (addNonce : Bool)
  | sendAckVector (seqnum acknum : ℕ) (options : DccpOptions)
  | ackRecv (acknum : ℕ) (ackv : Option AckVector)

/-- The number does not wrap. -/
def AckKeeper.Takes (k : AckKeeper) (seqnum : ℕ) : Prop :=
  seqnum < 2 ^ 32 ∧ ¬ k.ackv.Wrapped seqnum

def ackKeeper (junk : ℕ → ℕ → ℕ) : Machine AckKeeper AckKeeperCall Unit where
  Init k := ∃ initialSize, 2 ≤ initialSize ∧ initialSize ≤ maxAckvSize ∧
    k = ⟨.new junk initialSize, []⟩
  Enabled k
    | .addPacket seqnum state => k.Takes seqnum ∧ state ≠ .reserved
    | .addPacketEcn seqnum _ _ => k.Takes seqnum
    | _ => True
  step k
    | .addPacket seqnum state => .ok { k with ackv := (k.ackv.addPacket junk seqnum state).1 }
    | .addPacketEcn seqnum ecn addNonce =>
      .ok { k with ackv := (k.ackv.addPacketEcn junk seqnum ecn addNonce).1 }
    | .sendAckVector seqnum acknum options =>
      match k.ackv.sendAckVector k.hist seqnum acknum options with
      | none => .error ()
      | some r => .ok { k with hist := r.1 }
    | .ackRecv acknum ackv =>
      .ok ⟨(k.ackv.ackRecv k.hist acknum ackv).1, (k.ackv.ackRecv k.hist acknum ackv).2⟩

/-- What each ack has reported, by its number. -/
def reportAck (k : AckKeeper) (c : AckKeeperCall) (_ : AckKeeper)
    (reports : ℕ → ℕ → Option PacketState) : ℕ → ℕ → Option PacketState :=
  match c with
  | .sendAckVector seqnum _ _ => Function.update reports seqnum k.ackv.map
  | _ => reports

def ackReports (junk : ℕ → ℕ → ℕ) :
    Machine (AckKeeper × (ℕ → ℕ → Option PacketState)) AckKeeperCall Unit :=
  (ackKeeper junk).withHistory (fun _ _ => none) reportAck

/-- A packet is newer than what the acks in the history have reported. -/
def AckKeeper.Newer (k : AckKeeper) (seqnum : ℕ) : Prop := ∀ e ∈ k.hist, e.ackNum < seqnum

/-- No late packet is added to an empty vector. -/
def InTime (p : AckKeeper × (ℕ → ℕ → Option PacketState)) : AckKeeperCall → Prop
  | .addPacket seqnum _ => p.1.ackv.size = 0 → p.1.Newer seqnum
  | .addPacketEcn seqnum _ _ => p.1.ackv.size = 0 → p.1.Newer seqnum
  | _ => True

namespace AckVector

/-! ## A packet -/

/-- What adding a packet does to a vector. States that are known are only combined with the new
one. -/
structure Adds (v w : AckVector) (q : ℕ) (s : PacketState) : Prop where
  valid : ∃ items, w.Valid items
  maxSize : v.maxSize ≤ w.maxSize
  ackvCons : w.ackvCons = v.ackvCons
  seqHead : v.size ≠ 0 → v.seqHead ≤ w.seqHead
  seqHead_first : v.size = 0 → w.seqHead = q
  map : ∀ p, w.map p = v.map p ∨
    (∃ curr, v.map p = some curr ∧ w.map p = some (v.ackvCons curr s)) ∨
    ((v.size ≠ 0 → v.seqHead < p) ∧ (v.size = 0 → p = q) ∧
      (w.map p = some s ∨ w.map p = some .notRecv))

/-- In a vector that is not empty, only packets that are newer than its head become known. -/
theorem Adds.of_known (hsize : v.size ≠ 0) (hw : ∃ items, w.Valid items)
    (hmax : v.maxSize ≤ w.maxSize) (hcons : w.ackvCons = v.ackvCons) (hhead : v.seqHead ≤ w.seqHead)
    (hmap : ∀ p, w.map p = v.map p ∨
      (∃ curr, v.map p = some curr ∧ w.map p = some (v.ackvCons curr s)) ∨
      (v.seqHead < p ∧ (w.map p = some s ∨ w.map p = some .notRecv))) : Adds v w q s where
  valid := hw
  maxSize := hmax
  ackvCons := hcons
  seqHead _ := hhead
  seqHead_first hz := absurd hz hsize
  map p := by
    rcases hmap p with hsame | hknown | ⟨hlt, hnew⟩
    · exact .inl hsame
    · exact .inr (.inl hknown)
    · exact .inr (.inr ⟨fun _ => hlt, fun hz => absurd hz hsize, hnew⟩)

namespace Valid

theorem withEne (h : v.Valid items) (ene : ℕ) : ({ v with ene := ene } : AckVector).Valid items :=
  ⟨⟨h.holds.max_le, h.holds.head_lt, h.holds.size, h.holds.fits, h.holds.window, h.holds.tail,
    h.holds.byte⟩, h.seqHead_lt, h.span⟩

/-- A packet that is not added leaves all states as they are. -/
theorem adds_same (h : v.Valid items) (hsize : v.size ≠ 0) (hmax : v.maxSize ≤ w.maxSize)
    (hw : w.Valid items) (hs : SameSeqs v w) : Adds v w q s := by
  apply Adds.of_known hsize ⟨items, hw⟩ hmax hs.ackvCons hs.seqHead.ge
  intro p
  left
  rw [hw.map_eq, h.map_eq, hs.seqHead]

theorem adds_first (h : v.Valid []) (htwo : 2 ≤ v.maxSize) (hq : q < 2 ^ 32) :
    Adds v (v.addPacket g q s).1 q s := by
  have hsize := h.size_eq_zero_iff.mpr rfl
  have hgrown := (addPacketFrom_grown (g := g) (q := q) (s := s) (n := doublings)
    h.holds.max_le).le
  obtain ⟨w, hw, hv, hs, -, hcons⟩ := h.addFirst (g := g) (s := s) (n := doublings) htwo hq
  have hmap := hv.map_first hs
  rw [hw] at hgrown
  rw [AckVector.addPacket, hw]
  constructor
  case valid => exact ⟨_, hv⟩
  case maxSize => exact hgrown
  case ackvCons => exact hcons
  case seqHead => exact fun hno => absurd hsize hno
  case seqHead_first => exact fun _ => hs
  case map =>
    intro p
    dsimp only
    rw [hmap, h.map_nil]
    rcases eq_or_ne p q with rfl | hp
    · refine .inr (.inr ⟨fun hno => absurd hsize hno, fun _ => rfl, .inl ?_⟩)
      exact Function.update_self ..
    · exact .inl (Function.update_of_ne hp _ _)

theorem adds (h : v.Valid items) (htwo : 2 ≤ v.maxSize) (hq : q < 2 ^ 32)
    (hwrap : ¬ v.Wrapped q) : Adds v (v.addPacket g q s).1 q s := by
  have hgrown : v.maxSize ≤ (v.addPacket g q s).1.maxSize :=
    (addPacketFrom_grown (n := doublings) h.holds.max_le).le
  rcases eq_or_ne items [] with rfl | hne
  · exact h.adds_first htwo hq
  have hsize := h.size_eq_zero_iff.not.mpr hne
  rcases lt_or_ge v.seqHead q with hlt | hle
  · rcases h.addNewer (g := g) (s := s) hne hlt hq h.doublings_suffice with
      ⟨-, its, hm, he⟩ | ⟨-, hw, hs, -⟩
    · have hmap := h.map_push hlt hm he
      have hhead : v.seqHead ≤ (v.addPacket g q s).1.seqHead := hlt.le.trans hm.seqHead.ge
      apply Adds.of_known hsize ⟨its, hm.valid⟩ hgrown hm.ackvCons hhead
      intro p
      rw [hmap]
      dsimp only
      split_ifs with hp hgap
      · exact .inr (.inr ⟨hp ▸ hlt, .inl rfl⟩)
      · exact .inr (.inr ⟨hgap.1, .inr rfl⟩)
      · exact .inl rfl
    · exact h.adds_same hsize hgrown hw hs
  · cases hcurr : v.map q with
    | none =>
      rcases h.addPacket_of_none (g := g) (s := s) hne hle hwrap hcurr with
        ⟨-, hno⟩ | ⟨-, hw, hs, -⟩
      · exact hno.elim
      · exact h.adds_same hsize hgrown hw hs
    | some curr =>
      rcases h.addPacket_of_some (g := g) (s := s) hne hcurr with
        ⟨-, its, hm, he⟩ | ⟨-, hw, hs, -⟩
      · have hmap := h.map_set (by rw [hcurr]; rfl) hm he
        apply Adds.of_known hsize ⟨its, hm.valid⟩ hgrown hm.ackvCons hm.seqHead.ge
        intro p
        rw [hmap]
        rcases eq_or_ne p q with rfl | hp
        · exact .inr (.inl ⟨curr, hcurr, Function.update_self ..⟩)
        · exact .inl (Function.update_of_ne hp _ _)
      · exact h.adds_same hsize hgrown hw hs

end Valid

theorem removePackets_ackvCons : (v.removePackets q).ackvCons = v.ackvCons := by
  unfold removePackets
  split_ifs
  · rfl
  · rfl
  · cases v.findSeqNum q with
    | none => rfl
    | some p =>
      dsimp only
      split_ifs <;> rfl

/-- States that are known do not change, unless the packet had not been received. -/
theorem newAckvCons_known {curr : PacketState} (hcurr : curr ≠ .reserved) (hs : s ≠ .reserved) :
    newAckvCons curr s ≠ .reserved ∧ (newAckvCons curr s = curr ∨ curr = .notRecv) := by
  cases curr <;> cases s <;> simp_all [newAckvCons]

/-! ## The history -/

theorem addToAckHistory_cons {seqnum : ℕ} {hist' : List AckHistEntry}
    (h : v.addToAckHistory hist seqnum = some hist') :
    hist' = ⟨seqnum, v.seqHead, v.ene⟩ :: hist ∧ ∀ e ∈ hist.head?, e.seqSent < seqnum := by
  have hlast := addToAckHistory_eq_some.mp ⟨hist', h⟩
  refine ⟨?_, fun e he => (hlast e he).1⟩
  unfold addToAckHistory at h
  cases hist with
  | nil => exact (Option.some.inj h).symm
  | cons e hist =>
    dsimp only [List.head?_cons] at h
    split_ifs at h
    exact (Option.some.inj h).symm

theorem ackRecv_cases (v : AckVector) (hist : List AckHistEntry) (acknum : ℕ)
    (ackv : Option AckVector) :
    v.ackRecv hist acknum ackv = (v, hist) ∨
      ∃ e ∈ hist, acks acknum ackv e = true ∧
        (v.ackRecv hist acknum ackv).1 =
          ({ v with ene := v.ene ^^^ e.ene } : AckVector).removePackets e.ackNum ∧
        (v.ackRecv hist acknum ackv).2 = (hist.takeWhile fun f => !acks acknum ackv f).map
          fun f => { f with ene := f.ene ^^^ e.ene } := by
  unfold ackRecv
  cases hf : hist.find? (acks acknum ackv) with
  | none => exact .inl rfl
  | some e => exact .inr ⟨e, List.mem_of_find?_eq_some hf, List.find?_some hf, rfl, rfl⟩

end AckVector

open AckVector

/-- What is known of the packets up to an ack of the history has been reported by it. -/
structure Reported (p : AckKeeper × (ℕ → ℕ → Option PacketState)) : Prop where
  valid : ∃ items, p.1.ackv.Valid items
  two_le : 2 ≤ p.1.ackv.maxSize
  ackvCons : p.1.ackv.ackvCons = newAckvCons
  unreserved : ∀ q, p.1.ackv.map q ≠ some .reserved
  sorted : p.1.hist.Pairwise fun e f => f.seqSent < e.seqSent
  covered : ∀ e ∈ p.1.hist, e.ackNum ≤ p.1.ackv.seqHead
  reported : ∀ e ∈ p.1.hist, ∀ q ≤ e.ackNum, ∀ x, p.1.ackv.map q = some x →
    ∃ y, p.2 e.seqSent q = some y ∧ (y = x ∨ y = .notRecv)

namespace Reported

variable {k : AckKeeper} {reports : ℕ → ℕ → Option PacketState}

theorem adds (h : Reported (k, reports)) (hin : k.ackv.size = 0 → k.Newer q)
    (hs : s ≠ .reserved) (ha : Adds k.ackv w q s) : Reported ({ k with ackv := w }, reports) := by
  have hknown : ∀ p curr, k.ackv.map p = some curr → k.ackv.ackvCons curr s ≠ .reserved ∧
      (k.ackv.ackvCons curr s = curr ∨ curr = .notRecv) := by
    intro p curr hcurr
    rw [h.ackvCons]
    apply newAckvCons_known _ hs
    rintro rfl
    exact h.unreserved p hcurr
  constructor
  case valid => exact ha.valid
  case two_le => exact h.two_le.trans ha.maxSize
  case ackvCons => exact ha.ackvCons.trans h.ackvCons
  case unreserved =>
    intro p hp
    rcases ha.map p with he | ⟨curr, hcurr, he⟩ | ⟨-, -, he | he⟩
    · exact h.unreserved p (he.symm.trans hp)
    · exact (hknown p curr hcurr).1 (Option.some.inj (he.symm.trans hp))
    · exact hs (Option.some.inj (he.symm.trans hp))
    · cases he.symm.trans hp
  case sorted => exact h.sorted
  case covered =>
    intro e he
    rcases eq_or_ne k.ackv.size 0 with hz | hz
    · exact (hin hz e he).le.trans (ha.seqHead_first hz).ge
    · exact (h.covered e he).trans (ha.seqHead hz)
  case reported =>
    intro e he p hp x hx
    rcases ha.map p with hsame | ⟨curr, hcurr, hnew⟩ | ⟨hlt, hfirst, -⟩
    · exact h.reported e he p hp x (hsame.symm.trans hx)
    · obtain ⟨y, hy, hyx⟩ := h.reported e he p hp curr hcurr
      obtain rfl := Option.some.inj (hnew.symm.trans hx)
      refine ⟨y, hy, ?_⟩
      rcases (hknown p curr hcurr).2 with hkeep | rfl
      · rw [hkeep]
        exact hyx
      · exact .inr (hyx.elim id id)
    · exfalso
      rcases eq_or_ne k.ackv.size 0 with hz | hz
      · have hnew := hin hz e he
        have hpq := hfirst hz
        omega
      · have hhead := h.covered e he
        have hpast := hlt hz
        dsimp only at hhead
        omega

theorem withEne (h : Reported (k, reports)) (ene : ℕ) :
    Reported ({ k with ackv := { k.ackv with ene := ene } }, reports) := by
  obtain ⟨items, hv⟩ := h.valid
  exact ⟨⟨items, hv.withEne ene⟩, h.two_le, h.ackvCons, h.unreserved, h.sorted, h.covered,
    h.reported⟩

/-- A new ack reports all that is known. -/
theorem send {seqnum : ℕ} {hist' : List AckHistEntry} (h : Reported (k, reports))
    (hadd : k.ackv.addToAckHistory k.hist seqnum = some hist') :
    Reported ({ k with hist := hist' }, Function.update reports seqnum k.ackv.map) := by
  obtain ⟨rfl, hlast⟩ := addToAckHistory_cons hadd
  have hsorted := h.sorted
  have holder : ∀ e ∈ k.hist, e.seqSent < seqnum := by
    obtain ⟨v, hist⟩ := k
    cases hist with
    | nil =>
      rintro e (_ | _)
    | cons f hist =>
      have hf := hlast f rfl
      rintro e (_ | ⟨_, he⟩)
      · exact hf
      · exact ((List.pairwise_cons.mp hsorted).1 e he).trans hf
  constructor
  case valid => exact h.valid
  case two_le => exact h.two_le
  case ackvCons => exact h.ackvCons
  case unreserved => exact h.unreserved
  case sorted => exact List.pairwise_cons.mpr ⟨holder, h.sorted⟩
  case covered =>
    rintro e (_ | ⟨_, he⟩)
    · exact le_rfl
    · exact h.covered e he
  case reported =>
    rintro e (_ | ⟨_, he⟩) q hq x hx
    · exact ⟨x, (congrFun (Function.update_self ..) q).trans hx, .inl rfl⟩
    · have hne : e.seqSent ≠ seqnum := (holder e he).ne
      obtain ⟨y, hy, hyx⟩ := h.reported e he q hq x hx
      exact ⟨y, (congrFun (Function.update_of_ne hne _ _) q).trans hy, hyx⟩

/-- Clearing states keeps what is known of the other packets. -/
theorem recv (h : Reported (k, reports)) (acknum : ℕ) (ackv : Option AckVector) :
    Reported (⟨(k.ackv.ackRecv k.hist acknum ackv).1, (k.ackv.ackRecv k.hist acknum ackv).2⟩,
      reports) := by
  rcases ackRecv_cases k.ackv k.hist acknum ackv with he | ⟨e, -, -, hv, hhist⟩
  · rw [he]
    exact h
  · obtain ⟨items, hvalid⟩ := h.valid
    have hene := hvalid.withEne (k.ackv.ene ^^^ e.ene)
    obtain ⟨its, hw, hhead, -⟩ := hene.removePackets e.ackNum
    have hmap : ∀ q x, (({ k.ackv with ene := k.ackv.ene ^^^ e.ene } : AckVector).removePackets
        e.ackNum).map q = some x → k.ackv.map q = some x := by
      intro q x hx
      rw [hene.map_removePackets] at hx
      split_ifs at hx
      exact hx
    have hmem : ∀ f ∈ (k.hist.takeWhile fun f => !acks acknum ackv f).map
        (fun f => ({ f with ene := f.ene ^^^ e.ene } : AckHistEntry)),
        ∃ f' ∈ k.hist, f'.seqSent = f.seqSent ∧ f'.ackNum = f.ackNum := by
      intro f hf
      obtain ⟨f', hf', rfl⟩ := List.mem_map.mp hf
      exact ⟨f', (List.takeWhile_sublist _).subset hf', rfl, rfl⟩
    rw [hv, hhist]
    constructor
    case valid => exact ⟨its, hw⟩
    case two_le =>
      dsimp only
      rw [removePackets_maxSize]
      exact h.two_le
    case ackvCons => exact removePackets_ackvCons.trans h.ackvCons
    case unreserved => exact fun q hq => h.unreserved q (hmap q _ hq)
    case sorted =>
      apply List.pairwise_map.mpr
      exact h.sorted.sublist (List.takeWhile_sublist _)
    case covered =>
      intro f hf
      obtain ⟨f', hf', -, hnum⟩ := hmem f hf
      exact hnum ▸ (h.covered f' hf').trans hhead.ge
    case reported =>
      intro f hf q hq x hx
      obtain ⟨f', hf', hseq, hnum⟩ := hmem f hf
      rw [← hseq]
      exact h.reported f' hf' q (hq.trans hnum.ge) x (hmap q x hx)

end Reported

theorem ackReports.invariant (junk : ℕ → ℕ → ℕ) :
    ((ackReports junk).restrict InTime).Invariant Reported where
  init := by
    rintro ⟨k, reports⟩ ⟨⟨initialSize, hlo, hhi, rfl⟩, rfl⟩
    have hv : (AckVector.new junk initialSize).Valid [] := .init (by omega) hhi
    refine ⟨⟨[], hv⟩, hlo, rfl, ?_, .nil, ?_, ?_⟩
    · intro q hq
      rw [hv.map_nil] at hq
      cases hq
    · rintro e (_ | _)
    · rintro e (_ | _)
  step := by
    rintro ⟨k, reports⟩ c ⟨k', reports'⟩ h ⟨he, hin⟩ hs
    obtain ⟨hstep, hrecord⟩ := (Machine.withHistory_step_iff fun _ _ => none).mp hs
    obtain ⟨items, hv⟩ := h.valid
    dsimp only at hstep hrecord
    subst hrecord
    cases c with
    | addPacket q s =>
      obtain ⟨⟨hq, hwrap⟩, hres⟩ := he
      obtain rfl := Except.ok.inj hstep
      exact h.adds hin hres (hv.adds h.two_le hq hwrap)
    | addPacketEcn q ecn addNonce =>
      obtain ⟨hq, hwrap⟩ := he
      obtain rfl := Except.ok.inj hstep
      have hres : ecn.state ≠ .reserved := by cases ecn <;> decide
      have hadds := h.adds hin hres (hv.adds (g := junk) h.two_le hq hwrap)
      unfold AckVector.addPacketEcn
      dsimp only
      split_ifs
      · exact hadds.withEne _
      · exact hadds
    | sendAckVector seqnum acknum options =>
      unfold ackKeeper at hstep
      dsimp only at hstep
      cases hsend : k.ackv.sendAckVector k.hist seqnum acknum options with
      | none =>
        rw [hsend] at hstep
        cases hstep
      | some r =>
        rw [hsend] at hstep
        obtain rfl := Except.ok.inj hstep
        exact h.send (sendAckVector_eq_some.mp hsend).2.2.1
    | ackRecv acknum ackv =>
      obtain rfl := Except.ok.inj hstep
      exact h.recv acknum ackv

/-- A late packet that is added to an empty vector is cleared, and no ack of the history has
reported it. -/
theorem ackReports_late : ∃ (k : AckKeeper) (reports : ℕ → ℕ → Option PacketState),
    (ackReports fun _ _ => 0).Reachable (k, reports) ∧ k.ackv.map 3 = some .recv ∧
      (k.ackv.ackRecv k.hist 8 none).1.map 3 = none ∧
      ∀ e ∈ k.hist, reports e.seqSent 3 = none := by
  have h₀ : (ackReports fun _ _ => 0).Reachable (⟨.new (fun _ _ => 0) 2, []⟩, fun _ _ => none) :=
    .init ⟨⟨2, by decide, by decide, rfl⟩, rfl⟩
  have h₁ := Machine.Reachable.step (x := AckKeeperCall.addPacket 10 .recv) h₀
    ⟨⟨by decide, fun h => h.1 rfl⟩, by decide⟩ rfl
  have h₂ := Machine.Reachable.step (x := AckKeeperCall.sendAckVector 7 10 (.new (fun _ => 0) 255))
    h₁ trivial rfl
  have h₃ := Machine.Reachable.step (x := AckKeeperCall.sendAckVector 8 10 (.new (fun _ => 0) 255))
    h₂ trivial rfl
  have h₄ := Machine.Reachable.step (x := AckKeeperCall.ackRecv 7 none) h₃ trivial rfl
  have h₅ := Machine.Reachable.step (x := AckKeeperCall.addPacket 3 .recv) h₄
    ⟨⟨by decide, fun h => h.1 rfl⟩, by decide⟩ rfl
  refine ⟨_, _, h₅, ?_, ?_, ?_⟩
  all_goals decide +kernel

end Ns2XPass
